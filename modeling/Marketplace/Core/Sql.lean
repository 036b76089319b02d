import Marketplace.Core.Rows
import Mathlib.Data.Int.Notation

/-!
# Core.Sql — statements over row slots

The two kinds of statement that wait, and what they leave behind.

* `Table.updateWhere`: `UPDATE … WHERE key AND cond RETURNING`. A row that does not
  satisfy the condition is passed over at once; one that does is taken if nobody else
  holds it, and waited for otherwise. When the holder is through, the condition is
  looked at again on the version then committed;
* `Table.insertNew`: `INSERT … ON CONFLICT DO NOTHING`. An uncommitted row of somebody
  else is waited for.

`Table.All` is a CHECK constraint: it holds of every version, committed or not.
-/

namespace Core

universe u v w

/-- The ranges of `integer` and `bigint`. -/
def Int4 (n : ℤ) : Prop := -2147483648 ≤ n ∧ n ≤ 2147483647
def Int8 (n : ℤ) : Prop := -9223372036854775808 ≤ n ∧ n ≤ 9223372036854775807

instance (n : ℤ) : Decidable (Int4 n) := inferInstanceAs (Decidable (_ ∧ _))
instance (n : ℤ) : Decidable (Int8 n) := inferInstanceAs (Decidable (_ ∧ _))

namespace Table

variable {ι : Type u} {K : Type v} {V : Type w} [DecidableEq ι] [DecidableEq K]

/-- The table after the UPDATE and the new version of the row, if there was one;
`none` while the statement waits. -/
def updateWhere (i : ι) (k : K) (cond : V → Bool) (f : V → V) (T : Table ι K V) :
    Option (Table ι K V × Option V) :=
  match (T k).view i with
  | none => some (T, none)
  | some v =>
      if cond v then
        if (T k).Free i then some (T.put i k (some (f v)), some (f v)) else none
      else some (T, none)

/-- The table after the INSERT and whether the row went in; `none` while it waits. -/
def insertNew (i : ι) (k : K) (v : V) (T : Table ι K V) : Option (Table ι K V × Bool) :=
  if (T k).Free i then
    if ((T k).view i).isSome then some (T, false) else some (T.put i k (some v), true)
  else none

variable {i j : ι} {k : K} {cond : V → Bool} {f : V → V} {T T' : Table ι K V} {v : V}
  {r : Option V} {b : Bool}

/-- What a conditional UPDATE can do: nothing, because no visible row meets the condition, or
write the one row it found free. -/
theorem updateWhere_cases (h : T.updateWhere i k cond f = some (T', r)) :
    (T' = T ∧ r = none ∧ ∀ v, (T k).view i = some v → cond v = false) ∨
    ∃ v, (T k).view i = some v ∧ cond v = true ∧ (T k).Free i ∧ r = some (f v) ∧
      T' = T.put i k (some (f v)) := by
  unfold updateWhere at h
  split at h
  · next hv =>
      cases h
      refine Or.inl ⟨rfl, rfl, ?_⟩
      intro v hv'
      rw [hv] at hv'
      cases hv'
  · next v hv =>
      split at h
      · next hc =>
          split at h
          · next hf =>
              cases h
              exact Or.inr ⟨v, hv, hc, hf, rfl, rfl⟩
          · cases h
      · next hc =>
          cases h
          refine Or.inl ⟨rfl, rfl, ?_⟩
          intro v' hv'
          rw [hv] at hv'
          cases hv'
          simpa using hc

/-- What INSERT ... ON CONFLICT DO NOTHING can do once the row is free: leave a key that is there,
or write one that is not. -/
theorem insertNew_cases (h : T.insertNew i k v = some (T', b)) :
    (T k).Free i ∧ ((T' = T ∧ b = false ∧ ((T k).view i).isSome) ∨
      (T k).view i = none ∧ b = true ∧ T' = T.put i k (some v)) := by
  unfold insertNew at h
  split at h
  · next hf =>
      refine ⟨hf, ?_⟩
      split at h
      · next hv =>
          cases h
          exact Or.inl ⟨rfl, rfl, hv⟩
      · next hv =>
          cases h
          exact Or.inr ⟨by simpa using hv, rfl, rfl⟩
  · cases h

/-- Every version of every row satisfies `Q`. -/
def All (Q : K → V → Prop) (T : Table ι K V) : Prop :=
  ∀ k, (∀ v, (T k).base = some v → Q k v) ∧ ∀ j v, (T k).lock = some (j, some v) → Q k v

variable {Q : K → V → Prop}

omit [DecidableEq K] in
/-- What is true of all versions of all rows is true of the row that a transaction sees. -/
theorem All.view (h : All Q T) (hv : (T k).view i = some v) : Q k v := by
  by_cases hh : (T k).Held i
  · have hl := hh.lock_eq
    rw [hv] at hl
    exact (h k).2 i v hl
  · rw [Slot.view_of_not_held hh] at hv
    exact (h k).1 v hv

omit [DecidableEq ι] in
/-- A write keeps a property of all rows if the new version has it. -/
theorem All.put {x : Option V} (h : All Q T) (hx : ∀ v, x = some v → Q k v) :
    All Q (T.put i k x) := by
  intro k'
  rw [put_base]
  refine ⟨(h k').1, ?_⟩
  rw [put_apply]
  split
  · next hk =>
      subst hk
      intro j v hl
      simp only [Slot.put_lock, Option.some.injEq, Prod.mk.injEq] at hl
      exact hx v hl.2
  · exact (h k').2

section

omit [DecidableEq K]

/-- COMMIT brings no version in that was not there before. -/
theorem All.commit (h : All Q T) : All Q (T.commit i) := by
  intro k
  rw [commit_apply]
  refine ⟨?_, ?_⟩
  · intro v hv
    rw [Slot.commit_base] at hv
    exact h.view hv
  · by_cases hh : (T k).Held i
    · rw [Slot.commit_of_held hh]
      intro j v hl
      simp at hl
    · rw [Slot.commit_of_not_held hh]
      exact (h k).2

/-- ROLLBACK drops versions only. -/
theorem All.rollback (h : All Q T) : All Q (T.rollback i) := by
  intro k
  rw [rollback_apply]
  refine ⟨?_, ?_⟩
  · intro v hv
    rw [Slot.rollback_base] at hv
    exact (h k).1 v hv
  · by_cases hh : (T k).Held i
    · rw [Slot.rollback_of_held hh]
      intro j v hl
      simp at hl
    · rw [Slot.rollback_of_not_held hh]
      exact (h k).2

end

section

omit [DecidableEq ι]

/-- Deleting rows keeps a property of all rows. -/
theorem All.deleteAll {ks : List K} (h : All Q T) : All Q (T.deleteAll i ks) := by
  intro k
  unfold Table.deleteAll
  split
  · refine ⟨(h k).1, ?_⟩
    intro j v hl
    cases hl
  · exact h k

/-- A row is committed at once, or deleted. -/
theorem All.settle {x : Option V} (h : All Q T) (hx : ∀ v, x = some v → Q k v) :
    All Q (Function.update T k (Slot.settled x)) := by
  intro k'
  by_cases hk : k' = k
  · subst hk
    rw [Function.update_self]
    refine ⟨hx, ?_⟩
    intro j v hl
    cases hl
  · rw [Function.update_of_ne hk]
    exact h k'

end

section

omit [DecidableEq ι] [DecidableEq K]

/-- A weaker property of all rows follows from a stronger one. -/
theorem All.imp {Q' : K → V → Prop} (hq : ∀ k v, Q k v → Q' k v) (h : All Q T) : All Q' T := by
  intro k
  refine ⟨?_, ?_⟩
  · intro v hv
    exact hq k v ((h k).1 v hv)
  · intro j v hl
    exact hq k v ((h k).2 j v hl)

end

/-! ## The versions of one transaction -/

/-- The own versions of transaction `i` are those of `own`, exactly: `own k = some f`
says that it holds row `k`, with the version `f` makes of the committed one. -/
def Draft (i : ι) (own : K → Option (Option V → Option V)) (T : Table ι K V) : Prop :=
  ∀ k, ((T k).Held i ↔ (own k).isSome) ∧
    ∀ f, own k = some f → (T k).view i = f (T k).base

variable {own own' : K → Option (Option V → Option V)}

section

omit [DecidableEq K]

/-- What a transaction sees of a row is its own draft applied to the committed version. -/
theorem Draft.view (h : Draft i own T) (k : K) :
    (T k).view i = ((own k).getD id) (T k).base := by
  cases hk : own k with
  | none =>
      have hn : ¬ (T k).Held i := by
        rw [(h k).1, hk]
        simp
      rw [Slot.view_of_not_held hn]
      rfl
  | some f => exact (h k).2 f hk

/-- A transaction that holds no row has drafted nothing. -/
theorem Draft.of_free (h : ∀ k, ¬ (T k).Held i) : Draft i (fun _ => none) T := by
  intro k
  refine ⟨⟨fun hk => absurd hk (h k), fun hk => by cases hk⟩, ?_⟩
  intro f hf
  cases hf

/-- Nobody else can touch what `i` has drafted. -/
theorem Draft.kept (hk : Kept i T T') (h : Draft i own T) : Draft i own T' := by
  intro k
  refine ⟨hk.held_iff.trans (h k).1, ?_⟩
  intro f hf
  have hheld : (T k).Held i := (h k).1.mpr (by rw [hf]; rfl)
  rw [hk.held k hheld]
  exact (h k).2 f hf

end

/-- A write extends the draft by the row written, if the new version is a function of the
committed one. -/
theorem Draft.put {x : Option V} {f : Option V → Option V} (h : Draft i own T)
    (hx : x = f (T k).base) : Draft i (Function.update own k (some f)) (T.put i k x) := by
  intro k'
  by_cases hk : k' = k
  · subst hk
    rw [put_self, Function.update_self]
    refine ⟨by simp, ?_⟩
    intro g hg
    cases hg
    rw [Slot.view_put, Slot.put_base, hx]
  · rw [put_ne hk, Function.update_of_ne hk]
    exact h k'

section

omit [DecidableEq K]

/-- COMMIT makes the draft the committed content. -/
theorem Draft.commit_base (h : Draft i own T) (k : K) :
    (T.commit i k).base = ((own k).getD id) (T k).base := by
  rw [commit_apply, Slot.commit_base, h.view k]

theorem draft_commit : Draft i (fun _ => none) (T.commit i) :=
  Draft.of_free fun _ => Slot.not_held_commit

theorem draft_rollback : Draft i (fun _ => none) (T.rollback i) :=
  Draft.of_free fun _ => Slot.not_held_rollback

end

/-! ## Writes listed by key -/

/-- What transaction `i` has written, as a list: it holds the rows of the list and no
others, and each entry is the change it has made to its row, with `id` for a row that is
only locked. -/
structure Writes (i : ι) (W : List (K × (V → V))) (T : Table ι K V) : Prop where
  held : ∀ k, (T k).Held i ↔ k ∈ W.map Prod.fst
  view : ∀ p ∈ W, (T p.1).view i = (T p.1).base.map p.2

variable {W W' A B : List (K × (V → V))} {g : V → V}

section

omit [DecidableEq K]

/-- Only which keys are listed matters, not their order or how often they are listed. -/
theorem Writes.of_mem (h : Writes i W T) (hmem : ∀ p, p ∈ W' ↔ p ∈ W) : Writes i W' T where
  held k := by
    rw [h.held k]
    simp only [List.mem_map, hmem]
  view p hp := h.view p ((hmem p).mp hp)

/-- A transaction that holds no row has written nothing. -/
theorem Writes.nil (h : ∀ k, ¬ (T k).Held i) : Writes i [] T where
  held k := by
    constructor
    · intro hk
      exact absurd hk (h k)
    · intro hk
      cases hk
  view p hp := by cases hp

/-- What the others do leaves the list of a transaction's writes alone. -/
theorem Writes.kept (hk : Kept i T T') (h : Writes i W T) : Writes i W T' where
  held k := hk.held_iff.trans (h.held k)
  view p hp := by
    have hheld : (T p.1).Held i := (h.held p.1).mpr (List.mem_map_of_mem hp)
    rw [hk.held p.1 hheld]
    exact h.view p hp

end

/-- Write one more row. -/
theorem Writes.concat (h : Writes i W T) (hk : k ∉ W.map Prod.fst) {x : Option V}
    (hx : x = (T k).base.map g) : Writes i (W ++ [(k, g)]) (T.put i k x) where
  held k' := by
    rw [held_put_iff, List.map_append, List.mem_append]
    by_cases heq : k' = k
    · simp [heq]
    · rw [if_neg heq, h.held k']
      simp [heq]
  view p hp := by
    rw [put_base]
    rcases List.mem_append.mp hp with hin | hin
    · have hne : p.1 ≠ k := by
        rintro rfl
        exact hk (List.mem_map_of_mem hin)
      rw [put_ne hne]
      exact h.view p hin
    · rw [List.mem_singleton.mp hin, put_self, Slot.view_put, hx]

/-- Write a row of the list again. -/
theorem Writes.change (h : Writes i (A ++ (k, g) :: B) T)
    (hk : k ∉ (A ++ B).map Prod.fst) {x : Option V} {g' : V → V} (hx : x = (T k).base.map g') :
    Writes i (A ++ (k, g') :: B) (T.put i k x) where
  held k' := by
    rw [held_put_iff]
    by_cases heq : k' = k
    · simp [heq]
    · rw [if_neg heq, h.held k']
      simp [heq]
  view p hp := by
    rw [put_base]
    have hcases : p = (k, g') ∨ p ∈ A ++ B := by
      simp only [List.mem_append, List.mem_cons] at hp ⊢
      rcases hp with hp | rfl | hp
      · exact Or.inr (Or.inl hp)
      · exact Or.inl rfl
      · exact Or.inr (Or.inr hp)
    rcases hcases with rfl | hin
    · rw [put_self, Slot.view_put, hx]
    · have hne : p.1 ≠ k := by
        rintro rfl
        exact hk (List.mem_map_of_mem hin)
      rw [put_ne hne]
      refine h.view p ?_
      simp only [List.mem_append, List.mem_cons] at hin ⊢
      rcases hin with hin | hin
      · exact Or.inl hin
      · exact Or.inr (Or.inr hin)

section

omit [DecidableEq K]

/-- COMMIT of a written row. -/
theorem Writes.commit_written (h : Writes i W T) {p : K × (V → V)} (hp : p ∈ W) :
    (T.commit i p.1).base = (T p.1).base.map p.2 := by
  rw [commit_apply, Slot.commit_base, h.view p hp]

/-- COMMIT leaves the other rows alone. -/
theorem Writes.commit_other (h : Writes i W T) (hk : k ∉ W.map Prod.fst) :
    T.commit i k = T k := by
  rw [commit_apply, Slot.commit_of_not_held]
  rw [h.held k]
  exact hk

end

/-! ## Versions in order -/

/-- Every own version of a row that is committed is `R`-later than the committed one. -/
def Ordered (R : V → V → Prop) (T : Table ι K V) : Prop :=
  ∀ k j r b, (T k).lock = some (j, some r) → (T k).base = some b → R b r

namespace Ordered

variable {R : V → V → Prop} {r b : V}

omit [DecidableEq K] in
/-- A row as its writer sees it is related to the committed version. -/
theorem view (hrefl : ∀ v, R v v) (h : Ordered R T) (hv : (T k).view i = some r)
    (hb : (T k).base = some b) : R b r := by
  by_cases hh : (T k).Held i
  · have hl := hh.lock_eq
    rw [hv] at hl
    exact h k i r b hl hb
  · rw [Slot.view_of_not_held hh, hb] at hv
    cases hv
    exact hrefl _

section

omit [DecidableEq ι]

/-- Versions stay in order if the new version is related to the committed one. -/
theorem put {x : Option V} (h : Ordered R T)
    (hx : ∀ r b, x = some r → (T k).base = some b → R b r) : Ordered R (T.put i k x) := by
  intro k' j r b hl hb
  rw [put_base] at hb
  by_cases hk : k' = k
  · subst hk
    rw [put_self, Slot.put_lock] at hl
    cases hl
    exact hx r b rfl hb
  · rw [put_ne hk] at hl
    exact h k' j r b hl hb

/-- A deleted row has no draft to compare, so versions stay in order. -/
theorem deleteAll {keys : List K} (h : Ordered R T) : Ordered R (T.deleteAll i keys) := by
  intro k' j r b hl hb
  unfold Table.deleteAll at hl hb
  split at hl
  · cases hl
  · next hk =>
      rw [if_neg hk] at hb
      exact h k' j r b hl hb

end

section

omit [DecidableEq K]

/-- A COMMIT makes the drafts the committed versions; the remaining ones were in order before. -/
theorem commit (h : Ordered R T) : Ordered R (T.commit i) := by
  intro k j r b hl hb
  rw [commit_apply] at hl hb
  by_cases hh : (T k).Held i
  · rw [Slot.commit_of_held hh] at hl
    cases hl
  · rw [Slot.commit_of_not_held hh] at hl hb
    exact h k j r b hl hb

/-- A ROLLBACK leaves the committed versions and fewer drafts. -/
theorem rollback (h : Ordered R T) : Ordered R (T.rollback i) := by
  intro k j r b hl hb
  rw [rollback_apply] at hl hb
  by_cases hh : (T k).Held i
  · rw [Slot.rollback_of_held hh] at hl
    cases hl
  · rw [Slot.rollback_of_not_held hh] at hl hb
    exact h k j r b hl hb

end

omit [DecidableEq ι] [DecidableEq K] in
/-- Without locks there are no drafts to compare. -/
theorem of_unlocked (h : ∀ k, (T k).lock = none) : Ordered R T := by
  intro k j r b hl
  rw [h k] at hl
  cases hl

end Ordered

end Table

end Core

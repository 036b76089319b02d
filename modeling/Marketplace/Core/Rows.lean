import Mathlib.Logic.Function.Basic
import Mathlib.Data.List.Basic

/-!
# Core.Rows — row versions and row locks at READ COMMITTED

One slot of a table under row locking. At any moment a row has one committed
version and, while some transaction holds its lock, that transaction's own
version: an update, an insert that nobody else sees yet, a delete, or the
committed version itself when the row is only locked. Nobody else can hold a
version, so committing or rolling back a transaction is a map over the slots.

* a statement that needs the lock of `k` waits until `Free i`;
* a plain read sees `view i`, the own version or else the committed one, never a
  version of somebody else;
* `Kept i T T'` says what everybody else leaves alone, the relation that the
  local facts of transaction `i` have to survive (`Kept.put`, `Kept.commit`,
  `Kept.rollback`).
-/

namespace Core

universe u v w

/-- A row: its committed version (`none` for no row) and the transaction holding
its lock, with the version that transaction sees. -/
structure Slot (ι : Type u) (V : Type v) where
  base : Option V
  lock : Option (ι × Option V)

namespace Slot

variable {ι : Type u} {V : Type v} [DecidableEq ι]

/-- A committed version that nobody has locked. -/
def settled (v : Option V) : Slot ι V := ⟨v, none⟩

/-- Transaction `i` holds the lock. -/
def Held (i : ι) (c : Slot ι V) : Prop := ∃ v, c.lock = some (i, v)

/-- No transaction other than `i` holds the lock. -/
def Free (i : ι) (c : Slot ι V) : Prop := ∀ j v, c.lock = some (j, v) → j = i

instance (i : ι) (c : Slot ι V) : Decidable (c.Free i) :=
  match h : c.lock with
  | none => isTrue (by intro j v hj; rw [h] at hj; cases hj)
  | some (j, v) =>
      if hj : j = i then isTrue (by intro j' v' h'; rw [h] at h'; cases h'; exact hj)
      else isFalse (fun hf => hj (hf j v h))

instance (i : ι) (c : Slot ι V) : Decidable (c.Held i) :=
  match h : c.lock with
  | none => isFalse (by rintro ⟨v, hv⟩; rw [h] at hv; cases hv)
  | some (j, v) =>
      if hj : j = i then isTrue ⟨v, by rw [h, hj]⟩
      else isFalse (by rintro ⟨v', hv⟩; rw [h] at hv; cases hv; exact hj rfl)

/-- The version transaction `i` sees. -/
def view (i : ι) (c : Slot ι V) : Option V :=
  match c.lock with
  | some (j, v) => if j = i then v else c.base
  | none => c.base

/-- Lock the row and set the own version. -/
def put (i : ι) (v : Option V) (c : Slot ι V) : Slot ι V := ⟨c.base, some (i, v)⟩

def commit (i : ι) (c : Slot ι V) : Slot ι V :=
  match c.lock with
  | some (j, v) => if j = i then settled v else c
  | none => c

def rollback (i : ι) (c : Slot ι V) : Slot ι V :=
  match c.lock with
  | some (j, _) => if j = i then settled c.base else c
  | none => c

variable {i j : ι} {v : Option V} {c : Slot ι V}

section

omit [DecidableEq ι]

@[simp] theorem settled_base : (settled v : Slot ι V).base = v := rfl
@[simp] theorem settled_lock : (settled v : Slot ι V).lock = none := rfl
@[simp] theorem put_base : (c.put i v).base = c.base := rfl
@[simp] theorem put_lock : (c.put i v).lock = some (i, v) := rfl

end
@[simp] theorem view_put : (c.put i v).view i = v := by simp [view]
@[simp] theorem view_settled : (settled v : Slot ι V).view i = v := rfl

section

omit [DecidableEq ι]

theorem held_put : (c.put i v).Held i := ⟨v, rfl⟩

/-- After a write the writer holds the row, and all other locks are as before. -/
@[simp] theorem held_put_iff : (c.put j v).Held i ↔ j = i := by
  simp [Held]

@[simp] theorem not_held_settled : ¬ (settled v : Slot ι V).Held i := by
  simp [Held]

/-- A lock is no obstacle to its own holder. -/
theorem Held.free (h : c.Held i) : c.Free i := by
  obtain ⟨v, hv⟩ := h
  intro j w hj
  rw [hv] at hj
  cases hj
  rfl

theorem Held.unique (hi : c.Held i) (hj : c.Held j) : i = j := by
  obtain ⟨v, hv⟩ := hi
  exact (hj.free i v hv)

/-- A row that one transaction holds is closed to every other. -/
theorem Held.not_free (h : c.Held i) (hne : i ≠ j) : ¬ c.Free j := by
  obtain ⟨v, hv⟩ := h
  intro hf
  exact hne (hf i v hv)

end

/-- Whoever does not hold a row sees its committed version. -/
theorem view_of_not_held (h : ¬ c.Held i) : c.view i = c.base := by
  unfold view
  split
  · next j v hl =>
      have hj : j ≠ i := by
        rintro rfl
        exact h ⟨v, hl⟩
      simp [hj]
  · rfl

theorem Held.lock_eq (h : c.Held i) : c.lock = some (i, c.view i) := by
  obtain ⟨v, hv⟩ := h
  simp [view, hv]

omit [DecidableEq ι] in
/-- A row that is free for a transaction that does not hold it is not locked at all. -/
theorem lock_none_of_free (h : c.Free i) (hn : ¬ c.Held i) : c.lock = none := by
  cases hl : c.lock with
  | none => rfl
  | some p =>
      obtain ⟨j, v⟩ := p
      exact absurd ⟨v, by rw [hl, h j v hl]⟩ hn

theorem commit_of_held (h : c.Held i) : c.commit i = settled (c.view i) := by
  simp [commit, h.lock_eq]

/-- A COMMIT leaves the rows alone that the transaction does not hold. -/
theorem commit_of_not_held (h : ¬ c.Held i) : c.commit i = c := by
  unfold commit
  split
  · next j v hl =>
      have hj : j ≠ i := by
        rintro rfl
        exact h ⟨v, hl⟩
      simp [hj]
  · rfl

theorem rollback_of_held (h : c.Held i) : c.rollback i = settled c.base := by
  simp [rollback, h.lock_eq]

/-- A ROLLBACK leaves the rows alone that the transaction does not hold. -/
theorem rollback_of_not_held (h : ¬ c.Held i) : c.rollback i = c := by
  unfold rollback
  split
  · next j v hl =>
      have hj : j ≠ i := by
        rintro rfl
        exact h ⟨v, hl⟩
      simp [hj]
  · rfl

/-- After a commit the committed version is the one the transaction saw. -/
@[simp] theorem commit_base : (c.commit i).base = c.view i := by
  by_cases h : c.Held i
  · rw [commit_of_held h, settled_base]
  · rw [commit_of_not_held h, view_of_not_held h]

@[simp] theorem rollback_base : (c.rollback i).base = c.base := by
  by_cases h : c.Held i
  · rw [rollback_of_held h, settled_base]
  · rw [rollback_of_not_held h]

@[simp] theorem not_held_commit : ¬ (c.commit i).Held i := by
  by_cases h : c.Held i
  · rw [commit_of_held h]
    exact not_held_settled
  · rwa [commit_of_not_held h]

@[simp] theorem not_held_rollback : ¬ (c.rollback i).Held i := by
  by_cases h : c.Held i
  · rw [rollback_of_held h]
    exact not_held_settled
  · rwa [rollback_of_not_held h]

theorem Held.commit_other (h : c.Held i) (hne : j ≠ i) : c.commit j = c :=
  commit_of_not_held fun hj => hne (hj.unique h)

theorem Held.rollback_other (h : c.Held i) (hne : j ≠ i) : c.rollback j = c :=
  rollback_of_not_held fun hj => hne (hj.unique h)

end Slot

/-- A table: a slot for every possible key. -/
abbrev Table (ι : Type u) (K : Type v) (V : Type w) := K → Slot ι V

namespace Table

variable {ι : Type u} {K : Type v} {V : Type w} [DecidableEq ι] [DecidableEq K]

/-- The committed content, nobody holding anything. -/
def ofBase (f : K → Option V) : Table ι K V := fun k => Slot.settled (f k)

def put (i : ι) (k : K) (v : Option V) (T : Table ι K V) : Table ι K V :=
  Function.update T k ((T k).put i v)

/-- Delete the rows `ks`. -/
def deleteAll (i : ι) (ks : List K) (T : Table ι K V) : Table ι K V :=
  fun k => if k ∈ ks then (T k).put i none else T k

def commit (i : ι) (T : Table ι K V) : Table ι K V := fun k => (T k).commit i

def rollback (i : ι) (T : Table ι K V) : Table ι K V := fun k => (T k).rollback i

variable {i j : ι} {k k' : K} {v : Option V} {T T' T'' : Table ι K V}

omit [DecidableEq ι] [DecidableEq K] in
@[simp] theorem ofBase_apply (f : K → Option V) :
    (ofBase f : Table ι K V) k = Slot.settled (f k) := rfl

section

omit [DecidableEq ι]

@[simp] theorem put_self : (T.put i k v) k = (T k).put i v := by simp [put]
theorem put_ne (h : k' ≠ k) : (T.put i k v) k' = T k' := by simp [put, h]
theorem put_apply : (T.put i k v) k' = if k' = k then (T k).put i v else T k' := by
  simp [put, Function.update_apply]

end

section

omit [DecidableEq K]

@[simp] theorem commit_apply : (T.commit i) k = (T k).commit i := rfl
@[simp] theorem rollback_apply : (T.rollback i) k = (T k).rollback i := rfl

end

section

omit [DecidableEq ι]

@[simp] theorem put_base : ((T.put i k v) k').base = (T k').base := by
  rw [put_apply]
  split
  · next h => rw [h, Slot.put_base]
  · rfl

theorem held_put_iff : ((T.put j k v) k').Held i ↔
    if k' = k then j = i else (T k').Held i := by
  rw [put_apply]
  split
  · simp
  · rfl

end

/-- A writer sees what it has just written, and all other rows as before. -/
theorem view_put_iff : ((T.put i k v) k').view i = if k' = k then v else (T k').view i := by
  rw [put_apply]
  split
  · simp
  · rfl

/-- What the other transactions leave alone: the slots `i` holds, and the fact
that it does not hold the rest. -/
structure Kept (i : ι) (T T' : Table ι K V) : Prop where
  held : ∀ k, (T k).Held i → T' k = T k
  other : ∀ k, ¬ (T k).Held i → ¬ (T' k).Held i

namespace Kept

section

omit [DecidableEq ι] [DecidableEq K]

theorem refl (i : ι) (T : Table ι K V) : Kept i T T := ⟨fun _ _ => rfl, fun _ h => h⟩

/-- Steps of others compose: what each of two leaves to a transaction, both together leave. -/
theorem trans (h₁ : Kept i T T') (h₂ : Kept i T' T'') : Kept i T T'' where
  held k hk := by
    have h : T' k = T k := h₁.held k hk
    rw [h₂.held k (by rw [h]; exact hk), h]
  other k hk := h₂.other k (h₁.other k hk)

end

omit [DecidableEq ι] in
/-- A write of another transaction leaves a transaction its rows, since it may only write free
ones. -/
theorem put (hne : j ≠ i) (hfree : (T k).Free j) : Kept i T (T.put j k v) where
  held k' hk' := by
    by_cases h : k' = k
    · subst h
      exact absurd hfree (hk'.not_free hne.symm)
    · exact put_ne h
  other k' hk' := by
    rw [held_put_iff]
    split
    · exact hne
    · exact hk'

section

omit [DecidableEq K]

/-- A COMMIT of another transaction leaves a transaction its rows. -/
theorem commit (hne : j ≠ i) : Kept i T (T.commit j) where
  held k hk := hk.commit_other hne
  other k hk := by
    by_cases hj : (T k).Held j
    · rw [commit_apply, Slot.commit_of_held hj]
      exact Slot.not_held_settled
    · rwa [commit_apply, Slot.commit_of_not_held hj]

/-- A ROLLBACK of another transaction leaves a transaction its rows. -/
theorem rollback (hne : j ≠ i) : Kept i T (T.rollback j) where
  held k hk := hk.rollback_other hne
  other k hk := by
    by_cases hj : (T k).Held j
    · rw [rollback_apply, Slot.rollback_of_held hj]
      exact Slot.not_held_settled
    · rwa [rollback_apply, Slot.rollback_of_not_held hj]

/-- What others do changes nothing in which rows a transaction holds. -/
theorem held_iff (h : Kept i T T') : (T' k).Held i ↔ (T k).Held i := by
  constructor
  · intro h'
    by_contra hn
    exact h.other k hn h'
  · intro hk
    rwa [h.held k hk]

end

end Kept

/-- Transaction `i` writes: it changes no committed version, and nothing the other
transactions hold or do not hold. -/
structure Own (i : ι) (T T' : Table ι K V) : Prop where
  base : ∀ k, (T' k).base = (T k).base
  kept : ∀ j, j ≠ i → Kept j T T'

namespace Own

section

omit [DecidableEq ι] [DecidableEq K]

theorem refl (i : ι) (T : Table ι K V) : Own i T T := ⟨fun _ => rfl, fun j _ => Kept.refl j T⟩

theorem trans (h₁ : Own i T T') (h₂ : Own i T' T'') : Own i T T'' where
  base k := (h₂.base k).trans (h₁.base k)
  kept j hj := (h₁.kept j hj).trans (h₂.kept j hj)

end

section

omit [DecidableEq ι]

theorem put (hfree : (T k).Free i) : Own i T (T.put i k v) where
  base _ := put_base
  kept _ hj := Kept.put hj.symm hfree

theorem deleteAll {ks : List K} (hfree : ∀ k ∈ ks, (T k).Free i) :
    Own i T (T.deleteAll i ks) where
  base k := by
    unfold Table.deleteAll
    split <;> rfl
  kept j hj :=
    { held := by
        intro k hk
        have hn : k ∉ ks := fun hm => hk.not_free hj (hfree k hm)
        simp [Table.deleteAll, hn]
      other := by
        intro k hk
        unfold Table.deleteAll
        split
        · simpa using hj.symm
        · exact hk }

end

omit [DecidableEq K] in
theorem rollback (i : ι) (T : Table ι K V) : Own i T (T.rollback i) where
  base k := by rw [rollback_apply, Slot.rollback_base]
  kept _ hj := Kept.rollback hj.symm

end Own

/-- What transaction `i` can tell apart: committed versions, which rows it holds,
and its own versions. -/
structure Same (i : ι) (T T' : Table ι K V) : Prop where
  base : ∀ k, (T' k).base = (T k).base
  held : ∀ k, (T' k).Held i ↔ (T k).Held i
  view : ∀ k, (T' k).view i = (T k).view i

section

omit [DecidableEq K]

/-- If moreover no committed version changed, the step left the transaction's whole view alone. -/
theorem Kept.same (h : Kept i T T') (hb : ∀ k, (T' k).base = (T k).base) : Same i T T' where
  base := hb
  held k := h.held_iff
  view k := by
    by_cases hk : (T k).Held i
    · rw [h.held k hk]
    · rw [Slot.view_of_not_held hk, Slot.view_of_not_held (h.other k hk), hb k]

/-- A write of `i` is invisible to everybody else. -/
theorem Own.same (h : Own i T T') (hne : j ≠ i) : Same j T T' :=
  (h.kept j hne).same h.base

end

end Table

end Core

import Marketplace.Auth.Locks
import Marketplace.Core.Waits

/-!
# Auth.Deadlock — refresh and logout can wait in a circle

Two calls that present different used tokens of a family each hold a row that the family UPDATE
of the other still has to take (`revocations_deadlock`). Nothing else can go wrong: in a run in
which no family UPDATE comes to hold a row that another one of the family still has to take
while that one holds a row it has to take itself (`Heeded`), nobody waits in a circle
(`refresh_deadlock_free`).

A call waits on one of four levels: the presented row, the rows of the family, the denylist of
families, the denylist of access tokens. Waiting goes up, or from one family UPDATE to another
of the same family. Among those the argument is by the order in which they began (`Lined`): what
an UPDATE has to take, and is still live, every later one has to take too, so whoever began
between two that compete for a row competes for it as well.
-/

namespace Marketplace.Auth

open Core

/-! ## Waiting -/

/-- A row that a statement may have to wait for. -/
inductive LockRow where
  | token (k : Token)
  | family (F : FamilyId)
  | jti (j : Jti)

namespace LockRow

/-- Call `i` holds the row until its transaction ends. -/
def Held (d : Db) (i : ℕ) : LockRow → Prop
  | .token k => (d.refreshTokens k).Held i
  | .family F => (d.revokedFamilies F).Held i
  | .jti j => (d.accessDenylist j).Held i

/-- Nobody but call `i` holds the row. -/
def Free (d : Db) (i : ℕ) : LockRow → Prop
  | .token k => (d.refreshTokens k).Free i
  | .family F => (d.revokedFamilies F).Free i
  | .jti j => (d.accessDenylist j).Free i

/-- A row that is not free for a call is held by another one. -/
theorem exists_holder {d : Db} {i : ℕ} {r : LockRow} (h : ¬ r.Free d i) :
    ∃ j, i ≠ j ∧ r.Held d j := by
  have hslot : ∀ {V : Type} (c : Slot ℕ V), ¬ c.Free i → ∃ j, i ≠ j ∧ c.Held j := by
    intro V c hc
    unfold Slot.Free at hc
    push Not at hc
    obtain ⟨j, v, hl, hj⟩ := hc
    exact ⟨j, hj.symm, v, hl⟩
  cases r <;> exact hslot _ h

end LockRow

namespace Pc

/-- The rows that the statement a call is at locks, or has still to lock. -/
def Wants : Pc → LockRow → Prop
  | .refreshSelect tok _, r => r = .token tok
  | .revokeRows _ _ _ rest, r => ∃ k ∈ rest, r = .token k
  | .denyFamily _ F _, r => r = .family F
  | .denyJti claims _ _, r => r = .jti claims.jti
  | _, _ => False

/-- The call is at the UPDATE of the family. -/
def Updates (F : FamilyId) : Pc → Prop
  | .revokeRows _ f _ _ => f = F
  | _ => False

/-- The rows that the UPDATE has still to take. -/
def ahead : Pc → List Token
  | .revokeRows _ _ _ rest => rest
  | _ => []

/-- How far a call that waits has come. -/
def level : Pc → ℕ
  | .refreshSelect _ _ => 0
  | .revokeRows _ _ _ _ => 1
  | .denyFamily _ _ _ => 2
  | .denyJti _ _ _ => 3
  | _ => 4

end Pc

/-- Call `i` waits for call `j`, or will before its statement is through: `j` holds a row that
the statement needs. -/
def Waits (s : St) (i j : ℕ) : Prop :=
  i ≠ j ∧ ∃ r, (s.proc i).Wants r ∧ r.Held s.shared j

/-- Nobody waits in a circle, and while a transaction is open, one of the open ones can take its
next statement. -/
def DeadlockFree (s : St) : Prop :=
  (∀ i, ¬ Relation.TransGen (Waits s) i i) ∧
  ((∃ i, (s.proc i).Open) →
    ∃ i, (s.proc i).Open ∧ ∃ a, a ≠ .abort ∧ (stmt i s.shared (s.proc i) a).isSome)

/-- Another UPDATE of the family has row `k` still to take, and holds one of `rest`. -/
def Crosses (s : St) (i : ℕ) (F : FamilyId) (rest : List Token) (k : Token) : Prop :=
  ∃ j, j ≠ i ∧ (s.proc j).Updates F ∧ k ∈ (s.proc j).ahead ∧
    ∃ l ∈ rest, (s.shared.refreshTokens l).Held j

/-- A family UPDATE begins with no row in its hands, and takes none, that crosses another. -/
def Heeded (s : St) : Label → Prop
  | .call i a =>
      match s.proc i, a with
      | .revokeStart _ F _, .run => ∀ k, (s.shared.refreshTokens k).Held i →
          ¬ Crosses s i F (snapshot i s.shared F) k
      | .revokeRows _ F _ rest, .visit k => ((s.shared.refreshTokens k).view i).isSome →
          ¬ Crosses s i F rest k
      | _, _ => True
  | .env _ => True

variable {i j : ℕ} {s : St} {d d' : Db} {pc pc' : Pc} {a : Stmt} {F F' : FamilyId} {k : Token}
  {r : RefreshRow}

/-! ## What every call holds -/

/-- What is known of every reachable state. -/
structure Facts (s : St) : Prop where
  tokens : TokensOk s.shared
  grip : ∀ i, Grip i s.shared (s.proc i)
  denied : ∀ i, Denied i s.shared (s.proc i)

/-- What a statement of call `i` leaves to the others. -/
structure Leaves (i : ℕ) (d d' : Db) : Prop where
  ages : Ages d d'
  kept : ∀ j, j ≠ i → Table.Kept j d.refreshTokens d'.refreshTokens

/-- A statement of one call leaves to the others what is theirs. -/
theorem Facts.leaves (h : Facts s) (hst : stmt i s.shared (s.proc i) a = some (d', pc')) :
    Leaves i s.shared d' := by
  have hdoes := stmt_does hst
  refine ⟨hdoes.ages h.tokens (h.grip i), ?_⟩
  intro j hj
  refine hdoes.keeps (h.tokens.1 _ (Nat.le_refl _)) ?_ (Ne.symm hj)
  intro tok row role at₀ hpc
  have hg := h.grip i
  rw [hpc] at hg
  exact hg.1

/-- Every statement keeps the facts. -/
theorem Facts.stmt_step (h : Facts s) (hst : stmt i s.shared (s.proc i) a = some (d', pc')) :
    Facts ⟨d', Function.update s.proc i pc'⟩ where
  tokens := (stmt_does hst).tokensOk h.tokens (h.grip i)
  grip := by
    have hleaves := h.leaves hst
    refine Procs.forall_update (Q := fun i => Grip i d') ?_ ?_
    · exact (stmt_moves hst).grip h.tokens hleaves.ages (h.grip i)
    · intro j hj
      exact (h.grip j).rely (hleaves.kept j hj) hleaves.ages
  denied := by
    refine Procs.forall_update (Q := fun i => Denied i d') ((stmt_moves hst).denied (h.denied i)) ?_
    intro j hj
    obtain ⟨hf, hjti⟩ := (stmt_moves hst).families hj
    exact (h.denied j).kept hf hjti

/-- At the start nothing is held. -/
theorem Facts.init (h : machine.Init s) : Facts s where
  tokens := TokensOk.init h.1
  grip i := by
    rw [h.2 i]
    rintro k ⟨v, hv⟩
    rw [h.1.1 k] at hv
    cases hv
  denied i := by
    refine ⟨fun _ => ?_, fun _ => ?_⟩
    · rintro F ⟨v, hv⟩
      rw [h.1.2.2.1 F] at hv
      cases hv
    · rintro x ⟨v, hv⟩
      rw [h.1.2.1 x] at hv
      cases hv

theorem tick_rows {dt : ℕ} (h : tick d dt = some d') : SameRows d d' := by
  cases h
  exact ⟨rfl, rfl, rfl⟩

/-- Time does not change who holds what. -/
theorem Facts.tick {dt : ℕ} (h : Facts s) (ht : tick s.shared dt = some d') :
    Facts ⟨d', s.proc⟩ := by
  have hn := (tick_tokens ht).2
  obtain ⟨htok, hf, hj⟩ := tick_rows ht
  have hkept : ∀ {V : Type} {T T' : Table ℕ ℕ V} (j : ℕ), T' = T → Table.Kept j T T' := by
    rintro V T T' j rfl
    exact Table.Kept.refl j _
  refine ⟨h.tokens.of_eq htok hn, ?_, ?_⟩
  · intro j
    exact (h.grip j).rely (hkept j htok) (Ages.of_eq htok hn)
  · intro j
    exact (h.denied j).kept (hkept j hf) (hkept j hj)

/-! ## The UPDATEs of a family, in the order they began -/

/-- The row is one that the UPDATE of call `i` has taken, began with, or has still to take. -/
def Takes (s : St) (i : ℕ) (k : Token) : Prop :=
  k ∈ (s.proc i).ahead ∨ (s.shared.refreshTokens k).Held i

/-- `rank` is the order in which the calls began their UPDATEs. -/
structure Lined (rank : ℕ → ℕ) (n : ℕ) (s : St) : Prop where
  bound : ∀ i F, (s.proc i).Updates F → rank i < n
  distinct : ∀ a b F, (s.proc a).Updates F → (s.proc b).Updates F → rank a = rank b → a = b
  /-- A row that is still live is also taken by whoever began later. -/
  later : ∀ a x F k r, (s.proc a).Updates F → (s.proc x).Updates F → rank a < rank x →
    Takes s a k → (s.shared.refreshTokens k).base = some r → r.revokedAt = none → Takes s x k
  /-- A row that two UPDATEs take is also taken by whoever began between them. -/
  between : ∀ a x b F k r, (s.proc a).Updates F → (s.proc x).Updates F → (s.proc b).Updates F →
    rank a < rank x → rank x < rank b → Takes s a k → Takes s b k →
    (s.shared.refreshTokens k).base = some r → Takes s x k
  /-- No two hold rows that the other has still to take. -/
  apart : ∀ a b F k l, a ≠ b → (s.proc a).Updates F → (s.proc b).Updates F →
    k ∈ (s.proc a).ahead → (s.shared.refreshTokens k).Held b →
    l ∈ (s.proc b).ahead → ¬ (s.shared.refreshTokens l).Held a

/-- A call is at the UPDATE of one family at a time. -/
theorem Pc.Updates.unique (h : pc.Updates F) (h' : pc.Updates F') : F = F' := by
  cases pc with
  | revokeRows _ _ _ _ => exact h.symm.trans h'
  | _ => exact absurd h id

/-- A row that an UPDATE holds is a committed row of the family. -/
theorem Facts.row (h : Facts s) (hup : (s.proc i).Updates F)
    (hk : (s.shared.refreshTokens k).Held i) :
    ∃ r, (s.shared.refreshTokens k).base = some r ∧ r.familyId = F := by
  have hg := h.grip i
  generalize s.proc i = pc at hup hg
  cases pc with
  | revokeRows why f at₀ rest =>
      cases hup
      exact hg.1 k hk
  | _ => exact absurd hup id

/-- What an UPDATE takes is a row of the family, or deleted for good. -/
theorem Facts.ofFamily (h : Facts s) (hup : (s.proc i).Updates F) (hk : Takes s i k) :
    OfFamily F s.shared k := by
  rcases hk with hk | hk
  · have hg := h.grip i
    generalize s.proc i = pc at hup hk hg
    cases pc with
    | revokeRows why f at₀ rest =>
        cases hup
        exact hg.2 k hk
    | _ => exact absurd hup id
  · obtain ⟨r, hb, hF⟩ := h.row hup hk
    exact OfFamily.of_base h.tokens hb hF

/-- A committed row that an UPDATE takes was committed before the step, and live if it is. -/
theorem Facts.base (h : Facts s) (ha : Ages s.shared d') (hup : (s.proc j).Updates F)
    (hk : Takes s j k) (hb : (d'.refreshTokens k).base = some r) :
    ∃ b, (s.shared.refreshTokens k).base = some b ∧
      (r.revokedAt = none → b.revokedAt = none) := by
  have hof := h.ofFamily hup hk
  cases hold : (s.shared.refreshTokens k).base with
  | none =>
      have hgone := ha.gone k hof.drawn (hof.gone hold)
      rw [hgone.1] at hb
      cases hb
  | some b => exact ⟨b, rfl, (ha.kept k b r hold hb).2⟩

section Step

variable {rank : ℕ → ℕ} {n : ℕ}

theorem takes_self :
    Takes ⟨d', Function.update s.proc i pc'⟩ i k ↔
      k ∈ pc'.ahead ∨ (d'.refreshTokens k).Held i := by
  change k ∈ (Function.update s.proc i pc' i).ahead ∨ _ ↔ _
  rw [Function.update_self]

/-- What another call takes is the same before and after the step. -/
theorem takes_other (hl : Leaves i s.shared d') (hj : j ≠ i) :
    Takes ⟨d', Function.update s.proc i pc'⟩ j k ↔ Takes s j k := by
  change k ∈ (Function.update s.proc i pc' j).ahead ∨ _ ↔ _
  rw [Function.update_of_ne hj, (hl.kept j hj).held_iff]
  rfl

/-- What the call that moves holds and has still to take is apart from the others. -/
theorem apart_step (h : Lined rank n s) (hl : Leaves i s.shared d')
    (hside : ∀ b F k l, b ≠ i → pc'.Updates F → (s.proc b).Updates F → k ∈ pc'.ahead →
      (s.shared.refreshTokens k).Held b → l ∈ (s.proc b).ahead →
      ¬ (d'.refreshTokens l).Held i) :
    ∀ a b F k l, a ≠ b → (Function.update s.proc i pc' a).Updates F →
      (Function.update s.proc i pc' b).Updates F → k ∈ (Function.update s.proc i pc' a).ahead →
      (d'.refreshTokens k).Held b → l ∈ (Function.update s.proc i pc' b).ahead →
      ¬ (d'.refreshTokens l).Held a := by
  intro a b F k l hab ha hb hk hkb hlb hla
  by_cases hai : a = i
  · subst hai
    have hba : b ≠ a := Ne.symm hab
    rw [Function.update_self] at ha hk
    rw [Function.update_of_ne hba] at hb hlb
    exact hside b F k l hba ha hb hk ((hl.kept b hba).held_iff.mp hkb) hlb hla
  · rw [Function.update_of_ne hai] at ha hk
    rw [(hl.kept a hai).held_iff] at hla
    by_cases hbi : b = i
    · subst hbi
      rw [Function.update_self] at hb hlb
      exact hside a F l k hai hb ha hlb hla hk hkb
    · rw [Function.update_of_ne hbi] at hb hlb
      rw [(hl.kept b hbi).held_iff] at hkb
      exact h.apart a b F k l hab ha hb hk hkb hlb hla

/-- A step in which no UPDATE begins. -/
theorem Lined.step (hf : Facts s) (hl : Leaves i s.shared d') (h : Lined rank n s)
    (hup : ∀ F, pc'.Updates F → (s.proc i).Updates F)
    (hdown : ∀ F k, pc'.Updates F → k ∈ pc'.ahead ∨ (d'.refreshTokens k).Held i → Takes s i k)
    (hkeep : ∀ F k r, pc'.Updates F → Takes s i k → (d'.refreshTokens k).base = some r →
      k ∈ pc'.ahead ∨ (d'.refreshTokens k).Held i)
    (hside : ∀ b F k l, b ≠ i → pc'.Updates F → (s.proc b).Updates F → k ∈ pc'.ahead →
      (s.shared.refreshTokens k).Held b → l ∈ (s.proc b).ahead →
      ¬ (d'.refreshTokens l).Held i) :
    Lined rank n ⟨d', Function.update s.proc i pc'⟩ := by
  -- what the order says of two calls at the UPDATE, it said before the step: the ranks stay, and
  -- nobody takes more
  have up : ∀ j F, (Function.update s.proc i pc' j).Updates F → (s.proc j).Updates F := by
    intro j F hj
    by_cases hji : j = i
    · subst hji
      rw [Function.update_self] at hj
      exact hup F hj
    · rwa [Function.update_of_ne hji] at hj
  have down : ∀ j F k, (Function.update s.proc i pc' j).Updates F →
      Takes ⟨d', Function.update s.proc i pc'⟩ j k → Takes s j k := by
    intro j F k hj hk
    by_cases hji : j = i
    · subst hji
      rw [Function.update_self] at hj
      exact hdown F k hj (takes_self.mp hk)
    · exact (takes_other hl hji).mp hk
  have keep : ∀ j F k r, (Function.update s.proc i pc' j).Updates F → Takes s j k →
      (d'.refreshTokens k).base = some r → Takes ⟨d', Function.update s.proc i pc'⟩ j k := by
    intro j F k r hj hk hb
    by_cases hji : j = i
    · subst hji
      rw [Function.update_self] at hj
      exact takes_self.mpr (hkeep F k r hj hk hb)
    · exact (takes_other hl hji).mpr hk
  constructor
  case bound => exact fun j F hj => h.bound j F (up j F hj)
  case distinct => exact fun a b F ha hb => h.distinct a b F (up a F ha) (up b F hb)
  case later =>
    intro a x F k r ha hx hlt hk hb hrev
    have hka := down a F k ha hk
    obtain ⟨b, hb₀, hrev₀⟩ := hf.base hl.ages (up a F ha) hka hb
    exact keep x F k r hx (h.later a x F k b (up a F ha) (up x F hx) hlt hka hb₀ (hrev₀ hrev)) hb
  case between =>
    intro a x b F k r ha hx hb hax hxb hka hkb hbase
    have hka₀ := down a F k ha hka
    obtain ⟨r₀, hr₀, -⟩ := hf.base hl.ages (up a F ha) hka₀ hbase
    exact keep x F k r hx (h.between a x b F k r₀ (up a F ha) (up x F hx) (up b F hb) hax hxb hka₀
      (down b F k hb hkb) hr₀) hbase
  case apart => exact apart_step h hl hside

theorem Heeded.start (h : Heeded s (.call i .run)) {why : RevokeFor} {at₀ : ℕ}
    (hpc : s.proc i = .revokeStart why F at₀) :
    ∀ k, (s.shared.refreshTokens k).Held i → ¬ Crosses s i F (snapshot i s.shared F) k := by
  simp only [Heeded, hpc] at h
  exact h

theorem Heeded.visit (h : Heeded s (.call i (.visit k))) {why : RevokeFor} {at₀ : ℕ}
    {rest : List Token} (hpc : s.proc i = .revokeRows why F at₀ rest) :
    ((s.shared.refreshTokens k).view i).isSome → ¬ Crosses s i F rest k := by
  simp only [Heeded, hpc] at h
  exact h

theorem Leaves.refl (i : ℕ) (d : Db) : Leaves i d d :=
  ⟨Ages.of_eq rfl rfl, fun j _ => Table.Kept.refl j _⟩

/-- An UPDATE begins, the last of all. -/
theorem Lined.start (hf : Facts s) (h : Lined rank n s) {why : RevokeFor} {at₀ : ℕ}
    (hpc : s.proc i = .revokeStart why F at₀) (hok : Heeded s (.call i .run)) :
    Lined (Function.update rank i n) (n + 1)
      ⟨s.shared, Function.update s.proc i (.revokeRows why F at₀ (snapshot i s.shared F))⟩ := by
  have hgrip := hf.grip i
  rw [hpc] at hgrip
  have hsnap : ∀ {k}, k ∈ snapshot i s.shared F ↔ ∃ r, (s.shared.refreshTokens k).base = some r ∧
      r.familyId = F ∧ r.revokedAt = none := mem_snapshot hf.tokens hgrip
  have hl : Leaves i s.shared s.shared := Leaves.refl i _
  -- the calls at an UPDATE: the new one, with the highest rank, and the others as before
  have hnew : ∀ G, (Function.update s.proc i (.revokeRows why F at₀ (snapshot i s.shared F)) i).Updates
      G → F = G := by
    intro G hG
    rw [Function.update_self] at hG
    exact hG
  have hold : ∀ j G, j ≠ i →
      (Function.update s.proc i (.revokeRows why F at₀ (snapshot i s.shared F)) j).Updates G →
      (s.proc j).Updates G := by
    intro j G hj hG
    rwa [Function.update_of_ne hj] at hG
  have hrank : ∀ j, j ≠ i → Function.update rank i n j = rank j := by
    intro j hj
    exact Function.update_of_ne hj _ _
  have hlast : Function.update rank i n i = n := Function.update_self _ _ _
  have hfirst : ∀ a x G,
      (Function.update s.proc i (.revokeRows why F at₀ (snapshot i s.shared F)) x).Updates G →
      Function.update rank i n a < Function.update rank i n x → a ≠ i := by
    intro a x G hx hlt hai
    rw [hai, hlast] at hlt
    -- the new call is the last, so in front of it there are only others
    by_cases hxi : x = i
    · rw [hxi, hlast] at hlt
      exact Nat.lt_irrefl n hlt
    · rw [hrank x hxi] at hlt
      exact Nat.lt_asymm hlt (h.bound x G (hold x G hxi hx))
  constructor
  case bound =>
    intro j G hG
    by_cases hj : j = i
    · rw [hj, hlast]
      exact Nat.lt_succ_self n
    · rw [hrank j hj]
      exact Nat.lt_succ_of_lt (h.bound j G (hold j G hj hG))
  case distinct =>
    intro a b G ha hb heq
    by_cases hai : a = i <;> by_cases hbi : b = i
    · rw [hai, hbi]
    · rw [hai, hlast, hrank b hbi] at heq
      exact absurd heq.symm (Nat.ne_of_lt (h.bound b G (hold b G hbi hb)))
    · rw [hbi, hlast, hrank a hai] at heq
      exact absurd heq (Nat.ne_of_lt (h.bound a G (hold a G hai ha)))
    · rw [hrank a hai, hrank b hbi] at heq
      exact h.distinct a b G (hold a G hai ha) (hold b G hbi hb) heq
  case later =>
    intro a x G k r ha hx hlt hk hb hrev
    have hai := hfirst a x G hx hlt
    have hka : Takes s a k := (takes_other hl hai).mp hk
    by_cases hxi : x = i
    · subst hxi
      obtain rfl := hnew G hx
      have hrF := (hf.ofFamily (hold a F hai ha) hka).family r hb
      exact takes_self.mpr (Or.inl (hsnap.mpr ⟨r, hb, hrF, hrev⟩))
    · rw [hrank a hai, hrank x hxi] at hlt
      exact (takes_other hl hxi).mpr
        (h.later a x G k r (hold a G hai ha) (hold x G hxi hx) hlt hka hb hrev)
  case between =>
    intro a x b G k r ha hx hb hax hxb hka hkb hbase
    have hai := hfirst a x G hx hax
    have hxi := hfirst x b G hb hxb
    have hka₀ : Takes s a k := (takes_other hl hai).mp hka
    rw [hrank a hai, hrank x hxi] at hax
    refine (takes_other hl hxi).mpr ?_
    by_cases hbi : b = i
    · -- what the new one takes is live
      subst hbi
      have hlive : ∃ r, (s.shared.refreshTokens k).base = some r ∧ r.revokedAt = none := by
        rcases takes_self.mp hkb with hk | hk
        · obtain ⟨r, hr, -, hrev⟩ := hsnap.mp hk
          exact ⟨r, hr, hrev⟩
        · obtain ⟨r, hr, -, -, hrev⟩ := hgrip k hk
          exact ⟨r, hr, hrev⟩
      obtain ⟨r', hr', hrev⟩ := hlive
      exact h.later a x G k r' (hold a G hai ha) (hold x G hxi hx) hax hka₀ hr' hrev
    · rw [hrank x hxi, hrank b hbi] at hxb
      exact h.between a x b G k r (hold a G hai ha) (hold x G hxi hx) (hold b G hbi hb) hax hxb hka₀
        ((takes_other hl hbi).mp hkb) hbase
  case apart =>
    refine apart_step h hl ?_
    intro b G k l hb hG hbG hk hkb hlb hli
    cases hG
    exact hok.start hpc l hli ⟨b, hb, hbG, hlb, k, hk, hkb⟩

/-- A call that is not at a family UPDATE has no part in the line. -/
theorem Lined.plain (hf : Facts s) (hl : Leaves i s.shared d') (h : Lined rank n s)
    (hnot : ∀ F, ¬ pc'.Updates F) : Lined rank n ⟨d', Function.update s.proc i pc'⟩ :=
  h.step hf hl (fun F hF => absurd hF (hnot F)) (fun F _ hF => absurd hF (hnot F))
    (fun F _ _ hF => absurd hF (hnot F)) fun _ F _ _ _ hF => absurd hF (hnot F)

/-- A visit writes a draft only. -/
theorem visitRow_base {at₀ : ℕ} {l : Token} :
    ((visitRow i F at₀ k d).refreshTokens l).base = (d.refreshTokens l).base := by
  unfold visitRow
  split
  · rfl
  · exact Table.put_base

/-- The UPDATE comes to hold the row, if it is there. -/
theorem visitRow_held {at₀ : ℕ} {l : Token} :
    ((visitRow i F at₀ k d).refreshTokens l).Held i ↔
      (d.refreshTokens l).Held i ∨ l = k ∧ ((d.refreshTokens k).view i).isSome := by
  unfold visitRow
  split
  · next hv => simp [hv]
  · next row hv =>
      rw [Db.putToken_refreshTokens, Table.held_put_iff]
      by_cases hl : l = k
      · simp [hl, hv]
      · simp [hl]

/-- A visit touches its own row and no other. -/
theorem visitRow_other {at₀ : ℕ} {l : Token} (hl : l ≠ k) :
    (visitRow i F at₀ k d).refreshTokens l = d.refreshTokens l := by
  unfold visitRow
  split
  · rfl
  · exact Table.put_ne hl

/-- The UPDATE takes a row. -/
theorem Lined.visit (hf : Facts s) (h : Lined rank n s) {why : RevokeFor} {at₀ : ℕ}
    {rest : List Token} (hpc : s.proc i = .revokeRows why F at₀ rest)
    (hl : Leaves i s.shared (visitRow i F at₀ k s.shared)) (hk : k ∈ rest)
    (hok : Heeded s (.call i (.visit k))) :
    Lined rank n ⟨visitRow i F at₀ k s.shared,
      Function.update s.proc i (.revokeRows why F at₀ (rest.erase k))⟩ := by
  have hmem : ∀ {l}, l ∈ rest → Takes s i l := by
    intro l hmem
    left
    rw [hpc]
    exact hmem
  refine h.step hf hl ?_ ?_ ?_ ?_
  · intro G hG
    rw [hpc]
    exact hG
  · intro G l _ htakes
    rcases htakes with hrest | hheld
    · exact hmem (List.mem_of_mem_erase hrest)
    · rcases visitRow_held.mp hheld with hheld | ⟨rfl, -⟩
      · exact Or.inr hheld
      · exact hmem hk
  · intro G l r _ htakes hb
    rw [visitRow_base] at hb
    rcases htakes with hrest | hheld
    · rw [hpc] at hrest
      by_cases hlk : l = k
      · -- the row that it has come to: held now, or held before
        subst hlk
        right
        rw [visitRow_held]
        by_cases hheld : (s.shared.refreshTokens l).Held i
        · exact Or.inl hheld
        · right
          rw [Slot.view_of_not_held hheld, hb]
          exact ⟨rfl, rfl⟩
      · exact Or.inl ((List.mem_erase_of_ne hlk).mpr hrest)
    · exact Or.inr (visitRow_held.mpr (Or.inl hheld))
  · intro b G l m hb hG hbG hl' hlb hmb hmi
    cases hG
    have hrest := List.mem_of_mem_erase hl'
    rcases visitRow_held.mp hmi with hheld | ⟨rfl, hsome⟩
    · refine h.apart i b F l m (Ne.symm hb) ?_ hbG ?_ hlb hmb hheld
      · rw [hpc]
        rfl
      · rw [hpc]
        exact hrest
    · exact hok.visit hpc hsome ⟨b, hb, hbG, hmb, l, hrest, hlb⟩

/-- One statement of a run that heeds the others. -/
theorem Lined.stmt_step (hf : Facts s) (h : Lined rank n s) (hok : Heeded s (.call i a))
    (hst : stmt i s.shared (s.proc i) a = some (d', pc')) :
    ∃ rank n, Lined rank n ⟨d', Function.update s.proc i pc'⟩ := by
  have hl := hf.leaves hst
  have hmoves := stmt_moves hst
  generalize hpc : s.proc i = pc at hmoves
  cases hmoves with
  | start => exact ⟨_, _, h.start hf hpc hok⟩
  | visit hk _ => exact ⟨rank, n, h.visit hf hpc hl hk hok⟩
  | begins _ hp =>
      refine ⟨rank, n, h.plain hf hl ?_⟩
      intro F hF
      cases pc' <;> first | exact hp | exact hF
  | quiet _ _ hp =>
      refine ⟨rank, n, h.plain hf hl ?_⟩
      intro F hF
      cases pc' <;> first | exact hp | exact hF
  | family _ hp =>
      refine ⟨rank, n, h.plain hf hl ?_⟩
      intro F hF
      cases pc' <;> first | exact hp trivial | exact hF
  | _ => exact ⟨rank, n, h.plain hf hl fun _ hF => hF⟩

/-- A step that touches no refresh row. -/
theorem Lined.congr (h : Lined rank n s) (ht : d'.refreshTokens = s.shared.refreshTokens) :
    Lined rank n ⟨d', s.proc⟩ := by
  have htakes : ∀ {j k}, Takes ⟨d', s.proc⟩ j k ↔ Takes s j k := by
    intro j k
    change _ ∨ (d'.refreshTokens k).Held j ↔ _
    rw [ht]
    rfl
  constructor
  case bound => exact h.bound
  case distinct => exact h.distinct
  case later =>
    intro a x F k r ha hx hlt hk hb hrev
    change (d'.refreshTokens k).base = _ at hb
    rw [ht] at hb
    exact htakes.mpr (h.later a x F k r ha hx hlt (htakes.mp hk) hb hrev)
  case between =>
    intro a x b F k r ha hx hb hax hxb hka hkb hbase
    change (d'.refreshTokens k).base = _ at hbase
    rw [ht] at hbase
    exact htakes.mpr
      (h.between a x b F k r ha hx hb hax hxb (htakes.mp hka) (htakes.mp hkb) hbase)
  case apart =>
    intro a b F k l hab ha hb hk hkb hlb hla
    change (d'.refreshTokens k).Held b at hkb
    change (d'.refreshTokens l).Held a at hla
    rw [ht] at hkb hla
    exact h.apart a b F k l hab ha hb hk hkb hlb hla

/-- Where nobody is under way the calls are in line. -/
theorem Lined.init (h : ∀ i, s.proc i = .idle) : Lined (fun _ => 0) 0 s := by
  have hnot : ∀ i F, ¬ (s.proc i).Updates F := by
    intro i F hF
    rw [h i] at hF
    exact hF
  constructor
  case bound => exact fun i F hF => absurd hF (hnot i F)
  case distinct => exact fun a _ F hF => absurd hF (hnot a F)
  case later => exact fun a _ F _ _ hF => absurd hF (hnot a F)
  case between => exact fun a _ _ F _ _ hF => absurd hF (hnot a F)
  case apart => exact fun a _ F _ _ _ hF => absurd hF (hnot a F)

end Step

/-- What a run that heeds the others keeps. -/
theorem heeded_run {s₀ : St} {as : List Label} (hinit : machine.Init s₀)
    (hr : machine.Run Heeded s₀ as s) : Facts s ∧ ∃ rank n, Lined rank n s := by
  refine hr.invariant (P := fun s => Facts s ∧ ∃ rank n, Lined rank n s) ?_
    ⟨Facts.init hinit, _, _, Lined.init hinit.2⟩
  intro t act u hok hn
  rintro ⟨hf, rank, n, hlined⟩
  cases act with
  | call i a =>
      obtain ⟨d', pc', hst, rfl⟩ := Procs.next_call hn
      exact ⟨hf.stmt_step hst, hlined.stmt_step hf hok hst⟩
  | env dt =>
      obtain ⟨d', hd, rfl⟩ := Procs.next_env hn
      exact ⟨hf.tick hd, rank, n, hlined.congr (tick_rows hd).tokens⟩

/-! ## No circle -/

/-- One family UPDATE has a row still to take that another one of the family holds. -/
def Competes (s : St) (i j : ℕ) : Prop :=
  ∃ F, (s.proc i).Updates F ∧ (s.proc j).Updates F ∧ i ≠ j ∧
    ∃ k ∈ (s.proc i).ahead, (s.shared.refreshTokens k).Held j

/-- In line, calls that compete for rows have a place between them. -/
theorem Lined.competes {rank : ℕ → ℕ} {n : ℕ} (hf : Facts s) (h : Lined rank n s) :
    Waits.Between (Competes s) rank where
  ne a b := by
    rintro ⟨F, ha, hb, hab, -⟩ heq
    exact hab (h.distinct a b F ha hb heq)
  inj a b c := by
    rintro ⟨F, ha, hb, -, -⟩ ⟨G, hb', hc, -, -⟩ heq
    obtain rfl := hb.unique hb'
    exact h.distinct a c F ha hc heq
  mid a b x := by
    rintro ⟨F, ha, hb, -, k, hk, hkb⟩ hx hmid
    have hxF : (s.proc x).Updates F := by
      rcases hx with ⟨G, hx, ha', -⟩ | ⟨G, hb', hx, -⟩
      · rwa [ha.unique ha']
      · rwa [hb.unique hb']
    -- the row that `b` holds is there, and both take it
    obtain ⟨r, hr, -⟩ := hf.row hb hkb
    have hxb : x ≠ b := by
      rintro rfl
      rcases hmid with ⟨-, hlt⟩ | ⟨hlt, -⟩ <;> exact Nat.lt_irrefl _ hlt
    have htakes : Takes s x k := by
      rcases hmid with ⟨hax, hxb⟩ | ⟨hbx, hxa⟩
      · exact h.between a x b F k r ha hxF hb hax hxb (Or.inl hk) (Or.inr hkb) hr
      · exact h.between b x a F k r hb hxF ha hbx hxa (Or.inr hkb) (Or.inl hk) hr
    rcases htakes with hkx | hheld
    · exact ⟨F, hxF, hb, hxb, k, hkx, hkb⟩
    · exact absurd (hheld.unique hkb) hxb
  pair a b := by
    rintro ⟨F, ha, hb, hab, k, hk, hkb⟩ ⟨G, -, -, -, l, hl, hla⟩
    exact h.apart a b F k l hab ha hb hk hkb hl hla

/-- Whoever waits, waits for a call that has come further, or competes with it. -/
theorem Facts.level (hf : Facts s) (hw : Waits s i j) :
    (s.proc i).level < (s.proc j).level ∨
      (s.proc i).level = (s.proc j).level ∧ Competes s i j := by
  obtain ⟨hne, r, hwants, hheld⟩ := hw
  have hg := hf.grip j
  have hd := hf.denied j
  generalize hi : s.proc i = p at hwants
  generalize hj : s.proc j = q at hg hd
  -- rows before family denials before token denials: whoever waits is at a level not above that
  -- of the holder
  cases p with
  | refreshSelect tok at₀ =>
      cases hwants
      left
      cases q with
      | refreshSelect _ _ => exact absurd hheld (hg tok)
      | _ => simp [Pc.level]
  | revokeRows why F at₀ rest =>
      obtain ⟨k, hk, rfl⟩ := hwants
      cases q with
      | refreshSelect _ _ => exact absurd hheld (hg k)
      | revokeRows why' F' at₀' rest' =>
          right
          have hup : (s.proc i).Updates F := by
            rw [hi]
            rfl
          have hup' : (s.proc j).Updates F' := by
            rw [hj]
            rfl
          have hahead : k ∈ (s.proc i).ahead := by
            rw [hi]
            exact hk
          -- the row that both are after has one family
          obtain ⟨r, hr, hF'⟩ := hf.row hup' hheld
          have hF := (hf.ofFamily hup (Or.inl hahead)).family r hr
          obtain rfl : F' = F := hF'.symm.trans hF
          exact ⟨rfl, F', hup, hup', hne, k, hahead, hheld⟩
      | _ =>
          left
          simp [Pc.level]
  | denyFamily why F at₀ =>
      cases hwants
      left
      cases q with
      | refreshSelect _ _ => exact absurd hheld (hd.families trivial F)
      | revokeRows _ _ _ _ => exact absurd hheld (hd.families trivial F)
      | denyFamily _ _ _ => exact absurd hheld (hd.families trivial F)
      | _ => simp [Pc.level]
  | denyJti claims F at₀ =>
      cases hwants
      left
      cases q with
      | refreshSelect _ _ => exact absurd hheld (hd.jtis trivial _)
      | revokeRows _ _ _ _ => exact absurd hheld (hd.jtis trivial _)
      | denyFamily _ _ _ => exact absurd hheld (hd.jtis trivial _)
      | denyJti _ _ _ => exact absurd hheld (hd.jtis trivial _)
      | _ => simp [Pc.level]
  | _ => exact absurd hwants id

theorem Lined.acyclic {rank : ℕ → ℕ} {n : ℕ} (hf : Facts s) (h : Lined rank n s) (i : ℕ) :
    ¬ Relation.TransGen (Waits s) i i :=
  Waits.acyclic_of_level (fun _ _ hw => hf.level hw) (h.competes hf).acyclic i

/-- A call that is not open holds nothing. -/
theorem Facts.open (hf : Facts s) {r : LockRow} (h : r.Held s.shared i) : (s.proc i).Open := by
  have hg := hf.grip i
  have hd := hf.denied i
  generalize s.proc i = pc at hg hd
  have hnone : (pc.NoFamily ∧ pc.NoJti ∧ NoneHeld i s.shared.refreshTokens) → pc.Open := by
    rintro ⟨hF, hJ, htok⟩
    cases r with
    | token k => exact absurd h (htok k)
    | family F => exact absurd h (hd.families hF F)
    | jti x => exact absurd h (hd.jtis hJ x)
  cases pc with
  | idle => exact hnone ⟨trivial, trivial, hg⟩
  | done _ => exact hnone ⟨trivial, trivial, hg⟩
  | aborted => exact hnone ⟨trivial, trivial, hg⟩
  | _ => trivial

/-- An open call can take its next statement, or a row that it needs is not free. -/
theorem stmt_ready (h : pc.Open) :
    (∃ a, a ≠ .abort ∧ (stmt i d pc a).isSome) ∨ ∃ r, pc.Wants r ∧ ¬ r.Free d i := by
  have run : (stmt i d pc .run).isSome →
      (∃ a, a ≠ .abort ∧ (stmt i d pc a).isSome) ∨ ∃ r, pc.Wants r ∧ ¬ r.Free d i :=
    fun hrun => Or.inl ⟨.run, by simp, hrun⟩
  -- at each point the statement can run, or the row it wants is not free
  cases pc with
  | refreshSelect tok at₀ =>
      by_cases hfree : (d.refreshTokens tok).Free i
      · refine run ?_
        change (refreshSelect i d tok at₀).isSome
        unfold refreshSelect
        split
        · rfl
        · rw [if_pos hfree]
          split
          · rfl
          · split
            · rfl
            · split <;> rfl
      · exact Or.inr ⟨.token tok, rfl, hfree⟩
  | refreshRole tok row at₀ =>
      refine run ?_
      simp only [stmt]
      split <;> rfl
  | revokeRows why F at₀ rest =>
      cases rest with
      | nil => exact run rfl
      | cons k rest =>
          by_cases hfree : (d.refreshTokens k).Free i
          · refine Or.inl ⟨.visit k, by simp, ?_⟩
            simp only [stmt]
            rw [if_pos ⟨List.mem_cons_self, hfree⟩]
            rfl
          · exact Or.inr ⟨.token k, ⟨k, List.mem_cons_self, rfl⟩, hfree⟩
  | denyFamily why F at₀ =>
      by_cases hfree : (d.revokedFamilies F).Free i
      · refine run ?_
        simp only [stmt, denyFamily]
        rw [if_pos hfree]
        cases why <;> rfl
      · exact Or.inr ⟨.family F, rfl, hfree⟩
  | denyJti claims F at₀ =>
      by_cases hfree : (d.accessDenylist claims.jti).Free i
      · refine run ?_
        simp only [stmt, denyJti]
        rw [if_pos hfree]
        rfl
      · exact Or.inr ⟨.jti claims.jti, rfl, hfree⟩
  | sweep tables after at₀ =>
      cases tables with
      | nil => cases after <;> exact run rfl
      | cons table tables =>
          -- a DELETE that finds nothing
          refine Or.inl ⟨.sweep [], by simp, ?_⟩
          have hnone : ∀ {V : Type} (e : V → ℕ) (T : Table ℕ ℕ V), Sweepable i at₀ e T [] := by
            intro V e T
            exact ⟨Nat.zero_le _, fun k hk => absurd hk List.not_mem_nil⟩
          cases table with
          | refreshTokens =>
              simp only [stmt, sweepTable, if_pos (hnone _ _)]
              rfl
          | accessDenylist =>
              simp only [stmt, sweepTable, if_pos (hnone _ _)]
              rfl
          | revokedFamilies =>
              simp only [stmt, sweepTable, if_pos (hnone _ _)]
              rfl
  | idle => exact absurd h id
  | done _ => exact absurd h id
  | aborted => exact absurd h id
  | _ => exact run rfl

/-- Calls in line have no deadlock: some call that is under way can move. -/
theorem Lined.deadlockFree {rank : ℕ → ℕ} {n : ℕ} (hf : Facts s) (h : Lined rank n s)
    (hfin : {i | (s.proc i).Open}.Finite) : DeadlockFree s := by
  refine ⟨h.acyclic hf, ?_⟩
  intro hsome
  have hclosed : ∀ i ∈ {i | (s.proc i).Open}, ∀ j, Waits s i j → (s.proc j).Open := by
    rintro i - j ⟨-, r, -, hheld⟩
    exact hf.open hheld
  obtain ⟨i, hi, hready⟩ := Waits.exists_unblocked (h.acyclic hf) hfin hsome hclosed
  refine ⟨i, hi, ?_⟩
  rcases stmt_ready (i := i) (d := s.shared) hi with hrun | ⟨r, hwants, hfree⟩
  · exact hrun
  · obtain ⟨j, hij, hheld⟩ := LockRow.exists_holder hfree
    exact absurd ⟨hij, r, hwants, hheld⟩ (hready j)

/-! ## The condition is exact -/

/-- A call at the UPDATE wants the rows ahead of it. -/
theorem Pc.wants_ahead (h : k ∈ pc.ahead) : pc.Wants (.token k) := by
  cases pc with
  | revokeRows why F at₀ rest => exact ⟨k, h, rfl⟩
  | _ => cases h

/-- Two that each hold a row the other has still to take. -/
theorem circle_of {k l : Token} (hne : i ≠ j) (hk : k ∈ (s.proc i).ahead)
    (hkj : (s.shared.refreshTokens k).Held j) (hl : l ∈ (s.proc j).ahead)
    (hli : (s.shared.refreshTokens l).Held i) : Relation.TransGen (Waits s) i i := by
  have hij : Waits s i j := ⟨hne, .token k, Pc.wants_ahead hk, hkj⟩
  have hji : Waits s j i := ⟨hne.symm, .token l, Pc.wants_ahead hl, hli⟩
  exact .tail (.single hij) hji

/-- After a step that does not heed the others, two UPDATEs wait for each other. -/
theorem circle_of_not_heeded {t : St} {act : Label} (hn : machine.next s act = some t)
    (hnot : ¬ Heeded s act) : ∃ i, Relation.TransGen (Waits t) i i := by
  cases act with
  | env dt => exact absurd trivial hnot
  | call i a =>
      obtain ⟨d', pc', hst, rfl⟩ := Procs.next_call hn
      change stmt i s.shared (s.proc i) a = some (d', pc') at hst
      refine ⟨i, ?_⟩
      simp only [Heeded] at hnot
      split at hnot
      -- the UPDATE that begins, and the visit that takes a row: the two steps `Heeded` speaks of
      · next why F at₀ hpc =>
          simp only [not_forall, not_not] at hnot
          obtain ⟨k, hk, j, hj, -, hkj, l, hl, hlj⟩ := hnot
          rw [hpc] at hst
          cases hst
          refine circle_of (k := l) (l := k) hj.symm ?_ hlj ?_ hk
          · change l ∈ (Function.update s.proc i _ i).ahead
            rw [Function.update_self]
            exact hl
          · change k ∈ (Function.update s.proc i _ j).ahead
            rw [Function.update_of_ne hj]
            exact hkj
      · next why F at₀ rest k hpc =>
          simp only [not_forall, not_not] at hnot
          obtain ⟨hsome, j, hj, -, hkj, l, hl, hlj⟩ := hnot
          rw [hpc] at hst
          simp only [stmt] at hst
          split at hst
          · next hvis =>
              cases hst
              have hlk : l ≠ k := by
                rintro rfl
                exact hlj.not_free hj hvis.2
              refine circle_of (k := l) (l := k) hj.symm ?_ ?_ ?_ ?_
              · change l ∈ (Function.update s.proc i _ i).ahead
                rw [Function.update_self]
                exact (List.mem_erase_of_ne hlk).mpr hl
              · change ((visitRow i F at₀ k s.shared).refreshTokens l).Held j
                rwa [visitRow_other hlk]
              · change k ∈ (Function.update s.proc i _ j).ahead
                rw [Function.update_of_ne hj]
                exact hkj
              · exact visitRow_held.mpr (Or.inr ⟨rfl, hsome⟩)
          · cases hst
      · exact absurd trivial hnot

/-- Refresh and logout cannot deadlock in a run in which no family UPDATE comes to hold a row that
another one of the family has still to take, while that one holds a row it has to take itself: in
every state of such a run nobody waits in a circle, and while a transaction is open, one of the
open ones can go on. A step that does not meet the condition does lead to a circle. -/
theorem refresh_deadlock_free {s₀ s : St} {as : List Label} (hinit : machine.Init s₀)
    (hr : machine.Run Heeded s₀ as s) :
    DeadlockFree s ∧ ∀ l t, machine.next s l = some t →
      (Heeded s l ↔ ∀ i, ¬ Relation.TransGen (Waits t) i i) := by
  obtain ⟨hf, rank, n, hlined⟩ := heeded_run hinit hr
  have hfin : {i | (s.proc i).Open}.Finite := by
    refine (Procs.Run.finite_begun hr hinit.2).subset ?_
    intro i hi heq
    change (s.proc i).Open at hi
    rw [heq] at hi
    exact hi
  refine ⟨hlined.deadlockFree hf hfin, ?_⟩
  intro l t hn
  constructor
  · intro hok
    obtain ⟨hf', rank', n', hlined'⟩ := heeded_run hinit (hr.step hok hn)
    exact hlined'.acyclic hf'
  · intro hacyclic
    by_contra hnot
    obtain ⟨i, hcircle⟩ := circle_of_not_heeded hn hnot
    exact hacyclic i hcircle

/-! ## One revocation at a time -/

/-- No call but `i` begins a family UPDATE. -/
def Sole (i : ℕ) (s : St) : Label → Prop
  | .call j .run => ∀ why F at₀, s.proc j = .revokeStart why F at₀ → j = i
  | _ => True

/-- It takes two revocations to cross. -/
theorem heeded_of_sole {s₀ : St} {as : List Label} (hidle : ∀ j, s₀.proc j = .idle)
    (hr : machine.Run (Sole i) s₀ as s) : machine.Run Heeded s₀ as s := by
  have hboth : machine.Run Heeded s₀ as s ∧ ∀ j F, (s.proc j).Updates F → j = i := by
    induction hr with
    | refl =>
        refine ⟨.refl, ?_⟩
        intro j F hF
        rw [hidle j] at hF
        exact absurd hF id
    | @step as t u act _ hok hn ih =>
        obtain ⟨hrun, hsole⟩ := ih
        -- with one call at an UPDATE there is no other whose path it could cross
        have hcross : ∀ F rest k, ¬ Crosses t i F rest k := by
          rintro F rest k ⟨j, hj, hup, -⟩
          exact hj (hsole j F hup)
        cases act with
        | env dt =>
            refine ⟨hrun.step trivial hn, ?_⟩
            obtain ⟨d', -, rfl⟩ := Procs.next_env hn
            exact hsole
        | call j a =>
            have hheeded : Heeded t (.call j a) := by
              simp only [Heeded]
              split
              · next why F at₀ hpc =>
                  obtain rfl := hok why F at₀ hpc
                  exact fun k _ => hcross F _ k
              · next why F at₀ rest k hpc =>
                  have hj : j = i := hsole j F (by rw [hpc]; rfl)
                  subst hj
                  exact fun _ => hcross F rest k
              · trivial
            refine ⟨hrun.step hheeded hn, ?_⟩
            obtain ⟨d', pc', hst, rfl⟩ := Procs.next_call hn
            intro x F hF
            change (Function.update t.proc j pc' x).Updates F at hF
            by_cases hx : x = j
            · subst hx
              rw [Function.update_self] at hF
              have hmoves := stmt_moves hst
              generalize hpc : t.proc x = pc at hmoves
              cases hmoves with
              | start => exact hok _ _ _ hpc
              | visit _ _ =>
                  refine hsole x F ?_
                  rw [hpc]
                  exact hF
              | begins _ hp => cases pc' <;> first | exact absurd hp id | exact absurd hF id
              | quiet _ _ hp => cases pc' <;> first | exact absurd hp id | exact absurd hF id
              | family _ hp => cases pc' <;> first | exact absurd trivial hp | exact absurd hF id
              | _ => exact absurd hF id
            · rw [Function.update_of_ne hx] at hF
              exact hsole x F hF
  exact hboth.1

/-- No call but the second begins a family UPDATE. -/
def onlySecond (s : St) : Label → Bool
  | .call j .run =>
      match s.proc j with
      | .revokeStart _ _ _ => j == 2
      | _ => true
  | _ => true

/-- What the concrete run checks is the condition of the theorem. -/
theorem onlySecond_ok (s : St) (l : Label) (h : onlySecond s l = true) : Sole 2 s l := by
  cases l with
  | env dt => trivial
  | call j a =>
      cases a with
      | run =>
          intro why F at₀ hpc
          simp only [onlySecond, hpc, beq_iff_eq] at h
          exact h
      | _ => trivial

/-- Call 1 rotates token 0, call 2 presents it again and has taken both rows of the family, and
call 3 presents token 1. -/
def reuseOnce : List Label :=
  raceRefresh ++ [.call 1 .run, .call 2 (.refresh 0), .call 2 .run, .call 2 .run,
    .call 2 (.visit 0), .call 2 (.visit 1), .call 3 (.refresh 1)]

/-- One reuse is revoked while another refresh waits for its row: nothing is stuck. -/
theorem refresh_deadlock_free_once : ∃ s, machine.Run Heeded raceStart reuseOnce s ∧ Waits s 3 2 ∧
    DeadlockFree s ∧ ∀ l t, machine.next s l = some t →
      (Heeded s l ↔ ∀ i, ¬ Relation.TransGen (Waits t) i i) := by
  have hrun : ∃ s, machine.exec onlySecond raceStart reuseOnce = some s ∧
      s.proc 3 = .refreshSelect 1 0 ∧ (s.shared.refreshTokens 1).Held 2 := ⟨_, rfl, rfl, _, rfl⟩
  obtain ⟨s, hexec, hpc, hheld⟩ := hrun
  have hr := heeded_of_sole raceStart_init.2 (Machine.exec_run onlySecond_ok hexec)
  refine ⟨s, hr, ⟨by decide, .token 1, ?_, hheld⟩, refresh_deadlock_free raceStart_init hr⟩
  rw [hpc]
  rfl

/-! ## Two revocations that cross

A family with the rows 0, 1 and 2, of which 0 and 1 are used. Call 3 presents token 0 and call 4
token 1. Each locks its row and begins its UPDATE.
-/

/-- An UPDATE all of whose rows are held by others cannot go on. -/
theorem stmt_stuck {why : RevokeFor} {at₀ : ℕ} {rest : List Token} (hne : rest ≠ [])
    (hheld : ∀ k ∈ rest, ∃ j, j ≠ i ∧ (d.refreshTokens k).Held j) (ha : a ≠ .abort) :
    stmt i d (.revokeRows why F at₀ rest) a = none := by
  cases a with
  | run =>
      cases rest with
      | nil => exact absurd rfl hne
      | cons k rest => rfl
  | visit k =>
      simp only [stmt]
      rw [if_neg]
      rintro ⟨hk, hfree⟩
      obtain ⟨j, hj, hh⟩ := hheld k hk
      exact hh.not_free hj hfree
  | abort => exact absurd rfl ha
  | _ => rfl

/-- Tokens 0 and 1 are rotated; then both are presented again. -/
def reuseBoth : List Label :=
  raceRefresh ++ [.call 1 .run, .call 2 (.refresh 1), .call 2 .run, .call 2 .run, .call 2 .run,
    .call 2 .run, .call 2 .run, .call 3 (.refresh 0), .call 4 (.refresh 1), .call 3 .run,
    .call 4 .run, .call 3 .run, .call 4 .run, .call 3 (.visit 0), .call 4 (.visit 1),
    .call 3 (.visit 2)]

/-- Two refreshes that detect reuse wait for each other, and nobody can go on. -/
theorem revocations_deadlock : ∃ s, machine.Run RefreshesAndLogouts raceStart reuseBoth s ∧
    Relation.TransGen (Waits s) 3 3 ∧ (s.proc 3).Open ∧
    ∀ i a, (s.proc i).Open → a ≠ .abort → stmt i s.shared (s.proc i) a = none := by
  have hrun : ∃ s, machine.exec isRefreshOrLogout raceStart reuseBoth = some s ∧
      (∃ o, s.proc 1 = .done o) ∧ (∃ o, s.proc 2 = .done o) ∧
      s.proc 3 = .revokeRows .reuse 0 0 [1] ∧ s.proc 4 = .revokeRows .reuse 0 0 [0, 2] ∧
      (s.shared.refreshTokens 0).Held 3 ∧ (s.shared.refreshTokens 1).Held 4 ∧
      (s.shared.refreshTokens 2).Held 3 :=
    ⟨_, rfl, ⟨_, rfl⟩, ⟨_, rfl⟩, rfl, rfl, ⟨_, rfl⟩, ⟨_, rfl⟩, _, rfl⟩
  obtain ⟨s, hexec, ⟨o₁, h₁⟩, ⟨o₂, h₂⟩, h₃, h₄, hheld₀, hheld₁, hheld₂⟩ := hrun
  have hr := Machine.exec_run isRefreshOrLogout_ok hexec
  have hopen : ∀ i, (s.proc i).Open → i = 3 ∨ i = 4 := by
    intro i hi
    by_contra hnot
    by_cases hi₁ : i = 1
    · rw [hi₁, h₁] at hi
      exact hi
    by_cases hi₂ : i = 2
    · rw [hi₂, h₂] at hi
      exact hi
    have hidle : s.proc i = .idle := by
      rw [Procs.Run.proc_eq hr]
      · rfl
      · intro a ha
        simp [reuseBoth, raceRefresh, hi₁, hi₂] at ha
        omega
    rw [hidle] at hi
    exact hi
  -- each holds a row the other has yet to visit
  refine ⟨s, hr, ?_, by rw [h₃]; trivial, ?_⟩
  · refine circle_of (j := 4) (k := 1) (l := 0) (by decide) ?_ hheld₁ ?_ hheld₀
    · rw [h₃]
      exact List.mem_singleton.mpr rfl
    · rw [h₄]
      exact List.mem_cons_self
  · intro i a hi ha
    rcases hopen i hi with rfl | rfl
    · rw [h₃]
      refine stmt_stuck (by decide) ?_ ha
      intro k hk
      obtain rfl := List.mem_singleton.mp hk
      exact ⟨4, by decide, hheld₁⟩
    · rw [h₄]
      refine stmt_stuck (by decide) ?_ ha
      intro k hk
      have hk' : k = 0 ∨ k = 2 := by simpa using hk
      rcases hk' with rfl | rfl
      · exact ⟨3, by decide, hheld₀⟩
      · exact ⟨3, by decide, hheld₂⟩

end Marketplace.Auth

import Marketplace.Auth.Revocation
import Marketplace.Auth.Steps

/-!
# Auth.Locks — which rows a call holds

A statement locks the rows it writes, and they stay locked until the transaction ends. `Grip`
says which refresh rows a call holds at each of its program points, `Denied` that it holds
nothing of the two denylists before it comes to them. `Ages` is what a step of any call leaves
of the committed rows: a row keeps its family, is revoked for good, and a deleted one does not
come back (`Gone`).
-/

namespace Marketplace.Auth

open Core

variable {i j : ℕ} {d d' : Db} {pc pc' : Pc} {a : Stmt} {F : FamilyId} {k tok : Token}
  {row r : RefreshRow} {why : RevokeFor} {at₀ : ℕ} {rest : List Token}

/-! ## What is held -/

/-- Call `i` holds no row of the table. -/
def NoneHeld {V : Type} (i : ℕ) (T : Table ℕ ℕ V) : Prop := ∀ k, ¬ (T k).Held i

/-- No version of the row is left. -/
def Gone (c : Slot ℕ RefreshRow) : Prop := c.base = none ∧ ∀ i, c.view i = none

/-- The row was in the family when it was drawn up: it is in the family, or deleted for good. -/
structure OfFamily (F : FamilyId) (d : Db) (k : Token) : Prop where
  drawn : k < d.nextToken
  family : ∀ r, (d.refreshTokens k).base = some r → r.familyId = F
  gone : (d.refreshTokens k).base = none → Gone (d.refreshTokens k)

/-- The refresh rows that a call holds. -/
def Grip (i : ℕ) (d : Db) : Pc → Prop
  | .idle | .refreshSelect _ _ | .done _ | .aborted => NoneHeld i d.refreshTokens
  | .refreshRole tok row _ | .refreshMark tok row _ _ =>
      (d.refreshTokens tok).Held i ∧ (d.refreshTokens tok).view i = some row
  | .revokeStart _ F _ => ∀ k, (d.refreshTokens k).Held i →
      ∃ r, (d.refreshTokens k).base = some r ∧ (d.refreshTokens k).view i = some r ∧
        r.familyId = F ∧ r.revokedAt = none
  | .revokeRows _ F _ rest =>
      (∀ k, (d.refreshTokens k).Held i →
        ∃ r, (d.refreshTokens k).base = some r ∧ r.familyId = F) ∧
      ∀ k ∈ rest, OfFamily F d k
  | _ => True

namespace Pc

/-- The points at which a call holds no row of `revoked_families`. -/
def NoFamily : Pc → Prop
  | .insertPair _ _ _ _ | .denyJti _ _ _ | .sweep _ _ _ | .commit _ => False
  | _ => True

/-- The points at which a call holds no row of `access_denylist`. -/
def NoJti : Pc → Prop
  | .insertPair _ _ _ _ | .sweep _ _ _ | .commit _ => False
  | _ => True

end Pc

/-- A call holds no row of a denylist that it has not come to. -/
structure Denied (i : ℕ) (d : Db) (pc : Pc) : Prop where
  families : pc.NoFamily → NoneHeld i d.revokedFamilies
  jtis : pc.NoJti → NoneHeld i d.accessDenylist

/-- What a step leaves of the refresh rows. -/
structure Ages (d d' : Db) : Prop where
  next : d.nextToken ≤ d'.nextToken
  kept : ∀ k r r', (d.refreshTokens k).base = some r → (d'.refreshTokens k).base = some r' →
    r'.familyId = r.familyId ∧ (r'.revokedAt = none → r.revokedAt = none)
  lost : ∀ k r, (d.refreshTokens k).base = some r → (d'.refreshTokens k).base = none →
    Gone (d'.refreshTokens k)
  gone : ∀ k, k < d.nextToken → Gone (d.refreshTokens k) → Gone (d'.refreshTokens k)

/-- A step that leaves the rows alone makes none older or younger. -/
theorem Ages.of_eq (ht : d'.refreshTokens = d.refreshTokens) (hn : d'.nextToken = d.nextToken) :
    Ages d d' where
  next := Nat.le_of_eq hn.symm
  kept k r r' hb hb' := by
    rw [ht, hb] at hb'
    cases hb'
    exact ⟨rfl, id⟩
  lost k r hb hb' := by
    rw [ht, hb] at hb'
    cases hb'
  gone k _ hgone := by rwa [ht]

/-! ## What a statement leaves of the rows -/

theorem Gone.settled : Gone (Slot.settled none) := ⟨rfl, fun _ => rfl⟩

/-- A row that is gone stays gone at a COMMIT. -/
theorem Gone.commit {c : Slot ℕ RefreshRow} (h : Gone c) : Gone (c.commit i) := by
  by_cases hi : c.Held i
  · rw [Slot.commit_of_held hi, h.2 i]
    exact Gone.settled
  · rwa [Slot.commit_of_not_held hi]

/-- A row that is gone stays gone at a ROLLBACK. -/
theorem Gone.rollback {c : Slot ℕ RefreshRow} (h : Gone c) : Gone (c.rollback i) := by
  by_cases hi : c.Held i
  · rw [Slot.rollback_of_held hi, h.1]
    exact Gone.settled
  · rwa [Slot.rollback_of_not_held hi]

/-- A version of some other row. -/
theorem Gone.putToken {v : Option RefreshRow} (h : Gone (d.refreshTokens k))
    (hv : (d.refreshTokens tok).view i = some row) :
    Gone ((d.putToken i tok v).refreshTokens k) := by
  have hne : k ≠ tok := by
    rintro rfl
    rw [h.2 i] at hv
    cases hv
  rwa [Db.putToken_refreshTokens, Table.put_ne hne]

namespace Does

/-- A deleted row does not come back. -/
theorem gone (h : Does i d pc a d' pc') (hg : Grip i d pc) (hk : k < d.nextToken)
    (hgone : Gone (d.refreshTokens k)) : Gone (d'.refreshTokens k) := by
  cases h with
  | plain hs _ _ => rwa [hs.rows]
  | lock hv _ _ => exact hgone.putToken hv
  | found hv _ _ => exact hgone.putToken hv
  | mark => exact hgone.putToken hg.2
  | insert =>
      change Gone ((d.refreshTokens.put i d.nextToken _) k)
      rwa [Table.put_ne (Nat.ne_of_lt hk)]
  | visit hv _ => exact hgone.putToken hv
  | @swept _ _ _ _ _ keys _ hseen =>
      have hout : k ∉ keys := fun hin => hseen k hin (hgone.2 i)
      change Gone (d.refreshTokens.deleteAll i keys k)
      unfold Table.deleteAll
      rwa [if_neg hout]
  | sweptOther hs => rwa [hs.rows]
  | commit => exact hgone.commit
  | abort => exact hgone.rollback
  | _ => exact hgone

/-- Tokens are drawn in order. -/
theorem next (h : Does i d pc a d' pc') : d.nextToken ≤ d'.nextToken := by
  cases h with
  | plain hs _ _ => exact Nat.le_of_eq hs.nextToken.symm
  | insert => exact Nat.le_succ _
  | sweptOther hs => exact Nat.le_of_eq hs.nextToken.symm
  | _ => exact Nat.le_refl _

/-- Every statement keeps the order of the rows' versions. -/
theorem tokensOk (h : Does i d pc a d' pc') (hd : TokensOk d) (hg : Grip i d pc) :
    TokensOk d' := by
  cases h with
  | login => exact hd
  | plain hs _ _ => exact hd.of_eq hs.rows hs.nextToken
  | present => exact hd
  | lock hv _ _ => exact hd.putToken (hd.lt hv) ((hd.2 _).put hv rfl id)
  | found hv _ _ => exact hd.putToken (hd.lt hv) ((hd.2 _).put hv rfl id)
  | role => exact hd
  | mark => exact hd.putToken (hd.lt hg.2) ((hd.2 _).put hg.2 rfl id)
  | insert => exact hd.insertPair
  | visit hv _ => exact hd.putToken (hd.lt hv) ((hd.2 _).revoke hv)
  | swept _ hseen => exact hd.deleteAll hseen
  | sweptOther hs => exact hd.of_eq hs.rows hs.nextToken
  | sweepEnds => exact hd
  | commit => exact hd.commit i
  | abort => exact hd.rollback i

/-- Every statement only ages the rows: they are used, revoked or deleted, and never brought back.
-/
theorem ages (h : Does i d pc a d' pc') (hd : TokensOk d) (hg : Grip i d pc) : Ages d d' where
  next := h.next
  kept k r r' hb hb' := by
    rcases h.base with hsame | ⟨o, -, rfl, -⟩
    · rw [hsame k, hb] at hb'
      cases hb'
      exact ⟨rfl, id⟩
    · rw [Db.commit_refreshTokens, Table.commit_apply, Slot.commit_base] at hb'
      exact (hd.2 k).view hb' hb
  lost k r hb hb' := by
    rcases h.base with hsame | ⟨o, -, rfl, -⟩
    · rw [hsame k, hb] at hb'
      cases hb'
    · -- the call that commits has deleted the row
      rw [Db.commit_refreshTokens, Table.commit_apply] at hb' ⊢
      have hheld : (d.refreshTokens k).Held i := by
        by_contra hn
        rw [Slot.commit_of_not_held hn, hb] at hb'
        cases hb'
      rw [Slot.commit_of_held hheld] at hb' ⊢
      rw [Slot.settled_base] at hb'
      rw [hb']
      exact Gone.settled
  gone _ := h.gone hg

end Does

/-- A committed row has been drawn. -/
theorem TokensOk.base_lt (h : TokensOk d) (hb : (d.refreshTokens k).base = some r) :
    k < d.nextToken := by
  rcases Nat.lt_or_ge k d.nextToken with hlt | hge
  · exact hlt
  · rw [h.1 k hge] at hb
    cases hb

/-- A committed row of the family. -/
theorem OfFamily.of_base (hd : TokensOk d) (hb : (d.refreshTokens k).base = some r)
    (hF : r.familyId = F) : OfFamily F d k where
  drawn := hd.base_lt hb
  family r' hb' := by
    cases hb.symm.trans hb'
    exact hF
  gone hb' := by cases hb.symm.trans hb'

/-! ## The statements, by what they lock -/

/-- The three tables are as before. -/
structure SameRows (d d' : Db) : Prop where
  tokens : d'.refreshTokens = d.refreshTokens
  families : d'.revokedFamilies = d.revokedFamilies
  jtis : d'.accessDenylist = d.accessDenylist

theorem SameRows.refl (d : Db) : SameRows d d := ⟨rfl, rfl, rfl⟩

/-- What a call has to do next leaves open what it holds. -/
def Pc.Quiet : Pc → Prop
  | .insertPair _ _ _ _ | .sweep _ _ _ | .commit _ => True
  | _ => False

/-- Where a request takes a call. -/
def Pc.First : Pc → Prop
  | .refreshSelect _ _ | .revokeStart _ _ _ | .sweep _ _ _ | .done _ => True
  | _ => False

/-- The statements of call `i`, by the rows they lock. -/
inductive Moves (i : ℕ) (d : Db) : Pc → Stmt → Db → Pc → Prop
  | begins {a : Stmt} {d' : Db} {pc' : Pc} : SameRows d d' → pc'.First → Moves i d .idle a d' pc'
  | reuse {a : Stmt} {tok : Token} {at₀ : ℕ} {row : RefreshRow} :
      (d.refreshTokens tok).view i = some row → row.revokedAt = none →
      Moves i d (.refreshSelect tok at₀) a (d.putToken i tok (some row))
        (.revokeStart .reuse row.familyId at₀)
  | found {a : Stmt} {tok : Token} {at₀ : ℕ} {row : RefreshRow} :
      Moves i d (.refreshSelect tok at₀) a (d.putToken i tok (some row)) (.refreshRole tok row at₀)
  | role {a : Stmt} {tok : Token} {row : RefreshRow} {at₀ : ℕ} {role : Role} :
      Moves i d (.refreshRole tok row at₀) a d (.refreshMark tok row role at₀)
  /-- The family UPDATE begins. -/
  | start {why : RevokeFor} {F : FamilyId} {at₀ : ℕ} :
      Moves i d (.revokeStart why F at₀) .run d (.revokeRows why F at₀ (snapshot i d F))
  /-- The family UPDATE takes a row. -/
  | visit {why : RevokeFor} {F : FamilyId} {at₀ : ℕ} {rest : List Token} {k : Token} :
      k ∈ rest → (d.refreshTokens k).Free i →
      Moves i d (.revokeRows why F at₀ rest) (.visit k) (visitRow i F at₀ k d)
        (.revokeRows why F at₀ (rest.erase k))
  | visited {a : Stmt} {why : RevokeFor} {F : FamilyId} {at₀ : ℕ} :
      Moves i d (.revokeRows why F at₀ []) a d (.denyFamily why F at₀)
  | family {a : Stmt} {why : RevokeFor} {F : FamilyId} {at₀ : ℕ} {v : Option ℕ} {pc' : Pc} :
      (d.revokedFamilies F).Free i → ¬ pc'.NoFamily →
      Moves i d (.denyFamily why F at₀) a
        { d with revokedFamilies := d.revokedFamilies.put i F v } pc'
  /-- Everything else. -/
  | quiet {pc : Pc} {a : Stmt} {d' : Db} {pc' : Pc} :
      Table.Own i d.revokedFamilies d'.revokedFamilies →
      Table.Own i d.accessDenylist d'.accessDenylist → pc'.Quiet → Moves i d pc a d' pc'
  | commit {a : Stmt} {o : Outcome} : Moves i d (.commit o) a (d.commit i) (.done o)
  | abort {a : Stmt} {pc : Pc} : Moves i d pc a (d.rollback i) .aborted

/-- Neither denylist is touched. -/
theorem Moves.still (hf : d'.revokedFamilies = d.revokedFamilies)
    (hj : d'.accessDenylist = d.accessDenylist) (hp : pc'.Quiet) : Moves i d pc a d' pc' := by
  refine .quiet ?_ ?_ hp
  · rw [hf]
    exact Table.Own.refl i _
  · rw [hj]
    exact Table.Own.refl i _

/-- Every statement is one of the ways of `Moves`, which tell what is held before and after it. -/
theorem stmt_moves (h : stmt i d pc a = some (d', pc')) : Moves i d pc a d' pc' := by
  have same := SameRows.refl d
  cases stmt_branch h with
  | refresh => exact .begins same trivial
  | stranger _ => exact .begins same trivial
  | login _ => exact .begins ⟨rfl, rfl, rfl⟩ trivial
  | logout => exact .begins same trivial
  | reused hf hnone _ => exact .reuse hf.seen hnone
  | found _ _ _ => exact .found
  | role _ => exact .role
  | start => exact .start
  | visit hin hfree => exact .visit hin hfree
  | visited => exact .visited
  | denyReused hfree => exact .family hfree id
  | denyFamily hfree => exact .family hfree id
  | denyJti hfree => exact .quiet (Table.Own.refl i _) (Table.Own.put hfree) trivial
  | sweptTokens _ => exact .quiet (Table.Own.refl i _) (Table.Own.refl i _) trivial
  | sweptJtis hs =>
      exact .quiet (Table.Own.refl i _) (Table.Own.deleteAll fun k hk => (hs.2 k hk).1) trivial
  | sweptFamilies hs =>
      exact .quiet (Table.Own.deleteAll fun k hk => (hs.2 k hk).1) (Table.Own.refl i _) trivial
  | commit => exact .commit
  | abort => exact .abort
  | _ => exact .still rfl rfl trivial

/-! ## What the others leave to a call -/

theorem NoneHeld.kept {V : Type} {T T' : Table ℕ ℕ V} (hk : Table.Kept i T T')
    (h : NoneHeld i T) : NoneHeld i T' :=
  fun k => hk.other k (h k)

/-- A row of a family stays one of it while rows age. -/
theorem OfFamily.ages (ha : Ages d d') (h : OfFamily F d k) : OfFamily F d' k where
  drawn := Nat.lt_of_lt_of_le h.drawn ha.next
  family r' hb' := by
    cases hb : (d.refreshTokens k).base with
    | none =>
        have hgone := ha.gone k h.drawn (h.gone hb)
        rw [hgone.1] at hb'
        cases hb'
    | some r => exact (ha.kept k r r' hb hb').1.trans (h.family r hb)
  gone hb' := by
    cases hb : (d.refreshTokens k).base with
    | none => exact ha.gone k h.drawn (h.gone hb)
    | some r => exact ha.lost k r hb hb'

/-- What a call holds stays so while others move. -/
theorem Grip.rely (hk : Table.Kept i d.refreshTokens d'.refreshTokens) (ha : Ages d d')
    (h : Grip i d pc) : Grip i d' pc := by
  cases pc with
  | idle => exact NoneHeld.kept hk h
  | refreshSelect _ _ => exact NoneHeld.kept hk h
  | done _ => exact NoneHeld.kept hk h
  | aborted => exact NoneHeld.kept hk h
  | refreshRole tok row at₀ =>
      change ((d'.refreshTokens tok).Held i ∧ (d'.refreshTokens tok).view i = some row)
      rw [hk.held tok h.1]
      exact h
  | refreshMark tok row role at₀ =>
      change ((d'.refreshTokens tok).Held i ∧ (d'.refreshTokens tok).view i = some row)
      rw [hk.held tok h.1]
      exact h
  | revokeStart why F at₀ =>
      intro k hheld
      have hold := hk.held_iff.mp hheld
      rw [hk.held k hold]
      exact h k hold
  | revokeRows why F at₀ rest =>
      refine ⟨?_, fun k hmem => (h.2 k hmem).ages ha⟩
      intro k hheld
      have hold := hk.held_iff.mp hheld
      rw [hk.held k hold]
      exact h.1 k hold
  | _ => trivial

/-- A statement of one call leaves the denials another one holds. -/
theorem Moves.families (h : Moves i d pc a d' pc') (hne : j ≠ i) :
    Table.Kept j d.revokedFamilies d'.revokedFamilies ∧
      Table.Kept j d.accessDenylist d'.accessDenylist := by
  have same : ∀ {x : Db}, x.revokedFamilies = d.revokedFamilies →
      x.accessDenylist = d.accessDenylist → Table.Kept j d.revokedFamilies x.revokedFamilies ∧
        Table.Kept j d.accessDenylist x.accessDenylist := by
    intro x hf hj
    rw [hf, hj]
    exact ⟨Table.Kept.refl j _, Table.Kept.refl j _⟩
  cases h with
  | begins hs _ => exact same hs.families hs.jtis
  | visit _ _ =>
      unfold visitRow
      split
      · exact same rfl rfl
      · exact same rfl rfl
  | family hfree _ => exact ⟨Table.Kept.put hne.symm hfree, Table.Kept.refl j _⟩
  | quiet hf hj _ => exact ⟨hf.kept j hne, hj.kept j hne⟩
  | commit => exact ⟨Table.Kept.commit hne.symm, Table.Kept.commit hne.symm⟩
  | abort => exact ⟨Table.Kept.rollback hne.symm, Table.Kept.rollback hne.symm⟩
  | _ => exact same rfl rfl

theorem Denied.kept (hf : Table.Kept i d.revokedFamilies d'.revokedFamilies)
    (hj : Table.Kept i d.accessDenylist d'.accessDenylist) (h : Denied i d pc) :
    Denied i d' pc :=
  ⟨fun hp => (h.families hp).kept hf, fun hp => (h.jtis hp).kept hj⟩

/-! ## What a statement leaves to its own call -/

theorem noneHeld_commit {V : Type} {T : Table ℕ ℕ V} : NoneHeld i (T.commit i) :=
  fun _ => Slot.not_held_commit

theorem noneHeld_rollback {V : Type} {T : Table ℕ ℕ V} : NoneHeld i (T.rollback i) :=
  fun _ => Slot.not_held_rollback

/-- What a call holds among the denials goes with its program point. -/
theorem Moves.denied (h : Moves i d pc a d' pc') (hl : Denied i d pc) : Denied i d' pc' := by
  cases h with
  | begins hs _ =>
      refine ⟨fun _ => ?_, fun _ => ?_⟩
      · rw [hs.families]
        exact hl.families trivial
      · rw [hs.jtis]
        exact hl.jtis trivial
  | visit _ _ =>
      unfold visitRow
      split
      · exact ⟨hl.families, hl.jtis⟩
      · exact ⟨hl.families, hl.jtis⟩
  | family _ hp => exact ⟨fun hp' => absurd hp' hp, fun _ => hl.jtis trivial⟩
  | quiet _ _ hp =>
      refine ⟨fun hp' => ?_, fun hp' => ?_⟩
      · cases pc' <;> first | exact absurd hp' id | exact absurd hp id
      · cases pc' <;> first | exact absurd hp' id | exact absurd hp id
  | commit => exact ⟨fun _ => noneHeld_commit, fun _ => noneHeld_commit⟩
  | abort => exact ⟨fun _ => noneHeld_rollback, fun _ => noneHeld_rollback⟩
  | _ => exact ⟨fun _ => hl.families trivial, fun _ => hl.jtis trivial⟩

/-- At the start of the family UPDATE the call sees the rows as they are committed. -/
theorem Grip.view (h : Grip i d (.revokeStart why F at₀)) (k : Token) :
    (d.refreshTokens k).view i = (d.refreshTokens k).base := by
  by_cases hheld : (d.refreshTokens k).Held i
  · rcases h k hheld with ⟨r, hb, hv, -⟩
    rw [hv, hb]
  · exact Slot.view_of_not_held hheld

/-- The UPDATE has before it the committed rows of the family that nobody has revoked. -/
theorem mem_snapshot (hd : TokensOk d) (h : Grip i d (.revokeStart why F at₀)) :
    k ∈ snapshot i d F ↔ ∃ r, (d.refreshTokens k).base = some r ∧ r.familyId = F ∧
      r.revokedAt = none := by
  unfold snapshot
  rw [List.mem_filter, List.mem_range, h.view k]
  constructor
  · rintro ⟨-, hany⟩
    rw [Option.any_eq_true] at hany
    rcases hany with ⟨r, hr, hrev⟩
    simp only [toRevoke, Bool.and_eq_true, beq_iff_eq, Option.isNone_iff_eq_none] at hrev
    exact ⟨r, hr, hrev.1, hrev.2⟩
  · rintro ⟨r, hr, hF, hrev⟩
    refine ⟨hd.base_lt hr, ?_⟩
    rw [hr]
    simp [toRevoke, hF, hrev]

/-- What a call holds among the rows goes with its program point. -/
theorem Moves.grip (h : Moves i d pc a d' pc') (hd : TokensOk d) (ha : Ages d d')
    (hl : Grip i d pc) : Grip i d' pc' := by
  -- only a lock, a visit and a sweep take rows; COMMIT and ROLLBACK let them all go
  cases h with
  | begins hs hp =>
      have hnone : NoneHeld i d'.refreshTokens := by
        rw [hs.tokens]
        exact hl
      cases pc' with
      | refreshSelect _ _ => exact hnone
      | revokeStart _ _ _ => exact fun k hk => absurd hk (hnone k)
      | sweep _ _ _ => trivial
      | done _ => exact hnone
      | _ => exact absurd hp id
  | @reuse _ tok at₀ row hv hrev =>
      have hbase : (d.refreshTokens tok).base = some row := by
        rw [← Slot.view_of_not_held (hl tok), hv]
      intro k hk
      rw [Db.putToken_refreshTokens, Table.held_put_iff] at hk
      split at hk
      · next heq =>
          subst heq
          rw [Db.putToken_refreshTokens, Table.put_self, Slot.put_base, Slot.view_put]
          exact ⟨row, hbase, rfl, rfl, hrev⟩
      · exact absurd hk (hl k)
  | found =>
      refine ⟨?_, ?_⟩
      · rw [Db.putToken_refreshTokens, Table.put_self]
        exact Slot.held_put
      · rw [Db.putToken_refreshTokens, Table.put_self, Slot.view_put]
  | role => exact hl
  | start =>
      refine ⟨?_, ?_⟩
      · intro k hk
        rcases hl k hk with ⟨r, hb, -, hF, -⟩
        exact ⟨r, hb, hF⟩
      · intro k hk
        rcases (mem_snapshot hd hl).mp hk with ⟨r, hb, hF, -⟩
        exact OfFamily.of_base hd hb hF
  | @visit why F at₀ rest k hk hfree =>
      refine ⟨?_, fun k' hk' => (hl.2 k' (List.mem_of_mem_erase hk')).ages ha⟩
      intro k' hk'
      unfold visitRow at hk' ⊢
      split at hk'
      · exact hl.1 k' hk'
      · next row hv =>
          rw [Db.putToken_refreshTokens, Table.held_put_iff] at hk'
          rw [Db.putToken_refreshTokens, Table.put_base]
          split at hk'
          · next heq =>
              subst heq
              by_cases hheld : (d.refreshTokens k').Held i
              · exact hl.1 k' hheld
              · rw [Slot.view_of_not_held hheld] at hv
                exact ⟨row, hv, (hl.2 k' hk).family row hv⟩
          · exact hl.1 k' hk'
  | visited => trivial
  | family _ hp => cases pc' <;> trivial
  | quiet _ _ hp => cases pc' <;> trivial
  | commit => exact noneHeld_commit
  | abort => exact noneHeld_rollback

end Marketplace.Auth

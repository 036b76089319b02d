import Marketplace.Auth.Revocation
import Marketplace.Auth.Steps
import Marketplace.Core.Sql

/-!
# Auth.Rotation — the refresh tokens of a family are a chain

Login, refresh and logout transactions in any interleaving. A family has at most one live row
at any time: whoever puts the next row in either holds the live one (`Rotating`), and no two
calls can, or has drawn the family itself (`NewFamily`). So each token is exchanged once, and
all rows of a family are those of the user that logged in.

`req i` is the request of call `i`, and `owner F` the user who logged in to family `F`.
-/

namespace Marketplace.Auth

open Core

variable {i j : ℕ} {d d' : Db} {pc pc' : Pc} {a : Stmt} {owner owner' : FamilyId → UserId}
  {req req' : Option Stmt} {tok k : Token} {u : UserId} {F : FamilyId} {row r : RefreshRow}
  {o : Outcome}

/-! ## What a call has in hand -/

/-- A later version of a row: the same family and user, used and revoked for good. -/
structure Later (b r : RefreshRow) : Prop where
  family : r.familyId = b.familyId
  user : r.userId = b.userId
  used : r.usedAt = none → b.usedAt = none
  revoked : r.revokedAt = none → b.revokedAt = none

theorem Later.refl (r : RefreshRow) : Later r r := ⟨rfl, rfl, id, id⟩

theorem Later.trans {a b c : RefreshRow} (h₁ : Later a b) (h₂ : Later b c) : Later a c :=
  ⟨h₂.family.trans h₁.family, h₂.user.trans h₁.user, fun h => h₁.used (h₂.used h),
    fun h => h₁.revoked (h₂.revoked h)⟩

theorem Later.live {b r : RefreshRow} (h : Later b r) (hr : r.Live) : b.Live :=
  ⟨h.used hr.1, h.revoked hr.2⟩

/-- The call holds the live row `row` and has not changed it. -/
structure InHand (i : ℕ) (d : Db) (tok : Token) (row : RefreshRow) : Prop where
  held : (d.refreshTokens tok).Held i
  view : (d.refreshTokens tok).view i = some row
  base : (d.refreshTokens tok).base = some row
  live : row.Live

/-- The call holds the live row of the family, and in its own version that row is used. -/
structure Rotating (i : ℕ) (d : Db) (tok : Token) (F : FamilyId) : Prop where
  held : (d.refreshTokens tok).Held i
  base : ∃ row, (d.refreshTokens tok).base = some row ∧ row.Live ∧ row.familyId = F
  used : ∀ r, (d.refreshTokens tok).view i = some r → r.usedAt ≠ none

/-- No committed row is in the family. -/
def NewFamily (d : Db) (F : FamilyId) : Prop :=
  ∀ k row, (d.refreshTokens k).base = some row → row.familyId ≠ F

/-- What entitles the call to a new row of the family. -/
def Grant (req : Option Stmt) (i : ℕ) (d : Db) (u : UserId) (F : FamilyId) : Prop :=
  match req with
  | some (.refresh tok) => Rotating i d tok F
  | some (.login u') => u' = u ∧ NewFamily d F
  | _ => False

/-- Every row the call has put in is one row, of the family. -/
def InsertsOne (i : ℕ) (d : Db) (F : FamilyId) : Prop :=
  ∃ k₀, ∀ k r, (d.refreshTokens k).base = none → (d.refreshTokens k).view i = some r →
    k = k₀ ∧ r.familyId = F

/-- The token was exchanged: every version of its row is used. -/
structure Spent (tok : Token) (d : Db) : Prop where
  drawn : tok < d.nextToken
  used : Table.All (fun k r => k = tok → r.usedAt ≠ none) d.refreshTokens

/-- The family is the user's, and was drawn. -/
def Owns (owner : FamilyId → UserId) (d : Db) (u : UserId) (F : FamilyId) : Prop :=
  owner F = u ∧ F < d.nextFamily

/-- The local fact of a call. -/
def Loc (owner : FamilyId → UserId) (req : Option Stmt) (i : ℕ) (d : Db) : Pc → Prop
  | .idle => req = none ∧ Clean i d
  | .refreshSelect tok _ => req = some (.refresh tok) ∧ Clean i d
  | .refreshRole tok row _ | .refreshMark tok row _ _ =>
      req = some (.refresh tok) ∧ NoInsert i d ∧ InHand i d tok row
  | .insertPair u _ F _ | .sweep _ (.insertPair u _ F) _ =>
      NoInsert i d ∧ Grant req i d u F ∧ Owns owner d u F
  | .commit (.ok F pair) =>
      InsertsOne i d F ∧ Grant req i d pair.accessToken.sub F ∧ Owns owner d pair.accessToken.sub F
  | .done (.ok F pair) =>
      NoInsert i d ∧ Owns owner d pair.accessToken.sub F ∧
        (∀ tok, req = some (.refresh tok) → Spent tok d) ∧
        ∀ u, req = some (.login u) → pair.accessToken.sub = u
  | .aborted => ∀ k, ¬ (d.refreshTokens k).Held i
  | _ => NoInsert i d

/-- The call is about to give the family its next row. -/
def Pc.Grants (F : FamilyId) : Pc → Prop
  | .insertPair _ _ f _ | .sweep _ (.insertPair _ _ f) _ | .commit (.ok f _) => f = F
  | _ => False

/-- The rows. -/
structure Chain (owner : FamilyId → UserId) (d : Db) : Prop where
  fresh : ∀ k, d.nextToken ≤ k → d.refreshTokens k = Slot.settled none
  ordered : Table.Ordered Later d.refreshTokens
  owned : Table.All (fun _ r => Owns owner d r.userId r.familyId) d.refreshTokens
  single : ∀ k k' r r', (d.refreshTokens k).base = some r → (d.refreshTokens k').base = some r' →
    r.familyId = r'.familyId → r.Live → r'.Live → k = k'

/-! ## Small facts -/

/-- At a plain program point a call need only have inserted nothing. -/
theorem Loc.of_plain (hp : pc.Plain) (h : NoInsert i d) : Loc owner req i d pc := by
  cases pc with
  | revokeStart _ _ _ => exact h
  | revokeRows _ _ _ _ => exact h
  | denyFamily _ _ _ => exact h
  | denyJti _ _ _ => exact h
  | sweep _ after _ =>
      cases after with
      | insertPair _ _ _ => exact absurd hp id
      | finishLogout _ => exact h
  | commit o =>
      cases o with
      | ok _ _ => exact absurd hp id
      | _ => exact h
  | done o =>
      cases o with
      | ok _ _ => exact absurd hp id
      | _ => exact h
  | _ => exact absurd hp id

theorem noInsert_of_free (h : ∀ k, ¬ (d.refreshTokens k).Held i) : NoInsert i d := by
  intro k hb
  rw [Slot.view_of_not_held (h k), hb]

/-- Only a call that has put its new row in has one. -/
theorem Loc.noInsert (hp : ¬ pc.Inserted) (h : Loc owner req i d pc) : NoInsert i d := by
  cases pc with
  | idle => exact h.2.noInsert
  | refreshSelect _ _ => exact h.2.noInsert
  | refreshRole _ _ _ => exact h.2.1
  | refreshMark _ _ _ _ => exact h.2.1
  | insertPair _ _ _ _ => exact h.1
  | revokeStart _ _ _ => exact h
  | revokeRows _ _ _ _ => exact h
  | denyFamily _ _ _ => exact h
  | denyJti _ _ _ => exact h
  | aborted => exact noInsert_of_free h
  | sweep _ after _ =>
      cases after with
      | insertPair _ _ _ => exact h.1
      | finishLogout _ => exact h
  | commit o =>
      cases o with
      | ok _ _ => exact absurd trivial hp
      | _ => exact h
  | done o =>
      cases o with
      | ok _ _ => exact h.1
      | _ => exact h

/-- Whether a call has inserted a row is a matter of the rows only. -/
theorem NoInsert.congr (h : d'.refreshTokens = d.refreshTokens) (hn : NoInsert i d) :
    NoInsert i d' := by
  intro k
  rw [h]
  exact hn k

theorem noInsert_commit : NoInsert i (d.commit i) :=
  noInsert_of_free fun _ => Slot.not_held_commit

/-- A new version of a row that was there. -/
theorem NoInsert.putToken {v : Option RefreshRow} (hn : NoInsert i d)
    (hv : (d.refreshTokens k).view i ≠ none) : NoInsert i (d.putToken i k v) := by
  intro k' hb
  rw [Db.putToken_refreshTokens, Table.put_base] at hb
  have hne : k' ≠ k := by
    rintro rfl
    exact hv (hn k' hb)
  rw [Db.putToken_refreshTokens, Table.put_ne hne]
  exact hn k' hb

/-- A delete inserts nothing. -/
theorem NoInsert.deleteAll {keys : List Token} (hn : NoInsert i d) :
    NoInsert i { d with refreshTokens := d.refreshTokens.deleteAll i keys } := by
  intro k hb
  change (d.refreshTokens.deleteAll i keys k).base = none at hb
  change (d.refreshTokens.deleteAll i keys k).view i = none
  unfold Table.deleteAll at hb ⊢
  split at hb
  · next hk => rw [if_pos hk, Slot.view_put]
  · next hk =>
      rw [if_neg hk]
      exact hn k hb

/-- A rotation survives the sweep that goes with it: what it holds is not deleted. -/
theorem Rotating.deleteAll {keys : List Token} (h : Rotating i d tok F) :
    Rotating i { d with refreshTokens := d.refreshTokens.deleteAll i keys } tok F := by
  by_cases hk : tok ∈ keys
  · have hslot : d.refreshTokens.deleteAll i keys tok = (d.refreshTokens tok).put i none := by
      unfold Table.deleteAll
      rw [if_pos hk]
    refine ⟨?_, ?_, ?_⟩
    · change (d.refreshTokens.deleteAll i keys tok).Held i
      rw [hslot]
      exact Slot.held_put
    · change ∃ row, (d.refreshTokens.deleteAll i keys tok).base = some row ∧ _
      rw [hslot]
      exact h.base
    · change ∀ r, (d.refreshTokens.deleteAll i keys tok).view i = some r → _
      rw [hslot, Slot.view_put]
      intro r hr
      cases hr
  · have hslot : d.refreshTokens.deleteAll i keys tok = d.refreshTokens tok := by
      unfold Table.deleteAll
      rw [if_neg hk]
    refine ⟨?_, ?_, ?_⟩
    · change (d.refreshTokens.deleteAll i keys tok).Held i
      rw [hslot]
      exact h.held
    · change ∃ row, (d.refreshTokens.deleteAll i keys tok).base = some row ∧ _
      rw [hslot]
      exact h.base
    · change ∀ r, (d.refreshTokens.deleteAll i keys tok).view i = some r → _
      rw [hslot]
      exact h.used

/-! ## The rows -/

namespace Chain

/-- A row that is there at all, in any version, has been drawn. -/
theorem lt (h : Chain owner d) (hv : (d.refreshTokens k).view i = some r) : k < d.nextToken := by
  rcases Nat.lt_or_ge k d.nextToken with hlt | hge
  · exact hlt
  · rw [h.fresh k hge] at hv
    cases hv

/-- A committed row has an id that was drawn. -/
theorem base_lt (h : Chain owner d) (hb : (d.refreshTokens k).base = some r) :
    k < d.nextToken := by
  rcases Nat.lt_or_ge k d.nextToken with hlt | hge
  · exact hlt
  · rw [h.fresh k hge] at hb
    cases hb

/-- Owners of families that were not drawn do not matter. -/
theorem of_owner (h : Chain owner d) (ho : ∀ F, F < d.nextFamily → owner' F = owner F) :
    Chain owner' d where
  fresh := h.fresh
  ordered := h.ordered
  owned := by
    refine h.owned.imp ?_
    intro k r hr
    exact ⟨(ho _ hr.2).trans hr.1, hr.2⟩
  single := h.single

/-- The chain is a matter of rows and drawn ids only. -/
theorem congr (h : Chain owner d) (hs : SameTokens d d') : Chain owner d' where
  fresh k hk := by
    rw [hs.nextToken] at hk
    rw [hs.rows]
    exact h.fresh k hk
  ordered := by
    rw [hs.rows]
    exact h.ordered
  owned := by
    rw [hs.rows]
    refine h.owned.imp ?_
    intro k r ho
    exact ⟨ho.1, by rw [hs.nextFamily]; exact ho.2⟩
  single := by
    rw [hs.rows]
    exact h.single

/-- A later version of a row. -/
theorem putToken (h : Chain owner d) (hv : (d.refreshTokens k).view i = some row)
    (hl : Later row r) : Chain owner (d.putToken i k (some r)) where
  fresh k' hk' := by
    have hlt := h.lt hv
    have hne : k' ≠ k := Nat.ne_of_gt (Nat.lt_of_lt_of_le hlt hk')
    rw [Db.putToken_refreshTokens, Table.put_ne hne]
    exact h.fresh k' hk'
  ordered := by
    refine h.ordered.put ?_
    intro r' b hr hb
    cases hr
    exact (h.ordered.view Later.refl hv hb).trans hl
  owned := by
    refine h.owned.put ?_
    intro r' hr
    cases hr
    have ho : Owns owner d row.userId row.familyId := h.owned.view hv
    rw [hl.user, hl.family]
    exact ho
  single k₁ k₂ r₁ r₂ h₁ h₂ := by
    rw [Db.putToken_refreshTokens, Table.put_base] at h₁ h₂
    exact h.single k₁ k₂ r₁ r₂ h₁ h₂

/-- A new row for a new token. -/
theorem insertPair {role : Role} {at₀ : ℕ} (h : Chain owner d) (ho : Owns owner d u F) :
    Chain owner (insertPair i d u role F at₀).1 where
  fresh k hk := by
    have hne : k ≠ d.nextToken := Nat.ne_of_gt hk
    change (d.refreshTokens.put i d.nextToken _) k = _
    rw [Table.put_ne hne]
    exact h.fresh k (Nat.le_of_succ_le hk)
  ordered := by
    refine h.ordered.put ?_
    intro r b _ hb
    rw [h.fresh _ (Nat.le_refl _)] at hb
    cases hb
  owned := by
    refine h.owned.put ?_
    intro r hr
    cases hr
    exact ho
  single k₁ k₂ r₁ r₂ h₁ h₂ := by
    change ((d.refreshTokens.put i d.nextToken _) _).base = _ at h₁ h₂
    rw [Table.put_base] at h₁ h₂
    exact h.single k₁ k₂ r₁ r₂ h₁ h₂

/-- Deleting rows keeps the chain: what is left was in order before. -/
theorem deleteAll {keys : List Token} (h : Chain owner d)
    (hk : ∀ k ∈ keys, (d.refreshTokens k).view i ≠ none) :
    Chain owner { d with refreshTokens := d.refreshTokens.deleteAll i keys } where
  fresh k hlt := by
    have hnot : k ∉ keys := by
      intro hmem
      apply hk k hmem
      rw [h.fresh k hlt]
      rfl
    change d.refreshTokens.deleteAll i keys k = _
    unfold Table.deleteAll
    rw [if_neg hnot]
    exact h.fresh k hlt
  ordered := h.ordered.deleteAll
  owned := h.owned.deleteAll
  single k₁ k₂ r₁ r₂ h₁ h₂ := by
    have hbase : ∀ k, (d.refreshTokens.deleteAll i keys k).base = (d.refreshTokens k).base := by
      intro k
      unfold Table.deleteAll
      split <;> rfl
    change (d.refreshTokens.deleteAll i keys _).base = _ at h₁ h₂
    rw [hbase] at h₁ h₂
    exact h.single k₁ k₂ r₁ r₂ h₁ h₂

/-- A ROLLBACK keeps the chain: committed rows stay, and drafts are fewer. -/
theorem rollback (h : Chain owner d) : Chain owner (d.rollback i) where
  fresh k hk := by
    rw [Db.rollback_refreshTokens, Table.rollback_apply, h.fresh k hk,
      Slot.rollback_of_not_held Slot.not_held_settled]
  ordered := h.ordered.rollback
  owned := h.owned.rollback
  single k₁ k₂ r₁ r₂ h₁ h₂ := by
    rw [Db.rollback_refreshTokens, Table.rollback_apply, Slot.rollback_base] at h₁ h₂
    exact h.single k₁ k₂ r₁ r₂ h₁ h₂

/-- A login draws the next family. -/
theorem login (h : Chain owner d) : Chain owner { d with nextFamily := d.nextFamily + 1 } where
  fresh := h.fresh
  ordered := h.ordered
  owned := by
    refine h.owned.imp ?_
    intro k r ho
    exact ⟨ho.1, Nat.lt_succ_of_lt ho.2⟩
  single := h.single

/-- A committed row after a COMMIT is a later version of a committed row, or was put in. -/
theorem commit_row (h : Chain owner d) (hb : ((d.commit i).refreshTokens k).base = some r) :
    (∃ b, (d.refreshTokens k).base = some b ∧ Later b r) ∨
      (d.refreshTokens k).base = none ∧ (d.refreshTokens k).view i = some r := by
  rw [Db.commit_refreshTokens, Table.commit_apply, Slot.commit_base] at hb
  cases hold : (d.refreshTokens k).base with
  | none => exact Or.inr ⟨rfl, hb⟩
  | some b => exact Or.inl ⟨b, rfl, h.ordered.view Later.refl hb hold⟩

/-- COMMIT. The one row that may be new is in a family without another live row. -/
theorem commit (h : Chain owner d)
    (hnew : ∀ k k' r r', (d.refreshTokens k).base = none → (d.refreshTokens k).view i = some r →
      (d.refreshTokens k').view i = some r' → r.familyId = r'.familyId → r'.Live → k = k') :
    Chain owner (d.commit i) where
  fresh k hk := by
    rw [Db.commit_refreshTokens, Table.commit_apply, h.fresh k hk,
      Slot.commit_of_not_held Slot.not_held_settled]
  ordered := h.ordered.commit
  owned := h.owned.commit
  single k₁ k₂ r₁ r₂ h₁ h₂ hf hl₁ hl₂ := by
    have hv₁ : (d.refreshTokens k₁).view i = some r₁ := by
      rwa [Db.commit_refreshTokens, Table.commit_apply, Slot.commit_base] at h₁
    have hv₂ : (d.refreshTokens k₂).view i = some r₂ := by
      rwa [Db.commit_refreshTokens, Table.commit_apply, Slot.commit_base] at h₂
    rcases h.commit_row h₁ with ⟨b₁, hb₁, later₁⟩ | ⟨hb₁, -⟩
    · rcases h.commit_row h₂ with ⟨b₂, hb₂, later₂⟩ | ⟨hb₂, -⟩
      · refine h.single k₁ k₂ b₁ b₂ hb₁ hb₂ ?_ (later₁.live hl₁) (later₂.live hl₂)
        rw [← later₁.family, ← later₂.family, hf]
      · exact (hnew k₂ k₁ r₂ r₁ hb₂ hv₂ hv₁ hf.symm hl₁).symm
    · exact hnew k₁ k₂ r₁ r₂ hb₁ hv₁ hv₂ hf hl₂

end Chain

/-! ## The new row -/

variable {role : Role} {at₀ : ℕ}

theorem insertPair_base : ((insertPair i d u role F at₀).1.refreshTokens k).base =
    (d.refreshTokens k).base := Table.put_base

theorem insertPair_slot (hk : k ≠ d.nextToken) :
    (insertPair i d u role F at₀).1.refreshTokens k = d.refreshTokens k := Table.put_ne hk

/-- After the INSERT the call has inserted one row, in the family in hand. -/
theorem NoInsert.insertPair (h : NoInsert i d) :
    InsertsOne i (insertPair i d u role F at₀).1 F := by
  refine ⟨d.nextToken, ?_⟩
  intro k r hb hv
  by_cases hk : k = d.nextToken
  · subst hk
    change ((d.refreshTokens.put i d.nextToken _) d.nextToken).view i = some r at hv
    rw [Table.put_self, Slot.view_put] at hv
    cases hv
    exact ⟨rfl, rfl⟩
  · rw [insertPair_slot hk] at hb hv
    rw [h k hb] at hv
    cases hv

/-- The INSERT of a rotation leaves the row it took as it is: the new id is another. -/
theorem Rotating.insertPair (hd : Chain owner d) (h : Rotating i d tok F) :
    Rotating i (insertPair i d u role F at₀).1 tok F := by
  have hslot : (Auth.insertPair i d u role F at₀).1.refreshTokens tok = d.refreshTokens tok := by
    rcases h.base with ⟨row, hrow, -⟩
    exact insertPair_slot (Nat.ne_of_lt (hd.base_lt hrow))
  refine ⟨?_, ?_, ?_⟩
  · rw [hslot]
    exact h.held
  · rw [hslot]
    exact h.base
  · rw [hslot]
    exact h.used

/-- The row of a rotation or of a login is the only live one of its family. -/
theorem Grant.single (hd : Chain owner d) (hi : InsertsOne i d F) (hg : Grant req i d u F) :
    ∀ k k' r r', (d.refreshTokens k).base = none → (d.refreshTokens k).view i = some r →
      (d.refreshTokens k').view i = some r' → r.familyId = r'.familyId → r'.Live → k = k' := by
  rcases hi with ⟨k₀, hk₀⟩
  intro k k' r r' hb hv hv' hf hl
  have hr := hk₀ k r hb hv
  cases hb' : (d.refreshTokens k').base with
  | none => exact hr.1.trans (hk₀ k' r' hb' hv').1.symm
  | some b =>
      -- the other live row was committed before: not that of a rotation, and not in a new family
      have later := hd.ordered.view Later.refl hv' hb'
      have hbF : b.familyId = F := by rw [← later.family, ← hf, hr.2]
      cases req with
      | none => exact absurd hg id
      | some a =>
          cases a with
          | refresh tok =>
              rcases hg.base with ⟨row, hrow, hlive, hrowF⟩
              have hk' : k' = tok :=
                hd.single k' tok b row hb' hrow (hbF.trans hrowF.symm) (later.live hl) hlive
              subst hk'
              exact absurd hl.1 (hg.used r' hv')
          | login _ => exact absurd hbF (hg.2 k' b hb')
          | _ => exact absurd hg id

/-! ## What the others see -/

/-- What entitles a call to insert a row survives any step that its parts survive. -/
theorem Grant.imp (hr : ∀ tok, Rotating i d tok F → Rotating i d' tok F)
    (hn : NewFamily d F → NewFamily d' F) (h : Grant req i d u F) : Grant req i d' u F := by
  cases req with
  | none => exact h
  | some a =>
      cases a with
      | refresh tok => exact hr tok h
      | login u' => exact ⟨h.1, hn h.2⟩
      | _ => exact h

/-- Other calls' steps do not make a call hold a row. -/
theorem Clean.kept (hk : Table.Kept i d.refreshTokens d'.refreshTokens) (h : Clean i d) :
    Clean i d' := by
  intro k
  by_cases hh : (d.refreshTokens k).Held i
  · rw [hk.held k hh]
    exact h k
  · exact Slot.view_of_not_held (hk.other k hh)

/-- Other calls' steps do not make a call insert a row. -/
theorem NoInsert.kept (hk : Table.Kept i d.refreshTokens d'.refreshTokens) (h : NoInsert i d) :
    NoInsert i d' := by
  intro k hb
  by_cases hh : (d.refreshTokens k).Held i
  · rw [hk.held k hh] at hb ⊢
    exact h k hb
  · rw [Slot.view_of_not_held (hk.other k hh), hb]

/-- What a call has inserted stays while others move. -/
theorem InsertsOne.kept (hk : Table.Kept i d.refreshTokens d'.refreshTokens)
    (h : InsertsOne i d F) : InsertsOne i d' F := by
  rcases h with ⟨k₀, h₀⟩
  refine ⟨k₀, ?_⟩
  intro k r hb hv
  by_cases hh : (d.refreshTokens k).Held i
  · rw [hk.held k hh] at hb hv
    exact h₀ k r hb hv
  · rw [Slot.view_of_not_held (hk.other k hh), hb] at hv
    cases hv

/-- The row a call has in hand stays while others move. -/
theorem InHand.kept (hk : Table.Kept i d.refreshTokens d'.refreshTokens)
    (h : InHand i d tok row) : InHand i d' tok row := by
  have hslot := hk.held tok h.held
  refine ⟨?_, ?_, ?_, h.live⟩
  · rw [hslot]
    exact h.held
  · rw [hslot]
    exact h.view
  · rw [hslot]
    exact h.base

/-- A rotation stays one while others move: they cannot touch the row it holds. -/
theorem Rotating.kept (hk : Table.Kept i d.refreshTokens d'.refreshTokens)
    (h : Rotating i d tok F) : Rotating i d' tok F := by
  have hslot := hk.held tok h.held
  refine ⟨?_, ?_, ?_⟩
  · rw [hslot]
    exact h.held
  · rw [hslot]
    exact h.base
  · rw [hslot]
    exact h.used

/-- With its COMMIT the rotation has used the token up. -/
theorem Rotating.spent (hd : Chain owner d) (h : Rotating i d tok F) : Spent tok (d.commit i) where
  drawn := by
    rcases h.base with ⟨row, hrow, -⟩
    exact hd.base_lt hrow
  used := by
    intro k
    rw [Db.commit_refreshTokens, Table.commit_apply]
    by_cases hk : k = tok
    · subst hk
      rw [Slot.commit_of_held h.held]
      refine ⟨fun r hr _ => h.used r hr, ?_⟩
      intro j r hr
      cases hr
    · exact ⟨fun _ _ h => absurd h hk, fun _ _ _ h => absurd h hk⟩

/-- What a step of somebody else leaves to call `j`. -/
structure Rely (owner owner' : FamilyId → UserId) (j : ℕ) (d d' : Db) : Prop where
  kept : Table.Kept j d.refreshTokens d'.refreshTokens
  spent : ∀ tok, Spent tok d → Spent tok d'
  families : d.nextFamily ≤ d'.nextFamily
  owner : ∀ F, F < d.nextFamily → owner' F = owner F

theorem Owns.rely (hr : Rely owner owner' j d d') (h : Owns owner d u F) : Owns owner' d' u F :=
  ⟨(hr.owner F h.2).trans h.1, Nat.lt_of_lt_of_le h.2 hr.families⟩

/-- What a call knows stays true while others do what they are relied on to do. -/
theorem Loc.rely (hr : Rely owner owner' j d d')
    (hnew : ∀ F, pc.Grants F → NewFamily d F → NewFamily d' F) (h : Loc owner req j d pc) :
    Loc owner' req j d' pc := by
  have hno : NoInsert j d → NoInsert j d' := NoInsert.kept hr.kept
  have hgrant : ∀ {u F}, pc.Grants F → Grant req j d u F → Grant req j d' u F := by
    intro u F hg
    exact Grant.imp (fun _ => Rotating.kept hr.kept) (hnew F hg)
  cases pc with
  | idle => exact ⟨h.1, h.2.kept hr.kept⟩
  | refreshSelect _ _ => exact ⟨h.1, h.2.kept hr.kept⟩
  | refreshRole _ _ _ => exact ⟨h.1, hno h.2.1, h.2.2.kept hr.kept⟩
  | refreshMark _ _ _ _ => exact ⟨h.1, hno h.2.1, h.2.2.kept hr.kept⟩
  | insertPair _ _ _ _ => exact ⟨hno h.1, hgrant rfl h.2.1, h.2.2.rely hr⟩
  | revokeStart _ _ _ => exact hno h
  | revokeRows _ _ _ _ => exact hno h
  | denyFamily _ _ _ => exact hno h
  | denyJti _ _ _ => exact hno h
  | aborted => exact fun k => hr.kept.other k (h k)
  | sweep _ after _ =>
      cases after with
      | insertPair _ _ _ => exact ⟨hno h.1, hgrant rfl h.2.1, h.2.2.rely hr⟩
      | finishLogout _ => exact hno h
  | commit o =>
      cases o with
      | ok _ _ => exact ⟨h.1.kept hr.kept, hgrant rfl h.2.1, h.2.2.rely hr⟩
      | _ => exact hno h
  | done o =>
      cases o with
      | ok _ _ =>
          exact ⟨hno h.1, h.2.1.rely hr, fun tok ht => hr.spent tok (h.2.2.1 tok ht), h.2.2.2⟩
      | _ => exact hno h

namespace Does

/-- A statement of one call leaves the rows of another as they are. -/
theorem kept (h : Does i d pc a d' pc') (hd : Chain owner d) (hl : Loc owner req i d pc)
    (hne : i ≠ j) : Table.Kept j d.refreshTokens d'.refreshTokens := by
  refine h.keeps (hd.fresh _ (Nat.le_refl _)) ?_ hne
  rintro tok row role at₀ rfl
  exact hl.2.2.held

/-- An exchanged token stays exchanged. -/
theorem spent (h : Does i d pc a d' pc') (hs : Spent tok d) : Spent tok d' := by
  rcases hs with ⟨hdrawn, hused⟩
  -- only the mark sets `used_at`, and nothing unsets it
  cases h with
  | login => exact ⟨hdrawn, hused⟩
  | plain hsame _ _ =>
      refine ⟨?_, ?_⟩
      · rwa [hsame.nextToken]
      · rwa [hsame.rows]
  | present => exact ⟨hdrawn, hused⟩
  | lock hv _ _ =>
      refine ⟨hdrawn, hused.put ?_⟩
      intro r hr
      cases hr
      exact hused.view hv
  | found hv _ _ =>
      refine ⟨hdrawn, hused.put ?_⟩
      intro r hr
      cases hr
      exact hused.view hv
  | role => exact ⟨hdrawn, hused⟩
  | mark =>
      refine ⟨hdrawn, hused.put ?_⟩
      intro r hr
      cases hr
      intro _ hn
      cases hn
  | insert =>
      refine ⟨Nat.lt_succ_of_lt hdrawn, hused.put ?_⟩
      intro r _ hk
      exact absurd hk.symm (Nat.ne_of_lt hdrawn)
  | @visit _ _ _ _ _ _ k row hv _ =>
      have hrow : k = tok → row.usedAt ≠ none := hused.view hv
      refine ⟨hdrawn, hused.put ?_⟩
      intro r hr
      cases hr
      split
      · exact hrow
      · exact hrow
  | swept _ _ => exact ⟨hdrawn, hused.deleteAll⟩
  | sweptOther hsame =>
      refine ⟨?_, ?_⟩
      · rwa [hsame.nextToken]
      · rwa [hsame.rows]
  | sweepEnds => exact ⟨hdrawn, hused⟩
  | commit => exact ⟨hdrawn, hused.commit⟩
  | abort => exact ⟨hdrawn, hused.rollback⟩

/-- Families are drawn in order, and none is given back. -/
theorem families (h : Does i d pc a d' pc') : d.nextFamily ≤ d'.nextFamily := by
  cases h with
  | login => exact Nat.le_succ _
  | plain hs _ _ => exact Nat.le_of_eq hs.nextFamily.symm
  | sweptOther hs => exact Nat.le_of_eq hs.nextFamily.symm
  | _ => exact Nat.le_refl _

/-- A call comes to grant a family by drawing it, or with the family's live row. -/
theorem grants (h : Does i d pc a d' pc') (hg : pc'.Grants F) :
    pc.Grants F ∨ F = d.nextFamily ∨
      ∃ tok row role at₀, pc = .refreshMark tok row role at₀ ∧ row.familyId = F := by
  cases h with
  | login => exact Or.inr (Or.inl hg.symm)
  | plain _ _ hp =>
      exfalso
      unfold Pc.Grants at hg
      split at hg <;> first | exact hp | exact hg
  | lock _ _ hp =>
      exfalso
      unfold Pc.Grants at hg
      split at hg <;> first | exact hp | exact hg
  | mark => exact Or.inr (Or.inr ⟨_, _, _, _, rfl, hg⟩)
  | insert => exact Or.inl hg
  | @swept _ _ _ after _ _ _ _ =>
      cases after with
      | insertPair _ _ _ => exact Or.inl hg
      | finishLogout _ => exact absurd hg id
  | @sweptOther _ _ _ after _ _ _ =>
      cases after with
      | insertPair _ _ _ => exact Or.inl hg
      | finishLogout _ => exact absurd hg id
  | sweepEnds => exact Or.inl hg
  | _ => exact absurd hg id

/-- The next local fact. -/
theorem loc (h : Does i d pc a d' pc') (hd : Chain owner d) (hl : Loc owner req i d pc)
    (hidle : pc = .idle → req' = some a) (hnon : pc ≠ .idle → req' = req)
    (howner : ∀ F, F < d.nextFamily → owner' F = owner F)
    (hlogin : ∀ u, a = .login u → pc = .idle → owner' d.nextFamily = u) :
    Loc owner' req' i d' pc' := by
  -- one case a kind of statement; a lock and a mark put the row in hand, the INSERT needs it
  cases h with
  | login =>
      refine ⟨hl.2.noInsert, ?_, hlogin _ rfl rfl, Nat.lt_succ_self _⟩
      rw [hidle rfl]
      refine ⟨rfl, ?_⟩
      intro k row hrow
      have ho : Owns owner d row.userId row.familyId := (hd.owned k).1 row hrow
      exact Nat.ne_of_lt ho.2
  | plain hs hp hp' => exact Loc.of_plain hp' ((hl.noInsert hp).congr hs.rows)
  | present => exact ⟨hidle rfl, hl.2⟩
  | lock hv _ hp' =>
      refine Loc.of_plain hp' (hl.2.noInsert.putToken ?_)
      rw [hv]
      exact Option.some_ne_none _
  | found hv _ hlive =>
      rw [hnon Pc.noConfusion]
      refine ⟨hl.1, ?_, ?_, ?_, ?_, hlive⟩
      · refine hl.2.noInsert.putToken ?_
        rw [hv]
        exact Option.some_ne_none _
      · rw [Db.putToken_refreshTokens, Table.put_self]
        exact Slot.held_put
      · rw [Db.putToken_refreshTokens, Table.put_self, Slot.view_put]
      · rw [Db.putToken_refreshTokens, Table.put_base, ← hl.2, hv]
  | role =>
      rw [hnon Pc.noConfusion]
      exact hl
  | @mark _ tok row _ _ =>
      rcases hl with ⟨hreq, hno, hand⟩
      rw [hnon Pc.noConfusion, hreq]
      have ho : Owns owner d row.userId row.familyId := (hd.owned tok).1 row hand.base
      refine ⟨?_, ⟨?_, ?_, ?_⟩, (howner _ ho.2).trans ho.1, ho.2⟩
      · refine hno.putToken ?_
        rw [hand.view]
        exact Option.some_ne_none _
      · rw [Db.putToken_refreshTokens, Table.put_self]
        exact Slot.held_put
      · rw [Db.putToken_refreshTokens, Table.put_base]
        exact ⟨row, hand.base, hand.live, rfl⟩
      · rw [Db.putToken_refreshTokens, Table.put_self, Slot.view_put]
        intro r hr
        cases hr
        exact Option.some_ne_none _
  | insert =>
      rcases hl with ⟨hno, hg, ho⟩
      rw [hnon Pc.noConfusion]
      refine ⟨hno.insertPair, hg.imp (fun _ hrot => hrot.insertPair hd) ?_,
        (howner _ ho.2).trans ho.1, ho.2⟩
      intro hn k row hrow
      exact hn k row (insertPair_base.symm.trans hrow)
  | visit hv _ =>
      refine NoInsert.putToken hl ?_
      rw [hv]
      exact Option.some_ne_none _
  | @swept _ _ _ after _ keys hfree _ =>
      rw [hnon Pc.noConfusion]
      cases after with
      | insertPair u _ F =>
          rcases hl with ⟨hno, hg, ho⟩
          refine ⟨hno.deleteAll, hg.imp (fun _ => Rotating.deleteAll) ?_,
            (howner F ho.2).trans ho.1, ho.2⟩
          intro hn k row hrow
          exact hn k row (((Table.Own.deleteAll hfree).base k).symm.trans hrow)
      | finishLogout _ => exact NoInsert.deleteAll hl
  | @sweptOther _ _ _ after _ _ hs =>
      rw [hnon Pc.noConfusion]
      cases after with
      | insertPair u _ F =>
          rcases hl with ⟨hno, hg, ho⟩
          have hkept : Table.Kept i d.refreshTokens d'.refreshTokens := by
            rw [hs.rows]
            exact Table.Kept.refl i _
          refine ⟨hno.congr hs.rows, hg.imp (fun _ => Rotating.kept hkept) ?_,
            (howner F ho.2).trans ho.1, ?_⟩
          · intro hn k row hrow
            rw [hs.rows] at hrow
            exact hn k row hrow
          · rw [hs.nextFamily]
            exact ho.2
      | finishLogout _ => exact NoInsert.congr hs.rows hl
  | sweepEnds =>
      rw [hnon Pc.noConfusion]
      exact ⟨hl.1, hl.2.1, (howner _ hl.2.2.2).trans hl.2.2.1, hl.2.2.2⟩
  -- after the COMMIT nothing is held any more
  | @commit _ o =>
      rw [hnon Pc.noConfusion]
      cases o with
      | ok F pair =>
          rcases hl with ⟨-, hg, ho⟩
          refine ⟨noInsert_commit, ⟨(howner F ho.2).trans ho.1, ho.2⟩, ?_, ?_⟩
          · rintro tok rfl
            exact Rotating.spent hd hg
          · rintro u rfl
            exact hg.1.symm
      | _ => exact noInsert_commit
  | abort => exact fun _ => Slot.not_held_rollback

/-- Every statement keeps the chain: in each family at most one row is live, and all are of one
user. -/
theorem chain (h : Does i d pc a d' pc') (hd : Chain owner d) (hl : Loc owner req i d pc)
    (howner : ∀ F, F < d.nextFamily → owner' F = owner F) : Chain owner' d' := by
  have hd' : Chain owner' d := hd.of_owner howner
  cases h with
  | login => exact hd'.login
  | plain hs _ _ => exact hd'.congr hs
  | present => exact hd'
  | lock hv _ _ => exact hd'.putToken hv (Later.refl _)
  | found hv _ _ => exact hd'.putToken hv (Later.refl _)
  | role => exact hd'
  | mark => exact hd'.putToken hl.2.2.view ⟨rfl, rfl, nofun, id⟩
  | insert => exact hd'.insertPair ⟨(howner _ hl.2.2.2).trans hl.2.2.1, hl.2.2.2⟩
  | visit hv _ =>
      refine hd'.putToken hv ?_
      split
      · exact ⟨rfl, rfl, id, nofun⟩
      · exact Later.refl _
  | swept _ hk => exact hd'.deleteAll hk
  | sweptOther hs => exact hd'.congr hs
  | sweepEnds => exact hd'
  | @commit _ o =>
      refine hd'.commit ?_
      cases o with
      | ok F pair => exact Grant.single hd hl.1 hl.2.1
      | _ =>
          intro k k' r r' hb hv
          rw [hl k hb] at hv
          cases hv
  | abort => exact hd'.rollback

end Does

/-! ## The system -/

/-- The call has exchanged its token, or its password, for a pair. -/
def Pc.Succeeded (pc : Pc) : Prop := ∃ F pair, pc = .done (.ok F pair)

/-- A request. -/
def Stmt.Starts : Stmt → Prop
  | .refresh _ | .login _ | .logout _ => True
  | _ => False

/-- `F₀` is the first family drawn in the run. -/
structure Rotation (F₀ : FamilyId) (req : ℕ → Option Stmt) (owner : FamilyId → UserId)
    (s : St) : Prop where
  chain : Chain owner s.shared
  loc : ∀ i, Loc owner (req i) i s.shared (s.proc i)
  /-- No two calls are about to give a family its next row. -/
  distinct : ∀ F i j, (s.proc i).Grants F → (s.proc j).Grants F → i = j
  /-- No two calls have exchanged the same token. -/
  once : ∀ tok i j, req i = some (.refresh tok) → req j = some (.refresh tok) →
    (s.proc i).Succeeded → (s.proc j).Succeeded → i = j
  /-- A family begins with the login that drew it. -/
  origin : ∀ k r, (s.shared.refreshTokens k).base = some r → F₀ ≤ r.familyId →
    ∃ i u pair, req i = some (.login u) ∧ s.proc i = .done (.ok r.familyId pair)

/-- The requests and the owners after call `i` has taken `a`. -/
def noteRequest (i : ℕ) (a : Stmt) (pc : Pc) (req : ℕ → Option Stmt) : ℕ → Option Stmt :=
  if pc = .idle then Function.update req i (some a) else req

def noteOwner (d : Db) (a : Stmt) (owner : FamilyId → UserId) : FamilyId → UserId :=
  match a with
  | .login u => Function.update owner d.nextFamily u
  | _ => owner

/-- A call's request is noted for that call only. -/
theorem noteRequest_other {req : ℕ → Option Stmt} (hne : j ≠ i) :
    noteRequest i a pc req j = req j := by
  unfold noteRequest
  split
  · exact Function.update_of_ne hne _ _
  · rfl

/-- The owner of a family that was drawn before is not noted again. -/
theorem noteOwner_drawn (hF : F < d.nextFamily) : noteOwner d a owner F = owner F := by
  unfold noteOwner
  split
  · exact Function.update_of_ne (Nat.ne_of_lt hF) _ _
  · rfl

/-- A call makes its request from `idle`, once. -/
theorem stmt_starts (h : stmt i d pc a = some (d', pc')) (hs : a.Starts) : pc = .idle := by
  cases pc with
  | idle => rfl
  | _ => cases a <;> first | exact absurd hs id | simp [stmt] at h

theorem stmt_done (h : stmt i d (.done o) a = some (d', pc')) : False := by
  cases a <;> simp [stmt, Pc.Open] at h

/-- About to give a family its next row, the call is entitled to. -/
theorem Loc.grant (h : Loc owner req i d pc) (hg : pc.Grants F) :
    F < d.nextFamily ∧ ∃ u, Grant req i d u F := by
  cases pc with
  | insertPair u _ f _ =>
      cases hg
      exact ⟨h.2.2.2, u, h.2.1⟩
  | sweep _ after _ =>
      cases after with
      | insertPair u _ f =>
          cases hg
          exact ⟨h.2.2.2, u, h.2.1⟩
      | finishLogout _ => exact absurd hg id
  | commit o =>
      cases o with
      | ok f pair =>
          cases hg
          exact ⟨h.2.2.2, _, h.2.1⟩
      | _ => exact absurd hg id
  | _ => exact absurd hg id

/-- Who holds the live row of a family is the only one entitled to the next. -/
theorem InHand.sole (hd : Chain owner d) (hand : InHand i d tok row)
    (hg : Grant req j d u row.familyId) : j = i := by
  cases req with
  | none => exact absurd hg id
  | some a =>
      cases a with
      | refresh tok' =>
          rcases hg.base with ⟨row', hrow', hlive', hF⟩
          have htok : tok' = tok :=
            hd.single tok' tok row' row hrow' hand.base hF hlive' hand.live
          subst htok
          exact hg.held.unique hand.held
      | login _ => exact absurd rfl (hg.2 tok row hand.base)
      | _ => exact absurd hg id

namespace Rotation

variable {F₀ : FamilyId} {reqs : ℕ → Option Stmt} {s t : St}

/-- What a step of call `i` commits: later versions of committed rows, and rows of a family
that the call was entitled to. -/
theorem committed (h : Rotation F₀ reqs owner s)
    (hdoes : Does i s.shared (s.proc i) a d' pc') (hb : (d'.refreshTokens k).base = some r) :
    (∃ b, (s.shared.refreshTokens k).base = some b ∧ b.familyId = r.familyId) ∨
      ∃ pair, s.proc i = .commit (.ok r.familyId pair) ∧ pc' = .done (.ok r.familyId pair) := by
  rcases hdoes.base with hsame | ⟨o, hpc, rfl, rfl⟩
  · rw [hsame k] at hb
    exact Or.inl ⟨r, hb, rfl⟩
  · rcases h.chain.commit_row hb with ⟨b, hb', later⟩ | ⟨hb', hv⟩
    · exact Or.inl ⟨b, hb', later.family.symm⟩
    · have hl := h.loc i
      rw [hpc] at hl
      cases o with
      | ok F pair =>
          rcases hl.1 with ⟨k₀, hk₀⟩
          have hF : r.familyId = F := (hk₀ k r hb' hv).2
          subst hF
          exact Or.inr ⟨pair, hpc, rfl⟩
      | _ =>
          rw [hl k hb'] at hv
          cases hv

/-- A statement of one call does to every other what that one relies on. -/
theorem rely (h : Rotation F₀ reqs owner s) (hdoes : Does i s.shared (s.proc i) a d' pc')
    (hne : i ≠ j) : Rely owner (noteOwner s.shared a owner) j s.shared d' where
  kept := hdoes.kept h.chain (h.loc i) hne
  spent _ := hdoes.spent
  families := hdoes.families
  owner _ := noteOwner_drawn

/-- Every statement keeps what every call knows. -/
theorem loc_step (h : Rotation F₀ reqs owner s)
    (hst : stmt i s.shared (s.proc i) a = some (d', pc')) (j : ℕ) :
    Loc (noteOwner s.shared a owner) (noteRequest i a (s.proc i) reqs j) j d'
      (Function.update s.proc i pc' j) := by
  have hdoes := stmt_does hst
  by_cases hj : j = i
  · subst hj
    rw [Function.update_self]
    refine hdoes.loc h.chain (h.loc j) ?_ ?_ (fun _ => noteOwner_drawn) ?_
    · intro hidle
      rw [noteRequest, if_pos hidle, Function.update_self]
    · intro hidle
      rw [noteRequest, if_neg hidle]
    · rintro u rfl -
      exact Function.update_self _ _ _
  · rw [Function.update_of_ne hj, noteRequest_other hj]
    refine Loc.rely (h.rely hdoes (Ne.symm hj)) ?_ (h.loc j)
    intro F hg hn k row hrow hF
    rcases h.committed hdoes hrow with ⟨b, hb, hbF⟩ | ⟨pair, hpc, -⟩
    · exact hn k b hb (hbF.trans hF)
    · -- call `i` would be granting the same family
      refine hj (h.distinct F j i hg ?_)
      rw [hpc]
      exact hF

/-- No two calls grant a family that was drawn for one of them. -/
theorem distinct_step (h : Rotation F₀ reqs owner s)
    (hst : stmt i s.shared (s.proc i) a = some (d', pc')) :
    ∀ F a b, (Function.update s.proc i pc' a).Grants F →
      (Function.update s.proc i pc' b).Grants F → a = b := by
  have hdoes := stmt_does hst
  -- the call that moves, against any other
  have hside : ∀ F j, j ≠ i → pc'.Grants F → ¬ (s.proc j).Grants F := by
    intro F j hj hg hg'
    rcases (h.loc j).grant hg' with ⟨hlt, u, hgrant⟩
    rcases hdoes.grants hg with hold | hnew | ⟨tok, row, role, at₀, hpc, hF⟩
    · exact hj (h.distinct F j i hg' hold)
    · exact Nat.ne_of_lt hlt hnew
    · have hl := h.loc i
      rw [hpc] at hl
      subst hF
      exact hj (InHand.sole h.chain hl.2.2 hgrant)
  intro F a b ha hb
  by_cases hai : a = i
  · by_cases hbi : b = i
    · rw [hai, hbi]
    · subst hai
      rw [Function.update_self] at ha
      rw [Function.update_of_ne hbi] at hb
      exact absurd hb (hside F b hbi ha)
  · rw [Function.update_of_ne hai] at ha
    by_cases hbi : b = i
    · subst hbi
      rw [Function.update_self] at hb
      exact absurd ha (hside F a hai hb)
    · rw [Function.update_of_ne hbi] at hb
      exact h.distinct F a b ha hb

/-- No token is exchanged twice: two calls that succeed with the same token are one call. -/
theorem once_step (h : Rotation F₀ reqs owner s)
    (hst : stmt i s.shared (s.proc i) a = some (d', pc')) :
    ∀ tok x y, noteRequest i a (s.proc i) reqs x = some (.refresh tok) →
      noteRequest i a (s.proc i) reqs y = some (.refresh tok) →
      (Function.update s.proc i pc' x).Succeeded → (Function.update s.proc i pc' y).Succeeded →
      x = y := by
  -- whoever succeeds now holds a row that nobody has used
  have hside : ∀ tok j, j ≠ i → noteRequest i a (s.proc i) reqs i = some (.refresh tok) →
      pc'.Succeeded → reqs j = some (.refresh tok) → ¬ (s.proc j).Succeeded := by
    rintro tok j hj hi ⟨F, pair, rfl⟩ hreq ⟨F', pair', hpc'⟩
    have hspent : Spent tok s.shared := by
      have hl := h.loc j
      rw [hpc'] at hl
      exact hl.2.2.1 tok hreq
    generalize hp : s.proc i = pc at hi
    have hdoes := stmt_does hst
    rw [hp] at hdoes
    cases hdoes with
    | plain _ _ hplain => exact hplain
    | lock _ _ hplain => exact hplain
    | commit =>
        have hl := h.loc i
        rw [hp] at hl
        rw [noteRequest, if_neg Pc.noConfusion] at hi
        have hrot := hl.2.1
        rw [hi] at hrot
        rcases hrot.base with ⟨row, hrow, hlive, -⟩
        exact (hspent.used tok).1 row hrow rfl hlive.1
  intro tok x y hx hy hsx hsy
  -- the call that moves against one that was through before, either way round
  by_cases hxi : x = i
  · by_cases hyi : y = i
    · rw [hxi, hyi]
    · subst hxi
      rw [Function.update_self] at hsx
      rw [Function.update_of_ne hyi] at hsy
      rw [noteRequest_other hyi] at hy
      exact absurd hsy (hside tok y hyi hx hsx hy)
  · rw [Function.update_of_ne hxi] at hsx
    rw [noteRequest_other hxi] at hx
    by_cases hyi : y = i
    · subst hyi
      rw [Function.update_self] at hsy
      exact absurd hsx (hside tok x hxi hy hsy hx)
    · rw [Function.update_of_ne hyi] at hsy
      rw [noteRequest_other hyi] at hy
      exact h.once tok x y hx hy hsx hsy

/-- Behind every new family stands a login that is through. -/
theorem origin_step (h : Rotation F₀ reqs owner s)
    (hst : stmt i s.shared (s.proc i) a = some (d', pc')) :
    ∀ k r, (d'.refreshTokens k).base = some r → F₀ ≤ r.familyId →
      ∃ j u pair, noteRequest i a (s.proc i) reqs j = some (.login u) ∧
        Function.update s.proc i pc' j = .done (.ok r.familyId pair) := by
  -- a login that is through is not the call that moves
  have hold : ∀ k b, (s.shared.refreshTokens k).base = some b → F₀ ≤ b.familyId →
      ∃ j u pair, noteRequest i a (s.proc i) reqs j = some (.login u) ∧
        Function.update s.proc i pc' j = .done (.ok b.familyId pair) := by
    intro k b hb hF
    rcases h.origin k b hb hF with ⟨j, u, pair, hreq, hpc⟩
    have hj : j ≠ i := by
      rintro rfl
      rw [hpc] at hst
      exact stmt_done hst
    refine ⟨j, u, pair, ?_, ?_⟩
    · rw [noteRequest_other hj, hreq]
    · rw [Function.update_of_ne hj, hpc]
  intro k r hb hF
  -- the row was there before, or is the one this COMMIT brings
  rcases h.committed (stmt_does hst) hb with ⟨b, hb', hbF⟩ | ⟨pair, hpc, rfl⟩
  · rw [← hbF] at hF ⊢
    exact hold k b hb' hF
  · have hl := h.loc i
    rw [hpc] at hl
    rcases hl with ⟨-, hg, -⟩
    generalize hreq : reqs i = req at hg
    cases req with
    | none => exact absurd hg id
    | some a' =>
        cases a' with
        | refresh tok =>
            rcases hg.base with ⟨row, hrow, -, hrowF⟩
            have horigin := hold tok row hrow (by rwa [hrowF])
            rwa [hrowF] at horigin
        | login u =>
            refine ⟨i, u, pair, ?_, Function.update_self _ _ _⟩
            rw [noteRequest, if_neg (by rw [hpc]; exact Pc.noConfusion), hreq]
        | _ => exact absurd hg id

/-- Every statement keeps the rotation. -/
theorem stmt_step (h : Rotation F₀ reqs owner s)
    (hst : stmt i s.shared (s.proc i) a = some (d', pc')) :
    Rotation F₀ (noteRequest i a (s.proc i) reqs) (noteOwner s.shared a owner)
      ⟨d', Function.update s.proc i pc'⟩ where
  chain := (stmt_does hst).chain h.chain (h.loc i) fun _ => noteOwner_drawn
  loc := h.loc_step hst
  distinct := h.distinct_step hst
  once := h.once_step hst
  origin := h.origin_step hst

/-- Time does not change who holds what. -/
theorem tick (h : Rotation F₀ reqs owner s) (dt : ℕ) :
    Rotation F₀ reqs owner ⟨{ s.shared with now := s.shared.now + dt }, s.proc⟩ where
  chain := h.chain.congr ⟨rfl, rfl, rfl⟩
  loc j := by
    have hr : Rely owner owner j s.shared { s.shared with now := s.shared.now + dt } :=
      ⟨Table.Kept.refl j _, fun _ hs => ⟨hs.drawn, hs.used⟩, Nat.le_refl _, fun _ _ => rfl⟩
    exact (h.loc j).rely hr fun _ _ hn => hn
  distinct := h.distinct
  once := h.once
  origin := h.origin

end Rotation

/-! ## Runs -/

/-- The committed rows are the chains of some owners, all of families drawn before. -/
structure Chained (d : Db) : Prop where
  drawn : ∀ k r, (d.refreshTokens k).base = some r → r.familyId < d.nextFamily
  user : ∀ k k' r r', (d.refreshTokens k).base = some r → (d.refreshTokens k').base = some r' →
    r.familyId = r'.familyId → r.userId = r'.userId
  single : ∀ k k' r r', (d.refreshTokens k).base = some r → (d.refreshTokens k').base = some r' →
    r.familyId = r'.familyId → r.Live → r'.Live → k = k'

/-- A run from `s₀`: what was asked, and who owns what, agrees with its labels. -/
structure Noted (s₀ : St) (as : List Label) (s : St) (req : ℕ → Option Stmt)
    (owner : FamilyId → UserId) : Prop where
  rotation : Rotation s₀.shared.nextFamily req owner s
  asked : ∀ i a, Act.call i a ∈ as → a.Starts → req i = some a
  labelled : ∀ i a, req i = some a → Act.call i a ∈ as
  initial : ∀ k r, (s₀.shared.refreshTokens k).base = some r →
    r.familyId < s.shared.nextFamily ∧ owner r.familyId = r.userId

variable {s₀ s t : St} {as : List Label} {reqs : ℕ → Option Stmt}

/-- Before the first step. -/
theorem Noted.init (hinit : machine.Init s₀) (hc : Chained s₀.shared) :
    ∃ req owner, Noted s₀ [] s₀ req owner := by
  classical
  rcases hinit with ⟨⟨hlock, -, -, hfresh⟩, hidle⟩
  have hset : ∀ k, s₀.shared.refreshTokens k = Slot.settled (s₀.shared.refreshTokens k).base := by
    intro k
    have hk := hlock k
    cases hs : s₀.shared.refreshTokens k with
    | mk b l =>
        rw [hs] at hk
        cases hk
        rfl
  -- the owner of a family is the user of any of its rows
  have howner : ∀ F, ∃ u, ∀ k r, (s₀.shared.refreshTokens k).base = some r → r.familyId = F →
      r.userId = u := by
    intro F
    by_cases hF : ∃ k r, (s₀.shared.refreshTokens k).base = some r ∧ r.familyId = F
    · rcases hF with ⟨k₀, r₀, hr₀, hF₀⟩
      exact ⟨r₀.userId, fun k r hr hF => hc.user k k₀ r r₀ hr hr₀ (hF.trans hF₀.symm)⟩
    · exact ⟨0, fun k r hr hF' => absurd ⟨k, r, hr, hF'⟩ hF⟩
  choose owner howner using howner
  have hchain : Chain owner s₀.shared :=
    { fresh := by
        intro k hk
        rw [hset k, hfresh k hk]
      ordered := Table.Ordered.of_unlocked hlock
      owned := by
        intro k
        refine ⟨?_, ?_⟩
        · intro r hr
          exact ⟨(howner _ k r hr rfl).symm, hc.drawn k r hr⟩
        · intro j r hr
          rw [hlock k] at hr
          cases hr
      single := hc.single }
  -- nobody has asked for anything yet
  refine ⟨fun _ => none, owner, ⟨hchain, ?_, ?_, ?_, ?_⟩, ?_, ?_, ?_⟩
  · intro i
    rw [hidle i]
    refine ⟨rfl, ?_⟩
    intro k
    rw [hset k]
    rfl
  · intro F i j hg
    rw [hidle i] at hg
    exact absurd hg id
  · intro tok i j hreq
    cases hreq
  · intro k r hr hF
    exact absurd hF (Nat.not_le_of_lt (hc.drawn k r hr))
  · intro i a ha
    cases ha
  · intro i a ha
    cases ha
  · intro k r hr
    exact ⟨hc.drawn k r hr, (howner _ k r hr rfl).symm⟩

/-- A step keeps the notes: who asked for what, and who owns which family. -/
theorem Noted.stmt_step (h : Noted s₀ as s reqs owner)
    (hst : stmt i s.shared (s.proc i) a = some (d', pc')) :
    Noted s₀ (as ++ [.call i a]) ⟨d', Function.update s.proc i pc'⟩
      (noteRequest i a (s.proc i) reqs) (noteOwner s.shared a owner) where
  rotation := h.rotation.stmt_step hst
  asked j b hb hs := by
    rcases List.mem_append.mp hb with hb | hb
    · have hreq := h.asked j b hb hs
      have hj : s.proc i = .idle → j ≠ i := by
        rintro hidle rfl
        have hl := h.rotation.loc j
        rw [hidle] at hl
        rw [hl.1] at hreq
        cases hreq
      unfold noteRequest
      split
      · next hidle => rw [Function.update_of_ne (hj hidle), hreq]
      · exact hreq
    · cases List.mem_singleton.mp hb
      rw [noteRequest, if_pos (stmt_starts hst hs), Function.update_self]
  labelled j b hb := by
    by_cases hj : j = i
    · subst hj
      unfold noteRequest at hb
      split at hb
      · rw [Function.update_self] at hb
        cases hb
        exact List.mem_append_right _ (List.mem_singleton.mpr rfl)
      · exact List.mem_append_left _ (h.labelled j b hb)
    · rw [noteRequest_other hj] at hb
      exact List.mem_append_left _ (h.labelled j b hb)
  initial k r hr := by
    rcases h.initial k r hr with ⟨hlt, ho⟩
    exact ⟨Nat.lt_of_lt_of_le hlt (stmt_does hst).families, (noteOwner_drawn hlt).trans ho⟩

/-- After any run the notes say what the run's labels say. -/
theorem Noted.run (hinit : machine.Init s₀) (hc : Chained s₀.shared)
    (hr : machine.Run Machine.Always s₀ as s) : ∃ req owner, Noted s₀ as s req owner := by
  induction hr with
  | refl => exact Noted.init hinit hc
  | step _ _ hn ih =>
      rename_i bs t u act _ _
      rcases ih with ⟨req, owner, h⟩
      cases act with
      | call i a =>
          rcases Procs.next_call hn with ⟨d, p, hst, rfl⟩
          exact ⟨_, _, h.stmt_step hst⟩
      | env dt =>
          rcases Procs.next_env hn with ⟨d, hd, rfl⟩
          cases hd
          refine ⟨req, owner, h.rotation.tick dt, ?_, ?_, h.initial⟩
          · intro i a ha hs
            rcases List.mem_append.mp ha with ha | ha
            · exact h.asked i a ha hs
            · cases List.mem_singleton.mp ha
          · intro i a ha
            exact List.mem_append_left _ (h.labelled i a ha)

/-- A call that has not committed has changed nothing that is committed. -/
theorem unchanged_before_commit {t' : St} {cs : List Label}
    (hn : machine.next t (.call i a) = some t') (hr : machine.Run Machine.Always t' cs s)
    (hpc : ∀ o, s.proc i ≠ .done o) (k : Token) :
    (t'.shared.refreshTokens k).base = (t.shared.refreshTokens k).base := by
  rcases Procs.next_call hn with ⟨d, p, hst, rfl⟩
  rcases (stmt_does hst).base with hsame | ⟨o, -, -, rfl⟩
  · exact hsame k
  · exfalso
    apply hpc o
    rw [Procs.Run.proc_final hr]
    · exact Function.update_self _ _ _
    · intro d a
      change stmt i d (Function.update t.proc i (.done o) i) a = none
      rw [Function.update_self]
      cases hs : stmt i d (.done o) a with
      | none => rfl
      | some r => exact (stmt_done hs).elim

/-- Rotation is a chain, in every interleaving of logins, refreshes and logouts: no token is
exchanged twice, a family has at most one live row, all its rows are those of the user that
logged in, and a refresh that crashes leaves everything as it was. -/
theorem rotation_is_chain {s₀ s : St} {as : List Label} (hinit : machine.Init s₀)
    (hc : Chained s₀.shared) (hr : machine.Run Machine.Always s₀ as s) :
    (∀ tok i j, Act.call i (.refresh tok) ∈ as → Act.call j (.refresh tok) ∈ as →
      (s.proc i).Succeeded → (s.proc j).Succeeded → i = j) ∧
    (∀ k k' r r', (s.shared.refreshTokens k).base = some r →
      (s.shared.refreshTokens k').base = some r' → r.familyId = r'.familyId →
      r.Live → r'.Live → k = k') ∧
    (∀ k r, (s.shared.refreshTokens k).base = some r →
      (∀ k₀ r₀, (s₀.shared.refreshTokens k₀).base = some r₀ → r₀.familyId = r.familyId →
        r.userId = r₀.userId) ∧
      (∀ i u pair, Act.call i (.login u) ∈ as → s.proc i = .done (.ok r.familyId pair) →
        r.userId = u) ∧
      (s₀.shared.nextFamily ≤ r.familyId → ∃ i pair, Act.call i (.login r.userId) ∈ as ∧
        s.proc i = .done (.ok r.familyId pair))) ∧
    ∀ i, (∀ o, s.proc i ≠ .done o) →
      (∀ bs a cs t t', as = bs ++ .call i a :: cs → machine.Run Machine.Always s₀ bs t →
        machine.next t (.call i a) = some t' → machine.Run Machine.Always t' cs s →
        ∀ k, (t'.shared.refreshTokens k).base = (t.shared.refreshTokens k).base) ∧
      (s.proc i = .aborted → ∀ k, ¬ (s.shared.refreshTokens k).Held i) := by
  rcases Noted.run hinit hc hr with ⟨req, owner, hnoted⟩
  have h := hnoted.rotation
  -- a login that is through owns its family
  have hlogin : ∀ i u F pair, Act.call i (.login u) ∈ as → s.proc i = .done (.ok F pair) →
      owner F = u := by
    intro i u F pair hmem hpc
    have hl := h.loc i
    rw [hpc] at hl
    exact hl.2.1.1.trans (hl.2.2.2 u (hnoted.asked i _ hmem trivial))
  refine ⟨?_, h.chain.single, ?_, ?_⟩
  · intro tok i j hi hj
    exact h.once tok i j (hnoted.asked i _ hi trivial) (hnoted.asked j _ hj trivial)
  · intro k r hrow
    have ho : Owns owner s.shared r.userId r.familyId := (h.chain.owned k).1 r hrow
    refine ⟨?_, ?_, ?_⟩
    · intro k₀ r₀ hr₀ hF
      rw [← ho.1, ← (hnoted.initial k₀ r₀ hr₀).2, hF]
    · intro i u pair hmem hpc
      rw [← ho.1, hlogin i u r.familyId pair hmem hpc]
    · intro hF
      rcases h.origin k r hrow hF with ⟨i, u, pair, hreq, hpc⟩
      have hmem := hnoted.labelled i _ hreq
      have hu : r.userId = u := ho.1.symm.trans (hlogin i u _ pair hmem hpc)
      exact ⟨i, pair, hu ▸ hmem, hpc⟩
  · intro i hpc
    refine ⟨?_, ?_⟩
    · intro bs a cs t t' _ _ hn hcs
      exact unchanged_before_commit hn hcs hpc
    · intro hab
      have hl := h.loc i
      rw [hab] at hl
      exact hl

/-- The concrete start is in order: one family with one live row. -/
theorem raceStart_chained : Chained raceStart.shared := by
  have hrow : ∀ k r, (raceStart.shared.refreshTokens k).base = some r →
      k = 0 ∧ r.familyId = 0 ∧ r.userId = 0 := by
    intro k r hr
    by_cases hk : k = 0
    · subst hk
      cases hr
      exact ⟨rfl, rfl, rfl⟩
    · simp [raceStart, raceDb, hk] at hr
  refine ⟨?_, ?_, ?_⟩
  · intro k r hr
    rw [(hrow k r hr).2.1]
    exact Nat.one_pos
  · intro k k' r r' hr hr' _
    rw [(hrow k r hr).2.2, (hrow k' r' hr').2.2]
  · intro k k' r r' hr hr' _ _ _
    rw [(hrow k r hr).1, (hrow k' r' hr').1]

/-- Two calls present token 0. The one that waits for the lock finds it used and revokes the
family. -/
def presentTwice : List Label :=
  [.call 1 (.refresh 0), .call 2 (.refresh 0), .call 1 .run, .call 1 .run, .call 1 .run,
    .call 1 .run, .call 1 .run, .call 2 .run, .call 2 .run, .call 2 (.visit 0),
    .call 2 (.visit 1), .call 2 .run, .call 2 .run, .call 2 .run]

/-- One token is presented twice: the first exchange succeeds, the second is a reuse and revokes
the family. -/
theorem rotation_is_chain_twice : ∃ s, machine.Run Machine.Always raceStart presentTwice s ∧
    (s.proc 1).Succeeded ∧ s.proc 2 = .done (.reuse 0) ∧ ¬ (s.proc 2).Succeeded := by
  have hrun : ∃ s, machine.exec (fun _ _ => true) raceStart presentTwice = some s ∧
      (s.proc 1).Succeeded ∧ s.proc 2 = .done (.reuse 0) := ⟨_, rfl, ⟨_, _, rfl⟩, rfl⟩
  rcases hrun with ⟨s, hexec, h₁, h₂⟩
  have hr := Machine.exec_always hexec
  refine ⟨s, hr, h₁, h₂, ?_⟩
  intro hsucc
  have heq := (rotation_is_chain raceStart_init raceStart_chained hr).1 0 1 2
    (by simp [presentTwice]) (by simp [presentTwice]) h₁ hsucc
  cases heq

end Marketplace.Auth

import Marketplace.Auth.Atomic

/-!
# Auth.Lifetime — how long an access token lives

Runs of login, refresh, logout, authenticate and sweepExpired under one clock. `ended` has the
families with a logout or a reuse so far, `exchanged` the refresh tokens that were exchanged
for a pair.

An access token should live until its `exp` or until its family ends. `Inv.ended` is why it
does not live longer: the row that `revokeFamily` leaves outlives every token of the family,
and a row that is swept has outlived them. What breaks the law is a refresh token whose row
was swept after it was exchanged: its reuse is not noticed any more.
-/

namespace Marketplace.Auth.Atomic

open Core

/-- The tables, and what has happened to the families. -/
structure Life where
  store : Store
  exchanged : List (Token × FamilyId)
  ended : List FamilyId

namespace Life

/-- The families in which a presentation of `tok` is a reuse. -/
def reuses (tok : Token) (s : Life) : List FamilyId :=
  (s.exchanged.filter fun p => decide (p.1 = tok)).map Prod.snd

/-- What the call has exchanged and which families it has ended. -/
def record (s : Life) (store : Store) : Call → Outcome → Life
  | .refresh tok, .pair (.ok pair) =>
      ⟨store, s.exchanged ++ [(tok, pair.accessToken.fid)], s.ended ++ s.reuses tok⟩
  | .refresh tok, _ => ⟨store, s.exchanged, s.ended ++ s.reuses tok⟩
  | .logout claims, _ => ⟨store, s.exchanged, s.ended ++ [claims.fid]⟩
  | _, _ => ⟨store, s.exchanged, s.ended⟩

/-- Empty tables. -/
def Init (s : Life) : Prop :=
  (∀ k, s.store.refreshTokens k = none) ∧ (∀ j, s.store.accessDenylist j = none) ∧
  (∀ f, s.store.revokedFamilies f = none) ∧ s.store.issued = [] ∧ s.exchanged = [] ∧ s.ended = []

def machine : Machine Life (Call × Sweep) where
  Init := Init
  next s a := (step a.2 s.store a.1).map fun r => s.record r.1 a.1 r.2

/-- No refresh presents a token that was exchanged before and whose row is gone, in a family
that has not ended. -/
def NoSweptReuse (s : Life) : Call × Sweep → Prop
  | (.refresh tok, _) => ∀ f, (tok, f) ∈ s.exchanged → f ∉ s.ended → s.store.refreshTokens tok ≠ none
  | _ => True

end Life

variable {s s' : Store} {l l' : Life} {w : Sweep} {tok : Token} {F : FamilyId}
  {claims : AccessClaims} {row : RefreshRow}

/-! ## The tables -/

/-- What is left after a delete was there before. -/
theorem without_eq_some {K V : Type} [DecidableEq K] {keys : List K} {table : K → Option V} {k : K}
    {v : V} (h : without keys table k = some v) : table k = some v := by
  unfold without at h
  split at h
  · cases h
  · exact h

/-- A row that a sweep took has expired. -/
theorem Swept.expired {K V : Type} [DecidableEq K] {now : ℕ} {expiresAt : V → ℕ}
    {table : K → Option V} {keys : List K} {k : K} {v : V} (h : Swept now expiresAt table keys)
    (hk : table k = some v) : without keys table k = some v ∨ expiresAt v ≤ now := by
  unfold without
  split
  · next hin =>
      have hany := h.2 k hin
      rw [hk, Option.any_some, decide_eq_true_eq] at hany
      exact Or.inr hany
  · exact Or.inl hk

@[simp] theorem revokeRow_familyId {now : ℕ} : (revokeRow F now row).familyId = row.familyId := by
  unfold revokeRow
  split <;> rfl

@[simp] theorem revokeRow_usedAt {now : ℕ} : (revokeRow F now row).usedAt = row.usedAt := by
  unfold revokeRow
  split <;> rfl

/-- After the UPDATE every row of the family is revoked, and no other row has changed. -/
theorem revokeRow_revokedAt {now : ℕ} (h : row.familyId = F) :
    (revokeRow F now row).revokedAt ≠ none := by
  unfold revokeRow
  split
  · exact Option.some_ne_none _
  · next hno => exact fun hnone => hno ⟨h, hnone⟩

/-- Revoking a family leaves rows of other families alone. -/
theorem revokeRow_of_ne {now : ℕ} (h : row.familyId ≠ F) : revokeRow F now row = row := by
  unfold revokeRow
  rw [if_neg]
  exact fun hboth => h hboth.1

/-- Revoking does not give a revoked row back. -/
theorem revokeRow_revoked {now : ℕ} (h : row.revokedAt ≠ none) :
    (revokeRow F now row).revokedAt ≠ none := by
  unfold revokeRow
  rw [if_neg]
  · exact h
  · exact fun hboth => h hboth.2

/-! ## The invariant -/

/-- The tables, the tokens and the families that have ended. -/
structure Inv (l : Life) : Prop where
  tokens : ∀ k row, l.store.refreshTokens k = some row →
    k < l.store.nextToken ∧ row.familyId < l.store.nextFamily
  issued : ∀ c ∈ l.store.issued, c.fid < l.store.nextFamily ∧ c.jti < l.store.nextJti ∧
    c.exp ≤ floorSec l.store.now + accessTtlSec
  jti : ∀ c ∈ l.store.issued, ∀ c' ∈ l.store.issued, c.jti = c'.jti → c.fid = c'.fid
  exchanged : ∀ k f, (k, f) ∈ l.exchanged → k < l.store.nextToken ∧ f < l.store.nextFamily ∧
    ∀ row, l.store.refreshTokens k = some row → row.familyId = f ∧ row.usedAt ≠ none
  used : ∀ k row, l.store.refreshTokens k = some row → row.usedAt ≠ none →
    (k, row.familyId) ∈ l.exchanged
  revoked : ∀ k row, l.store.refreshTokens k = some row →
    (row.revokedAt ≠ none ↔ row.familyId ∈ l.ended)
  /-- A family that has ended is denied for as long as a token of it could live. -/
  ended : ∀ f ∈ l.ended, f < l.store.nextFamily ∧ ∀ c ∈ l.store.issued, c.fid = f →
    c.exp ≤ floorSec l.store.now ∨ ∃ e, l.store.revokedFamilies f = some e ∧ secs c.exp ≤ e
  denied : ∀ f, l.store.revokedFamilies f ≠ none → f ∈ l.ended
  denylist : ∀ j, l.store.accessDenylist j ≠ none → j < l.store.nextJti ∧
    ∀ c ∈ l.store.issued, c.jti = j → c.fid ∈ l.ended

/-- A token that has not reached its `exp` is younger than the row that denies it. -/
theorem lt_of_floorSec_lt {now exp : ℕ} (h : floorSec now < exp) : now < secs exp := by
  unfold floorSec at h
  unfold secs
  omega

theorem floorSec_mono {a b : ℕ} (h : a ≤ b) : floorSec a ≤ floorSec b := Nat.div_le_div_right h

/-- A token is accepted if it was issued, has not expired and is not revoked. -/
theorem authenticate_some (token : AccessClaims) (s : Store) : authenticate (some token) s =
    if token ∈ s.issued ∧ floorSec s.now < token.exp then
      (if isAccessRevoked token s then .error unauthorized else .ok token)
    else .error unauthorized := by
  unfold authenticate verify
  by_cases h : token ∈ s.issued ∧ floorSec s.now < token.exp
  · simp only [Option.bind_some, if_pos h]
  · simp only [Option.bind_some, if_neg h]

/-- The law in one state. -/
theorem Inv.authenticate (h : Inv l) (token : AccessClaims) :
    (∃ c, authenticate (some token) l.store = .ok c) ↔
      token ∈ l.store.issued ∧ floorSec l.store.now < token.exp ∧ token.fid ∉ l.ended := by
  rw [authenticate_some]
  constructor
  · rintro ⟨c, hc⟩
    split at hc
    · next hgood =>
        split at hc
        · cases hc
        · next hfree =>
            refine ⟨hgood.1, hgood.2, ?_⟩
            intro hended
            apply hfree
            rcases (h.ended token.fid hended).2 token hgood.1 rfl with hold | ⟨e, he, hle⟩
            · exact absurd hgood.2 (Nat.not_lt.mpr hold)
            · -- the row of the family is still there and has not expired
              unfold isAccessRevoked
              have hlt := lt_of_floorSec_lt hgood.2
              rw [he, Option.any_some, Bool.or_eq_true, decide_eq_true_eq]
              exact Or.inl (Nat.lt_of_lt_of_le hlt hle)
    · cases hc
  -- a family that has not ended is not denied, and neither is a token of it
  · rintro ⟨hissued, hexp, hlive⟩
    refine ⟨token, ?_⟩
    have hfamily : l.store.revokedFamilies token.fid = none := by
      by_contra hsome
      exact hlive (h.denied _ hsome)
    have hjti : l.store.accessDenylist token.jti = none := by
      by_contra hsome
      exact hlive ((h.denylist _ hsome).2 token hissued rfl)
    have hfree : isAccessRevoked token l.store = false := by
      unfold isAccessRevoked
      rw [hfamily, hjti]
      rfl
    rw [if_pos ⟨hissued, hexp⟩, hfree]
    rfl

/-! ## The parts of a call -/

variable {ex : List (Token × FamilyId)} {en en' : List FamilyId}

/-- The list of ended families counts as a set. -/
theorem Inv.of_ended (h : Inv ⟨s, ex, en⟩) (hmem : ∀ f, f ∈ en' ↔ f ∈ en) : Inv ⟨s, ex, en'⟩ where
  tokens := h.tokens
  issued := h.issued
  jti := h.jti
  exchanged := h.exchanged
  used := h.used
  revoked k row hr := (h.revoked k row hr).trans (hmem _).symm
  ended f hf := h.ended f ((hmem f).mp hf)
  denied f hf := (hmem f).mpr (h.denied f hf)
  denylist j hj := by
    rcases h.denylist j hj with ⟨hlt, hc⟩
    exact ⟨hlt, fun c hmemc hjti => (hmem _).mpr (hc c hmemc hjti)⟩

/-- Time keeps the invariant: what expires needs no denial any more. -/
theorem Inv.tick (h : Inv ⟨s, ex, en⟩) (dt : ℕ) : Inv ⟨{ s with now := s.now + dt }, ex, en⟩ := by
  have hmono : floorSec s.now ≤ floorSec (s.now + dt) := floorSec_mono (Nat.le_add_right _ _)
  exact
    { tokens := h.tokens
      issued := by
        intro c hc
        rcases h.issued c hc with ⟨hfid, hjti, hexp⟩
        exact ⟨hfid, hjti, Nat.le_trans hexp (Nat.add_le_add_right hmono _)⟩
      jti := h.jti
      exchanged := h.exchanged
      used := h.used
      revoked := h.revoked
      ended := by
        intro f hf
        rcases h.ended f hf with ⟨hlt, hdead⟩
        refine ⟨hlt, ?_⟩
        intro c hc hfid
        exact (hdead c hc hfid).imp_left fun hexp => Nat.le_trans hexp hmono
      denied := h.denied
      denylist := h.denylist }

/-- A sweep keeps the invariant: a denial is dropped only when every token it concerned has
expired. -/
theorem Inv.sweep (h : Inv ⟨s, ex, en⟩) (hw : Sweepable w s) : Inv ⟨sweepExpired w s, ex, en⟩ where
  tokens k row hr := h.tokens k row (without_eq_some hr)
  issued := h.issued
  jti := h.jti
  exchanged k f hk := by
    rcases h.exchanged k f hk with ⟨hlt, hfam, hrow⟩
    exact ⟨hlt, hfam, fun row hr => hrow row (without_eq_some hr)⟩
  used k row hr := h.used k row (without_eq_some hr)
  revoked k row hr := h.revoked k row (without_eq_some hr)
  ended f hf := by
    rcases h.ended f hf with ⟨hlt, hdead⟩
    refine ⟨hlt, ?_⟩
    intro c hc hfid
    rcases hdead c hc hfid with hexp | ⟨e, he, hle⟩
    · exact Or.inl hexp
    · rcases hw.2.2.expired he with hstill | hgone
      · exact Or.inr ⟨e, hstill, hle⟩
      · -- a row that is swept has outlived every token of the family
        left
        have hnow : secs c.exp ≤ s.now := Nat.le_trans hle hgone
        by_contra hlt
        have hlater := lt_of_floorSec_lt (Nat.lt_of_not_le hlt)
        exact absurd hnow (Nat.not_le.mpr hlater)
  denied f hf := by
    rcases Option.ne_none_iff_exists'.mp hf with ⟨e, he⟩
    apply h.denied
    rw [show s.revokedFamilies f = some e from without_eq_some he]
    exact Option.some_ne_none _
  denylist j hj := by
    rcases Option.ne_none_iff_exists'.mp hj with ⟨e, he⟩
    apply h.denylist
    rw [show s.accessDenylist j = some e from without_eq_some he]
    exact Option.some_ne_none _

/-- A family ends: its row outlives every token that it has. -/
theorem Inv.revokeFamily (h : Inv ⟨s, ex, en⟩) (hF : F < s.nextFamily)
    (hmem : ∀ f, f ∈ en' ↔ f ∈ en ∨ f = F) : Inv ⟨revokeFamily F s, ex, en'⟩ where
  tokens k row hr := by
    rcases Option.map_eq_some_iff.mp hr with ⟨r, hr₀, rfl⟩
    rw [revokeRow_familyId]
    exact h.tokens k r hr₀
  issued := h.issued
  jti := h.jti
  exchanged k f hk := by
    rcases h.exchanged k f hk with ⟨hlt, hfam, hrow⟩
    refine ⟨hlt, hfam, ?_⟩
    intro row hr
    rcases Option.map_eq_some_iff.mp hr with ⟨r, hr₀, rfl⟩
    rw [revokeRow_familyId, revokeRow_usedAt]
    exact hrow r hr₀
  used k row hr := by
    rcases Option.map_eq_some_iff.mp hr with ⟨r, hr₀, rfl⟩
    rw [revokeRow_familyId, revokeRow_usedAt]
    exact h.used k r hr₀
  revoked k row hr := by
    rcases Option.map_eq_some_iff.mp hr with ⟨r, hr₀, rfl⟩
    rw [revokeRow_familyId, hmem]
    by_cases hf : r.familyId = F
    · exact ⟨fun _ => Or.inr hf, fun _ => revokeRow_revokedAt hf⟩
    · rw [revokeRow_of_ne hf, h.revoked k r hr₀]
      exact ⟨Or.inl, fun hor => hor.resolve_right hf⟩
  ended f hf := by
    -- the family revoked now is denied for the lifetime of a token; the others are denied as
    -- before
    by_cases heq : f = F
    · subst heq
      refine ⟨hF, ?_⟩
      intro c hc hfid
      refine Or.inr ⟨s.now + secs accessTtlSec, Function.update_self .., ?_⟩
      have hexp : c.exp ≤ floorSec s.now + accessTtlSec := (h.issued c hc).2.2
      unfold floorSec at hexp
      unfold secs
      omega
    · have hold : f ∈ en := ((hmem f).mp hf).resolve_right heq
      rcases h.ended f hold with ⟨hlt, hdead⟩
      refine ⟨hlt, ?_⟩
      intro c hc hfid
      refine (hdead c hc hfid).imp_right ?_
      rintro ⟨e, he, hle⟩
      exact ⟨e, (Function.update_of_ne heq ..).trans he, hle⟩
  denied f hf := by
    rw [hmem]
    by_cases heq : f = F
    · exact Or.inr heq
    · left
      apply h.denied
      rwa [show (Atomic.revokeFamily F s).revokedFamilies f = s.revokedFamilies f from
        Function.update_of_ne heq ..] at hf
  denylist j hj := by
    rcases h.denylist j hj with ⟨hlt, hc⟩
    exact ⟨hlt, fun c hmemc hjti => (hmem _).mpr (Or.inl (hc c hmemc hjti))⟩

/-- A token of a family that has ended goes to the denylist. -/
theorem Inv.deny (h : Inv ⟨s, ex, en⟩) {j e : ℕ} (hj : j < s.nextJti)
    (hended : ∀ c ∈ s.issued, c.jti = j → c.fid ∈ en) :
    Inv ⟨{ s with accessDenylist := Function.update s.accessDenylist j (some e) }, ex, en⟩ where
  tokens := h.tokens
  issued := h.issued
  jti := h.jti
  exchanged := h.exchanged
  used := h.used
  revoked := h.revoked
  ended := h.ended
  denied := h.denied
  denylist j' hj' := by
    by_cases heq : j' = j
    · subst heq
      exact ⟨hj, hended⟩
    · apply h.denylist
      have hsame : Function.update s.accessDenylist j (some e) j' = s.accessDenylist j' :=
        Function.update_of_ne heq ..
      exact hsame ▸ hj'

/-- A family that has just been drawn has no token and has not ended. -/
theorem Inv.newFamily (h : Inv ⟨s, ex, en⟩) :
    Inv ⟨{ s with nextFamily := s.nextFamily + 1 }, ex, en⟩ where
  tokens k row hr := by
    rcases h.tokens k row hr with ⟨hk, hf⟩
    exact ⟨hk, Nat.lt_succ_of_lt hf⟩
  issued c hc := by
    rcases h.issued c hc with ⟨hf, hrest⟩
    exact ⟨Nat.lt_succ_of_lt hf, hrest⟩
  jti := h.jti
  exchanged k f hk := by
    rcases h.exchanged k f hk with ⟨hlt, hf, hrow⟩
    exact ⟨hlt, Nat.lt_succ_of_lt hf, hrow⟩
  used := h.used
  revoked := h.revoked
  ended f hf := by
    rcases h.ended f hf with ⟨hlt, hdead⟩
    exact ⟨Nat.lt_succ_of_lt hlt, hdead⟩
  denied := h.denied
  denylist := h.denylist

/-- A pair for a family that lives. -/
theorem Inv.insertPair (h : Inv ⟨s, ex, en⟩) (userId : UserId) (role : Role)
    (hF : F < s.nextFamily) (hlive : F ∉ en) : Inv ⟨(insertPair userId role F s).1, ex, en⟩ := by
  -- the new row, or one that was there
  have rows : ∀ k row, (Atomic.insertPair userId role F s).1.refreshTokens k = some row →
      k = s.nextToken ∧ row = newRow userId F s ∨ s.refreshTokens k = some row := by
    intro k row hr
    by_cases hk : k = s.nextToken
    · subst hk
      rw [show (Atomic.insertPair userId role F s).1.refreshTokens s.nextToken =
        some (newRow userId F s) from Function.update_self ..] at hr
      exact Or.inl ⟨rfl, (Option.some.inj hr).symm⟩
    · exact Or.inr ((Function.update_of_ne hk ..).symm.trans hr)
  have claims : ∀ c ∈ (Atomic.insertPair userId role F s).1.issued,
      c ∈ s.issued ∨ c = newAccess userId role F s := by
    intro c hc
    rcases List.mem_append.mp hc with hc | hc
    · exact Or.inl hc
    · exact Or.inr (List.mem_singleton.mp hc)
  -- the new row and token are of a live family; everything else was there before
  refine
    { tokens := ?_
      issued := ?_
      jti := ?_
      exchanged := ?_
      used := ?_
      revoked := ?_
      ended := ?_
      denied := h.denied
      denylist := ?_ }
  · intro k row hr
    rcases rows k row hr with ⟨rfl, rfl⟩ | hr
    · exact ⟨Nat.lt_succ_self _, hF⟩
    · rcases h.tokens k row hr with ⟨hk, hf⟩
      exact ⟨Nat.lt_succ_of_lt hk, hf⟩
  · intro c hc
    rcases claims c hc with hc | rfl
    · rcases h.issued c hc with ⟨hf, hj, hexp⟩
      exact ⟨hf, Nat.lt_succ_of_lt hj, hexp⟩
    · exact ⟨hF, Nat.lt_succ_self _, Nat.le_refl _⟩
  · intro c hc c' hc' heq
    rcases claims c hc with hc | rfl
    · rcases claims c' hc' with hc' | rfl
      · exact h.jti c hc c' hc' heq
      · exact absurd heq (Nat.ne_of_lt (h.issued c hc).2.1)
    · rcases claims c' hc' with hc' | rfl
      · exact absurd heq.symm (Nat.ne_of_lt (h.issued c' hc').2.1)
      · rfl
  · intro k f hk
    rcases h.exchanged k f hk with ⟨hlt, hf, hrow⟩
    refine ⟨Nat.lt_succ_of_lt hlt, hf, ?_⟩
    intro row hr
    rcases rows k row hr with ⟨rfl, -⟩ | hr
    · exact absurd hlt (Nat.lt_irrefl _)
    · exact hrow row hr
  · intro k row hr hused
    rcases rows k row hr with ⟨-, rfl⟩ | hr
    · exact absurd rfl hused
    · exact h.used k row hr hused
  · intro k row hr
    rcases rows k row hr with ⟨-, rfl⟩ | hr
    · exact ⟨fun hne => absurd rfl hne, fun hin => absurd hin hlive⟩
    · exact h.revoked k row hr
  · intro f hf
    rcases h.ended f hf with ⟨hlt, hdead⟩
    refine ⟨hlt, ?_⟩
    intro c hc hfid
    rcases claims c hc with hc | rfl
    · exact hdead c hc hfid
    · have heq : F = f := hfid
      exact absurd (heq ▸ hf) hlive
  · intro j hj
    rcases h.denylist j hj with ⟨hlt, hc⟩
    refine ⟨Nat.lt_succ_of_lt hlt, ?_⟩
    intro c hmemc hjti
    rcases claims c hmemc with hmemc | rfl
    · exact hc c hmemc hjti
    · exact absurd hjti.symm (Nat.ne_of_lt hlt)

/-- A token is exchanged. -/
theorem Inv.markUsed (h : Inv ⟨s, ex, en⟩) (hrow : s.refreshTokens tok = some row) :
    Inv ⟨markUsed tok row s, ex ++ [(tok, row.familyId)], en⟩ := by
  have rows : ∀ k r, (Atomic.markUsed tok row s).refreshTokens k = some r →
      k = tok ∧ r = { row with usedAt := some s.now } ∨ k ≠ tok ∧ s.refreshTokens k = some r := by
    intro k r hr
    by_cases hk : k = tok
    · subst hk
      rw [show (Atomic.markUsed k row s).refreshTokens k = some { row with usedAt := some s.now } from
        Function.update_self ..] at hr
      exact Or.inl ⟨rfl, (Option.some.inj hr).symm⟩
    · exact Or.inr ⟨hk, (Function.update_of_ne hk ..).symm.trans hr⟩
  refine
    { tokens := ?_
      issued := h.issued
      jti := h.jti
      exchanged := ?_
      used := ?_
      revoked := ?_
      ended := h.ended
      denied := h.denied
      denylist := h.denylist }
  · intro k r hr
    rcases rows k r hr with ⟨rfl, rfl⟩ | ⟨-, hr⟩
    · exact h.tokens k row hrow
    · exact h.tokens k r hr
  · intro k f hk
    rcases List.mem_append.mp hk with hk | hk
    · rcases h.exchanged k f hk with ⟨hlt, hf, hold⟩
      refine ⟨hlt, hf, ?_⟩
      intro r hr
      rcases rows k r hr with ⟨rfl, rfl⟩ | ⟨-, hr⟩
      · exact ⟨(hold row hrow).1, Option.some_ne_none _⟩
      · exact hold r hr
    · cases List.mem_singleton.mp hk
      rcases h.tokens tok row hrow with ⟨hlt, hf⟩
      refine ⟨hlt, hf, ?_⟩
      intro r hr
      rcases rows tok r hr with ⟨-, rfl⟩ | ⟨hne, -⟩
      · exact ⟨rfl, Option.some_ne_none _⟩
      · exact absurd rfl hne
  · intro k r hr hused
    rcases rows k r hr with ⟨rfl, rfl⟩ | ⟨-, hr⟩
    · exact List.mem_append_right _ (List.mem_singleton.mpr rfl)
    · exact List.mem_append_left _ (h.used k r hr hused)
  · intro k r hr
    rcases rows k r hr with ⟨rfl, rfl⟩ | ⟨-, hr⟩
    · exact h.revoked k row hrow
    · exact h.revoked k r hr

/-! ## One call -/

/-- What a refresh finds and does. -/
inductive Refreshes (tok : Token) (s : Store) : Store → Except Thrown TokenPair → Prop
  | gone : s.refreshTokens tok = none → Refreshes tok s s (.error unauthorized)
  | revoked {row : RefreshRow} : s.refreshTokens tok = some row → row.revokedAt ≠ none →
      Refreshes tok s s (.error unauthorized)
  | reused {row : RefreshRow} : s.refreshTokens tok = some row → row.revokedAt = none →
      row.usedAt ≠ none → Refreshes tok s (revokeFamily row.familyId s) (.error unauthorized)
  | rejected {row : RefreshRow} : s.refreshTokens tok = some row → row.usedAt = none →
      Refreshes tok s s (.error unauthorized)
  | exchanged {row : RefreshRow} {role : Role} : s.refreshTokens tok = some row →
      row.revokedAt = none → row.usedAt = none → s.now < row.expiresAt →
      (s.users row.userId).bind isRole = some role →
      Refreshes tok s (insertPair row.userId role row.familyId (markUsed tok row s)).1
        (.ok (insertPair row.userId role row.familyId (markUsed tok row s)).2)

/-- A refresh ends in one of five ways, by what its row says. -/
theorem refresh_cases (tok : Token) (s : Store) :
    Refreshes tok s (refresh tok s).1 (refresh tok s).2 := by
  unfold refresh
  cases hrow : s.refreshTokens tok with
  | none => exact .gone hrow
  | some row =>
      dsimp only
      by_cases hrev : row.revokedAt.isSome = true
      · rw [if_pos hrev]
        exact .revoked hrow (Option.isSome_iff_ne_none.mp hrev)
      · rw [if_neg hrev]
        have hrev' : row.revokedAt = none := Option.not_isSome_iff_eq_none.mp hrev
        by_cases hused : row.usedAt.isSome = true
        · rw [if_pos hused]
          exact .reused hrow hrev' (Option.isSome_iff_ne_none.mp hused)
        · rw [if_neg hused]
          have hused' : row.usedAt = none := Option.not_isSome_iff_eq_none.mp hused
          by_cases hexp : row.expiresAt ≤ s.now
          · rw [if_pos hexp]
            exact .rejected hrow hused'
          · rw [if_neg hexp]
            cases hrole : (s.users row.userId).bind isRole with
            | none => exact .rejected hrow hused'
            | some role => exact .exchanged hrow hrev' hused' (Nat.lt_of_not_le hexp) hrole

/-- A refresh is a reuse of the families its token was exchanged in. -/
theorem mem_reuses {f : FamilyId} : f ∈ l.reuses tok ↔ (tok, f) ∈ l.exchanged := by
  unfold Life.reuses
  constructor
  · intro hf
    rcases List.mem_map.mp hf with ⟨⟨k, f'⟩, hp, rfl⟩
    rcases List.mem_filter.mp hp with ⟨hin, hk⟩
    have heq : k = tok := of_decide_eq_true hk
    exact heq ▸ hin
  · intro hf
    exact List.mem_map.mpr ⟨(tok, f), List.mem_filter.mpr ⟨hf, decide_eq_true rfl⟩, rfl⟩

/-- A refresh keeps the invariant, given that it does not present a token whose used row was
swept. -/
theorem Inv.refresh (h : Inv l) (hok : Life.NoSweptReuse l (.refresh tok, w)) :
    Inv (l.record (refresh tok l.store).1 (.refresh tok) (.pair (refresh tok l.store).2)) := by
  -- families that end with a refresh have ended before, or are that of the row
  have known : (∀ f, (tok, f) ∈ l.exchanged → f ∈ l.ended) →
      Inv ⟨l.store, l.exchanged, l.ended ++ l.reuses tok⟩ := by
    intro hall
    refine h.of_ended ?_
    intro f
    rw [List.mem_append, mem_reuses]
    exact ⟨fun hor => hor.elim id (hall f), Or.inl⟩
  have hr := refresh_cases tok l.store
  revert hr
  generalize (Atomic.refresh tok l.store).1 = s'
  generalize (Atomic.refresh tok l.store).2 = r
  intro hr
  -- where nothing is written, the families that end have ended before
  cases hr with
  | gone hnone =>
      refine known ?_
      intro f hf
      by_contra hlive
      exact hok f hf hlive hnone
  | revoked hrow hrev =>
      refine known ?_
      intro f hf
      rw [← ((h.exchanged tok f hf).2.2 _ hrow).1]
      exact (h.revoked tok _ hrow).mp hrev
  | @reused row hrow hrev hused =>
      refine Inv.revokeFamily h (h.tokens tok _ hrow).2 ?_
      intro f
      rw [List.mem_append, mem_reuses]
      refine or_congr_right ⟨fun hf => ((h.exchanged tok f hf).2.2 _ hrow).1.symm, ?_⟩
      rintro rfl
      exact h.used tok row hrow hused
  | rejected hrow hused =>
      refine known ?_
      intro f hf
      exact absurd hused ((h.exchanged tok f hf).2.2 _ hrow).2
  | @exchanged row role hrow hrev hused hexp hrole =>
      have hlive : row.familyId ∉ l.ended := fun hin => (h.revoked tok row hrow).mpr hin hrev
      have hmark := h.markUsed hrow
      have hpair := hmark.insertPair row.userId role (h.tokens tok row hrow).2 hlive
      refine hpair.of_ended ?_
      intro f
      rw [List.mem_append, mem_reuses]
      refine ⟨fun hor => hor.elim id ?_, Or.inl⟩
      intro hf
      exact absurd hused ((h.exchanged tok f hf).2.2 row hrow).2

/-- Every call keeps the invariant. -/
theorem Inv.next {a : Call × Sweep} (h : Inv l) (hok : Life.NoSweptReuse l a)
    (hn : Life.machine.next l a = some l') : Inv l' := by
  rcases a with ⟨call, w⟩
  simp only [Life.machine, Option.map_eq_some_iff] at hn
  rcases hn with ⟨⟨s', r⟩, hstep, rfl⟩
  cases call with
  | login user =>
      simp only [step, Option.ite_none_right_eq_some, Option.some.injEq, Prod.mk.injEq] at hstep
      rcases hstep with ⟨hw, rfl, rfl⟩
      unfold Life.record login
      dsimp only
      cases user.bind fun u => ((l.store.users u).bind isRole).map (u, ·) with
      | none => exact h
      | some p =>
          have hnew := (h.sweep hw).newFamily
          refine hnew.insertPair _ _ (Nat.lt_succ_self _) ?_
          intro hin
          exact Nat.lt_irrefl _ (h.ended _ hin).1
  | refresh tok =>
      simp only [step, Option.some.injEq, Prod.mk.injEq] at hstep
      rcases hstep with ⟨rfl, rfl⟩
      exact h.refresh hok
  -- the family ends, the token is denied, and then the sweep runs
  | logout claims =>
      simp only [step, Option.ite_none_right_eq_some, Option.some.injEq, Prod.mk.injEq] at hstep
      rcases hstep with ⟨⟨hissued, hw⟩, rfl, rfl⟩
      rcases h.issued claims hissued with ⟨hfid, hjti, -⟩
      have hrevoke : Inv ⟨Atomic.revokeFamily claims.fid l.store, l.exchanged, l.ended ++ [claims.fid]⟩ := by
        refine Inv.revokeFamily h hfid ?_
        intro f
        rw [List.mem_append, List.mem_singleton]
      refine (hrevoke.deny hjti ?_).sweep hw
      -- the denied token is one of the family
      intro c hc heq
      rw [h.jti c hc claims hissued heq]
      exact List.mem_append_right _ (List.mem_singleton.mpr rfl)
  | authenticate token =>
      simp only [step, Option.some.injEq, Prod.mk.injEq] at hstep
      rcases hstep with ⟨rfl, rfl⟩
      exact h
  | sweepExpired =>
      simp only [step, Option.ite_none_right_eq_some, Option.some.injEq, Prod.mk.injEq] at hstep
      rcases hstep with ⟨hw, rfl, rfl⟩
      exact h.sweep hw
  | tick dt =>
      simp only [step, Option.some.injEq, Prod.mk.injEq] at hstep
      rcases hstep with ⟨rfl, rfl⟩
      exact h.tick dt

/-- An empty store keeps what the invariant asks. -/
theorem Inv.init (h : Life.Init l) : Inv l := by
  rcases h with ⟨htokens, hdeny, hrev, hissued, hex, hen⟩
  rcases l with ⟨s, ex, en⟩
  dsimp only at htokens hdeny hrev hissued hex hen
  subst hex
  subst hen
  have norow : ∀ k row, s.refreshTokens k ≠ some row := by
    intro k row hr
    rw [htokens k] at hr
    cases hr
  have noclaims : ∀ c, c ∉ s.issued := by
    intro c hc
    rw [hissued] at hc
    cases hc
  exact
    { tokens := fun k row hr => absurd hr (norow k row)
      issued := fun c hc => absurd hc (noclaims c)
      jti := fun c hc => absurd hc (noclaims c)
      exchanged := fun k f hk => by cases hk
      used := fun k row hr => absurd hr (norow k row)
      revoked := fun k row hr => absurd hr (norow k row)
      ended := fun f hf => by cases hf
      denied := fun f hf => absurd (hrev f) hf
      denylist := fun j hj => absurd (hdeny j) hj }

/-! ## The law -/

/-- In every state of a run without such reuses, an access token is let in if and only if the
service has issued it, it has not reached its `exp`, and its family has seen no logout and no
reuse. -/
theorem tokens_die_with_family (l₀ l : Life) (as : List (Call × Sweep))
    (hinit : Life.machine.Init l₀) (hrun : Life.machine.Run Life.NoSweptReuse l₀ as l)
    (token : AccessClaims) :
    (∃ c, authenticate (some token) l.store = .ok c) ↔
      token ∈ l.store.issued ∧ floorSec l.store.now < token.exp ∧ token.fid ∉ l.ended := by
  have hinv : Inv l := hrun.invariant (fun _ _ _ hok hn h => h.next hok hn) (Inv.init hinit)
  exact hinv.authenticate token

/-! ## A reuse that is not noticed -/

/-- One buyer, and nobody has logged in. -/
def emptyLife : Life where
  store :=
    { refreshTokens := fun _ => none, accessDenylist := fun _ => none, revokedFamilies := fun _ => none
      users := fun u => if u = 7 then some "buyer" else none
      now := 0, nextToken := 0, nextFamily := 0, nextJti := 0, issued := [] }
  exchanged := []
  ended := []

theorem emptyLife_init : Life.machine.Init emptyLife :=
  ⟨fun _ => rfl, fun _ => rfl, fun _ => rfl, rfl, rfl, rfl⟩

def days (n : ℕ) : ℕ := secs (n * 24 * 60 * 60)

/-- Token 0 is exchanged on day 20 and token 1 on day 30, when the row of token 0 is swept. Then
token 0 is presented again. -/
def sweptReuse : List (Call × Sweep) :=
  [(.login (some 7), noSweep), (.tick (days 20), noSweep), (.refresh 0, noSweep),
    (.tick (days 10), noSweep), (.refresh 1, noSweep), (.sweepExpired, ⟨[0], [], []⟩),
    (.refresh 0, noSweep)]

/-- The access token that came for token 1. -/
def laterAccess : AccessClaims := sign (days 30) 2 7 .buyer 0

/-- Without the condition a token can outlive its family: a reuse of a token whose row was swept
revokes nothing. -/
theorem tokens_outlive_family :
    ¬ ∀ (l₀ l : Life) (as : List (Call × Sweep)), Life.machine.Init l₀ →
      Life.machine.Run Machine.Always l₀ as l → ∀ token,
      ((∃ c, authenticate (some token) l.store = .ok c) ↔
        token ∈ l.store.issued ∧ floorSec l.store.now < token.exp ∧ token.fid ∉ l.ended) := by
  intro hlaw
  have hrun : ∃ l, Life.machine.exec (fun _ _ => true) emptyLife sweptReuse = some l ∧
      authenticate (some laterAccess) l.store = .ok laterAccess ∧ l.ended = [0] :=
    ⟨_, rfl, by decide, rfl⟩
  rcases hrun with ⟨l, hl, hauth, hended⟩
  have hiff := hlaw emptyLife l sweptReuse emptyLife_init (Machine.exec_always hl) laterAccess
  apply (hiff.mp ⟨_, hauth⟩).2.2
  rw [hended]
  exact List.mem_singleton.mpr rfl

/-- A token that is presented again while its row is there ends its family. -/
def noticedReuse : List (Call × Sweep) :=
  [(.login (some 7), noSweep), (.refresh 0, noSweep), (.refresh 0, noSweep)]

/-- The row of a presented token is there. -/
def rowThere (l : Life) : Call × Sweep → Bool
  | (.refresh tok, _) => (l.store.refreshTokens tok).isSome
  | _ => true

/-- What the concrete run checks is the condition of the theorem. -/
theorem rowThere_ok (l : Life) (a : Call × Sweep) (h : rowThere l a = true) :
    Life.NoSweptReuse l a := by
  rcases a with ⟨call, w⟩
  cases call with
  | refresh tok =>
      intro f _ _
      exact Option.isSome_iff_ne_none.mp h
  | _ => trivial

/-- A reuse that is noticed ends the family, and the token of the exchange is refused. -/
theorem tokens_die_with_family_noticed : ∃ l : Life,
    Life.machine.Run Life.NoSweptReuse emptyLife noticedReuse l ∧
    ¬ ∃ c, authenticate (some (sign 0 1 7 .buyer 0)) l.store = .ok c := by
  have hrun : ∃ l, Life.machine.exec rowThere emptyLife noticedReuse = some l ∧ l.ended = [0] :=
    ⟨_, rfl, rfl⟩
  rcases hrun with ⟨l, hl, hended⟩
  have hr := Machine.exec_run rowThere_ok hl
  refine ⟨l, hr, ?_⟩
  rw [tokens_die_with_family emptyLife l noticedReuse emptyLife_init hr]
  rintro ⟨-, -, hlive⟩
  apply hlive
  rw [hended]
  exact List.mem_singleton.mpr rfl

end Marketplace.Auth.Atomic

import Marketplace.Auth.Lifetime

/-!
# Auth.LoggedOut — what a logout leaves behind

One family, from its logout on: no row of it can be exchanged any more, so no token is added to
it, and those it has are denied for as long as they live. Unlike the law of `Auth.Lifetime` this
holds in every run, whatever was swept before.
-/

namespace Marketplace.Auth.Atomic

open Core

variable {s s' : Store} {w : Sweep} {tok : Token} {F G : FamilyId} {c : AccessClaims}
  {userId : UserId} {role : Role} {call : Call} {r : Outcome}

/-- Families are numbered, and no token lives for longer than its lifetime. -/
structure Known (s : Store) : Prop where
  rows : ∀ k row, s.refreshTokens k = some row → row.familyId < s.nextFamily
  issued : ∀ c ∈ s.issued, c.fid < s.nextFamily ∧ c.exp ≤ floorSec s.now + accessTtlSec

/-- The family has ended. -/
structure Closed (F : FamilyId) (s : Store) : Prop where
  family : F < s.nextFamily
  rows : ∀ k row, s.refreshTokens k = some row → row.familyId = F → row.revokedAt ≠ none
  tokens : ∀ c ∈ s.issued, c.fid = F →
    c.exp ≤ floorSec s.now ∨ ∃ e, s.revokedFamilies F = some e ∧ secs c.exp ≤ e

/-- A token of the family that passes the query has reached its `exp`. -/
theorem Closed.expired (h : Closed F s) (hc : c ∈ s.issued) (hF : c.fid = F)
    (hpass : isAccessRevoked c s = false) : c.exp ≤ floorSec s.now := by
  rcases h.tokens c hc hF with hexp | ⟨e, he, hle⟩
  · exact hexp
  · by_contra hlive
    have hlt : s.now < secs c.exp := lt_of_floorSec_lt (Nat.lt_of_not_le hlive)
    have hdenied : isAccessRevoked c s = true := by
      unfold isAccessRevoked
      rw [hF, he, Option.any_some, Bool.or_eq_true, decide_eq_true_eq]
      exact Or.inl (Nat.lt_of_lt_of_le hlt hle)
    rw [hpass] at hdenied
    cases hdenied

/-! ## The parts of a call -/

theorem Known.sweep (h : Known s) : Known (sweepExpired w s) where
  rows k row hr := h.rows k row (without_eq_some hr)
  issued := h.issued

/-- A sweep drops rows and lapsed denials only, so a closed family stays closed. -/
theorem Closed.sweep (hw : Sweepable w s) (h : Closed F s) : Closed F (sweepExpired w s) where
  family := h.family
  rows k row hr := h.rows k row (without_eq_some hr)
  tokens c hc hF := by
    rcases h.tokens c hc hF with hexp | ⟨e, he, hle⟩
    · exact Or.inl hexp
    · rcases hw.2.2.expired he with hstill | hgone
      · exact Or.inr ⟨e, hstill, hle⟩
      · -- the row that is swept has outlived the token
        left
        by_contra hlive
        have hlt : s.now < secs c.exp := lt_of_floorSec_lt (Nat.lt_of_not_le hlive)
        have hgone' : e ≤ s.now := hgone
        omega

/-- Revoking a family draws no id, and what is issued stays known. -/
theorem Known.revokeFamily (h : Known s) : Known (revokeFamily G s) where
  rows k row hr := by
    obtain ⟨old, hold, rfl⟩ := Option.map_eq_some_iff.mp hr
    rw [revokeRow_familyId]
    exact h.rows k old hold
  issued := h.issued

/-- Every row of the family is revoked, and its tokens are denied for a whole lifetime. -/
theorem Known.closes (h : Known s) (hF : F < s.nextFamily) : Closed F (Atomic.revokeFamily F s) where
  family := hF
  rows k row hr hrow := by
    obtain ⟨old, -, rfl⟩ := Option.map_eq_some_iff.mp hr
    apply revokeRow_revokedAt
    rwa [revokeRow_familyId] at hrow
  tokens c hc _ := by
    refine Or.inr ⟨s.now + secs accessTtlSec, Function.update_self .., ?_⟩
    have hexp : c.exp ≤ floorSec s.now + accessTtlSec := (h.issued c hc).2
    unfold floorSec at hexp
    unfold secs
    omega

/-- Revoking any family leaves a closed one closed: it denies more, and never less. -/
theorem Closed.revokeFamily (hknown : Known s) (h : Closed F s) :
    Closed F (Atomic.revokeFamily G s) := by
  by_cases hG : G = F
  · subst hG
    exact hknown.closes h.family
  · refine ⟨h.family, ?_, ?_⟩
    · intro k row hr hrow
      obtain ⟨old, hold, rfl⟩ := Option.map_eq_some_iff.mp hr
      rw [revokeRow_familyId] at hrow
      exact revokeRow_revoked (h.rows k old hold hrow)
    · intro c hc hF
      rcases h.tokens c hc hF with hexp | ⟨e, he, hle⟩
      · exact Or.inl hexp
      · exact Or.inr ⟨e, (Function.update_of_ne (Ne.symm hG) ..).trans he, hle⟩

/-- After a pair was made the rows are those of before and the new one. -/
theorem insertPair_rows {k : Token} {row : RefreshRow}
    (hr : (insertPair userId role G s).1.refreshTokens k = some row) :
    row = newRow userId G s ∨ s.refreshTokens k = some row := by
  by_cases hk : k = s.nextToken
  · subst hk
    left
    have hself : (insertPair userId role G s).1.refreshTokens s.nextToken =
        some (newRow userId G s) := Function.update_self ..
    rw [hself] at hr
    exact (Option.some.inj hr).symm
  · right
    exact (Function.update_of_ne hk ..).symm.trans hr

/-- After a pair was made the access tokens are those of before and the new one. -/
theorem insertPair_issued (hc : c ∈ (insertPair userId role G s).1.issued) :
    c ∈ s.issued ∨ c = newAccess userId role G s := by
  rcases List.mem_append.mp hc with hold | hnew
  · exact Or.inl hold
  · exact Or.inr (List.mem_singleton.mp hnew)

/-- A pair made in a known family keeps what is issued known. -/
theorem Known.insertPair (h : Known s) (hG : G < s.nextFamily) :
    Known (insertPair userId role G s).1 where
  rows k row hr := by
    rcases insertPair_rows hr with rfl | hold
    · exact hG
    · exact h.rows k row hold
  issued c hc := by
    rcases insertPair_issued hc with hold | rfl
    · exact h.issued c hold
    · exact ⟨hG, Nat.le_refl _⟩

/-- A pair made in another family leaves a closed one closed. -/
theorem Closed.insertPair (h : Closed F s) (hG : G ≠ F) :
    Closed F (insertPair userId role G s).1 where
  family := h.family
  rows k row hr hrow := by
    rcases insertPair_rows hr with rfl | hold
    · exact absurd hrow hG
    · exact h.rows k row hold hrow
  tokens c hc hF := by
    rcases insertPair_issued hc with hold | rfl
    · exact h.tokens c hold hF
    · exact absurd hF hG

/-- Marking a row as used changes no family. -/
theorem Known.markUsed {row : RefreshRow} (h : Known s) (hrow : s.refreshTokens tok = some row) :
    Known (markUsed tok row s) where
  rows k row' hr := by
    by_cases hk : k = tok
    · subst hk
      have hself : (Atomic.markUsed k row s).refreshTokens k =
          some { row with usedAt := some s.now } := Function.update_self ..
      rw [hself] at hr
      obtain rfl := Option.some.inj hr
      exact h.rows k row hrow
    · exact h.rows k row' ((Function.update_of_ne hk ..).symm.trans hr)
  issued := h.issued

/-- Marking a row of another family leaves a closed one closed. -/
theorem Closed.markUsed {row : RefreshRow} (h : Closed F s) (hrow : row.familyId ≠ F) :
    Closed F (markUsed tok row s) where
  family := h.family
  rows k row' hr hF := by
    by_cases hk : k = tok
    · subst hk
      have hself : (Atomic.markUsed k row s).refreshTokens k =
          some { row with usedAt := some s.now } := Function.update_self ..
      rw [hself] at hr
      obtain rfl := Option.some.inj hr
      exact absurd hF hrow
    · exact h.rows k row' ((Function.update_of_ne hk ..).symm.trans hr) hF
  tokens := h.tokens

/-- Time does not change what is known. -/
theorem Known.tick (h : Known s) (dt : ℕ) : Known { s with now := s.now + dt } where
  rows := h.rows
  issued c hc := by
    have hmono : floorSec s.now ≤ floorSec (s.now + dt) := floorSec_mono (Nat.le_add_right _ _)
    exact ⟨(h.issued c hc).1, Nat.le_trans (h.issued c hc).2 (Nat.add_le_add_right hmono _)⟩

/-- Time does not open a closed family: its tokens expire before its denial lapses. -/
theorem Closed.tick (h : Closed F s) (dt : ℕ) : Closed F { s with now := s.now + dt } where
  family := h.family
  rows := h.rows
  tokens c hc hF := by
    have hmono : floorSec s.now ≤ floorSec (s.now + dt) := floorSec_mono (Nat.le_add_right _ _)
    exact (h.tokens c hc hF).imp_left fun hexp => Nat.le_trans hexp hmono

/-! ## A call -/

/-- Every call keeps what is issued known. -/
theorem Known.step (h : Known s) (hn : step w s call = some (s', r)) : Known s' := by
  -- login and refresh issue; the others leave tokens and rows as they are, or drop rows
  cases call with
  | login user =>
      simp only [Atomic.step] at hn
      split at hn
      · cases hn
        unfold login
        split
        · exact h
        · next userId role _ =>
            have hnew : Known { sweepExpired w s with nextFamily := s.nextFamily + 1 } :=
              ⟨fun k row hr => Nat.lt_succ_of_lt (h.sweep.rows k row hr),
                fun c hc => ⟨Nat.lt_succ_of_lt (h.issued c hc).1, (h.issued c hc).2⟩⟩
            exact hnew.insertPair (Nat.lt_succ_self _)
      · cases hn
  | refresh tok =>
      cases hn
      have hcases := refresh_cases tok s
      generalize (Atomic.refresh tok s).1 = t, (Atomic.refresh tok s).2 = pair at hcases
      cases hcases with
      | gone | revoked | rejected => exact h
      | reused => exact h.revokeFamily
      | exchanged hrow =>
          apply (h.markUsed hrow).insertPair
          exact h.rows tok _ hrow
  | logout claims =>
      simp only [Atomic.step] at hn
      split at hn
      · cases hn
        apply Known.sweep
        exact ⟨h.revokeFamily.rows, h.issued⟩
      · cases hn
  | authenticate token =>
      cases hn
      exact h
  | sweepExpired =>
      simp only [Atomic.step] at hn
      split at hn
      · cases hn
        exact h.sweep
      · cases hn
  | tick dt =>
      cases hn
      exact h.tick dt

/-- A family that has ended stays so. -/
theorem Closed.step (hknown : Known s) (h : Closed F s) (hn : step w s call = some (s', r)) :
    Closed F s' := by
  cases call with
  | login user =>
      simp only [Atomic.step] at hn
      split at hn
      · next hw =>
          cases hn
          unfold login
          split
          · exact h
          · next userId role _ =>
              have hswept := h.sweep hw
              have hnew : Closed F { sweepExpired w s with nextFamily := s.nextFamily + 1 } :=
                ⟨Nat.lt_succ_of_lt h.family, hswept.rows, hswept.tokens⟩
              exact hnew.insertPair (Nat.ne_of_gt h.family)
      · cases hn
  | refresh tok =>
      cases hn
      have hcases := refresh_cases tok s
      generalize (Atomic.refresh tok s).1 = t, (Atomic.refresh tok s).2 = pair at hcases
      cases hcases with
      | gone | revoked | rejected => exact h
      | reused => exact h.revokeFamily hknown
      -- an exchange needs a live row, and a closed family has none
      | exchanged hrow hnone =>
          -- a row of the family would have been revoked
          have hother := fun hF => h.rows tok _ hrow hF hnone
          exact (h.markUsed hother).insertPair hother
  | logout claims =>
      simp only [Atomic.step] at hn
      split at hn
      · next hok =>
          cases hn
          have hrevoked := h.revokeFamily (G := claims.fid) hknown
          have hdenied : Closed F (denied claims s) :=
            ⟨hrevoked.family, hrevoked.rows, hrevoked.tokens⟩
          exact hdenied.sweep hok.2
      · cases hn
  | authenticate token =>
      cases hn
      exact h
  | sweepExpired =>
      simp only [Atomic.step] at hn
      split at hn
      · next hw =>
          cases hn
          exact h.sweep hw
      · cases hn
  | tick dt =>
      cases hn
      exact h.tick dt

/-- A logout ends the family. -/
theorem Known.logout {claims : AccessClaims} (h : Known s)
    (hn : Atomic.step w s (.logout claims) = some (s', r)) : Closed claims.fid s' := by
  simp only [Atomic.step] at hn
  split at hn
  · next hok =>
      cases hn
      have hcloses := h.closes (h.issued claims hok.1).1
      have hdenied : Closed claims.fid (denied claims s) :=
        ⟨hcloses.family, hcloses.rows, hcloses.tokens⟩
      exact hdenied.sweep hok.2
  · cases hn

end Marketplace.Auth.Atomic

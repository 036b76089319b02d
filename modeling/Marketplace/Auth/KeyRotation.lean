import Marketplace.Auth.Keys
import Marketplace.Core.Machine

/-!
# Auth.KeyRotation — keys over a fleet of processes

Processes with their own environments come and go, each signs tokens with its key and verifies
those of the others. `Overlapping` is the discipline of a rotation: a process that starts knows
the keys of everybody who runs and of every token that has not expired, and those who run know
its key. In every run that keeps it no live token is ever refused (`rotation_seamless`); a
process that is stopped makes no difference.
-/

namespace Marketplace.Auth

open Core

variable {C : Crypto}

/-- A token, and the call of `sign` it comes from. -/
structure Issued (C : Crypto) where
  signer : AuthConfig C
  signedAt : ℕ
  jti : Jti
  userId : UserId
  role : Role
  familyId : FamilyId

namespace Issued

def token (jwt : JsonWebToken C) (t : Issued C) : jwt.Token :=
  AccessTokens.sign jwt t.signer t.signedAt t.jti t.userId t.role t.familyId

def claims (t : Issued C) : AccessClaims := Auth.sign t.signedAt t.jti t.userId t.role t.familyId

/-- Before its `exp`. -/
def Live (now : ℕ) (t : Issued C) : Prop := floorSec now < floorSec t.signedAt + accessTtlSec

end Issued

structure Fleet (C : Crypto) where
  running : List (AuthConfig C)
  issued : List (Issued C)
  now : ℕ

inductive FleetAct where
  | tick (dt : ℕ)
  | start (env : Env)
  | stop (n : ℕ)
  | sign (n : ℕ) (jti : Jti) (userId : UserId) (role : Role) (familyId : FamilyId)

/-- A process whose configuration does not load exits at once. -/
def Fleet.next (dbl : Doubles) (s : Fleet C) : FleetAct → Option (Fleet C)
  | .tick dt => some { s with now := s.now + dt }
  | .start env =>
      match loadAuthConfig C dbl env with
      | .error _ => none
      | .ok cfg => some { s with running := cfg :: s.running }
  | .stop n => some { s with running := s.running.eraseIdx n }
  | .sign n jti userId role familyId =>
      match s.running[n]? with
      | none => none
      | some signer =>
          some { s with issued := ⟨signer, s.now, jti, userId, role, familyId⟩ :: s.issued }

def fleet (C : Crypto) (dbl : Doubles) : Machine (Fleet C) FleetAct where
  Init s := s.running = [] ∧ s.issued = []
  next := Fleet.next dbl

/-- What a process has to know, and the others of it, when it starts. -/
def Overlapping (dbl : Doubles) (s : Fleet C) : FleetAct → Prop
  | .start env => ∀ cfg, loadAuthConfig C dbl env = .ok cfg →
      (∀ other ∈ s.running, cfg.Knows other ∧ other.Knows cfg) ∧
        ∀ t ∈ s.issued, t.Live s.now → cfg.Knows t.signer
  | _ => True

/-- Everybody knows everybody's key, and the keys of the tokens that are alive. -/
structure Fleet.Overlaps (s : Fleet C) : Prop where
  running : ∀ cfg ∈ s.running, ∀ other ∈ s.running, cfg.Knows other
  issued : ∀ cfg ∈ s.running, ∀ t ∈ s.issued, t.Live s.now → cfg.Knows t.signer

variable {dbl : Doubles} {s s₀ t : Fleet C} {a : FleetAct} {acts : List FleetAct}
  {jwt : JsonWebToken C}

/-- Every step of an overlapping rollout keeps the keys of all live tokens known to all running
processes. -/
theorem overlaps_step (hok : Overlapping dbl s a) (hn : (fleet C dbl).next s a = some t)
    (h : s.Overlaps) : t.Overlaps := by
  cases a with
  | tick dt =>
      cases hn
      refine ⟨h.running, ?_⟩
      intro cfg hcfg tok htok hlive
      -- what is alive now was alive before
      apply h.issued cfg hcfg tok htok
      have hmono : floorSec s.now ≤ floorSec (s.now + dt) :=
        Nat.div_le_div_right (Nat.le_add_right _ _)
      exact Nat.lt_of_le_of_lt hmono hlive
  -- the new process is asked to know the keys of every token alive
  | start env =>
      simp only [fleet, Fleet.next] at hn
      split at hn
      · cases hn
      · next cfg hload =>
          cases hn
          obtain ⟨hknows, htokens⟩ := hok cfg hload
          constructor
          · intro a ha b hb
            rcases List.mem_cons.mp ha with rfl | haold
            · rcases List.mem_cons.mp hb with rfl | hbold
              · exact AuthConfig.knows_self _
              · exact (hknows b hbold).1
            · rcases List.mem_cons.mp hb with rfl | hbold
              · exact (hknows a haold).2
              · exact h.running a haold b hbold
          · intro a ha tok htok hlive
            rcases List.mem_cons.mp ha with rfl | haold
            · exact htokens tok htok hlive
            · exact h.issued a haold tok htok hlive
  | stop n =>
      cases hn
      constructor
      · intro a ha b hb
        exact h.running a (List.mem_of_mem_eraseIdx ha) b (List.mem_of_mem_eraseIdx hb)
      · intro a ha
        exact h.issued a (List.mem_of_mem_eraseIdx ha)
  | sign n jti userId role familyId =>
      simp only [fleet, Fleet.next] at hn
      split at hn
      · cases hn
      · next signer hsigner =>
          cases hn
          refine ⟨h.running, ?_⟩
          intro cfg hcfg tok htok hlive
          rcases List.mem_cons.mp htok with rfl | htokold
          · exact h.running cfg hcfg signer (List.mem_of_getElem? hsigner)
          · exact h.issued cfg hcfg tok htokold hlive

/-- After any overlapping rollout all running processes know the keys of all live tokens. -/
theorem overlaps_run (hinit : (fleet C dbl).Init s₀)
    (hr : (fleet C dbl).Run (Overlapping dbl) s₀ acts s) : s.Overlaps := by
  refine hr.invariant (P := Fleet.Overlaps) (fun _ _ _ hok hn h => overlaps_step hok hn h) ?_
  obtain ⟨hrunning, -⟩ := hinit
  constructor
  · intro cfg hcfg
    rw [hrunning] at hcfg
    cases hcfg
  · intro cfg hcfg
    rw [hrunning] at hcfg
    cases hcfg

/-- A key rotation is seamless: in an overlapping rollout every running process accepts every
token of the fleet as long as it lives, whoever signed it, and reads the claims it was signed
with. -/
theorem rotation_seamless (hinit : (fleet C dbl).Init s₀)
    (hr : (fleet C dbl).Run (Overlapping dbl) s₀ acts s) :
    ∀ t ∈ s.issued, ∀ cfg ∈ s.running, ∀ claims,
      AccessTokens.verify jwt cfg s.now (t.token jwt) = some claims ↔
        t.Live s.now ∧ claims = t.claims := by
  have hover := overlaps_run hinit hr
  intro t ht cfg hcfg claims
  rw [Issued.token, verify_sign_iff]
  constructor
  · rintro ⟨-, hlive, hclaims⟩
    exact ⟨hlive, hclaims⟩
  · rintro ⟨hlive, hclaims⟩
    exact ⟨hover.issued cfg hcfg t ht hlive, hlive, hclaims⟩

/-- The new process of the concrete rollout knows the old key. -/
theorem newEnv_knows {signer cfg : AuthConfig lastCharCrypto}
    (hsigner : loadAuthConfig lastCharCrypto Doubles.unrounded oldEnv = .ok signer)
    (hkey : signer.privateKey = some 'A')
    (hcfg : loadAuthConfig lastCharCrypto Doubles.unrounded newEnv = .ok cfg) :
    cfg.Knows signer := by
  obtain ⟨hkid, -⟩ := loadAuthConfig_ring hsigner
  obtain ⟨hkid', old, hold, hring⟩ := loadAuthConfig_ring hcfg
  obtain ⟨old', hold', hget⟩ := newEnv_overlap
  rw [hold] at hold'
  obtain rfl := Except.ok.inj hold'
  have hne : signer.kid ≠ cfg.kid := by
    rw [hkid, hkid']
    decide
  rw [AuthConfig.Knows, hring, JsMap.get_set_of_ne hne, hkid, hkey]
  exact hget

/-- A process signs a token and stops; the next one has the key under its old kid. -/
theorem rotation_seamless_handover : ∃ (s : Fleet lastCharCrypto) (t : Issued lastCharCrypto)
    (cfg : AuthConfig lastCharCrypto),
    (fleet lastCharCrypto Doubles.unrounded).Run (Overlapping Doubles.unrounded) ⟨[], [], 0⟩
        [.start oldEnv, .sign 0 1 2 .buyer 3, .stop 0, .start newEnv] s ∧
      s.issued = [t] ∧ s.running = [cfg] ∧ cfg.kid = "k2".toList ∧
      AccessTokens.verify plainJwt cfg s.now (t.token plainJwt) = some t.claims := by
  obtain ⟨signer, hsigner, hkey⟩ := oldEnv_loads
  obtain ⟨cfg, hcfg⟩ := newEnv_loads
  have hstart : ∀ {env : Env} {c : AuthConfig lastCharCrypto} {s : Fleet lastCharCrypto},
      loadAuthConfig lastCharCrypto Doubles.unrounded env = .ok c →
      (fleet lastCharCrypto Doubles.unrounded).next s (.start env) =
        some { s with running := c :: s.running } := by
    intro env c s hload
    simp only [fleet, Fleet.next, hload]
  -- before the first start there is no token, and before the second the only one is of the old
  -- key
  have hfirst : Overlapping Doubles.unrounded (⟨[], [], 0⟩ : Fleet lastCharCrypto)
      (.start oldEnv) := by
    intro c _
    exact ⟨by simp, by simp⟩
  have hlast : Overlapping Doubles.unrounded
      (⟨[], [⟨signer, 0, 1, 2, .buyer, 3⟩], 0⟩ : Fleet lastCharCrypto) (.start newEnv) := by
    intro c hload
    rw [hcfg] at hload
    obtain rfl := Except.ok.inj hload
    refine ⟨by simp, ?_⟩
    intro t ht _
    obtain rfl := List.mem_singleton.mp ht
    exact newEnv_knows hsigner hkey hcfg
  have h1 := Machine.Run.refl.step hfirst (hstart hsigner)
  have h2 := h1.step (a := .sign 0 1 2 .buyer 3) (by trivial) rfl
  have h3 := h2.step (a := .stop 0) (by trivial) rfl
  have hr := h3.step hlast (hstart hcfg)
  refine ⟨_, ⟨signer, 0, 1, 2, .buyer, 3⟩, cfg, hr, rfl, rfl, (loadAuthConfig_ring hcfg).1, ?_⟩
  apply (rotation_seamless ⟨rfl, rfl⟩ hr _ List.mem_cons_self cfg List.mem_cons_self _).mpr
  refine ⟨?_, rfl⟩
  show floorSec 0 < floorSec 0 + accessTtlSec
  decide

end Marketplace.Auth

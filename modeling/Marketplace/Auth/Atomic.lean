import Marketplace.Auth.Tokens
import Marketplace.Core.Machine
import Marketplace.Http
import Mathlib.Logic.Function.Basic

/-!
# Auth.Atomic — the auth calls, one at a time

`AuthService` of `src/auth/auth.service.ts` with every call as one atomic step on the committed
tables: what a call answers and what it leaves behind, on a clock that application and database
share. `Auth.Service` has the same calls statement by statement.

A sweep is given by the rows its three DELETEs take: expired ones, at most `SWEEP_BATCH` of
each table.
-/

namespace Marketplace.Auth.Atomic

/-- The committed tables, and what was never drawn before. `issued` has the access tokens the
service has signed. -/
structure Store where
  refreshTokens : Token → Option RefreshRow
  accessDenylist : Jti → Option ℕ
  revokedFamilies : FamilyId → Option ℕ
  users : UserId → Option String
  now : ℕ
  nextToken : Token
  nextFamily : FamilyId
  nextJti : Jti
  issued : List AccessClaims

/-- The rows that `sweepExpired` deletes. -/
structure Sweep where
  tokens : List Token
  jtis : List Jti
  families : List FamilyId

def noSweep : Sweep := ⟨[], [], []⟩

/-- Every row a DELETE takes is there and has expired. -/
def Swept {K V : Type} (now : ℕ) (expiresAt : V → ℕ) (table : K → Option V) (keys : List K) : Prop :=
  keys.length ≤ sweepBatch ∧
    ∀ k ∈ keys, (table k).any (fun v => decide (expiresAt v ≤ now)) = true

instance {K V : Type} (now : ℕ) (expiresAt : V → ℕ) (table : K → Option V) (keys : List K) :
    Decidable (Swept now expiresAt table keys) :=
  inferInstanceAs (Decidable (_ ∧ _))

def Sweepable (w : Sweep) (s : Store) : Prop :=
  Swept s.now RefreshRow.expiresAt s.refreshTokens w.tokens ∧
    Swept s.now id s.accessDenylist w.jtis ∧ Swept s.now id s.revokedFamilies w.families

instance (w : Sweep) (s : Store) : Decidable (Sweepable w s) :=
  inferInstanceAs (Decidable (_ ∧ _ ∧ _))

/-- A table without the rows `keys`. -/
def without {K V : Type} [DecidableEq K] (keys : List K) (table : K → Option V) : K → Option V :=
  fun k => if k ∈ keys then none else table k

def sweepExpired (w : Sweep) (s : Store) : Store :=
  { s with
    refreshTokens := without w.tokens s.refreshTokens
    accessDenylist := without w.jtis s.accessDenylist
    revokedFamilies := without w.families s.revokedFamilies }

/-- `UPDATE refresh_tokens SET revoked_at = now() WHERE family_id = $1 AND revoked_at IS NULL`. -/
def revokeRow (familyId : FamilyId) (now : ℕ) (row : RefreshRow) : RefreshRow :=
  if row.familyId = familyId ∧ row.revokedAt = none then { row with revokedAt := some now } else row

def revokeFamily (familyId : FamilyId) (s : Store) : Store :=
  { s with
    refreshTokens := fun k => (s.refreshTokens k).map (revokeRow familyId s.now)
    revokedFamilies :=
      Function.update s.revokedFamilies familyId (some (s.now + secs accessTtlSec)) }

/-- The access token `insertPair` signs. -/
def newAccess (userId : UserId) (role : Role) (familyId : FamilyId) (s : Store) : AccessClaims :=
  sign s.now s.nextJti userId role familyId

def newRow (userId : UserId) (familyId : FamilyId) (s : Store) : RefreshRow :=
  { familyId, userId, expiresAt := s.now + secs refreshTtlSec, usedAt := none, revokedAt := none }

def insertPair (userId : UserId) (role : Role) (familyId : FamilyId) (s : Store) :
    Store × TokenPair :=
  ({ s with
      refreshTokens := Function.update s.refreshTokens s.nextToken (some (newRow userId familyId s))
      nextToken := s.nextToken + 1
      nextJti := s.nextJti + 1
      issued := s.issued ++ [newAccess userId role familyId s] },
    ⟨newAccess userId role familyId s, s.nextToken, accessTtlSec⟩)

def unauthorized : Thrown := .http 401 "unauthorized"

/-- `login`: `user` is the user whose password was right. -/
def login (user : Option UserId) (w : Sweep) (s : Store) : Store × Except Thrown TokenPair :=
  match user.bind fun u => ((s.users u).bind isRole).map (u, ·) with
  | none => (s, .error (.http 401 "invalid credentials"))
  | some (userId, role) =>
      let r := insertPair userId role s.nextFamily
        { sweepExpired w s with nextFamily := s.nextFamily + 1 }
      (r.1, .ok r.2)

def markUsed (tok : Token) (row : RefreshRow) (s : Store) : Store :=
  { s with refreshTokens := Function.update s.refreshTokens tok (some { row with usedAt := some s.now }) }

def refresh (tok : Token) (s : Store) : Store × Except Thrown TokenPair :=
  match s.refreshTokens tok with
  | none => (s, .error unauthorized)
  | some row =>
      if row.revokedAt.isSome then (s, .error unauthorized)
      else if row.usedAt.isSome then (revokeFamily row.familyId s, .error unauthorized)
      else if row.expiresAt ≤ s.now then (s, .error unauthorized)
      else
        match (s.users row.userId).bind isRole with
        | none => (s, .error unauthorized)
        | some role =>
            let r := insertPair row.userId role row.familyId (markUsed tok row s)
            (r.1, .ok r.2)

/-- What `logout` has done before its sweep. -/
def denied (claims : AccessClaims) (s : Store) : Store :=
  { revokeFamily claims.fid s with
    accessDenylist := Function.update s.accessDenylist claims.jti (some (secs claims.exp)) }

def logout (claims : AccessClaims) (w : Sweep) (s : Store) : Store := sweepExpired w (denied claims s)

/-- `tokens.verify`: the signature, and `exp` on the clock in whole seconds. -/
def verify (token : AccessClaims) (s : Store) : Option AccessClaims :=
  if token ∈ s.issued ∧ floorSec s.now < token.exp then some token else none

def isAccessRevoked (claims : AccessClaims) (s : Store) : Bool :=
  (s.revokedFamilies claims.fid).any (fun e => decide (s.now < e)) ||
    (s.accessDenylist claims.jti).any fun e => decide (s.now < e)

/-- `token` is `none` for undefined and for a string that is no token. -/
def authenticate (token : Option AccessClaims) (s : Store) : Except Thrown AccessClaims :=
  match token.bind fun t => verify t s with
  | none => .error unauthorized
  | some claims => if isAccessRevoked claims s then .error unauthorized else .ok claims

/-! ## Calls -/

inductive Call where
  | login (user : Option UserId)
  | refresh (tok : Token)
  | logout (claims : AccessClaims)
  | authenticate (token : Option AccessClaims)
  | sweepExpired
  | tick (dt : ℕ)
deriving DecidableEq, Repr

inductive Outcome where
  | pair (r : Except Thrown TokenPair)
  | claims (r : Except Thrown AccessClaims)
  | nothing

/-- One call, with the rows its sweep takes. The guard of `logout` has verified the claims. -/
def step (w : Sweep) (s : Store) : Call → Option (Store × Outcome)
  | .login user =>
      if Sweepable w s then
        let r := login user w s
        some (r.1, .pair r.2)
      else none
  | .refresh tok =>
      let r := refresh tok s
      some (r.1, .pair r.2)
  | .logout claims =>
      if claims ∈ s.issued ∧ Sweepable w (denied claims s) then some (logout claims w s, .nothing)
      else none
  | .authenticate token => some (s, .claims (authenticate token s))
  | .sweepExpired => if Sweepable w s then some (sweepExpired w s, .nothing) else none
  | .tick dt => some ({ s with now := s.now + dt }, .nothing)

end Marketplace.Auth.Atomic

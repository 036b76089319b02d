import Mathlib.Data.List.Basic

/-!
# Auth.Tokens — access tokens and their lifetime

`src/auth/tokens.ts` and the constants of `src/auth/config.ts`. The signature is
the library's job: a token is its claims, and whether it is genuine is whether
the service has signed it. Moments are natural numbers of microseconds, the
resolution of `timestamptz`.
-/

namespace Marketplace.Auth

abbrev UserId := ℕ
abbrev FamilyId := ℕ
abbrev Jti := ℕ

/-- A refresh token. The table stores its HMAC, one row for each token. -/
abbrev Token := ℕ

def secs (n : ℕ) : ℕ := n * 1000000

/-- `Math.floor(now / 1000)` on the clock in seconds. -/
def floorSec (t : ℕ) : ℕ := t / 1000000

def accessTtlSec : ℕ := 10 * 60
def refreshTtlSec : ℕ := 30 * 24 * 60 * 60

/-- `SWEEP_BATCH`: the rows that one DELETE of `sweepExpired` takes at most. -/
def sweepBatch : ℕ := 500

inductive Role where
  | buyer | seller | admin
deriving DecidableEq, Repr

/-- `isRole` on the `users.role` column. -/
def isRole : String → Option Role
  | "buyer" => some .buyer
  | "seller" => some .seller
  | "admin" => some .admin
  | _ => none

structure AccessClaims where
  sub : UserId
  role : Role
  jti : Jti
  fid : FamilyId
  /-- Seconds since the epoch. -/
  exp : ℕ
deriving DecidableEq, Repr

/-- `AccessTokens.sign`: `jsonwebtoken` puts `exp` a whole number of seconds after
the floor of the clock. -/
def sign (now : ℕ) (jti : Jti) (userId : UserId) (role : Role) (familyId : FamilyId) :
    AccessClaims :=
  { sub := userId, role, jti, fid := familyId, exp := floorSec now + accessTtlSec }

structure TokenPair where
  accessToken : AccessClaims
  refreshToken : Token
  expiresIn : ℕ
deriving DecidableEq, Repr

/-- A row of `refresh_tokens`. -/
structure RefreshRow where
  familyId : FamilyId
  userId : UserId
  expiresAt : ℕ
  usedAt : Option ℕ
  revokedAt : Option ℕ
deriving DecidableEq, Repr

end Marketplace.Auth

import Marketplace.Auth.Tokens
import Marketplace.Core.Procs
import Marketplace.Core.Rows

/-!
# Auth.Service — refresh, logout and login, statement by statement

`AuthService` of `src/auth/auth.service.ts`. Every `m.query` of a transaction is
one action, and so are its COMMIT and a crash, so the runs of `machine` are all
interleavings of any number of calls at READ COMMITTED:

* `SELECT … FOR UPDATE` and `UPDATE … WHERE token_hash` wait for the row lock;
* the family `UPDATE` of `revokeFamily` takes its rows one by one. It walks the
  rows that were committed when it started (`snapshot`), waits at each of them for
  the lock and re-evaluates its WHERE on what it finds;
* `sweepExpired` skips locked rows and never waits.

`now()` is the time the transaction began.
-/

namespace Marketplace.Auth

open Core

/-- The auth tables. `users` is the `role` column; nothing here writes it. -/
structure Db where
  refreshTokens : Table ℕ Token RefreshRow
  accessDenylist : Table ℕ Jti ℕ
  revokedFamilies : Table ℕ FamilyId ℕ
  users : UserId → Option String
  now : ℕ
  /-- The next random token, family id and `jti`: never drawn before. -/
  nextToken : Token
  nextFamily : FamilyId
  nextJti : Jti

namespace Db

def commit (i : ℕ) (d : Db) : Db :=
  { d with
    refreshTokens := d.refreshTokens.commit i
    accessDenylist := d.accessDenylist.commit i
    revokedFamilies := d.revokedFamilies.commit i }

def rollback (i : ℕ) (d : Db) : Db :=
  { d with
    refreshTokens := d.refreshTokens.rollback i
    accessDenylist := d.accessDenylist.rollback i
    revokedFamilies := d.revokedFamilies.rollback i }

/-- Set the own version of the refresh row `k`. -/
def putToken (i : ℕ) (k : Token) (v : Option RefreshRow) (d : Db) : Db :=
  { d with refreshTokens := d.refreshTokens.put i k v }

variable (i : ℕ) (k : Token) (v : Option RefreshRow) (d : Db)

@[simp] theorem commit_refreshTokens : (d.commit i).refreshTokens = d.refreshTokens.commit i := rfl
@[simp] theorem rollback_refreshTokens :
    (d.rollback i).refreshTokens = d.refreshTokens.rollback i := rfl
@[simp] theorem putToken_refreshTokens :
    (d.putToken i k v).refreshTokens = d.refreshTokens.put i k v := rfl
@[simp] theorem commit_nextToken : (d.commit i).nextToken = d.nextToken := rfl
@[simp] theorem rollback_nextToken : (d.rollback i).nextToken = d.nextToken := rfl
@[simp] theorem putToken_nextToken : (d.putToken i k v).nextToken = d.nextToken := rfl

end Db

/-- Why `revokeFamily` runs: a reused refresh token, or a logout with its claims. -/
inductive RevokeFor where
  | reuse
  | logout (claims : AccessClaims)
deriving DecidableEq, Repr

/-- The outcome a transaction is about to commit: the three kinds of `refresh`
(`login` ends in `ok` too), and a finished logout. -/
inductive Outcome where
  | reject
  | reuse (familyId : FamilyId)
  | ok (familyId : FamilyId) (pair : TokenPair)
  | loggedOut (familyId : FamilyId)
deriving DecidableEq, Repr

/-- What the transaction does once `sweepExpired` is through. -/
inductive AfterSweep where
  | insertPair (userId : UserId) (role : Role) (familyId : FamilyId)
  | finishLogout (familyId : FamilyId)
deriving DecidableEq, Repr

/-- The tables `sweepExpired` goes through, in its order. -/
inductive SweptTable where
  | refreshTokens | accessDenylist | revokedFamilies
deriving DecidableEq, Repr

def sweptTables : List SweptTable := [.refreshTokens, .accessDenylist, .revokedFamilies]

/-- Where a call is: the statement it runs next, with the values it has read.
`at₀` is its transaction's `now()`. -/
inductive Pc where
  | idle
  | refreshSelect (tok : Token) (at₀ : ℕ)
  | refreshRole (tok : Token) (row : RefreshRow) (at₀ : ℕ)
  | refreshMark (tok : Token) (row : RefreshRow) (role : Role) (at₀ : ℕ)
  | insertPair (userId : UserId) (role : Role) (familyId : FamilyId) (at₀ : ℕ)
  | revokeStart (why : RevokeFor) (familyId : FamilyId) (at₀ : ℕ)
  | revokeRows (why : RevokeFor) (familyId : FamilyId) (at₀ : ℕ) (rest : List Token)
  | denyFamily (why : RevokeFor) (familyId : FamilyId) (at₀ : ℕ)
  | denyJti (claims : AccessClaims) (familyId : FamilyId) (at₀ : ℕ)
  | sweep (tables : List SweptTable) (after : AfterSweep) (at₀ : ℕ)
  | commit (outcome : Outcome)
  | done (outcome : Outcome)
  | aborted
deriving DecidableEq, Repr

/-- The transaction is open: it has begun and has neither committed nor aborted. -/
def Pc.Open : Pc → Prop
  | .idle | .done _ | .aborted => False
  | _ => True

instance : DecidablePred Pc.Open := fun p => by
  cases p <;> first | exact isTrue trivial | exact isFalse id

/-- One action of a call: the request that starts it, its next statement (with the
choices the database makes in it), or a crash. -/
inductive Stmt where
  | refresh (tok : Token)
  | login (userId : UserId)
  | logout (claims : AccessClaims)
  | run
  /-- The family UPDATE takes its next row. -/
  | visit (tok : Token)
  /-- The DELETE of `sweepExpired`, with the rows its LIMIT-ed subselect returns. -/
  | sweep (keys : List ℕ)
  | abort
deriving DecidableEq, Repr

/-- `WHERE family_id = $1 AND revoked_at IS NULL`. -/
def toRevoke (familyId : FamilyId) (row : RefreshRow) : Bool :=
  row.familyId == familyId && row.revokedAt.isNone

/-- The rows the family UPDATE goes through: those that satisfy its WHERE when it
starts. A row that somebody else has inserted and not committed is not seen. -/
def snapshot (i : ℕ) (d : Db) (familyId : FamilyId) : List Token :=
  (List.range d.nextToken).filter fun k =>
    ((d.refreshTokens k).view i).any (toRevoke familyId)

/-- The family UPDATE arrives at row `k`, whose lock it can have: it re-evaluates
the WHERE on the version it now sees. A deleted row is skipped. -/
def visitRow (i : ℕ) (familyId : FamilyId) (at₀ : ℕ) (k : Token) (d : Db) : Db :=
  match (d.refreshTokens k).view i with
  | none => d
  | some row =>
      d.putToken i k
        (some (if toRevoke familyId row then { row with revokedAt := some at₀ } else row))

/-- The rows one DELETE of `sweepExpired` may take: expired, not locked by anybody
else, at most `sweepBatch` of them. -/
def Sweepable {V : Type} (i : ℕ) (at₀ : ℕ) (expiresAt : V → ℕ) (T : Table ℕ ℕ V)
    (keys : List ℕ) : Prop :=
  keys.length ≤ sweepBatch ∧
    ∀ k ∈ keys, (T k).Free i ∧ ((T k).view i).any (fun v => expiresAt v ≤ at₀) = true

instance {V : Type} (i : ℕ) (at₀ : ℕ) (expiresAt : V → ℕ) (T : Table ℕ ℕ V)
    (keys : List ℕ) : Decidable (Sweepable i at₀ expiresAt T keys) :=
  inferInstanceAs (Decidable (_ ∧ _))

/-- `DELETE FROM ${table} WHERE ctid IN (…)`. -/
def sweepTable (i : ℕ) (at₀ : ℕ) (keys : List ℕ) (d : Db) : SweptTable → Option Db
  | .refreshTokens =>
      if Sweepable i at₀ RefreshRow.expiresAt d.refreshTokens keys then
        some { d with refreshTokens := d.refreshTokens.deleteAll i keys }
      else none
  | .accessDenylist =>
      if Sweepable i at₀ id d.accessDenylist keys then
        some { d with accessDenylist := d.accessDenylist.deleteAll i keys }
      else none
  | .revokedFamilies =>
      if Sweepable i at₀ id d.revokedFamilies keys then
        some { d with revokedFamilies := d.revokedFamilies.deleteAll i keys }
      else none

/-- `SELECT … WHERE token_hash = $1 FOR UPDATE` and the checks of `refresh` on the
row, in the order of the code. An uncommitted insert of somebody else is not there;
any other row is locked first. -/
def refreshSelect (i : ℕ) (d : Db) (tok : Token) (at₀ : ℕ) : Option (Db × Pc) :=
  match (d.refreshTokens tok).view i with
  | none => some (d, .commit .reject)
  | some row =>
      if (d.refreshTokens tok).Free i then
        let d' := d.putToken i tok (some row)
        if row.revokedAt.isSome then some (d', .commit .reject)
        else if row.usedAt.isSome then some (d', .revokeStart .reuse row.familyId at₀)
        else if row.expiresAt ≤ at₀ then some (d', .commit .reject)
        else some (d', .refreshRole tok row at₀)
      else none

/-- `insertPair`: a new row for a new random token, and an access token signed for
the family. -/
def insertPair (i : ℕ) (d : Db) (userId : UserId) (role : Role) (familyId : FamilyId)
    (at₀ : ℕ) : Db × Pc :=
  let row : RefreshRow :=
    { familyId, userId, expiresAt := at₀ + secs refreshTtlSec, usedAt := none,
      revokedAt := none }
  let pair : TokenPair :=
    { accessToken := sign d.now d.nextJti userId role familyId
      refreshToken := d.nextToken
      expiresIn := accessTtlSec }
  ({ d.putToken i d.nextToken (some row) with
      nextToken := d.nextToken + 1
      nextJti := d.nextJti + 1 },
    .commit (.ok familyId pair))

/-- `INSERT INTO revoked_families … ON CONFLICT (family_id) DO UPDATE`. -/
def denyFamily (i : ℕ) (d : Db) (why : RevokeFor) (familyId : FamilyId) (at₀ : ℕ) :
    Option (Db × Pc) :=
  if (d.revokedFamilies familyId).Free i then
    let d' := { d with
      revokedFamilies := d.revokedFamilies.put i familyId (some (at₀ + secs accessTtlSec)) }
    match why with
    | .reuse => some (d', .commit (.reuse familyId))
    | .logout claims => some (d', .denyJti claims familyId at₀)
  else none

/-- `INSERT INTO access_denylist … ON CONFLICT (jti) DO UPDATE`. -/
def denyJti (i : ℕ) (d : Db) (claims : AccessClaims) (familyId : FamilyId) (at₀ : ℕ) :
    Option (Db × Pc) :=
  if (d.accessDenylist claims.jti).Free i then
    some ({ d with
        accessDenylist := d.accessDenylist.put i claims.jti (some (secs claims.exp)) },
      .sweep sweptTables (.finishLogout familyId) at₀)
  else none

/-- The statements of a call, by where it is. -/
def stmt (i : ℕ) (d : Db) : Pc → Stmt → Option (Db × Pc)
  | .idle, .refresh tok => some (d, .refreshSelect tok d.now)
  | .idle, .login userId =>
      match (d.users userId).bind isRole with
      | none => some (d, .done .reject)
      | some role =>
          some ({ d with nextFamily := d.nextFamily + 1 },
            .sweep sweptTables (.insertPair userId role d.nextFamily) d.now)
  | .idle, .logout claims => some (d, .revokeStart (.logout claims) claims.fid d.now)
  | .refreshSelect tok at₀, .run => refreshSelect i d tok at₀
  | .refreshRole tok row at₀, .run =>
      match (d.users row.userId).bind isRole with
      | none => some (d, .commit .reject)
      | some role => some (d, .refreshMark tok row role at₀)
  | .refreshMark tok row role at₀, .run =>
      some (d.putToken i tok (some { row with usedAt := some at₀ }),
        .insertPair row.userId role row.familyId at₀)
  | .insertPair userId role familyId at₀, .run =>
      some (insertPair i d userId role familyId at₀)
  | .revokeStart why familyId at₀, .run =>
      some (d, .revokeRows why familyId at₀ (snapshot i d familyId))
  | .revokeRows why familyId at₀ rest, .visit k =>
      if k ∈ rest ∧ (d.refreshTokens k).Free i then
        some (visitRow i familyId at₀ k d, .revokeRows why familyId at₀ (rest.erase k))
      else none
  | .revokeRows why familyId at₀ [], .run => some (d, .denyFamily why familyId at₀)
  | .denyFamily why familyId at₀, .run => denyFamily i d why familyId at₀
  | .denyJti claims familyId at₀, .run => denyJti i d claims familyId at₀
  | .sweep (table :: tables) after at₀, .sweep keys =>
      (sweepTable i at₀ keys d table).map fun d' => (d', .sweep tables after at₀)
  | .sweep [] (.insertPair userId role familyId) at₀, .run =>
      some (d, .insertPair userId role familyId at₀)
  | .sweep [] (.finishLogout familyId) _, .run => some (d, .commit (.loggedOut familyId))
  | .commit outcome, .run => some (d.commit i, .done outcome)
  | pc, .abort => if pc.Open then some (d.rollback i, .aborted) else none
  | _, _ => none

/-- Time passes. -/
def tick (d : Db) (dt : ℕ) : Option Db := some { d with now := d.now + dt }

/-- Any committed content to begin with; every token below `nextToken`. -/
def Init (d : Db) : Prop :=
  (∀ k, (d.refreshTokens k).lock = none) ∧ (∀ k, (d.accessDenylist k).lock = none) ∧
  (∀ k, (d.revokedFamilies k).lock = none) ∧
  ∀ k, d.nextToken ≤ k → (d.refreshTokens k).base = none

/-- Any number of refresh, login and logout calls at once. -/
def procs : Procs ℕ Db Pc Stmt ℕ where
  Init := Init
  idle := .idle
  stmt := stmt
  env := tick

abbrev St := World ℕ Db Pc
abbrev Label := Act ℕ Stmt ℕ
abbrev machine : Machine St Label := procs.machine

end Marketplace.Auth

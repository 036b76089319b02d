import Marketplace.Auth.Tokens
import Marketplace.Core.Expiring
import Marketplace.Core.JsText
import Marketplace.Http

/-!
# Session.Store — sessions in Redis

`src/session/session.store.ts` and the store calls of `src/session/session.controller.ts`. Each
call of the store is one command for Redis: a MULTI, a script or a DEL. A key is there before
the deadline that PEXPIRE gave it, and gone at it.

`sha256` is the hexadecimal digest of node. `requests` stays below 2⁵³, where `Number` is exact
and HINCRBY does not overflow. `now` is the clock of the caller, as `toISOString` writes it.
-/

namespace Marketplace.Session

open Core Auth

/-! ## Hashes of Redis -/

/-- Fields and values, in the order they came. -/
abbrev Hash := List (String × String)

namespace Hash

def hset (field value : String) : Hash → Hash
  | [] => [(field, value)]
  | (f, v) :: h => if f = field then (f, value) :: h else (f, v) :: hset field value h

/-- The value of a text that is written as Redis writes integers. -/
def integer (text : String) : Option ℤ :=
  (JsText.number text.toList).bind fun q => if toString q.num = text then some q.num else none

/-- `none` where a value is not an integer. -/
def hincrby (field : String) (n : ℤ) (h : Hash) : Option Hash :=
  match h.lookup field with
  | none => some (hset field (toString n) h)
  | some text => (integer text).map fun m => hset field (toString (m + n)) h

def hgetall (h : Hash) : List String := h.flatMap fun (f, v) => [f, v]

/-- `for (let i = 0; i < flat.length; i += 2) h[flat[i]] = flat[i + 1]`. -/
def ofFlat : List String → Hash → Hash
  | f :: v :: flat, h => ofFlat flat (hset f v h)
  | _, h => h

end Hash

/-- A key is there up to `expiresAt`, included. -/
abbrev Redis := Expiring String Hash

/-- The last moment of a key that expires `ttlMs` after `t`. -/
def pexpire (ttlMs t : ℕ) : ℕ := t + ttlMs - 1

/-! ## The store -/

/-- What a session holds. A field is `none` where the code reads `undefined`, and `requests`
where it reads NaN. -/
structure SessionData where
  userId : Option String
  createdAt : Option String
  lastSeenAt : Option String
  requests : Option ℚ
deriving DecidableEq

structure SessionStore where
  sha256 : String → String
  ttlMs : ℕ

namespace SessionStore

variable (store : SessionStore)

def keyFor (sid : String) : String := "session:" ++ store.sha256 sid

/-- The MULTI of `create`, for the random id `sid`. -/
def create (userId sid now : String) (t : ℕ) (redis : Redis) : SessionData × Redis :=
  let data : SessionData :=
    { userId := some userId, createdAt := some now, lastSeenAt := some now, requests := some 1 }
  let fields : Hash := [("userId", userId), ("createdAt", now), ("lastSeenAt", now),
    ("requests", toString (1 : ℤ))]
  let hash := fields.foldl (fun h (f, v) => h.hset f v) ((redis.get t (store.keyFor sid)).getD [])
  (data, redis.set (store.keyFor sid) hash (pexpire store.ttlMs t))

/-- The script TOUCH and what becomes of its reply. -/
def touch (sid now : String) (t : ℕ) (redis : Redis) :
    Except Thrown (Option SessionData) × Redis :=
  match redis.get t (store.keyFor sid) with
  | none => (.ok none, redis)
  | some hash =>
      match hash.hincrby "requests" 1 with
      | none => (.error (.error "ReplyError"), redis)
      | some counted =>
          let seen := counted.hset "lastSeenAt" now
          let h := Hash.ofFlat seen.hgetall []
          let data : SessionData :=
            { userId := h.lookup "userId"
              createdAt := h.lookup "createdAt"
              lastSeenAt := h.lookup "lastSeenAt"
              requests := (h.lookup "requests").bind fun text => JsText.number text.toList }
          (.ok (some data), redis.set (store.keyFor sid) seen (pexpire store.ttlMs t))

def destroy (sid : String) (redis : Redis) : Redis := redis.del (store.keyFor sid)

end SessionStore

/-! ## Histories -/

inductive Op where
  | create (sid userId now : String)
  | touch (sid now : String)
  | destroy (sid : String)
deriving DecidableEq

def Op.sid : Op → String
  | .create sid _ _ | .touch sid _ | .destroy sid => sid

/-- A call of the store, at a time of the clock of Redis. -/
structure Call where
  time : ℕ
  op : Op
deriving DecidableEq

/-- What a call answers: data for a `create` and a successful `touch`. -/
abbrev Answer := Except Thrown (Option SessionData)

namespace SessionStore

variable (store : SessionStore)

def step (redis : Redis) (c : Call) : Answer × Redis :=
  match c.op with
  | .create sid userId now =>
      let (data, redis') := store.create userId sid now c.time redis
      (.ok (some data), redis')
  | .touch sid now => store.touch sid now c.time redis
  | .destroy sid => (.ok none, store.destroy sid redis)

/-- The keys after the calls. -/
def run (calls : List Call) : Redis :=
  calls.foldl (fun redis c => (store.step redis c).2) fun _ => none

/-- What `touch` answers at `t`, after the calls. -/
def touched (calls : List Call) (sid now : String) (t : ℕ) : Answer :=
  (store.touch sid now t (store.run calls)).1

end SessionStore

/-! ## The controller -/

/-- `req.session`. -/
structure ReqSession where
  sid : String
  data : SessionData

/-- What `SessionMiddleware.use` keeps of the answer of `touch`. -/
def ReqSession.ofTouch (sid : String) : Answer → Option ReqSession
  | .ok (some data) => some { sid, data }
  | _ => none

/-- The calls of the store that `create` makes, in order; `sid` is the new random id. -/
def SessionController.create (session : Option ReqSession) (user : AccessClaims)
    (sid now : String) : List Op :=
  (session.map fun s => Op.destroy s.sid).toList ++ [.create sid (toString user.sub) now]

end Marketplace.Session

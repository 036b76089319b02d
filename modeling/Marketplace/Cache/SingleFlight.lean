import Marketplace.Core.Expiring
import Marketplace.Core.Json
import Marketplace.Core.Procs

/-!
# Cache.SingleFlight — getOrLoad, command by command

`SingleFlightCache` of `src/redis/single-flight-cache.ts` over `acquireLock` and
`releaseLock` of `src/redis/lock.ts`. One action is one Redis command or one event of the
caller's `load`; any caller may stall before any of them, for good if its process dies. A
command may be rejected before the server has run it, or after. The environment is the
clock, the eviction of keys, and `invalidate`.
-/

namespace Marketplace.Cache

open Core

structure SingleFlightOptions where
  ttlBaseSec : ℕ
  ttlJitterSec : ℕ
  negativeTtlBaseSec : ℕ
  negativeTtlJitterSec : ℕ
  lockTtlMs : ℕ
deriving Repr

/-- What a key holds: the token of a lock, which is a UUID, or the text of a JSON value. -/
inductive Raw where
  | token (n : ℕ)
  | text (json : Json)

structure Redis where
  keys : Expiring String Raw
  /-- In milliseconds. -/
  now : ℕ
  /-- The next `randomUUID()`. -/
  nextToken : ℕ

/-- A lock the call has acquired. When it did so is for the statements only. -/
structure Lock where
  token : ℕ
  since : ℕ
deriving DecidableEq, Repr

section

variable (ε : Type)

/-- What a call ends with: the value it has read (`none` for undefined), the value it has
loaded, or the exception of its `load`. -/
inductive Fate where
  | hit (value : Option Json)
  | loaded (value : Json)
  | threw (err : ε)

/-- Where a call is: the command it sends next. -/
inductive Pc where
  | idle
  | first (key : String)
  | acquire (key : String)
  /-- The read under the lock. -/
  | again (key : String) (lock : Lock)
  /-- `load` is running, under the lock or without one. -/
  | load (key : String) (lock : Option Lock)
  | write (key : String) (lock : Lock) (value : Json)
  /-- The `finally`. -/
  | release (key : String) (lock : Lock) (fate : Fate ε)
  | poll (key : String)
  | done (key : String) (fate : Fate ε)

/-- One action of a call. -/
inductive Stmt where
  | getOrLoad (key : String)
  /-- The command succeeds; the SET of `write` with its TTL. -/
  | run
  | set (ttlSec : ℕ)
  | loaded (value : Json)
  | threw (err : ε)
  /-- The command fails, without effect. -/
  | fail
  /-- The command fails after the server has run it. -/
  | lost
  | lostSet (ttlSec : ℕ)

end

variable {ε : Type}

def Fate.result : Fate ε → Except ε (Option Json)
  | .hit value => .ok value
  | .loaded value => .ok (some value)
  | .threw err => .error err

def lockKey (key : String) : String := "lock:" ++ key

def isNull : Json → Bool
  | .null => true
  | _ => false

/-- The TTLs `ttlSeconds` may draw. -/
def TtlSeconds (opts : SingleFlightOptions) (found : Bool) (ttl : ℕ) : Prop :=
  if found then opts.ttlBaseSec ≤ ttl ∧ ttl ≤ opts.ttlBaseSec + opts.ttlJitterSec
  else opts.negativeTtlBaseSec ≤ ttl ∧
    ttl ≤ opts.negativeTtlBaseSec + opts.negativeTtlJitterSec

instance (opts : SingleFlightOptions) (found : Bool) (ttl : ℕ) :
    Decidable (TtlSeconds opts found ttl) := by
  unfold TtlSeconds
  infer_instance

namespace Redis

def get (r : Redis) (key : String) : Option Raw := r.keys.get r.now key

/-- `JSON.stringify({ v: value })`. -/
def wrap (value : Json) : Raw := .text (.obj [("v", value)])

/-- `JSON.parse(raw).v`; `none` when it throws, as it does for a UUID. -/
def unwrap : Raw → Option (Option Json)
  | .token _ => none
  | .text json => json.prop "v"

/-- `read`: `none` for a miss. -/
def read (r : Redis) (key : String) : Option (Option Json) := (r.get key).bind unwrap

/-- `SET key token PX lockTtlMs NX`, which a live key refuses. -/
def acquire (opts : SingleFlightOptions) (key : String) (r : Redis) : Redis × Option Lock :=
  match r.keys.setNew r.now (lockKey key) (.token r.nextToken) (r.now + opts.lockTtlMs) with
  | some keys => ({ r with keys, nextToken := r.nextToken + 1 }, some ⟨r.nextToken, r.now⟩)
  | none => ({ r with nextToken := r.nextToken + 1 }, none)

def isToken (n : ℕ) : Raw → Bool
  | .token m => m == n
  | .text _ => false

/-- `RELEASE_IF_OWNER`. -/
def release (key : String) (lock : Lock) (r : Redis) : Redis :=
  { r with keys := r.keys.delIf r.now (lockKey key) (isToken lock.token) }

/-- `SET key value EX ttl`. -/
def write (key : String) (value : Json) (ttl : ℕ) (r : Redis) : Redis :=
  { r with keys := r.keys.set key (wrap value) (r.now + ttl * 1000) }

end Redis

/-- After a read that hits, and after one that misses. -/
def onRead (r : Redis) (key : String) (hit : Fate ε → Pc ε) (miss : Pc ε) : Pc ε :=
  match r.read key with
  | some value => hit (.hit value)
  | none => miss

/-- `load` has returned. -/
def onLoaded (key : String) (value : Json) : Option Lock → Pc ε
  | some lock => .write key lock value
  | none => .done key (.loaded value)

/-- `load` has thrown. -/
def onThrown (key : String) (err : ε) : Option Lock → Pc ε
  | some lock => .release key lock (.threw err)
  | none => .done key (.threw err)

/-- A TTL the write can have: a TTL of 0 is an error of the server. -/
def CanSet (opts : SingleFlightOptions) (value : Json) (ttl : ℕ) : Prop :=
  TtlSeconds opts (!isNull value) ttl ∧ 0 < ttl

instance (opts : SingleFlightOptions) (value : Json) (ttl : ℕ) :
    Decidable (CanSet opts value ttl) :=
  inferInstanceAs (Decidable (_ ∧ _))

def stmt (opts : SingleFlightOptions) (r : Redis) : Pc ε → Stmt ε → Option (Redis × Pc ε)
  | .idle, .getOrLoad key => some (r, .first key)
  | .first key, .run => some (r, onRead r key (.done key) (.acquire key))
  | .first key, .fail | .first key, .lost => some (r, .load key none)
  | .acquire key, .run =>
      -- the lock has a lifetime, and one of 0 is an error of the server
      if 0 < opts.lockTtlMs then
        match r.acquire opts key with
        | (r', some lock) => some (r', .again key lock)
        | (r', none) => some (r', .poll key)
      else none
  | .acquire key, .fail => some ({ r with nextToken := r.nextToken + 1 }, .load key none)
  | .acquire key, .lost =>
      if 0 < opts.lockTtlMs then some ((r.acquire opts key).1, .load key none) else none
  | .again key lock, .run => some (r, onRead r key (.release key lock) (.load key (some lock)))
  | .again key lock, .fail | .again key lock, .lost => some (r, .load key (some lock))
  | .load key lock, .loaded value => some (r, onLoaded key value lock)
  | .load key lock, .threw err => some (r, onThrown key err lock)
  | .write key lock value, .set ttl =>
      if CanSet opts value ttl then
        some (r.write key value ttl, .release key lock (.loaded value))
      else none
  | .write key lock value, .fail => some (r, .release key lock (.loaded value))
  | .write key lock value, .lostSet ttl =>
      if CanSet opts value ttl then
        some (r.write key value ttl, .release key lock (.loaded value))
      else none
  | .release key lock fate, .run | .release key lock fate, .lost =>
      some (r.release key lock, .done key fate)
  | .release key _ fate, .fail => some (r, .done key fate)
  | .poll key, .run => some (r, onRead r key (.done key) (.acquire key))
  | .poll key, .fail | .poll key, .lost => some (r, .load key none)
  | _, _ => none

inductive Env where
  | tick (dt : ℕ)
  /-- `maxmemory` with `allkeys-lru`. -/
  | evict (key : String)
  | invalidate (keys : List String)

def env (r : Redis) : Env → Option Redis
  | .tick dt => some { r with now := r.now + dt }
  | .evict key => some { r with keys := r.keys.del key }
  | .invalidate keys => some { r with keys := keys.foldl (fun S key => S.del key) r.keys }

def procs (ε : Type) (opts : SingleFlightOptions) : Procs ℕ Redis (Pc ε) (Stmt ε) Env where
  Init r := ∀ key, r.keys key = none
  idle := .idle
  stmt _ := stmt opts
  env := env

abbrev St (ε : Type) := World ℕ Redis (Pc ε)
abbrev Label (ε : Type) := Act ℕ (Stmt ε) Env
abbrev machine (ε : Type) (opts : SingleFlightOptions) : Machine (St ε) (Label ε) :=
  (procs ε opts).machine

end Marketplace.Cache

import Marketplace.Core.Procs
import Mathlib.Data.Rat.Defs

/-!
# K8s.Serve — the pods, from start to exit

`src/k8s/lifecycle.ts` and `src/k8s/serve-main.ts`: any number of pods over one database,
await by await. In a pod `main` and, after SIGTERM, `shutdown` run side by side; a pod may be
killed at any moment.

* `μ` is the type of migrations and `ρ` of requests; each pod has its own list of migrations, as
  pods of two revisions have during a rollout;
* `pg_advisory_lock` waits while another session has the lock. The lock is in the session of
  `runner` and the migrations run in another one, so the first may end (`Env.ends`) whatever the
  second does, and of a pod that has gone a COMMIT may still land (`Env.lands`);
* time passes in `tick` only, in milliseconds; a timer that is due fires in some later step;
* requests come on connections, which the socket makes while it is open and which outlive it;
* `sigterm` of a pod and the fields of a request are ghosts, but for `closes`: when SIGTERM came,
  what the request asks and when it came.
-/

namespace Marketplace.K8s

open Core

/-! ## lifecycle.ts -/

structure LifecycleSettings where
  warmupMs : ℕ
  drainMs : ℕ
  closeTimeoutMs : ℕ
deriving DecidableEq, Repr

/-- An environment variable that is not blank: its text, and what `Number` makes of it (`none`
for NaN and the infinities). -/
structure EnvNumber where
  raw : String
  number : Option ℚ

/-- `raw` is `none` for a variable that is missing or blank. -/
def nonNegativeInt (raw : Option EnvNumber) (name : String) (fallback : ℕ) : Except String ℕ :=
  match raw with
  | none => .ok fallback
  | some env =>
      match env.number with
      | some q =>
          if q.den = 1 ∧ 0 ≤ q then .ok q.num.toNat
          else .error s!"{name} must be a non-negative integer, got \"{env.raw}\""
      | none => .error s!"{name} must be a non-negative integer, got \"{env.raw}\""

def readLifecycleSettings (env : String → Option EnvNumber) : Except String LifecycleSettings := do
  let warmupMs ← nonNegativeInt (env "WARMUP_MS") "WARMUP_MS" 4000
  let drainMs ← nonNegativeInt (env "DRAIN_MS") "DRAIN_MS" 5000
  let closeTimeoutMs ← nonNegativeInt (env "CLOSE_TIMEOUT_MS") "CLOSE_TIMEOUT_MS" 10000
  return ⟨warmupMs, drainMs, closeTimeoutMs⟩

/-- The message of a setting that is no natural number names the setting and what was found. -/
theorem nonNegativeInt_error {raw : Option EnvNumber} {name : String} {fallback : ℕ} {e : String}
    (h : nonNegativeInt raw name fallback = .error e) : ∃ value, raw = some value ∧
      e = s!"{name} must be a non-negative integer, got \"{value.raw}\"" := by
  unfold nonNegativeInt at h
  split at h
  · cases h
  · next value =>
      refine ⟨value, rfl, ?_⟩
      split at h
      · split at h
        · cases h
        · exact (Except.error.inj h).symm
      · exact (Except.error.inj h).symm

/-- Settings that are refused are refused for a variable that is set, by its name. -/
theorem readLifecycleSettings_error {env : String → Option EnvNumber} {e : String}
    (h : readLifecycleSettings env = .error e) :
    ∃ name ∈ ["WARMUP_MS", "DRAIN_MS", "CLOSE_TIMEOUT_MS"], ∃ value, env name = some value ∧
      e = s!"{name} must be a non-negative integer, got \"{value.raw}\"" := by
  unfold readLifecycleSettings at h
  cases hwarmup : nonNegativeInt (env "WARMUP_MS") "WARMUP_MS" 4000 with
  | error e' =>
      rw [hwarmup] at h
      cases h
      exact ⟨_, by simp, nonNegativeInt_error hwarmup⟩
  | ok warmupMs =>
      rw [hwarmup] at h
      cases hdrain : nonNegativeInt (env "DRAIN_MS") "DRAIN_MS" 5000 with
      | error e' =>
          rw [hdrain] at h
          cases h
          exact ⟨_, by simp, nonNegativeInt_error hdrain⟩
      | ok drainMs =>
          rw [hdrain] at h
          cases hclose : nonNegativeInt (env "CLOSE_TIMEOUT_MS") "CLOSE_TIMEOUT_MS" 10000 with
          | error e' =>
              rw [hclose] at h
              cases h
              exact ⟨_, by simp, nonNegativeInt_error hclose⟩
          | ok closeTimeoutMs =>
              rw [hclose] at h
              cases h

structure Lifecycle where
  ready : Bool
  draining : Bool
deriving DecidableEq, Repr

/-- What the middleware does with a request. -/
inductive Handled where
  | live (status : ℕ)
  | readiness (status : ℕ) (ready draining : Bool)
  /-- `next()`, with or without the header `connection: close`. -/
  | next (closes : Bool)
deriving DecidableEq, Repr

def livenessPath : String := "/healthz"

def readinessPath : String := "/readyz"

def Lifecycle.middleware (l : Lifecycle) (path : String) : Handled :=
  if path = livenessPath then .live 200
  else if path = readinessPath then
    .readiness (if l.ready && !l.draining then 200 else 503) (l.ready && !l.draining) l.draining
  else .next l.draining

/-! ## serve-main.ts -/

/-- The database, and the time. -/
structure Db (μ : Type) where
  /-- The pod whose session has the advisory lock. -/
  lock : Option ℕ
  applied : List μ
  /-- What the COMMIT of a pod that no longer waits for it may still apply. -/
  orphan : ℕ → Option (List μ)
  now : ℕ

/-- Where `main` is. -/
inductive Main (μ : Type) where
  | connecting (deadline : ℕ)
  /-- The second between two attempts. -/
  | retrying (deadline wake : ℕ)
  | locking
  /-- With the lock: `runMigrations` reads what has been applied. -/
  | reading
  /-- In its transaction, with the migrations it has run; with none pending, at its COMMIT. -/
  | applying (pending applied : List μ)
  | unlocking
  /-- In `finally` after an error. -/
  | rejecting
  | booting
  /-- `closeApp` is set. -/
  | warming (wake : ℕ)
  | listening
  | returned
  /-- It returned before it listened. -/
  | abandoned
deriving DecidableEq

/-- Where `shutdown` is. -/
inductive Shutdown where
  | draining (wake : ℕ)
  | closing (cutAt : ℕ)
deriving DecidableEq

/-- A request that has come and is not answered. -/
structure Request (ρ : Type) where
  of : ρ
  cameAt : ℕ
  /-- The middleware has set `connection: close`. -/
  closes : Bool
deriving DecidableEq

/-- A pod that runs. -/
structure Pod (μ ρ : Type) where
  startedAt : ℕ
  main : Main μ
  lifecycle : Lifecycle
  /-- `server` is set. -/
  server : Bool
  shutdown : Option Shutdown
  sigterm : Option ℕ
  openRequests : List (Request ρ)
  /-- The connections on which no request is under way. -/
  idle : ℕ

/-- How a process ended. -/
structure Exit (ρ : Type) where
  code : ℤ
  at₀ : ℕ
  sigterm : Option ℕ
  served : Bool
  dropped : List (Request ρ)
deriving DecidableEq

/-- A pod that has not been started, one that runs, or one that has exited. -/
inductive Process (μ ρ : Type) where
  | absent
  | running (pod : Pod μ ρ)
  | exited (exit : Exit ρ)

/-- `main` or `shutdown` goes on, what `main` waits for fails, a connection is made or given up,
a request comes or is answered, and so on. -/
inductive Step (ρ : Type) where
  | start
  | main
  | fail
  | sigterm
  | shutdown
  /-- The timer `cut`. -/
  | cut
  | connect
  | hangUp
  | request (r : ρ)
  | answer (r : Request ρ)
  | kill
deriving DecidableEq

/-- What happens outside the pods: time passes, the session that has the lock of pod `i` ends,
the server carries out a COMMIT nobody waits for, or rolls it back. -/
inductive Env where
  | tick (dt : ℕ)
  | ends (i : ℕ)
  | lands (i : ℕ)
  | drops (i : ℕ)
deriving DecidableEq

def dbWaitMs : ℕ := 60000

section

variable {μ ρ : Type} [DecidableEq μ] [DecidableEq ρ]

/-- `pg_advisory_unlock`, or the end of the session: the lock is free if pod `i` had it. -/
def Db.unlock (i : ℕ) (d : Db μ) : Db μ :=
  { d with lock := if d.lock = some i then none else d.lock }

/-- Pod `i` waits no longer for the statement it is at. A COMMIT may have been sent; of a
transaction before its COMMIT nothing is left. -/
def Db.leave (i : ℕ) (main : Main μ) (d : Db μ) : Db μ :=
  match main with
  | .applying [] applied => { d with orphan := Function.update d.orphan i (some applied) }
  | _ => d

/-- The session with the lock ends some time later, in `Env.ends`. -/
def Pod.exit (i : ℕ) (code : ℤ) (d : Db μ) (p : Pod μ ρ) : Db μ × Process μ ρ :=
  (d.leave i p.main, .exited ⟨code, d.now, p.sigterm, p.server, p.openRequests⟩)

/-- The socket is open. -/
def Pod.listens (p : Pod μ ρ) : Bool :=
  p.server &&
    match p.shutdown with
    | some (.closing _) => false
    | _ => true

/-- `main` goes on. -/
def Pod.runMain (migrations : List μ) (settings : LifecycleSettings) (i : ℕ) (d : Db μ)
    (p : Pod μ ρ) : Option (Db μ × Process μ ρ) :=
  match p.main with
  | .connecting _ => some (d, .running { p with main := .locking })
  | .retrying deadline wake =>
      if wake ≤ d.now then some (d, .running { p with main := .connecting deadline }) else none
  | .locking =>
      if d.lock = none then some ({ d with lock := some i }, .running { p with main := .reading })
      else none
  | .reading =>
      some (d, .running { p with main := .applying (migrations.filter (· ∉ d.applied)) [] })
  | .applying (m :: pending) applied =>
      some (d, .running { p with main := .applying pending (applied ++ [m]) })
  | .applying [] applied =>
      some ({ d with applied := d.applied ++ applied }, .running { p with main := .unlocking })
  | .unlocking => some (d.unlock i, .running { p with main := .booting })
  | .rejecting => some (p.exit i 1 (d.unlock i))
  | .booting =>
      some (d, .running { p with main := .warming (p.startedAt + settings.warmupMs) })
  | .warming wake =>
      if wake ≤ d.now then
        some (d, .running
          { p with main := if p.lifecycle.draining then .abandoned else .listening })
      else none
  -- no request and no signal comes between the open socket and the rest of `main`
  | .listening =>
      some (d, .running { p with
        main := .returned
        server := true
        lifecycle := { p.lifecycle with ready := true } })
  | .returned | .abandoned => none

/-- What `main` waits for fails. -/
def Pod.failMain (i : ℕ) (d : Db μ) (p : Pod μ ρ) : Option (Db μ × Process μ ρ) :=
  match p.main with
  | .connecting deadline =>
      if deadline < d.now then some (p.exit i 1 d)
      else some (d, .running { p with main := .retrying deadline (d.now + 1000) })
  | .locking | .reading | .applying _ _ =>
      some (d.leave i p.main, .running { p with main := .rejecting })
  -- the error of the unlock is dropped, here and after an error
  | .unlocking => some (d, .running { p with main := .booting })
  | .rejecting | .booting | .listening => some (p.exit i 1 d)
  | .retrying _ _ | .warming _ | .returned | .abandoned => none

/-- The first lines of `shutdown`. -/
def Pod.signalled (d : Db μ) (p : Pod μ ρ) : Pod μ ρ :=
  { p with lifecycle := { p.lifecycle with draining := true }, sigterm := some d.now }

/-- The handler of SIGTERM, which runs once, up to its first await. -/
def Pod.onSigterm (settings : LifecycleSettings) (i : ℕ) (d : Db μ) (p : Pod μ ρ) :
    Option (Db μ × Process μ ρ) :=
  if p.sigterm.isSome then none
  else if p.server then
    some (d, .running
      { p.signalled d with shutdown := some (.draining (d.now + settings.drainMs)) })
  else some ((p.signalled d).exit i 0 d)

/-- `shutdown` goes on: it closes the socket, and exits when the last connection is gone.
`server.close()` itself hangs up only where a request has been answered and none is under way;
a connection that has brought no request yet, or gets its answer later, stays open. -/
def Pod.runShutdown (settings : LifecycleSettings) (i : ℕ) (d : Db μ) (p : Pod μ ρ) :
    Option (Db μ × Process μ ρ) :=
  match p.shutdown with
  | none => none
  | some (.draining wake) =>
      if wake ≤ d.now then
        some (d, .running { p with shutdown := some (.closing (d.now + settings.closeTimeoutMs)) })
      else none
  | some (.closing _) =>
      if p.openRequests = [] ∧ p.idle = 0 then some (p.exit i 0 d) else none

/-- `closeAllConnections`, and then the exit. -/
def Pod.cut (i : ℕ) (d : Db μ) (p : Pod μ ρ) : Option (Db μ × Process μ ρ) :=
  match p.shutdown with
  | some (.closing cutAt) => if cutAt ≤ d.now then some (p.exit i 0 d) else none
  | _ => none

/-- A request comes on an open connection, one at a time, and goes through the middleware. -/
def Pod.request (d : Db μ) (p : Pod μ ρ) (r : ρ) : Option (Db μ × Process μ ρ) :=
  if 0 < p.idle then
    some (d, .running { p with
      idle := p.idle - 1
      openRequests := ⟨r, d.now, p.lifecycle.draining⟩ :: p.openRequests })
  else none

/-- The answer ends the connection if it says so; else the connection can bring another request,
until the client or `keepAliveTimeout` hangs up. -/
def Pod.answer (d : Db μ) (p : Pod μ ρ) (r : Request ρ) : Option (Db μ × Process μ ρ) :=
  if r ∈ p.openRequests then
    some (d, .running { p with
      idle := if r.closes then p.idle else p.idle + 1
      openRequests := p.openRequests.erase r })
  else none

/-- A pod starts its `main`. -/
def started (d : Db μ) : Pod μ ρ where
  startedAt := d.now
  main := .connecting (d.now + dbWaitMs)
  lifecycle := ⟨false, false⟩
  server := false
  shutdown := none
  sigterm := none
  openRequests := []
  idle := 0

def stmt (migrations : ℕ → List μ) (settings : ℕ → LifecycleSettings) (i : ℕ) (d : Db μ) :
    Process μ ρ → Step ρ → Option (Db μ × Process μ ρ)
  | .absent, .start => some (d, .running (started d))
  | .running p, .main => p.runMain (migrations i) (settings i) i d
  | .running p, .fail => p.failMain i d
  | .running p, .sigterm => p.onSigterm (settings i) i d
  | .running p, .shutdown => p.runShutdown (settings i) i d
  | .running p, .cut => p.cut i d
  | .running p, .connect =>
      if p.listens then some (d, .running { p with idle := p.idle + 1 }) else none
  | .running p, .hangUp =>
      if 0 < p.idle then some (d, .running { p with idle := p.idle - 1 }) else none
  | .running p, .request r => p.request d r
  | .running p, .answer r => p.answer d r
  | .running p, .kill => some (p.exit i 137 d)
  | _, _ => none

def env (d : Db μ) : Env → Option (Db μ)
  | .tick dt => some { d with now := d.now + dt }
  | .ends i => some (d.unlock i)
  | .lands i => (d.orphan i).map fun applied =>
      { d with applied := d.applied ++ applied, orphan := Function.update d.orphan i none }
  | .drops i => some { d with orphan := Function.update d.orphan i none }

def procs (migrations : ℕ → List μ) (settings : ℕ → LifecycleSettings) (ρ : Type)
    [DecidableEq ρ] : Procs ℕ (Db μ) (Process μ ρ) (Step ρ) Env where
  Init d := d.lock = none ∧ d.applied.Nodup ∧ ∀ i, d.orphan i = none
  idle := .absent
  stmt := stmt migrations settings
  env := env

/-! ## One step -/

/-- What a step of pod `i` can do. -/
inductive Does (migrations : ℕ → List μ) (settings : ℕ → LifecycleSettings) (i : ℕ) (d : Db μ) :
    Process μ ρ → Step ρ → Db μ → Process μ ρ → Prop
  | starts : Does migrations settings i d .absent .start d (.running (started d))
  | connects {p : Pod μ ρ} {deadline : ℕ} : p.main = .connecting deadline →
      Does migrations settings i d (.running p) .main d (.running { p with main := .locking })
  | wakes {p : Pod μ ρ} {deadline wake : ℕ} : p.main = .retrying deadline wake →
      Does migrations settings i d (.running p) .main d
        (.running { p with main := .connecting deadline })
  | locks {p : Pod μ ρ} : p.main = .locking → d.lock = none →
      Does migrations settings i d (.running p) .main { d with lock := some i }
        (.running { p with main := .reading })
  | reads {p : Pod μ ρ} : p.main = .reading →
      Does migrations settings i d (.running p) .main d
        (.running { p with main := .applying ((migrations i).filter (· ∉ d.applied)) [] })
  | applies {p : Pod μ ρ} {m : μ} {pending applied : List μ} :
      p.main = .applying (m :: pending) applied →
      Does migrations settings i d (.running p) .main d
        (.running { p with main := .applying pending (applied ++ [m]) })
  | commits {p : Pod μ ρ} {applied : List μ} : p.main = .applying [] applied →
      Does migrations settings i d (.running p) .main { d with applied := d.applied ++ applied }
        (.running { p with main := .unlocking })
  | unlocks {p : Pod μ ρ} : p.main = .unlocking →
      Does migrations settings i d (.running p) .main (d.unlock i)
        (.running { p with main := .booting })
  | boots {p : Pod μ ρ} : p.main = .booting →
      Does migrations settings i d (.running p) .main d
        (.running { p with main := .warming (p.startedAt + (settings i).warmupMs) })
  | warms {p : Pod μ ρ} {wake : ℕ} : p.main = .warming wake → wake ≤ d.now →
      Does migrations settings i d (.running p) .main d
        (.running { p with main := if p.lifecycle.draining then .abandoned else .listening })
  | serves {p : Pod μ ρ} : p.main = .listening →
      Does migrations settings i d (.running p) .main d (.running { p with
        main := .returned
        server := true
        lifecycle := { p.lifecycle with ready := true } })
  | retries {p : Pod μ ρ} {deadline : ℕ} : p.main = .connecting deadline →
      Does migrations settings i d (.running p) .fail d
        (.running { p with main := .retrying deadline (d.now + 1000) })
  /-- An error in `migrate`, with the database reached. -/
  | fails {p : Pod μ ρ} :
      p.main = .locking ∨ p.main = .reading ∨ (∃ pending applied, p.main = .applying pending applied) →
      Does migrations settings i d (.running p) .fail (d.leave i p.main)
        (.running { p with main := .rejecting })
  | keepsLock {p : Pod μ ρ} : p.main = .unlocking →
      Does migrations settings i d (.running p) .fail d (.running { p with main := .booting })
  /-- `finally`, and the exit of `main().catch`. -/
  | releases {p : Pod μ ρ} : p.main = .rejecting →
      Does migrations settings i d (.running p) .main (p.exit i 1 (d.unlock i)).1
        (p.exit i 1 d).2
  /-- `main` rejects. -/
  | rejects {p : Pod μ ρ} : p.main ≠ .returned →
      Does migrations settings i d (.running p) .fail (p.exit i 1 d).1 (p.exit i 1 d).2
  /-- SIGTERM before `server` is set. -/
  | stops {p : Pod μ ρ} : p.sigterm = none → p.server = false →
      Does migrations settings i d (.running p) .sigterm (p.exit i 0 d).1
        ((p.signalled d).exit i 0 d).2
  | drains {p : Pod μ ρ} : p.sigterm = none → p.server = true →
      Does migrations settings i d (.running p) .sigterm d (.running
        { p.signalled d with shutdown := some (.draining (d.now + (settings i).drainMs)) })
  | closes {p : Pod μ ρ} {wake : ℕ} : p.shutdown = some (.draining wake) → wake ≤ d.now →
      Does migrations settings i d (.running p) .shutdown d (.running
        { p with shutdown := some (.closing (d.now + (settings i).closeTimeoutMs)) })
  | finishes {p : Pod μ ρ} {cutAt : ℕ} : p.shutdown = some (.closing cutAt) →
      p.openRequests = [] →
      Does migrations settings i d (.running p) .shutdown (p.exit i 0 d).1 (p.exit i 0 d).2
  | cuts {p : Pod μ ρ} {cutAt : ℕ} : p.shutdown = some (.closing cutAt) → cutAt ≤ d.now →
      Does migrations settings i d (.running p) .cut (p.exit i 0 d).1 (p.exit i 0 d).2
  | accepts {p : Pod μ ρ} : p.listens = true →
      Does migrations settings i d (.running p) .connect d
        (.running { p with idle := p.idle + 1 })
  | hangsUp {p : Pod μ ρ} : 0 < p.idle →
      Does migrations settings i d (.running p) .hangUp d
        (.running { p with idle := p.idle - 1 })
  | takes {p : Pod μ ρ} {r : ρ} : 0 < p.idle →
      Does migrations settings i d (.running p) (.request r) d (.running { p with
        idle := p.idle - 1
        openRequests := ⟨r, d.now, p.lifecycle.draining⟩ :: p.openRequests })
  | answers {p : Pod μ ρ} {r : Request ρ} : r ∈ p.openRequests →
      Does migrations settings i d (.running p) (.answer r) d (.running { p with
        idle := if r.closes then p.idle else p.idle + 1
        openRequests := p.openRequests.erase r })
  | killed {p : Pod μ ρ} :
      Does migrations settings i d (.running p) .kill (p.exit i 137 d).1 (p.exit i 137 d).2

variable {migrations : ℕ → List μ} {settings : ℕ → LifecycleSettings} {i : ℕ} {d d' : Db μ}
  {p : Pod μ ρ} {proc proc' : Process μ ρ} {a : Step ρ}

/-- A step of `main` is one of the ways of `Does`, by its program point. -/
theorem runMain_does (h : p.runMain (migrations i) (settings i) i d = some (d', proc')) :
    Does migrations settings i d (.running p) .main d' proc' := by
  unfold Pod.runMain at h
  split at h
  · next hmain =>
      cases h
      exact .connects hmain
  · next hmain =>
      split at h
      · cases h
        exact .wakes hmain
      · cases h
  · next hmain =>
      split at h
      · next hlock =>
          cases h
          exact .locks hmain hlock
      · cases h
  · next hmain =>
      cases h
      exact .reads hmain
  · next hmain =>
      cases h
      exact .applies hmain
  · next hmain =>
      cases h
      exact .commits hmain
  · next hmain =>
      cases h
      exact .unlocks hmain
  · next hmain =>
      cases h
      exact .releases hmain
  · next hmain =>
      cases h
      exact .boots hmain
  · next hmain =>
      split at h
      · next hwake =>
          cases h
          exact .warms hmain hwake
      · cases h
  · next hmain =>
      cases h
      exact .serves hmain
  all_goals cases h

/-- A failure in `main` is one of the ways of `Does`: it goes to the retry, to the release of the
lock, or out. -/
theorem failMain_does (h : p.failMain i d = some (d', proc')) :
    Does migrations settings i d (.running p) .fail d' proc' := by
  unfold Pod.failMain at h
  split at h
  · next hmain =>
      split at h
      · cases h
        exact .rejects (by simp [hmain])
      · cases h
        exact .retries hmain
  · next hmain =>
      cases h
      exact .fails (Or.inl hmain)
  · next hmain =>
      cases h
      exact .fails (Or.inr (Or.inl hmain))
  · next pending applied hmain =>
      cases h
      exact .fails (Or.inr (Or.inr ⟨pending, applied, hmain⟩))
  · next hmain =>
      cases h
      exact .keepsLock hmain
  · next hmain =>
      cases h
      exact .rejects (by simp [hmain])
  · next hmain =>
      cases h
      exact .rejects (by simp [hmain])
  · next hmain =>
      cases h
      exact .rejects (by simp [hmain])
  all_goals cases h

/-- A SIGTERM stops a process without a server at once, and makes one with a server drain. -/
theorem onSigterm_does (h : p.onSigterm (settings i) i d = some (d', proc')) :
    Does migrations settings i d (.running p) .sigterm d' proc' := by
  unfold Pod.onSigterm at h
  split at h
  · cases h
  · next hfirst =>
      have hnone : p.sigterm = none := by simpa using hfirst
      split at h
      · next hserver =>
          cases h
          exact .drains hnone hserver
      · next hserver =>
          cases h
          exact .stops hnone (by simpa using hserver)

/-- A step of the shutdown goes from the drain to the close, and from the close to the exit. -/
theorem runShutdown_does (h : p.runShutdown (settings i) i d = some (d', proc')) :
    Does migrations settings i d (.running p) .shutdown d' proc' := by
  unfold Pod.runShutdown at h
  split at h
  · cases h
  · next wake hshutdown =>
      split at h
      · next hwake =>
          cases h
          exact .closes hshutdown hwake
      · cases h
  · next cutAt hshutdown =>
      split at h
      · next hgone =>
          cases h
          exact .finishes hshutdown hgone.1
      · cases h

/-- Every step of a pod is one of the ways of `Does`: later proofs split these and unfold nothing.
-/
theorem stmt_does (h : stmt migrations settings i d proc a = some (d', proc')) :
    Does migrations settings i d proc a d' proc' := by
  -- an absent process can only start, and one that has exited does nothing
  cases proc with
  | absent =>
      cases a with
      | start =>
          cases h
          exact .starts
      | _ => cases h
  | exited => cases a <;> cases h
  | running p =>
      cases a with
      | start => cases h
      | main => exact runMain_does h
      | fail => exact failMain_does h
      | sigterm => exact onSigterm_does h
      | shutdown => exact runShutdown_does h
      | cut =>
          simp only [stmt, Pod.cut] at h
          split at h
          · next cutAt hshutdown =>
              split at h
              · next hdue =>
                  cases h
                  exact .cuts hshutdown hdue
              · cases h
          · cases h
      | connect =>
          simp only [stmt] at h
          split at h
          · next hlistens =>
              cases h
              exact .accepts hlistens
          · cases h
      | hangUp =>
          simp only [stmt] at h
          split at h
          · next hidle =>
              cases h
              exact .hangsUp hidle
          · cases h
      | request r =>
          simp only [stmt, Pod.request] at h
          split at h
          · next hidle =>
              cases h
              exact .takes hidle
          · cases h
      | answer r =>
          simp only [stmt, Pod.answer] at h
          split at h
          · next hopen =>
              cases h
              exact .answers hopen
          · cases h
      | kill =>
          cases h
          exact .killed

/-- No step of a pod moves the clock. -/
theorem stmt_now (h : stmt migrations settings i d proc a = some (d', proc')) :
    d'.now = d.now := by
  have leave : ∀ main : Main μ, (d.leave i main).now = d.now := by
    intro main
    unfold Db.leave
    split <;> rfl
  cases stmt_does h with
  | fails | rejects | stops | finishes | cuts | killed => exact leave _
  | @releases p hmain =>
      change ((d.unlock i).leave i p.main).now = d.now
      rw [hmain]
      rfl
  | _ => rfl

abbrev St (μ ρ : Type) := World ℕ (Db μ) (Process μ ρ)

abbrev Label (ρ : Type) := Act ℕ (Step ρ) Env

def machine (migrations : ℕ → List μ) (settings : ℕ → LifecycleSettings) (ρ : Type)
    [DecidableEq ρ] : Machine (St μ ρ) (Label ρ) :=
  (procs migrations settings ρ).machine

end

end Marketplace.K8s

import Marketplace.K8s.Migrations

/-!
# K8s.Drain — readiness, and the way out

The probes and the shutdown of a pod, in every run of `K8s.Serve`. `Sound` says what the two
functions of a pod know of each other: SIGTERM before `server` is set ends the process, so
`main` never finds `draining` set (`ready_between`). With timers that are late by at most
`slack`, a pod that drains has left before its grace period is over (`drained_in_time`). It has
cut only requests that were open for the whole close timeout, or that came when the socket was
closed already, on a connection that had stayed.
-/

namespace Marketplace.K8s

open Core

variable {μ ρ : Type} {migrations : ℕ → List μ} {settings : ℕ → LifecycleSettings} {i j : ℕ}
  {d d' : Db μ} {p q : Pod μ ρ} {proc proc' : Process μ ρ} {a : Step ρ} {e : Env} {now dt : ℕ}
  {cfg : LifecycleSettings}

/-! ## One pod -/

/-- A pod has warmed up when it listens, and was not told to stop before. -/
def Warm (cfg : LifecycleSettings) (now : ℕ) (p : Pod μ ρ) : Prop :=
  match p.main with
  | .warming wake => wake = p.startedAt + cfg.warmupMs
  | .listening | .returned => p.startedAt + cfg.warmupMs ≤ now
  | .abandoned => False
  | _ => True

/-- A request that may be cut at `at₀`, when SIGTERM came at `T`: it has been open for the whole
close timeout, or it came after the drain, when its answer would have ended the connection. -/
def MayCut (cfg : LifecycleSettings) (T at₀ : ℕ) (r : Request ρ) : Prop :=
  r.cameAt + cfg.closeTimeoutMs ≤ at₀ ∨ T + cfg.drainMs ≤ r.cameAt ∧ r.closes = true

/-- Where `shutdown` is, `T` being the time of SIGTERM. -/
def Leaving (cfg : LifecycleSettings) (now T : ℕ) (p : Pod μ ρ) : Prop :=
  match p.shutdown with
  | none => False
  | some (.draining wake) => wake = T + cfg.drainMs
  | some (.closing cutAt) =>
      T + cfg.drainMs + cfg.closeTimeoutMs ≤ cutAt ∧ cutAt ≤ now + cfg.closeTimeoutMs ∧
        ∀ r ∈ p.openRequests, MayCut cfg T cutAt r

structure Sound (cfg : LifecycleSettings) (now : ℕ) (p : Pod μ ρ) : Prop where
  draining : p.lifecycle.draining = p.sigterm.isSome
  ready : p.lifecycle.ready = p.server
  server : p.server = true ↔ p.main = .returned
  warm : Warm cfg now p
  quiet : p.sigterm = none → p.shutdown = none
  leaving : ∀ T, p.sigterm = some T → p.server = true ∧ Leaving cfg now T p
  unopened : p.server = false → p.openRequests = [] ∧ p.idle = 0
  accepted : ∀ r ∈ p.openRequests, r.cameAt ≤ now

/-- A process that has just been started is sound: nothing is warm, nothing is open, nobody has
told it to stop. -/
theorem started_sound : Sound cfg d.now (started d : Pod μ ρ) where
  draining := rfl
  ready := rfl
  server := by simp [started]
  warm := trivial
  quiet _ := rfl
  leaving T h := by cases h
  unopened _ := ⟨rfl, rfl⟩
  accepted r hr := by cases hr

/-- A sound process stays sound while time passes. -/
theorem Sound.later (h : Sound cfg now p) : Sound cfg (now + dt) p where
  draining := h.draining
  ready := h.ready
  server := h.server
  warm := by
    have hwarm := h.warm
    unfold Warm at hwarm ⊢
    split at hwarm <;> first | exact hwarm | omega
  quiet := h.quiet
  leaving T hT := by
    obtain ⟨hserver, hleaving⟩ := h.leaving T hT
    refine ⟨hserver, ?_⟩
    unfold Leaving at hleaving ⊢
    split at hleaving
    · exact hleaving
    · exact hleaving
    · obtain ⟨hfrom, hto, hopen⟩ := hleaving
      exact ⟨hfrom, by omega, hopen⟩
  unopened := h.unopened
  accepted r hr := Nat.le_trans (h.accepted r hr) (Nat.le_add_right _ _)

/-- A step of `main` before the socket is open. -/
theorem Sound.main {main : Main μ} (h : Sound cfg now p) (hbefore : p.main ≠ .returned)
    (hafter : main ≠ .returned) (hwarm : Warm cfg now { p with main }) :
    Sound cfg now { p with main } where
  draining := h.draining
  ready := h.ready
  server := by
    constructor
    · intro hserver
      exact absurd (h.server.mp hserver) hbefore
    · intro hmain
      exact absurd hmain hafter
  warm := hwarm
  quiet := h.quiet
  leaving := h.leaving
  unopened := h.unopened
  accepted := h.accepted

/-- A pod that has not come to its socket was not told to stop. -/
theorem Sound.undisturbed (h : Sound cfg now p) (hmain : p.main ≠ .returned) :
    p.sigterm = none ∧ p.server = false ∧ p.openRequests = [] := by
  have hserver : p.server = false := by
    by_contra hne
    exact hmain (h.server.mp (by simpa using hne))
  refine ⟨?_, hserver, (h.unopened hserver).1⟩
  cases hsig : p.sigterm with
  | none => rfl
  | some T =>
      have htrue := (h.leaving T hsig).1
      rw [hserver] at htrue
      cases htrue

/-- How a process ended: told to stop, it left with 0, not before its drain was over if it had
served, and cut only what it may; otherwise `main` rejected before it listened. -/
def Ended (cfg : LifecycleSettings) (exit : Exit ρ) : Prop :=
  match exit.sigterm with
  | some T => T ≤ exit.at₀ ∧ exit.code = 0 ∧
      (exit.served = true → T + cfg.drainMs ≤ exit.at₀) ∧
      ∀ r ∈ exit.dropped, MayCut cfg T exit.at₀ r
  | none => exit.code = 1 ∧ exit.dropped = []

def ProcSound (settings : ℕ → LifecycleSettings) (i : ℕ) (d : Db μ) : Process μ ρ → Prop
  | .absent => True
  | .running p => Sound (settings i) d.now p ∧ ∀ T, p.sigterm = some T → T ≤ d.now
  | .exited exit => exit.code = 137 ∨ Ended (settings i) exit

/-- A step of a pod that is about to close its socket or has closed it, and that leaves alone
all but its connections. -/
theorem Sound.connections {openRequests : List (Request ρ)} {idle : ℕ} (h : Sound cfg now p)
    (hserver : p.server = true) (hcame : ∀ r ∈ openRequests, r.cameAt ≤ now)
    (hcut : ∀ T cutAt, p.sigterm = some T → p.shutdown = some (.closing cutAt) →
      T + cfg.drainMs + cfg.closeTimeoutMs ≤ cutAt → cutAt ≤ now + cfg.closeTimeoutMs →
      (∀ r ∈ p.openRequests, MayCut cfg T cutAt r) → ∀ r ∈ openRequests, MayCut cfg T cutAt r) :
    Sound cfg now { p with openRequests, idle } where
  draining := h.draining
  ready := h.ready
  server := h.server
  warm := h.warm
  quiet := h.quiet
  leaving T hT := by
    obtain ⟨-, hleaving⟩ := h.leaving T hT
    refine ⟨hserver, ?_⟩
    unfold Leaving at hleaving ⊢
    dsimp only
    split at hleaving
    · exact hleaving
    · exact hleaving
    · next cutAt hshutdown =>
        obtain ⟨hfrom, hto, hopen⟩ := hleaving
        exact ⟨hfrom, hto, hcut T cutAt hT hshutdown hfrom hto hopen⟩
  unopened hnone := by
    dsimp only at hnone
    rw [hserver] at hnone
    cases hnone
  accepted := hcame

theorem Ended.rejected (hsig : p.sigterm = none) (hopen : p.openRequests = []) :
    Ended cfg ⟨1, now, p.sigterm, p.server, p.openRequests⟩ := by
  rw [hsig, hopen]
  exact ⟨rfl, rfl⟩

/-- A pod that has closed its socket leaves. -/
theorem Ended.left {T : ℕ} (hT : p.sigterm = some T) (hle : T ≤ now)
    (hdrained : T + cfg.drainMs ≤ now) (hcut : ∀ r ∈ p.openRequests, MayCut cfg T now r) :
    Ended cfg ⟨0, now, p.sigterm, p.server, p.openRequests⟩ := by
  rw [hT]
  exact ⟨hle, rfl, fun _ => hdrained, hcut⟩

/-- A process that is closing was told to stop, has drained, and cuts within the close timeout;
what is still open may be cut. -/
theorem Sound.closing {cutAt : ℕ} (h : Sound cfg now p)
    (hshutdown : p.shutdown = some (.closing cutAt)) :
    ∃ T, p.sigterm = some T ∧ T + cfg.drainMs + cfg.closeTimeoutMs ≤ cutAt ∧
      cutAt ≤ now + cfg.closeTimeoutMs ∧ ∀ r ∈ p.openRequests, MayCut cfg T cutAt r := by
  cases hsig : p.sigterm with
  | none =>
      have hquiet := h.quiet hsig
      rw [hshutdown] at hquiet
      cases hquiet
  | some T =>
      have hleaving := (h.leaving T hsig).2
      unfold Leaving at hleaving
      rw [hshutdown] at hleaving
      exact ⟨T, rfl, hleaving⟩

/-- A kept-alive connection without a request means that the server has been up. -/
theorem Sound.of_idle (h : Sound cfg now p) (hidle : 0 < p.idle) : p.server = true := by
  by_contra hne
  have hzero := (h.unopened (by simpa using hne)).2
  omega

/-- Time goes on. -/
theorem env_now (h : env d e = some d') : ∃ dt, d'.now = d.now + dt := by
  cases e with
  | tick dt =>
      cases h
      exact ⟨dt, rfl⟩
  | ends i | drops i =>
      cases h
      exact ⟨0, rfl⟩
  | lands i =>
      simp only [env, Option.map_eq_some_iff] at h
      obtain ⟨applied, -, rfl⟩ := h
      exact ⟨0, rfl⟩

variable [DecidableEq μ] [DecidableEq ρ]

/-- What the two functions of a pod know of each other is kept by every step. -/
theorem stmt_sound (hsound : ProcSound settings i d proc)
    (h : stmt migrations settings i d proc a = some (d', proc')) :
    ProcSound settings i d' proc' := by
  cases stmt_does h with
  | starts =>
      refine ⟨started_sound, ?_⟩
      intro T hT
      cases hT
  | connects hmain | wakes hmain | locks hmain | reads hmain | applies hmain | commits hmain
  | unlocks hmain | retries hmain | keepsLock hmain =>
      exact ⟨hsound.1.main (by simp [hmain]) (by simp) trivial, hsound.2⟩
  | @fails p hmain =>
      have hbefore : p.main ≠ .returned := by
        rintro heq
        simp [heq] at hmain
      have hnow : (d.leave i p.main).now = d.now := stmt_now h
      change Sound _ (d.leave i p.main).now _ ∧ ∀ T, _ → T ≤ (d.leave i p.main).now
      rw [hnow]
      exact ⟨hsound.1.main hbefore (by simp) trivial, hsound.2⟩
  | boots hmain => exact ⟨hsound.1.main (by simp [hmain]) (by simp) rfl, hsound.2⟩
  | @warms p wake hmain hwake =>
      have hwarm := hsound.1.warm
      unfold Warm at hwarm
      rw [hmain] at hwarm
      -- nobody has told this pod to stop
      have hno : p.lifecycle.draining = false := by
        rw [hsound.1.draining, (hsound.1.undisturbed (by simp [hmain])).1]
        rfl
      rw [hno]
      refine ⟨hsound.1.main (by simp [hmain]) (by simp) ?_, hsound.2⟩
      change p.startedAt + (settings i).warmupMs ≤ d.now
      omega
  | @serves p hmain =>
      obtain ⟨hsig, -, hopen⟩ := hsound.1.undisturbed (by simp [hmain])
      have hwarm := hsound.1.warm
      unfold Warm at hwarm
      rw [hmain] at hwarm
      refine ⟨⟨hsound.1.draining, rfl, by simp, hwarm, hsound.1.quiet, ?_, ?_,
        hsound.1.accepted⟩, hsound.2⟩
      · intro T hT
        rw [hsig] at hT
        cases hT
      · intro hserver
        cases hserver
  | @releases p hmain =>
      obtain ⟨hsig, -, hopen⟩ := hsound.1.undisturbed (by simp [hmain])
      exact Or.inr (Ended.rejected hsig hopen)
  -- a process that failed to start never listened
  | @rejects p hmain =>
      obtain ⟨hsig, -, hopen⟩ := hsound.1.undisturbed hmain
      exact Or.inr (Ended.rejected hsig hopen)
  | @stops p hfirst hserver =>
      refine Or.inr ⟨Nat.le_refl _, rfl, ?_, ?_⟩
      · intro hserved
        change p.server = true at hserved
        rw [hserver] at hserved
        cases hserved
      · intro r hr
        change r ∈ p.openRequests at hr
        rw [(hsound.1.unopened hserver).1] at hr
        cases hr
  | @drains p hfirst hserver =>
      have hret := hsound.1.server.mp hserver
      refine ⟨⟨rfl, hsound.1.ready, hsound.1.server, hsound.1.warm, ?_, ?_,
        hsound.1.unopened, hsound.1.accepted⟩, ?_⟩
      · intro hnone
        cases hnone
      · intro T hT
        cases hT
        exact ⟨hserver, rfl⟩
      · intro T hT
        cases hT
        exact Nat.le_refl _
  | @closes p wake hshutdown hwake =>
      refine ⟨⟨hsound.1.draining, hsound.1.ready, hsound.1.server, hsound.1.warm, ?_, ?_,
        hsound.1.unopened, hsound.1.accepted⟩, hsound.2⟩
      · intro hnone
        have hquiet := hsound.1.quiet hnone
        rw [hshutdown] at hquiet
        cases hquiet
      · intro T hT
        obtain ⟨hserver, hleaving⟩ := hsound.1.leaving T hT
        unfold Leaving at hleaving
        rw [hshutdown] at hleaving
        refine ⟨hserver, ?_, Nat.le_refl _, ?_⟩
        · dsimp only at hleaving
          omega
        · -- every open request came before the socket was closed
          intro r hr
          have hcame := hsound.1.accepted r hr
          left
          omega
  | @finishes p cutAt hshutdown hopen =>
      obtain ⟨T, hT, hleaving⟩ := hsound.1.closing hshutdown
      refine Or.inr (Ended.left hT (hsound.2 T hT) (by omega) ?_)
      intro r hr
      rw [hopen] at hr
      cases hr
  -- what is cut is what is open, and the invariant says of it how long it has been there
  | @cuts p cutAt hshutdown hdue =>
      obtain ⟨T, hT, hfrom, -, hopen⟩ := hsound.1.closing hshutdown
      refine Or.inr (Ended.left hT (hsound.2 T hT) (by omega) ?_)
      intro r hr
      exact (hopen r hr).imp_left fun hlong => Nat.le_trans hlong hdue
  | @accepts p hlistens =>
      have hserver : p.server = true := by
        simp only [Pod.listens, Bool.and_eq_true] at hlistens
        exact hlistens.1
      exact ⟨hsound.1.connections hserver hsound.1.accepted fun _ _ _ _ _ _ hopen => hopen,
        hsound.2⟩
  | hangsUp hidle =>
      exact ⟨hsound.1.connections (hsound.1.of_idle hidle) hsound.1.accepted
        fun _ _ _ _ _ _ hopen => hopen, hsound.2⟩
  | @takes p r hidle =>
      refine ⟨hsound.1.connections (hsound.1.of_idle hidle) ?_ ?_, hsound.2⟩
      · intro r' hr'
        rcases List.mem_cons.mp hr' with rfl | hr'
        · exact Nat.le_refl _
        · exact hsound.1.accepted r' hr'
      · -- on a closed socket, a connection that has stayed brings it
        intro T cutAt hT hshutdown hfrom hto hopen r' hr'
        rcases List.mem_cons.mp hr' with rfl | hr'
        · refine Or.inr ⟨?_, ?_⟩
          · change T + (settings i).drainMs ≤ d.now
            omega
          · change p.lifecycle.draining = true
            rw [hsound.1.draining, hT]
            rfl
        · exact hopen r' hr'
  | @answers p r hopen =>
      have hserver : p.server = true := by
        by_contra hne
        rw [(hsound.1.unopened (by simpa using hne)).1] at hopen
        cases hopen
      refine ⟨hsound.1.connections hserver ?_ ?_, hsound.2⟩
      · intro r' hr'
        exact hsound.1.accepted r' (List.mem_of_mem_erase hr')
      · intro T cutAt _ _ _ _ hall r' hr'
        exact hall r' (List.mem_of_mem_erase hr')
  | killed => exact Or.inl rfl

/-- SIGTERM came at `T`, whatever became of the pod since. -/
def Told (T : ℕ) : Process μ ρ → Prop
  | .absent => False
  | .running p => p.sigterm = some T
  | .exited exit => exit.sigterm = some T

/-- A process that has been told to stop stays told, with the time of the first signal. -/
theorem stmt_told {T : ℕ} (htold : Told T proc)
    (h : stmt migrations settings i d proc a = some (d', proc')) : Told T proc' := by
  cases stmt_does h with
  | starts => cases htold
  | stops hfirst | drains hfirst =>
      have hsig : _ = some T := htold
      rw [hfirst] at hsig
      cases hsig
  | _ => exact htold

/-! ## Whole runs -/

variable {s₀ s t : St μ ρ} {acts more : List (Label ρ)} {act : Label ρ}

/-- Every step of the cluster keeps every process sound. -/
theorem sound_step (hn : (machine migrations settings ρ).next s act = some t)
    (h : ∀ i, ProcSound settings i s.shared (s.proc i)) :
    ∀ i, ProcSound settings i t.shared (t.proc i) := by
  have hholds := Procs.noninterference_step (P := procs migrations settings ρ) Machine.Always
    (fun _ => True) (ProcSound settings) (s := s) (t := t) ?_ ?_ trivial hn
    ⟨trivial, h⟩
  · exact hholds.2
  · intro s i a d proc _ hs hst
    refine ⟨trivial, stmt_sound (hs.2 i) hst, ?_⟩
    intro j _
    have hj := hs.2 j
    unfold ProcSound at hj ⊢
    rw [stmt_now hst]
    exact hj
  · intro s e d _ hs hd
    obtain ⟨dt, hnow⟩ := env_now hd
    refine ⟨trivial, ?_⟩
    intro j
    have hj := hs.2 j
    unfold ProcSound at hj ⊢
    rw [hnow]
    split at hj
    · trivial
    · exact ⟨hj.1.later, fun T hT => Nat.le_trans (hj.2 T hT) (Nat.le_add_right _ _)⟩
    · exact hj

/-- In every reachable state every process is sound. -/
theorem sound_reachable (h : (machine migrations settings ρ).Reachable s) :
    ∀ i, ProcSound settings i s.shared (s.proc i) := by
  refine h.invariant (P := fun s => ∀ i, ProcSound settings i s.shared (s.proc i)) ?_
    fun _ _ _ hn hs => sound_step hn hs
  intro s hs i
  rw [hs.2 i]
  trivial

/-- Along a run a signal is not forgotten. -/
theorem told_run {T : ℕ} (hr : (machine migrations settings ρ).Run Machine.Always s more t)
    (h : Told T (s.proc i)) : Told T (t.proc i) := by
  refine hr.invariant (P := fun s => Told T (s.proc i)) ?_ h
  intro s act t _ hn hs
  cases act with
  | env e =>
      obtain ⟨d, -, rfl⟩ := Procs.next_env hn
      exact hs
  | call j a =>
      obtain ⟨d, proc, hst, rfl⟩ := Procs.next_call hn
      by_cases hj : i = j
      · subst hj
        simpa using stmt_told hs hst
      · simpa [hj] using hs

omit [DecidableEq ρ] in
/-- What `/readyz` answers. -/
theorem Sound.readiness (h : Sound cfg now p) :
    p.lifecycle.middleware readinessPath =
      if p.main = .returned ∧ p.sigterm = none then .readiness 200 true false
      else .readiness 503 false p.sigterm.isSome := by
  have hne : ¬ readinessPath = livenessPath := by decide
  rw [Lifecycle.middleware, if_neg hne, if_pos rfl, h.draining, h.ready]
  by_cases hready : p.main = .returned ∧ p.sigterm = none
  · rw [if_pos hready, h.server.mpr hready.1, hready.2]
    rfl
  · rw [if_neg hready]
    cases hsig : p.sigterm with
    | some T => simp
    | none =>
        have hserver : p.server = false := by
          by_contra hne
          exact hready ⟨h.server.mp (by simpa using hne), hsig⟩
        rw [hserver]
        rfl

/-- The probes of a pod, in every run. `/readyz` is green exactly between the open socket and
SIGTERM, and red for ever from then on; a green pod has warmed up and found its migrations
applied; what is no probe is handed on, with `connection: close` from SIGTERM on; and `main`
never gives up for a SIGTERM it finds after its warm-up, as the process has exited by then. -/
theorem ready_between (hinit : (machine migrations settings ρ).Init s₀)
    (hr : (machine migrations settings ρ).Run Machine.Always s₀ acts s)
    (hproc : s.proc i = .running p) :
    (p.lifecycle.middleware readinessPath =
      if p.main = .returned ∧ p.sigterm = none then .readiness 200 true false
      else .readiness 503 false p.sigterm.isSome) ∧
    (p.main = .returned → p.startedAt + (settings i).warmupMs ≤ s.shared.now ∧
      ∀ m ∈ migrations i, m ∈ s.shared.applied) ∧
    (∀ path, path ≠ livenessPath → path ≠ readinessPath →
      p.lifecycle.middleware path = .next p.sigterm.isSome) ∧
    p.main ≠ .abandoned ∧
    (p.sigterm.isSome → ∀ more t q, (machine migrations settings ρ).Run Machine.Always s more t →
      t.proc i = .running q →
      q.lifecycle.middleware readinessPath = .readiness 503 false true) := by
  have hreach : (machine migrations settings ρ).Reachable s := ⟨s₀, acts, hinit, hr⟩
  have hsound := sound_reachable hreach i
  rw [hproc] at hsound
  refine ⟨hsound.1.readiness, ?_, ?_, ?_, ?_⟩
  · intro hmain
    have hwarm := hsound.1.warm
    unfold Warm at hwarm
    rw [hmain] at hwarm
    exact ⟨hwarm, found_reachable hreach hproc hmain⟩
  · intro path hlive hready
    rw [Lifecycle.middleware, if_neg hlive, if_neg hready, hsound.1.draining]
  · intro hmain
    have hwarm := hsound.1.warm
    unfold Warm at hwarm
    rw [hmain] at hwarm
    exact hwarm
  · intro hsig more t q hmore hq
    obtain ⟨T, hT⟩ := Option.isSome_iff_exists.mp hsig
    have htold : Told T (s.proc i) := by
      rw [hproc]
      exact hT
    have hlater := told_run hmore htold
    have hsound' := sound_reachable (hreach.run hmore) i
    rw [hq] at hlater hsound'
    have hqT : q.sigterm = some T := hlater
    rw [hsound'.1.readiness, hqT]
    simp

/-- One pod comes up, waits for its warm-up floor, serves, and is told to stop. -/
def upAndDown : List (Label Unit) :=
  [.call 0 .start] ++ List.replicate 7 (.call 0 .main) ++
    [.env (.tick 4000), .call 0 .main, .call 0 .main, .call 0 .sigterm]

/-- A pod that was ready and has been told to stop answers 503 to the readiness probe and still
takes requests. -/
theorem ready_between_signalled : ∃ (s : St ℕ Unit) (p : Pod ℕ Unit),
    (machine rolled defaults Unit).exec (fun _ _ => true) noPods upAndDown = some s ∧
      s.proc 0 = .running p ∧
      p.lifecycle.middleware readinessPath = .readiness 503 false true ∧
      p.lifecycle.middleware "/products" = .next true := by
  have hrun : ∃ (s : St ℕ Unit) (p : Pod ℕ Unit),
      (machine rolled defaults Unit).exec (fun _ _ => true) noPods upAndDown = some s ∧
        s.proc 0 = .running p ∧ p.sigterm = some 4000 := ⟨_, _, rfl, rfl, rfl⟩
  obtain ⟨s, p, hexec, hproc, hsig⟩ := hrun
  obtain ⟨hready, -, hother, -, -⟩ :=
    ready_between noPods_init (Machine.exec_always hexec) hproc
  refine ⟨s, p, hexec, hproc, ?_, ?_⟩
  · rw [hready, hsig]
    simp
  · rw [hother "/products" (by decide) (by decide), hsig]
    rfl

/-! ## In time -/

/-- No timer of `shutdown` is later than `slack`, and the kubelet kills a pod only when its
grace period is over. -/
def OnTime (slack grace : ℕ) (s : St μ ρ) : Label ρ → Prop
  | .env (.tick dt) => ∀ i p, s.proc i = .running p →
      match p.shutdown with
      | none => True
      | some (.draining wake) => s.shared.now + dt ≤ wake + slack
      | some (.closing cutAt) => s.shared.now + dt ≤ cutAt + slack
  | .call i .kill => ∃ p T, s.proc i = .running p ∧ p.sigterm = some T ∧
      T + grace ≤ s.shared.now
  | .env _ | .call _ _ => True

/-- How late a pod is that leaves. -/
def Prompt (cfg : LifecycleSettings) (slack now : ℕ) (p : Pod μ ρ) : Prop :=
  ∀ T, p.sigterm = some T →
    match p.shutdown with
    | none => True
    | some (.draining wake) => now ≤ wake + slack
    | some (.closing cutAt) =>
        cutAt ≤ T + cfg.drainMs + slack + cfg.closeTimeoutMs ∧ now ≤ cutAt + slack

/-- The last moment at which a pod that was told to stop at `T` still runs. -/
def latest (cfg : LifecycleSettings) (slack T : ℕ) : ℕ :=
  T + cfg.drainMs + cfg.closeTimeoutMs + 2 * slack

omit [DecidableEq μ] [DecidableEq ρ] in
/-- A process that is still there after its signal has not reached its latest moment. -/
theorem Prompt.le_latest {slack T : ℕ} (hsound : Sound cfg now p) (h : Prompt cfg slack now p)
    (hT : p.sigterm = some T) : now ≤ latest cfg slack T := by
  have hprompt := h T hT
  have hleaving := (hsound.leaving T hT).2
  unfold Leaving at hleaving
  unfold latest
  split at hleaving
  · cases hleaving
  · next wake hshutdown =>
      rw [hshutdown] at hprompt
      dsimp only at hprompt
      omega
  · next cutAt hshutdown =>
      rw [hshutdown] at hprompt
      dsimp only at hprompt
      omega

/-- A process on its way out is not late, and one that is out was not killed. -/
def Timed (settings : ℕ → LifecycleSettings) (slack i : ℕ) (d : Db μ) : Process μ ρ → Prop
  | .absent => True
  | .running p => Prompt (settings i) slack d.now p
  | .exited exit => Ended (settings i) exit ∧
      ∀ T, exit.sigterm = some T → exit.at₀ ≤ latest (settings i) slack T

/-- A step of a pod keeps it on time: it ends within drain, close timeout and slack of the signal,
unless it is killed. -/
theorem stmt_timed {slack : ℕ} (hsound : ProcSound settings i d proc)
    (htimed : Timed settings slack i d proc) (hkill : a ≠ .kill)
    (h : stmt migrations settings i d proc a = some (d', proc')) :
    Timed settings slack i d' proc' := by
  have hafter := stmt_sound hsound h
  -- an exit that is no kill
  have ended : ∀ {exit : Exit ρ} {d' : Db μ}, exit.code ≠ 137 →
      (∀ T, exit.sigterm = some T → exit.at₀ ≤ latest (settings i) slack T) →
      ProcSound settings i d' (.exited exit : Process μ ρ) →
      Timed settings slack i d' (.exited exit : Process μ ρ) := by
    intro exit d' hcode hlate hsound
    exact ⟨hsound.resolve_left hcode, hlate⟩
  cases stmt_does h with
  | starts =>
      intro T hT
      cases hT
  | releases | rejects | finishes | cuts =>
      exact ended (by simp) (fun T hT => htimed.le_latest hsound.1 hT) hafter
  | stops hfirst =>
      apply ended (by simp) _ hafter
      intro T hT
      cases hT
      change d.now ≤ latest (settings i) slack d.now
      unfold latest
      omega
  | drains hfirst hserver =>
      intro T hT
      cases hT
      change d.now ≤ d.now + (settings i).drainMs + slack
      omega
  -- the close begins when the drain is over, at most the slack late
  | @closes p wake hshutdown hwake =>
      intro T hT
      have hprompt := htimed T hT
      have hleaving := (hsound.1.leaving T hT).2
      unfold Leaving at hleaving
      rw [hshutdown] at hprompt hleaving
      dsimp only at hprompt hleaving ⊢
      omega
  | killed => exact absurd rfl hkill
  | @fails p hmain =>
      change Prompt (settings i) slack (d.leave i p.main).now _
      rw [show (d.leave i p.main).now = d.now from stmt_now h]
      exact htimed
  | _ => exact htimed

/-- Every step of the cluster keeps every pod on time, and the kubelet, whose grace period is
longer, comes too late to kill. -/
theorem timed_step {slack grace : ℕ}
    (hgrace : ∀ i, (settings i).drainMs + (settings i).closeTimeoutMs + 2 * slack < grace)
    (hsound : ∀ i, ProcSound settings i s.shared (s.proc i)) (hok : OnTime slack grace s act)
    (hn : (machine migrations settings ρ).next s act = some t)
    (h : ∀ i, Timed settings slack i s.shared (s.proc i)) :
    ∀ i, Timed settings slack i t.shared (t.proc i) := by
  cases act with
  | env e =>
      obtain ⟨d, hd, rfl⟩ := Procs.next_env hn
      intro i
      have hi := h i
      change Timed settings slack i d (s.proc i)
      cases hproc : s.proc i with
      | absent => trivial
      | exited =>
          rw [hproc] at hi
          exact hi
      | running p =>
          rw [hproc] at hi
          cases e with
          | tick dt =>
              cases hd
              intro T hT
              have hprompt := hi T hT
              have hdue := hok i p hproc
              split
              · trivial
              · next wake hshutdown =>
                  rw [hshutdown] at hdue
                  exact hdue
              · next cutAt hshutdown =>
                  rw [hshutdown] at hdue hprompt
                  exact ⟨hprompt.1, hdue⟩
          | ends j | drops j =>
              cases hd
              exact hi
          | lands j =>
              change env s.shared (.lands j) = some d at hd
              simp only [env, Option.map_eq_some_iff] at hd
              obtain ⟨applied, -, rfl⟩ := hd
              exact hi
  | call i a =>
      obtain ⟨d, proc, hst, rfl⟩ := Procs.next_call hn
      -- the kubelet kills only when the grace period is over, and by then the pod has ended
      have hkill : a ≠ .kill := by
        rintro rfl
        -- the kubelet comes too late
        obtain ⟨p, T, hproc, hT, hlate⟩ := hok
        have hi := h i
        have hsnd := hsound i
        rw [hproc] at hi hsnd
        have hnow := Prompt.le_latest hsnd.1 hi hT
        have hbound := hgrace i
        unfold latest at hnow
        omega
      apply Procs.forall_update (Q := fun j => Timed settings slack j d)
      · exact stmt_timed (hsound i) (h i) hkill hst
      · intro j _
        have hj := h j
        unfold Timed at hj ⊢
        rw [stmt_now hst]
        exact hj

/-- What the shutdown of a pod comes to. -/
def InTime (settings : ℕ → LifecycleSettings) (slack i now : ℕ) : Process μ ρ → Prop
  | .absent => True
  | .running p => ∀ T, p.sigterm = some T → now ≤ latest (settings i) slack T ∧
      (now < T + (settings i).drainMs → p.listens = true)
  | .exited exit => Ended (settings i) exit ∧
      ∀ T, exit.sigterm = some T → exit.at₀ ≤ latest (settings i) slack T

/-- A shutdown that fits into the grace period is never cut short by the kubelet. A pod told to
stop at `T` that has served listens until `T` plus its drain, and has left, with exit code 0, at
`latest` by then; what it cut had been open for the whole close timeout, or came after the drain
on a connection that had stayed open. -/
theorem drained_in_time {slack grace : ℕ}
    (hgrace : ∀ i, (settings i).drainMs + (settings i).closeTimeoutMs + 2 * slack < grace)
    (hinit : (machine migrations settings ρ).Init s₀)
    (hr : (machine migrations settings ρ).Run (OnTime slack grace) s₀ acts s) (i : ℕ) :
    InTime settings slack i s.shared.now (s.proc i) := by
  have htimed : ∀ i, Timed settings slack i s.shared (s.proc i) := by
    refine hr.invariant_of (P := fun s => ∀ i, Timed settings slack i s.shared (s.proc i)) hinit
      (fun s a t hreach hok hn hs => timed_step hgrace (sound_reachable hreach) hok hn hs) ?_
    intro i
    rw [hinit.2 i]
    trivial
  have hi := htimed i
  have hsound := sound_reachable ⟨s₀, acts, hinit, hr.always⟩ i
  cases hproc : s.proc i with
  | absent => trivial
  | exited =>
      rw [hproc] at hi
      exact hi
  | running p =>
      rw [hproc] at hi hsound
      intro T hT
      refine ⟨Prompt.le_latest hsound.1 hi hT, ?_⟩
      intro hearly
      obtain ⟨hserver, hleaving⟩ := hsound.1.leaving T hT
      unfold Leaving at hleaving
      unfold Pod.listens
      rw [hserver, Bool.true_and]
      split
      · next cutAt hshutdown =>
          -- the socket is closed when the drain is over
          rw [hshutdown] at hleaving
          dsimp only at hleaving
          omega
      · rfl

/-! ## The deployment -/

/-- `GRACE_SECONDS` of `infra/index.ts`, in milliseconds. -/
def graceMs : ℕ := 30 * 1000

/-- `CLOSE_TIMEOUT_MS` there. -/
def closeTimeoutMs : ℕ := 10000

/-- The check that `infra/index.ts` makes before it deploys anything. -/
def deploys (drainMs : ℕ) : Bool := !decide (graceMs ≤ drainMs + closeTimeoutMs)

def EnvNumber.ofNat (n : ℕ) : EnvNumber := ⟨toString n, some n⟩

/-- What the container gets. -/
def podEnv (drainMs : ℕ) (name : String) : Option EnvNumber :=
  if name = "DRAIN_MS" then some (EnvNumber.ofNat drainMs)
  else if name = "CLOSE_TIMEOUT_MS" then some (EnvNumber.ofNat closeTimeoutMs)
  else if name = "WARMUP_MS" then some (EnvNumber.ofNat 4000)
  else none

theorem nonNegativeInt_ofNat (n : ℕ) (name : String) (fallback : ℕ) :
    nonNegativeInt (some (EnvNumber.ofNat n)) name fallback = .ok n := by
  have hnonneg : (0 : ℚ) ≤ n := by exact_mod_cast Nat.zero_le n
  simp [nonNegativeInt, EnvNumber.ofNat, hnonneg]

/-- Three natural numbers in the environment are read as the three settings. -/
theorem readLifecycleSettings_ofNat {env : String → Option EnvNumber} {warmup drain close : ℕ}
    (hwarmup : env "WARMUP_MS" = some (EnvNumber.ofNat warmup))
    (hdrain : env "DRAIN_MS" = some (EnvNumber.ofNat drain))
    (hclose : env "CLOSE_TIMEOUT_MS" = some (EnvNumber.ofNat close)) :
    readLifecycleSettings env = .ok ⟨warmup, drain, close⟩ := by
  unfold readLifecycleSettings
  rw [hwarmup, hdrain, hclose, nonNegativeInt_ofNat, nonNegativeInt_ofNat, nonNegativeInt_ofNat]
  rfl

/-- A pod reads what the deployment has written. -/
theorem podEnv_settings (drainMs : ℕ) :
    readLifecycleSettings (podEnv drainMs) = .ok ⟨4000, drainMs, closeTimeoutMs⟩ := by
  have hwarmup : podEnv drainMs "WARMUP_MS" = some (EnvNumber.ofNat 4000) := by simp [podEnv]
  have hdrain : podEnv drainMs "DRAIN_MS" = some (EnvNumber.ofNat drainMs) := by simp [podEnv]
  have hclose : podEnv drainMs "CLOSE_TIMEOUT_MS" = some (EnvNumber.ofNat closeTimeoutMs) := by
    simp [podEnv]
  exact readLifecycleSettings_ofNat hwarmup hdrain hclose

/-- The pods of a deployment that passes its check are in time, if their timers are. -/
theorem deployed_in_time {drainMs : ℕ} (hdeploys : deploys drainMs = true)
    (hsettings : ∀ i, readLifecycleSettings (podEnv drainMs) = .ok (settings i))
    (hinit : (machine migrations settings ρ).Init s₀)
    (hr : (machine migrations settings ρ).Run (OnTime 0 graceMs) s₀ acts s) (i : ℕ) :
    InTime settings 0 i s.shared.now (s.proc i) := by
  have hgrace : drainMs + closeTimeoutMs < graceMs := by
    simpa only [deploys, Bool.not_eq_true', decide_eq_false_iff_not, Nat.not_le] using hdeploys
  have hread : ∀ i, settings i = ⟨4000, drainMs, closeTimeoutMs⟩ := by
    intro i
    have hi := hsettings i
    rw [podEnv_settings] at hi
    exact (Except.ok.inj hi).symm
  refine drained_in_time ?_ hinit hr i
  intro i
  have hdrain : (settings i).drainMs = drainMs := by rw [hread]
  have hclose : (settings i).closeTimeoutMs = closeTimeoutMs := by rw [hread]
  rw [hdrain, hclose, Nat.mul_zero, Nat.add_zero]
  exact hgrace

/-! ## One pod of it -/

/-- The steps of this run: pod 0 alone is there, no timer is late and nobody kills it. -/
def isOwn (s : St ℕ Unit) : Label Unit → Bool
  | .env (.tick dt) =>
      match s.proc 0 with
      | .running p =>
          match p.shutdown with
          | none => true
          | some (.draining wake) => s.shared.now + dt ≤ wake
          | some (.closing cutAt) => s.shared.now + dt ≤ cutAt
      | _ => true
  | .env _ => true
  | .call i a => i = 0 && a != .kill

/-- Nobody else is there. -/
def Alone (s : St ℕ Unit) : Prop := ∀ i, i ≠ 0 → s.proc i = .absent

/-- In the concrete run only the one pod moves. -/
theorem alone_step {settings : ℕ → LifecycleSettings} {s t : St ℕ Unit} {act : Label Unit}
    (hown : isOwn s act = true) (hn : (machine rolled settings Unit).next s act = some t)
    (h : Alone s) : Alone t := by
  intro i hi
  cases act with
  | env e =>
      obtain ⟨d, -, rfl⟩ := Procs.next_env hn
      exact h i hi
  | call j a =>
      obtain ⟨d, proc, -, rfl⟩ := Procs.next_call hn
      obtain rfl : j = 0 := by
        simp only [isOwn, Bool.and_eq_true, decide_eq_true_eq] at hown
        exact hown.1
      exact (Function.update_of_ne hi _ _).trans (h i hi)

/-- In the concrete run everything happens at its time. -/
theorem Alone.onTime {s : St ℕ Unit} {act : Label Unit} (h : Alone s)
    {grace : ℕ}
    (hown : isOwn s act = true) : OnTime 0 grace s act := by
  cases act with
  | env e =>
      cases e with
      | tick dt =>
          intro i p hproc
          by_cases hi : i = 0
          · subst hi
            simp only [isOwn, hproc] at hown
            split at hown
            · trivial
            · simpa using hown
            · simpa using hown
          · rw [h i hi] at hproc
            cases hproc
      | _ => trivial
  | call i a =>
      cases a with
      | kill => simp [isOwn] at hown
      | _ => trivial

/-- 4 ms of warm-up, 5 ms of drain and 10 ms until the cut. -/
def quick (_ : ℕ) : LifecycleSettings := ⟨4, 5, 10⟩

/-- SIGTERM finds a request open. It is answered when the socket is closed; another one comes on
its connection two milliseconds later, and is cut. -/
def late : List (Label Unit) :=
  [.call 0 .start] ++ List.replicate 7 (.call 0 .main) ++ [.env (.tick 4)] ++
    List.replicate 2 (.call 0 .main) ++
    [.call 0 .connect, .call 0 (.request ()), .call 0 .sigterm, .env (.tick 5),
      .call 0 .shutdown, .env (.tick 1), .call 0 (.answer ⟨(), 4, false⟩), .env (.tick 2),
      .call 0 (.request ()), .env (.tick 7), .call 0 .cut]

/-- A request that comes late on a kept-alive connection is cut at the close timeout, and the pod
has exited in time. -/
theorem drained_in_time_late : ∃ s : St ℕ Unit,
    (machine rolled quick Unit).exec isOwn noPods late = some s ∧
      s.proc 0 = .exited ⟨0, 19, some 4, true, [⟨(), 12, true⟩]⟩ ∧
      InTime quick 0 0 s.shared.now (s.proc 0) := by
  have hrun : ∃ s : St ℕ Unit,
      (machine rolled quick Unit).exec isOwn noPods late = some s ∧
        s.proc 0 = .exited ⟨0, 19, some 4, true, [⟨(), 12, true⟩]⟩ := ⟨_, rfl, rfl⟩
  obtain ⟨s, hexec, hproc⟩ := hrun
  have hr : (machine rolled quick Unit).Run (OnTime 0 30) noPods late s :=
    (Machine.exec_run (fun _ _ h => h) hexec).strengthen (P := Alone)
      (fun _ _ _ hown hn h => alone_step hown hn h) (fun _ _ h hown => h.onTime hown)
      fun _ _ => rfl
  exact ⟨s, hexec, hproc, drained_in_time (fun i => (by decide : 5 + 10 + 2 * 0 < 30)) noPods_init hr 0⟩

end Marketplace.K8s

import Marketplace.K8s.Serve
import Mathlib.Data.List.Infix
import Mathlib.Data.List.Nodup

/-!
# K8s.Migrations — one pod migrates at a time

`migrate` of `src/k8s/serve-main.ts`, for any number of pods that start, fail, are stopped or
killed at any moment. Whatever happens, nothing that was applied is taken back, and a pod that
has come past `migrate` finds its list applied (`Found`).

The rest needs the lock to outlive the transaction it protects, and the two are in two sessions:
the lock is `Guarded` if it is not let go, by the end of its session or by the unlock after an
error, while its pod migrates or has a COMMIT under way. Then whoever is between the lock and
the unlock is the holder (`MainLoc`), so what it has read of the migrations table stays true
until its COMMIT; hence no migration runs twice, and pods whose lists extend one another apply
one list in its order.
-/

namespace Marketplace.K8s

open Core

variable {μ ρ : Type} [DecidableEq μ] {i j : ℕ} {d d' : Db μ} {ms : List μ} {main : Main μ}

/-! ## What has been applied stays -/

/-- A pod whose migrations are `ms` has applied them or is about to. -/
def Found (ms : List μ) (d : Db μ) : Main μ → Prop
  | .applying pending applied => ∀ m ∈ ms, m ∈ d.applied ++ (applied ++ pending)
  | .unlocking | .booting | .warming _ | .listening | .returned | .abandoned =>
      ∀ m ∈ ms, m ∈ d.applied
  | .connecting _ | .retrying _ _ | .locking | .reading | .rejecting => True

section

omit [DecidableEq μ]

/-- What a runner has found applied stays applied. -/
theorem Found.mono (hle : d.applied ⊆ d'.applied) (h : Found ms d main) : Found ms d' main := by
  cases main with
  | applying pending applied =>
      intro m hm
      rw [List.mem_append]
      exact (List.mem_append.mp (h m hm)).imp_left (hle ·)
  | unlocking | booting | warming | listening | returned | abandoned =>
      exact fun m hm => hle (h m hm)
  | connecting | retrying | locking | reading | rejecting => trivial

@[simp] theorem Db.leave_applied (main : Main μ) (d : Db μ) :
    (d.leave i main).applied = d.applied := by
  unfold Db.leave
  split <;> rfl

@[simp] theorem Db.leave_lock (main : Main μ) (d : Db μ) : (d.leave i main).lock = d.lock := by
  unfold Db.leave
  split <;> rfl

/-- A pod that leaves leaves a transaction behind of its own only. -/
theorem Db.leave_orphan (hne : j ≠ i) (main : Main μ) (d : Db μ) :
    (d.leave i main).orphan j = d.orphan j := by
  unfold Db.leave
  split
  · exact Function.update_of_ne hne _ _
  · rfl

end

variable [DecidableEq ρ] {migrations : ℕ → List μ} {settings : ℕ → LifecycleSettings}
  {p : Pod μ ρ} {proc proc' : Process μ ρ} {a : Step ρ} {e : Env}

/-- A statement of a pod applies what its COMMIT applies, and nothing else does. -/
theorem stmt_applied (h : stmt migrations settings i d proc a = some (d', proc')) :
    d'.applied = d.applied ∨ ∃ p applied, proc = .running p ∧ p.main = .applying [] applied ∧
      d'.applied = d.applied ++ applied := by
  cases stmt_does h with
  | @commits p applied hmain => exact Or.inr ⟨p, applied, rfl, hmain, rfl⟩
  | fails | rejects | stops | finishes | cuts | killed => exact Or.inl (Db.leave_applied _ _)
  | releases => exact Or.inl (Db.leave_applied _ _)
  | _ => exact Or.inl rfl

/-- A pod adds migrations at the end of the table or leaves it as it is. -/
theorem stmt_prefix (h : stmt migrations settings i d proc a = some (d', proc')) :
    d.applied <+: d'.applied := by
  rcases stmt_applied h with heq | ⟨p, applied, -, -, heq⟩
  · rw [heq]
  · rw [heq]
    exact List.prefix_append _ _

omit [DecidableEq μ] in
/-- The database itself adds a landing transaction's migrations at the end, and takes nothing
back. -/
theorem env_prefix (h : env d e = some d') : d.applied <+: d'.applied := by
  cases e with
  | tick dt | ends i | drops i =>
      cases h
      exact List.prefix_rfl
  | lands i =>
      simp only [env, Option.map_eq_some_iff] at h
      obtain ⟨applied, -, rfl⟩ := h
      exact List.prefix_append _ _

def ProcFound (migrations : ℕ → List μ) (i : ℕ) (d : Db μ) : Process μ ρ → Prop
  | .running p => Found (migrations i) d p.main
  | .absent | .exited _ => True

omit [DecidableEq ρ] [DecidableEq μ] in
/-- What a pod knows to be applied stays applied. -/
theorem ProcFound.mono (hle : d.applied ⊆ d'.applied) (h : ProcFound migrations i d proc) :
    ProcFound migrations i d' proc := by
  cases proc with
  | absent | exited => trivial
  | running p => exact Found.mono hle h

/-- Once past its runner a pod has found all its migrations applied. -/
theorem stmt_found (hfound : ProcFound migrations i d proc)
    (h : stmt migrations settings i d proc a = some (d', proc')) :
    ProcFound migrations i d' proc' := by
  -- what the pod knows where it stands
  have at_main : ∀ {p : Pod μ ρ} {main : Main μ}, ProcFound migrations i d (.running p) →
      p.main = main → Found (migrations i) d main := by
    rintro p main hfound rfl
    exact hfound
  cases stmt_does h with
  | starts | connects | wakes | locks | retries | fails => trivial
  | releases | rejects | stops | finishes | cuts | killed => trivial
  | reads hmain =>
      intro m hm
      rw [List.nil_append, List.mem_append, List.mem_filter]
      by_cases hin : m ∈ d.applied
      · exact Or.inl hin
      · exact Or.inr ⟨hm, by simpa using hin⟩
  | @applies p m pending applied hmain =>
      have hdone := at_main hfound hmain
      change ∀ m' ∈ migrations i, m' ∈ d.applied ++ ((applied ++ [m]) ++ pending)
      rw [List.append_assoc applied]
      exact hdone
  -- before the COMMIT every migration was found in the table or is in the open transaction
  | @commits p applied hmain =>
      have hdone := at_main hfound hmain
      intro m hm
      have hm' := hdone m hm
      rwa [List.append_nil] at hm'
  | unlocks hmain | keepsLock hmain | boots hmain | serves hmain => exact at_main hfound hmain
  | @warms p wake hmain hwake =>
      have hdone := at_main hfound hmain
      change Found (migrations i) d (if _ then _ else _)
      split <;> exact hdone
  | drains | closes | accepts | hangsUp | takes | answers => exact hfound

/-! ## The holder of the lock -/

/-- Between the lock and the unlock. -/
def Main.Migrating : Main μ → Prop
  | .reading | .applying _ _ | .unlocking => True
  | _ => False

/-- A pod that migrates, or has gone while its COMMIT was under way. -/
def Busy (i : ℕ) (s : St μ ρ) : Prop :=
  (∃ p, s.proc i = .running p ∧ p.main.Migrating) ∨ (s.shared.orphan i).isSome

/-- A COMMIT that nobody waits for is still protected by the lock. -/
def Left (ms : List μ) (i : ℕ) (d : Db μ) : Prop :=
  ∀ applied, d.orphan i = some applied →
    d.lock = some i ∧ applied = ms.filter (· ∉ d.applied)

/-- What a pod whose migrations are `ms` knows of the database. -/
def MainLoc (ms : List μ) (i : ℕ) (d : Db μ) : Main μ → Prop
  | .reading | .unlocking => d.lock = some i ∧ d.orphan i = none
  | .applying pending applied =>
      d.lock = some i ∧ d.orphan i = none ∧ applied ++ pending = ms.filter (· ∉ d.applied)
  | .rejecting => Left ms i d
  | .connecting _ | .retrying _ _ | .locking | .booting | .warming _ | .listening | .returned
  | .abandoned => d.orphan i = none

def Loc (migrations : ℕ → List μ) (i : ℕ) (d : Db μ) : Process μ ρ → Prop
  | .absent => d.orphan i = none
  | .running p => MainLoc (migrations i) i d p.main
  | .exited _ => Left (migrations i) i d

/-- A session that left nothing behind has left nothing wrong behind. -/
theorem Left.of_none (h : d.orphan i = none) : Left ms i d := by
  intro applied happlied
  rw [h] at happlied
  cases happlied

/-- A pod that goes away, at its COMMIT or not. -/
theorem MainLoc.leave (h : MainLoc ms i d main) : Left ms i (d.leave i main) := by
  unfold Db.leave
  split
  · next applied =>
      obtain ⟨hlock, -, hrest⟩ := h
      intro applied' happlied
      rw [List.append_nil] at hrest
      simp only [Function.update_self, Option.some.injEq] at happlied
      rw [← happlied]
      exact ⟨hlock, hrest⟩
  · next hnot =>
      cases main with
      | rejecting => exact h
      | reading | unlocking => exact Left.of_none h.2
      | applying => exact Left.of_none h.2.1
      | _ => exact Left.of_none h

/-- What the other pods leave alone: the holder's lock and what it has read. -/
structure Rely (j : ℕ) (d d' : Db μ) : Prop where
  held : d.lock = some j → d'.lock = some j ∧ d'.applied = d.applied
  orphan : d'.orphan j = d.orphan j

section

omit [DecidableEq μ]

theorem Rely.refl (j : ℕ) (d : Db μ) : Rely j d d := ⟨fun h => ⟨h, rfl⟩, rfl⟩

/-- Another session's unlock takes no lock from this one. -/
theorem Rely.unlock (hne : j ≠ i) : Rely j d (d.unlock i) where
  held hlock := by
    have hother : d.lock ≠ some i := by
      rw [hlock]
      simpa using hne
    exact ⟨by rw [Db.unlock, if_neg hother, hlock], rfl⟩
  orphan := rfl

theorem Rely.leave (hne : j ≠ i) : Rely j d (d.leave i main) where
  held hlock := by simpa using hlock
  orphan := Db.leave_orphan hne main d

end

/-- What a session left behind stays as it is while others move. -/
theorem Left.stable (hrely : Rely i d d') (h : Left ms i d) : Left ms i d' := by
  intro applied happlied
  rw [hrely.orphan] at happlied
  obtain ⟨hlock, hrest⟩ := h applied happlied
  obtain ⟨hlock', hsame⟩ := hrely.held hlock
  rw [hsame]
  exact ⟨hlock', hrest⟩

/-- What a runner knows stays true while others move, as long as the lock is its own. -/
theorem MainLoc.stable (hrely : Rely i d d') (h : MainLoc ms i d main) : MainLoc ms i d' main := by
  cases main with
  | reading | unlocking => exact ⟨(hrely.held h.1).1, hrely.orphan.trans h.2⟩
  | applying pending applied =>
      obtain ⟨hlock, hnone, hrest⟩ := h
      obtain ⟨hlock', hsame⟩ := hrely.held hlock
      refine ⟨hlock', hrely.orphan.trans hnone, ?_⟩
      rw [hsame]
      exact hrest
  | rejecting => exact Left.stable hrely h
  | connecting | retrying | locking | booting | warming | listening | returned | abandoned =>
      exact hrely.orphan.trans h

section

omit [DecidableEq ρ]

/-- What a pod knows stays true while others move. -/
theorem Loc.stable (hrely : Rely i d d') (h : Loc migrations i d proc) :
    Loc migrations i d' proc := by
  cases proc with
  | absent => exact hrely.orphan.trans h
  | exited => exact Left.stable hrely h
  | running p => exact MainLoc.stable hrely h

/-- Only a pod that has gone, or is about to, has a COMMIT it does not wait for. -/
theorem Loc.gone (h : Loc migrations i d proc) (hsome : d.orphan i ≠ none) :
    (∃ exit, proc = .exited exit) ∨ ∃ p, proc = .running p ∧ p.main = .rejecting := by
  cases proc with
  | absent => exact absurd h hsome
  | exited exit => exact Or.inl ⟨exit, rfl⟩
  | running p =>
      refine Or.inr ⟨p, rfl, ?_⟩
      change MainLoc (migrations i) i d p.main at h
      cases hmain : p.main with
      | rejecting => rfl
      | reading | unlocking =>
          rw [hmain] at h
          exact absurd h.2 hsome
      | applying =>
          rw [hmain] at h
          exact absurd h.2.1 hsome
      | _ =>
          rw [hmain] at h
          exact absurd h hsome

/-- Whatever a pod is doing, what it left behind is in order. -/
theorem Loc.left (h : Loc migrations i d proc) : Left (migrations i) i d := by
  intro applied happlied
  rcases h.gone (by simp [happlied]) with ⟨exit, rfl⟩ | ⟨p, rfl, hmain⟩
  · exact h applied happlied
  · change MainLoc (migrations i) i d p.main at h
    rw [hmain] at h
    exact h applied happlied

/-- The COMMIT has landed, or was rolled back. -/
theorem Loc.settle (h : Loc migrations i d proc) (hnone : d'.orphan i = none)
    (hsame : d.orphan i = none → Rely i d d') : Loc migrations i d' proc := by
  by_cases hbefore : d.orphan i = none
  · exact h.stable (hsame hbefore)
  · rcases h.gone hbefore with ⟨exit, rfl⟩ | ⟨p, rfl, hmain⟩
    · exact Left.of_none hnone
    · change MainLoc (migrations i) i d' p.main
      rw [hmain]
      exact Left.of_none hnone

end

/-- A COMMIT of the holder: what it applies was not there. -/
theorem nodup_commit (hnodup : ms.Nodup) (hinv : d.applied.Nodup) :
    (d.applied ++ ms.filter (· ∉ d.applied)).Nodup := by
  apply hinv.append (hnodup.filter _)
  intro m hm hmem
  rw [List.mem_filter] at hmem
  exact absurd hm (by simpa using hmem.2)

/-- Nobody lets go of a lock that protects something. -/
def Guarded (s : St μ ρ) : Label ρ → Prop
  | .env (.ends i) => s.shared.lock = some i → ¬ Busy i s
  | .call i .main => ∀ p, s.proc i = .running p → p.main = .rejecting → s.shared.orphan i = none
  | _ => True

/-- A step keeps the invariant, tells its pod where it is and leaves the others alone. -/
theorem stmt_keeps (hnodup : (migrations i).Nodup) (hinv : d.applied.Nodup)
    (hloc : Loc migrations i d proc)
    (hguard : a = .main → ∀ p, proc = .running p → p.main = .rejecting → d.orphan i = none)
    (h : stmt migrations settings i d proc a = some (d', proc')) :
    d'.applied.Nodup ∧ Loc migrations i d' proc' ∧ ∀ j, j ≠ i → Rely j d d' := by
  have still : ∀ {proc' : Process μ ρ}, Loc migrations i d proc' →
      d.applied.Nodup ∧ Loc migrations i d proc' ∧ ∀ j, j ≠ i → Rely j d d :=
    fun hloc => ⟨hinv, hloc, fun j _ => Rely.refl j d⟩
  have left : ∀ {main : Main μ} {proc' : Process μ ρ}, MainLoc (migrations i) i d main →
      (Left (migrations i) i (d.leave i main) → Loc migrations i (d.leave i main) proc') →
      (d.leave i main).applied.Nodup ∧ Loc migrations i (d.leave i main) proc' ∧
        ∀ j, j ≠ i → Rely j d (d.leave i main) := by
    intro main proc' hmain hto
    refine ⟨by simpa using hinv, hto hmain.leave, fun j hj => Rely.leave hj⟩
  -- what the pod knows where it stands
  have at_main : ∀ {p : Pod μ ρ} {main : Main μ}, Loc migrations i d (.running p) →
      p.main = main → MainLoc (migrations i) i d main := by
    rintro p main hloc rfl
    exact hloc
  -- only a COMMIT writes the table, under the lock and with migrations that were not in it
  cases stmt_does h with
  | starts => exact still hloc
  | connects hmain | wakes hmain | retries hmain => exact still (at_main hloc hmain)
  | locks hmain hlock =>
      refine ⟨hinv, ⟨rfl, at_main hloc hmain⟩, ?_⟩
      intro j hj
      refine ⟨?_, rfl⟩
      intro hheld
      rw [hlock] at hheld
      cases hheld
  | reads hmain =>
      obtain ⟨hlock, hnone⟩ := at_main hloc hmain
      exact still ⟨hlock, hnone, rfl⟩
  | @applies p m pending applied hmain =>
      obtain ⟨hlock, hnone, hrest⟩ := at_main hloc hmain
      refine still ⟨hlock, hnone, ?_⟩
      rw [List.append_assoc]
      exact hrest
  | @commits p applied hmain =>
      obtain ⟨hlock, hnone, hrest⟩ := at_main hloc hmain
      rw [List.append_nil] at hrest
      refine ⟨?_, ⟨hlock, hnone⟩, ?_⟩
      · change (d.applied ++ applied).Nodup
        rw [hrest]
        exact nodup_commit hnodup hinv
      · intro j hj
        refine ⟨?_, rfl⟩
        intro hother
        rw [hlock] at hother
        exact absurd (Option.some.inj hother) hj.symm
  | unlocks hmain =>
      obtain ⟨-, hnone⟩ := at_main hloc hmain
      exact ⟨hinv, hnone, fun j hj => Rely.unlock hj⟩
  | keepsLock hmain => exact still (at_main hloc hmain).2
  | boots hmain | serves hmain => exact still (at_main hloc hmain)
  | @warms p wake hmain hwake =>
      have hnone := at_main hloc hmain
      apply still
      change MainLoc (migrations i) i d (if _ then _ else _)
      split <;> exact hnone
  -- an end, however it comes, leaves the lock or the transaction to the database
  | fails => exact left hloc id
  | @releases p hmain =>
      have hnone := hguard rfl p rfl hmain
      have hsame : (p.exit i 1 (d.unlock i)).1 = d.unlock i := by
        change (d.unlock i).leave i p.main = _
        rw [hmain]
        rfl
      rw [hsame]
      exact ⟨hinv, Left.of_none hnone, fun j hj => Rely.unlock hj⟩
  | rejects | stops | finishes | cuts | killed => exact left hloc id
  | drains | closes | accepts | hangsUp | takes | answers => exact still hloc

/-! ## Whole runs -/

variable {s₀ s t : St μ ρ} {acts more : List (Label ρ)} {act : Label ρ}

/-- No step of the cluster takes an applied migration back. -/
theorem prefix_step (hn : (machine migrations settings ρ).next s act = some t) :
    s.shared.applied <+: t.shared.applied := by
  cases act with
  | env e =>
      obtain ⟨d, hd, rfl⟩ := Procs.next_env hn
      exact env_prefix hd
  | call i a =>
      obtain ⟨d, proc, hst, rfl⟩ := Procs.next_call hn
      exact stmt_prefix hst

/-- Nothing that was applied is taken back, from any state on. -/
theorem prefix_run (hr : (machine migrations settings ρ).Run Machine.Always s more t) :
    s.shared.applied <+: t.shared.applied := by
  induction hr with
  | refl => exact List.prefix_rfl
  | step _ _ hn ih => exact ih.trans (prefix_step hn)

/-- Every step keeps what every pod has found. -/
theorem found_step (hn : (machine migrations settings ρ).next s act = some t)
    (h : ∀ i, ProcFound migrations i s.shared (s.proc i)) :
    ∀ i, ProcFound migrations i t.shared (t.proc i) := by
  have hle := (prefix_step hn).subset
  cases act with
  | env e =>
      obtain ⟨d, -, rfl⟩ := Procs.next_env hn
      exact fun i => (h i).mono hle
  | call i a =>
      obtain ⟨d, proc, hst, rfl⟩ := Procs.next_call hn
      apply Procs.forall_update (Q := fun j => ProcFound migrations j d)
      · exact stmt_found (h i) hst
      · exact fun j _ => (h j).mono hle

/-- A pod that serves finds its migrations in the database. -/
theorem found_reachable (h : (machine migrations settings ρ).Reachable s)
    (hproc : s.proc i = .running p) (hmain : p.main = .returned) :
    ∀ m ∈ migrations i, m ∈ s.shared.applied := by
  have hall : ∀ i, ProcFound migrations i s.shared (s.proc i) := by
    refine h.invariant (P := fun s => ∀ i, ProcFound migrations i s.shared (s.proc i)) ?_
      fun _ _ _ hn hs => found_step hn hs
    intro s hs i
    rw [hs.2 i]
    trivial
  have hi := hall i
  rw [hproc] at hi
  change Found (migrations i) s.shared p.main at hi
  rw [hmain] at hi
  exact hi

abbrev Kept (migrations : ℕ → List μ) (s : St μ ρ) : Prop :=
  Procs.Holds (fun d => d.applied.Nodup) (Loc migrations) s

/-- At the start nobody is under way and nothing is left behind. -/
theorem kept_init (h : (machine migrations settings ρ).Init s) : Kept migrations s := by
  refine ⟨h.1.2.1, ?_⟩
  intro i
  rw [h.2 i]
  exact h.1.2.2 i

section

omit [DecidableEq ρ]

/-- Whoever migrates, or has a COMMIT under way, has the lock. -/
theorem Kept.holder (h : Kept migrations s) (hbusy : Busy i s) : s.shared.lock = some i := by
  have hloc := h.2 i
  rcases hbusy with ⟨p, hproc, hmigrating⟩ | horphan
  · rw [hproc] at hloc
    change MainLoc (migrations i) i s.shared p.main at hloc
    cases hmain : p.main with
    | reading | applying | unlocking =>
        rw [hmain] at hloc
        exact hloc.1
    | _ =>
        rw [hmain] at hmigrating
        cases hmigrating
  · obtain ⟨applied, happlied⟩ := Option.isSome_iff_exists.mp horphan
    exact (hloc.left applied happlied).1

/-- A pod that is not at work knows nothing that needs the lock. -/
theorem loc_unlock (hidle : ¬ Busy i s) :
    Loc migrations i (s.shared.unlock i) (s.proc i) := by
  have hnone : s.shared.orphan i = none := by
    by_contra hne
    exact hidle (Or.inr (Option.isSome_iff_ne_none.mpr hne))
  cases hproc : s.proc i with
  | absent => exact hnone
  | exited => exact Left.of_none hnone
  | running p =>
      change MainLoc (migrations i) i _ p.main
      cases hmain : p.main with
      | reading | applying | unlocking =>
          refine absurd (Or.inl ⟨p, hproc, ?_⟩) hidle
          rw [hmain]
          trivial
      | rejecting => exact Left.of_none hnone
      | _ => exact hnone

/-- The database keeps what the pods know, if it does not take the lock from one at work. -/
theorem env_keeps (hkept : Kept migrations s) (hnodup : ∀ i, (migrations i).Nodup)
    (hguard : Guarded s (.env e)) (h : env s.shared e = some d) :
    d.applied.Nodup ∧ ∀ j, Loc migrations j d (s.proc j) := by
  cases e with
  | tick dt =>
      cases h
      exact ⟨hkept.1, fun j => (hkept.2 j).stable ⟨fun hlock => ⟨hlock, rfl⟩, rfl⟩⟩
  | ends i =>
      cases h
      refine ⟨hkept.1, ?_⟩
      intro j
      by_cases hlock : s.shared.lock = some i
      · by_cases hj : j = i
        · subst hj
          exact loc_unlock (hguard hlock)
        · exact (hkept.2 j).stable (Rely.unlock hj)
      · -- it did not have the lock
        have hsame : (s.shared.unlock i).lock = s.shared.lock := if_neg hlock
        exact (hkept.2 j).stable ⟨fun hheld => ⟨hsame.trans hheld, rfl⟩, rfl⟩
  -- a COMMIT whose client is gone still lands, and its session has kept the lock until now
  | lands i =>
      simp only [env, Option.map_eq_some_iff] at h
      obtain ⟨applied, happlied, rfl⟩ := h
      obtain ⟨hlock, hrest⟩ := (hkept.2 i).left applied happlied
      refine ⟨?_, ?_⟩
      · change (s.shared.applied ++ applied).Nodup
        rw [hrest]
        exact nodup_commit (hnodup i) hkept.1
      · intro j
        by_cases hj : j = i
        · subst hj
          refine (hkept.2 j).settle (Function.update_self _ _ _) ?_
          intro hnone
          rw [happlied] at hnone
          cases hnone
        · refine (hkept.2 j).stable ⟨?_, Function.update_of_ne hj _ _⟩
          intro hother
          rw [hlock] at hother
          exact absurd (Option.some.inj hother).symm hj
  | drops i =>
      cases h
      refine ⟨hkept.1, ?_⟩
      intro j
      by_cases hj : j = i
      · subst hj
        refine (hkept.2 j).settle (Function.update_self _ _ _) ?_
        intro hnone
        exact ⟨fun hlock => ⟨hlock, rfl⟩, (Function.update_self _ _ _).trans hnone.symm⟩
      · have hrely : Rely j s.shared
            { s.shared with orphan := Function.update s.shared.orphan i none } :=
          ⟨fun hlock => ⟨hlock, rfl⟩, Function.update_of_ne hj _ _⟩
        exact (hkept.2 j).stable hrely

end

/-- Every guarded step keeps the table free of repetitions, and every pod's knowledge true. -/
theorem kept_step (hnodup : ∀ i, (migrations i).Nodup) (hguard : Guarded s act)
    (hn : (machine migrations settings ρ).next s act = some t) (h : Kept migrations s) :
    Kept migrations t := by
  refine Procs.noninterference_step (P := procs migrations settings ρ) Guarded
    (fun d => d.applied.Nodup) (Loc migrations) ?_ ?_ hguard hn h
  · intro s i a d proc hok hs hst
    obtain ⟨hinv, hloc, hrely⟩ := stmt_keeps (hnodup i) hs.1 (hs.2 i)
      (by rintro rfl; exact hok) hst
    exact ⟨hinv, hloc, fun j hj => (hs.2 j).stable (hrely j hj)⟩
  · intro s e d hok hs hd
    exact env_keeps hs hnodup hok hd

theorem kept_run (hnodup : ∀ i, (migrations i).Nodup)
    (hinit : (machine migrations settings ρ).Init s₀)
    (hr : (machine migrations settings ρ).Run Guarded s₀ acts s) : Kept migrations s :=
  hr.invariant (fun _ _ _ hok hn h => kept_step hnodup hok hn h) (kept_init hinit)

/-- One step of the whole system adds migrations of one pod, those not yet applied, or none. -/
theorem applied_step (h : Kept migrations s)
    (hn : (machine migrations settings ρ).next s act = some t) :
    t.shared.applied = s.shared.applied ∨
      ∃ i, t.shared.applied =
        s.shared.applied ++ (migrations i).filter (· ∉ s.shared.applied) := by
  cases act with
  | env e =>
      obtain ⟨d, hd, rfl⟩ := Procs.next_env hn
      cases e with
      | tick dt | ends i | drops i =>
          cases hd
          exact Or.inl rfl
      | lands i =>
          change env s.shared (.lands i) = some d at hd
          simp only [env, Option.map_eq_some_iff] at hd
          obtain ⟨applied, happlied, rfl⟩ := hd
          exact Or.inr ⟨i, congrArg _ ((h.2 i).left applied happlied).2⟩
  | call i a =>
      obtain ⟨d, proc, hst, rfl⟩ := Procs.next_call hn
      rcases stmt_applied hst with heq | ⟨p, applied, hproc, hmain, heq⟩
      · exact Or.inl heq
      · have hloc := h.2 i
        rw [hproc] at hloc
        change MainLoc (migrations i) i s.shared p.main at hloc
        rw [hmain] at hloc
        refine Or.inr ⟨i, heq.trans (congrArg _ ?_)⟩
        rw [← hloc.2.2, List.append_nil]

/-- What a prefix of a list lacks of another one comes next in that list. -/
theorem prefix_append_missing {applied ms master : List μ} (hnodup : master.Nodup)
    (happlied : applied <+: master) (hms : ms <+: master) :
    applied ++ ms.filter (· ∉ applied) <+: master := by
  rcases List.prefix_or_prefix_of_prefix happlied hms with ⟨rest, rfl⟩ | hle
  · -- the rest of the longer list is new
    have hdisjoint := (List.nodup_append.mp (hms.sublist.nodup hnodup)).2.2
    have hnew : (applied ++ rest).filter (· ∉ applied) = rest := by
      rw [List.filter_append]
      have hnone : applied.filter (· ∉ applied) = [] := by simp
      have hall : rest.filter (· ∉ applied) = rest := by
        rw [List.filter_eq_self]
        intro m hm
        have hno : m ∉ applied := fun hin => hdisjoint m hin m hm rfl
        simpa using hno
      rw [hnone, hall, List.nil_append]
    rw [hnew]
    exact hms
  · have hnone : ms.filter (· ∉ applied) = [] := by
      rw [List.filter_eq_nil_iff]
      intro m hm
      have hin : m ∈ applied := hle.subset hm
      simpa using hin
    rw [hnone, List.append_nil]
    exact happlied

/-- Pods whose lists extend one another apply one list in its order. -/
theorem applied_prefix {master : List μ} (hnodup : ∀ i, (migrations i).Nodup)
    (hinit : (machine migrations settings ρ).Init s₀)
    (hr : (machine migrations settings ρ).Run Guarded s₀ acts s) (hmaster : master.Nodup)
    (hstart : s₀.shared.applied <+: master) (hlists : ∀ i, migrations i <+: master) :
    s.shared.applied <+: master := by
  induction hr with
  | refl => exact hstart
  | step hr _ hn ih =>
      rcases applied_step (kept_run hnodup hinit hr) hn with heq | ⟨i, heq⟩
      · rw [heq]
        exact ih
      · rw [heq]
        exact prefix_append_missing hmaster ih (hlists i)

/-- Migrations over any number of pods of any revisions. In every run in which the lock is not
let go while its pod is at work, no migration is applied twice, one pod at most is at work, and
what has been applied is a prefix of the list that the pods' lists are prefixes of. In every
run, also one in which the lock is lost, a pod that serves has found all its migrations, and
what has been applied in any state stays applied, in its place, whatever comes later. -/
theorem migrated_once (hnodup : ∀ i, (migrations i).Nodup)
    (hinit : (machine migrations settings ρ).Init s₀)
    (hr : (machine migrations settings ρ).Run Machine.Always s₀ acts s) :
    ((machine migrations settings ρ).Run Guarded s₀ acts s →
      s.shared.applied.Nodup ∧ (∀ i j, Busy i s → Busy j s → i = j) ∧
        ∀ master : List μ, master.Nodup → s₀.shared.applied <+: master →
          (∀ i, migrations i <+: master) → s.shared.applied <+: master) ∧
      (∀ i p, s.proc i = .running p → p.main = .returned →
        ∀ m ∈ migrations i, m ∈ s.shared.applied) ∧
      ∀ more t, (machine migrations settings ρ).Run Machine.Always s more t →
        s.shared.applied <+: t.shared.applied := by
  refine ⟨?_, ?_, fun more t hmore => prefix_run hmore⟩
  · intro hguarded
    have hkept := kept_run hnodup hinit hguarded
    refine ⟨hkept.1, ?_, fun master => applied_prefix hnodup hinit hguarded⟩
    intro i j hi hj
    have hsame := (hkept.holder hi).symm.trans (hkept.holder hj)
    exact Option.some.inj hsame
  · intro i p hproc hreturned
    exact found_reachable ⟨s₀, acts, hinit, hr⟩ hproc hreturned

/-! ## A rollout -/

/-- A pod of the old revision, and pods of a new one with one migration more. -/
def rolled (i : ℕ) : List ℕ := if i = 0 then [1] else [1, 2]

theorem rolled_nodup (i : ℕ) : (rolled i).Nodup := by
  unfold rolled
  split <;> decide

/-- Each release of the concrete rollout has a first part of the migrations. -/
theorem rolled_prefix (i : ℕ) : rolled i <+: [1, 2] := by
  unfold rolled
  split
  · exact ⟨[2], rfl⟩
  · exact List.prefix_rfl

def noPods : St ℕ Unit := ⟨⟨none, [], fun _ => none, 0⟩, fun _ => .absent⟩

/-- As in the test of the settings: 4 s, 5 s and 10 s. -/
def defaults (_ : ℕ) : LifecycleSettings := ⟨4000, 5000, 10000⟩

/-- The concrete start is a proper one: no pod, no lock, nothing applied. -/
theorem noPods_init {settings : ℕ → LifecycleSettings} :
    (machine rolled settings Unit).Init noPods := by
  refine ⟨⟨rfl, List.nodup_nil, fun i => rfl⟩, ?_⟩
  intro i
  rfl

/-- Both start at once. Pod 0 is killed at its COMMIT, which lands before its session ends; then
pod 1 comes to the lock. -/
def bothMigrate : List (Label Unit) :=
  [.call 0 .start, .call 1 .start, .call 0 .main, .call 1 .main] ++
    List.replicate 3 (.call 0 .main) ++ [.call 0 .kill, .env (.lands 0), .env (.ends 0)] ++
    List.replicate 4 (.call 1 .main)

/-- The steps of this run: a session ends when its pod is gone and nothing is under way. -/
def settled (s : St ℕ Unit) : Label Unit → Bool
  | .env (.ends i) =>
      match s.proc i with
      | .exited _ => (s.shared.orphan i).isNone
      | _ => false
  | .call i .main =>
      match s.proc i with
      | .running p => p.main ≠ .rejecting
      | _ => true
  | _ => true

/-- What the concrete run checks is the condition of the theorem. -/
theorem settled_guarded (s : St ℕ Unit) (a : Label Unit) (h : settled s a = true) :
    Guarded s a := by
  cases a with
  | env e =>
      cases e with
      | ends i =>
          intro _
          simp only [settled] at h
          split at h
          · next exit hproc =>
              rintro (⟨p, hrunning, -⟩ | horphan)
              · rw [hproc] at hrunning
                cases hrunning
              · rw [Option.isNone_iff_eq_none] at h
                rw [h] at horphan
                cases horphan
          · cases h
      | _ => trivial
  | call i a =>
      cases a with
      | main =>
          intro p hproc hmain
          simp only [settled, hproc] at h
          exact absurd hmain (by simpa using h)
      | _ => trivial

/-- Two pods of two releases start at once, and each migration is applied once, in order. -/
theorem migrated_once_rollout : ∃ s : St ℕ Unit,
    (machine rolled defaults Unit).exec settled noPods bothMigrate = some s ∧
      s.shared.applied = [1, 2] ∧ s.shared.applied.Nodup ∧ s.shared.applied <+: [1, 2] := by
  have hrun : ∃ s : St ℕ Unit,
      (machine rolled defaults Unit).exec settled noPods bothMigrate = some s ∧
        s.shared.applied = [1, 2] := ⟨_, rfl, rfl⟩
  obtain ⟨s, hexec, happlied⟩ := hrun
  have hr := Machine.exec_run settled_guarded hexec
  obtain ⟨honce, -, hmaster⟩ := (migrated_once rolled_nodup noPods_init hr.always).1 hr
  exact ⟨s, hexec, happlied, honce,
    hmaster [1, 2] (by decide) List.nil_prefix rolled_prefix⟩

end Marketplace.K8s

import Mathlib.Data.List.Basic

/-!
# Core.Machine — labelled machines and their runs

A machine is a partial step function: `next s a` is the state after the action
`a`, and `none` says that `a` cannot be taken in `s` (a statement that waits for
a lock, a step of a call that is somewhere else). Every order of actions is a
run, so "for every interleaving" is "for every run".

* `Run ok s as t`: the actions `as` lead from `s` to `t`, and each of them meets
  the condition `ok` in the state it is taken in;
* `Run.invariant`, `Reachable.invariant`: the induction behind every safety
  statement, done once;
* `exec`: the same runs, executed;
* `Run.simulates`: a step-by-step map of one machine into the runs of another.
-/

namespace Core

universe u v

/-- A labelled machine with a deterministic, partial step. All choice is in the
label. -/
structure Machine (σ : Type u) (α : Type v) where
  Init : σ → Prop
  next : σ → α → Option σ

namespace Machine

variable {σ : Type u} {α : Type v} (M : Machine σ α)

/-- The trivial condition on steps. -/
def Always (_s : σ) (_a : α) : Prop := True

/-- The actions `as` lead from `s` to `t`, and each step meets `ok` in the state
before it. -/
inductive Run (ok : σ → α → Prop) (s : σ) : List α → σ → Prop where
  | refl : Run ok s [] s
  | step {as : List α} {t u : σ} {a : α} :
      Run ok s as t → ok t a → M.next t a = some u → Run ok s (as ++ [a]) u

/-- States some run reaches from an initial state. -/
def Reachable (t : σ) : Prop := ∃ s as, M.Init s ∧ M.Run Always s as t

variable {M}
variable {ok ok' : σ → α → Prop} {s t u : σ} {as bs : List α} {a : α}

theorem Run.single (hok : ok s a) (h : M.next s a = some t) : M.Run ok s [a] t := by
  have h0 : M.Run ok s [] s := Run.refl
  simpa using Run.step h0 hok h

/-- One step, no condition. -/
theorem Run.once (h : M.next s a = some t) : M.Run Always s [a] t := Run.single trivial h

/-- Runs compose: a run that starts where another ends continues it. -/
theorem Run.trans (h₁ : M.Run ok s as t) (h₂ : M.Run ok t bs u) :
    M.Run ok s (as ++ bs) u := by
  induction h₂ with
  | refl => simpa using h₁
  | step _ hok hn ih =>
      rw [← List.append_assoc]
      exact Run.step ih hok hn

theorem Run.cons (hok : ok s a) (hn : M.next s a = some t) (h : M.Run ok t as u) :
    M.Run ok s (a :: as) u :=
  Run.trans (Run.single hok hn) h

/-- A run under a condition is a run under any weaker condition. -/
theorem Run.mono (hmono : ∀ s a, ok s a → ok' s a) (h : M.Run ok s as t) :
    M.Run ok' s as t := by
  induction h with
  | refl => exact Run.refl
  | step _ hok hn ih => exact Run.step ih (hmono _ _ hok) hn

theorem Run.always (h : M.Run ok s as t) : M.Run Always s as t :=
  h.mono fun _ _ _ => trivial

/-- Invariant induction along a run whose steps all meet `ok`. -/
theorem Run.invariant {P : σ → Prop}
    (hstep : ∀ t a u, ok t a → M.next t a = some u → P t → P u)
    (h : M.Run ok s as t) (hs : P s) : P t := by
  induction h with
  | refl => exact hs
  | step _ hok hn ih => exact hstep _ _ _ hok hn ih

/-- What holds along a run may be used to show that its steps meet another condition. -/
theorem Run.strengthen {P : σ → Prop}
    (hstep : ∀ t a u, ok t a → M.next t a = some u → P t → P u)
    (hok : ∀ t a, P t → ok t a → ok' t a) (h : M.Run ok s as t) (hs : P s) :
    M.Run ok' s as t := by
  induction h with
  | refl => exact Run.refl
  | step hr hstepok hn ih => exact Run.step ih (hok _ _ (hr.invariant hstep hs) hstepok) hn

/-- The last step of a run. -/
theorem Run.of_concat (h : M.Run ok s (as ++ [a]) u) :
    ∃ t, M.Run ok s as t ∧ ok t a ∧ M.next t a = some u := by
  generalize hbs : as ++ [a] = bs at h
  cases h with
  | refl => exact absurd hbs (by simp)
  | step hr hok hn =>
      obtain ⟨rfl, hlast⟩ := List.append_inj' hbs rfl
      obtain rfl := List.singleton_inj.mp hlast
      exact ⟨_, hr, hok, hn⟩

/-- The actions determine where a run leads. -/
theorem Run.unique (h : M.Run ok s as t) (h' : M.Run ok' s as u) : t = u := by
  induction h generalizing u with
  | refl =>
      generalize hbs : ([] : List α) = bs at h'
      cases h' with
      | refl => rfl
      | step _ _ _ => exact absurd hbs (by simp)
  | step _ _ hn ih =>
      obtain ⟨t', hr', -, hn'⟩ := h'.of_concat
      obtain rfl := ih hr'
      exact Option.some.inj (hn.symm.trans hn')

/-- Whether a run meets a condition is decided step by step. -/
theorem Run.concat_iff (hr : M.Run ok s as t) (hn : M.next t a = some u) :
    M.Run ok' s (as ++ [a]) u ↔ M.Run ok' s as t ∧ ok' t a := by
  constructor
  · intro h
    obtain ⟨t', hr', hok, -⟩ := h.of_concat
    obtain rfl := hr.unique hr'
    exact ⟨hr', hok⟩
  · rintro ⟨hr', hok⟩
    exact hr'.step hok hn

theorem Reachable.init (h : M.Init s) : M.Reachable s := ⟨s, [], h, Run.refl⟩

theorem Reachable.run (hs : M.Reachable s) (h : M.Run ok s as t) : M.Reachable t := by
  obtain ⟨s₀, bs, hi, hr⟩ := hs
  exact ⟨s₀, bs ++ as, hi, hr.trans h.always⟩

theorem Reachable.next (hs : M.Reachable s) (h : M.next s a = some t) : M.Reachable t :=
  hs.run (Run.once h)

/-- Inductive invariance. -/
theorem Reachable.invariant {P : σ → Prop} (hinit : ∀ s, M.Init s → P s)
    (hstep : ∀ t a u, M.next t a = some u → P t → P u) (h : M.Reachable t) : P t := by
  obtain ⟨s, as, hi, hr⟩ := h
  exact hr.invariant (fun t a u _ => hstep t a u) (hinit s hi)

/-- Inductive invariance on top of facts already known of every reachable state. -/
theorem Reachable.invariant_of {P : σ → Prop} (hinit : ∀ s, M.Init s → P s)
    (hstep : ∀ t a u, M.Reachable t → M.next t a = some u → P t → P u)
    (h : M.Reachable t) : P t := by
  have hboth : M.Reachable t ∧ P t := by
    refine Reachable.invariant (P := fun s => M.Reachable s ∧ P s) ?_ ?_ h
    · intro s hs
      exact ⟨Reachable.init hs, hinit s hs⟩
    · intro t a u hn hP
      exact ⟨hP.1.next hn, hstep t a u hP.1 hn hP.2⟩
  exact hboth.2

/-- Invariant induction along a run whose steps all meet `ok`, on top of facts already
known of every reachable state. -/
theorem Run.invariant_of {P : σ → Prop} (hinit : M.Init s)
    (hstep : ∀ t a u, M.Reachable t → ok t a → M.next t a = some u → P t → P u)
    (h : M.Run ok s as t) (hs : P s) : P t := by
  induction h with
  | refl => exact hs
  | step hr hok hn ih => exact hstep _ _ _ ⟨s, _, hinit, hr.always⟩ hok hn ih

/-! ## Execution -/

variable (M)

/-- Take the actions in order, each only if it passes `check`; `none` if one of them
cannot be taken. -/
def exec (check : σ → α → Bool) : σ → List α → Option σ
  | s, [] => some s
  | s, a :: as => if check s a then (M.next s a).bind fun t => exec check t as else none

variable {M}

/-- What `exec` computes is a run, so a concrete run can be found by evaluation and then used in a
theorem. -/
theorem exec_run {check : σ → α → Bool} (hcheck : ∀ s a, check s a = true → ok s a)
    (h : M.exec check s as = some t) : M.Run ok s as t := by
  induction as generalizing s with
  | nil =>
      have hst : s = t := by simpa [exec] using h
      exact hst ▸ Run.refl
  | cons a as ih =>
      rw [exec] at h
      split at h
      · next hc =>
          rw [Option.bind_eq_some_iff] at h
          obtain ⟨r, hr, hrest⟩ := h
          exact Run.cons (hcheck s a hc) hr (ih hrest)
      · cases h

theorem exec_always (h : M.exec (fun _ _ => true) s as = some t) : M.Run Always s as t :=
  exec_run (fun _ _ _ => trivial) h

/-! ## States on the way -/

/-- The run from `s` to `t` goes through `u`. -/
def Through (M : Machine σ α) (ok : σ → α → Prop) (s : σ) (as : List α) (t u : σ) : Prop :=
  ∃ bs cs, as = bs ++ cs ∧ M.Run ok s bs u ∧ M.Run ok u cs t

theorem Through.here (h : M.Run ok s as t) : M.Through ok s as t t :=
  ⟨as, [], (List.append_nil as).symm, h, Run.refl⟩

theorem Through.step {v : σ} (h : M.Through ok s as t u) (hok : ok t a)
    (hn : M.next t a = some v) : M.Through ok s (as ++ [a]) v u := by
  obtain ⟨bs, cs, rfl, hbefore, hafter⟩ := h
  exact ⟨bs, cs ++ [a], List.append_assoc bs cs [a], hbefore, hafter.step hok hn⟩

/-- What holds in the end and did not hold at first has been brought about by some step, and
the rest of the run starts behind that step. -/
theorem Run.entered {P : σ → Prop} (h : M.Run ok s as t) (hs : ¬ P s) (ht : P t) :
    ∃ bs a cs u v, as = bs ++ a :: cs ∧ M.Run ok s bs u ∧ ¬ P u ∧ M.next u a = some v ∧ P v ∧
      M.Run ok v cs t := by
  induction h with
  | refl => exact absurd ht hs
  | @step as t u a hr hok hn ih =>
      by_cases hP : P t
      · obtain ⟨bs, b, cs, v, w, rfl, hbefore, hv, hnext, hw, hafter⟩ := ih hP
        refine ⟨bs, b, cs ++ [a], v, w, ?_, hbefore, hv, hnext, hw, hafter.step hok hn⟩
        rw [List.append_assoc, List.cons_append]
      · exact ⟨as, a, [], t, u, rfl, hr, hP, hn, ht, Run.refl⟩

/-! ## Simulation -/

/-- If, on states that keep `inv`, every step of `M` is matched by a run of `N`
between the images, whole runs are. -/
theorem Run.simulates {τ : Type u} {β : Type v} {N : Machine τ β} (f : σ → τ)
    {inv : σ → Prop}
    (hinv : ∀ t a u, ok t a → M.next t a = some u → inv t → inv u)
    (hsim : ∀ t a u, ok t a → M.next t a = some u → inv t →
      ∃ bs, N.Run Always (f t) bs (f u))
    (h : M.Run ok s as t) (hs : inv s) : ∃ bs, N.Run Always (f s) bs (f t) := by
  induction h with
  | refl => exact ⟨[], Run.refl⟩
  | step hr hok hn ih =>
      obtain ⟨bs, hbs⟩ := ih
      obtain ⟨cs, hcs⟩ := hsim _ _ _ hok hn (hr.invariant hinv hs)
      exact ⟨bs ++ cs, hbs.trans hcs⟩

end Machine

end Core

import Marketplace.Core.Machine
import Mathlib.Logic.Function.Basic

/-!
# Core.Procs — sequential calls interleaved over shared state

A family of calls, each at its own program point, over one shared state. One
action of call `i` runs its next statement: it reads and writes the shared state
and its own program point and nothing else. An environment action changes the
shared state only. All interleavings are the runs of `Procs.machine`.

`noninterference` is the proof rule: an invariant of the shared state and a local
fact for each call are kept by every run, if each statement keeps the invariant,
establishes its call's next local fact and disturbs nobody else's.
`rely_guarantee` is the same rule with the disturbance summed up in a relation
`Rely j` that the local facts of call `j` survive.
-/

namespace Core

universe u v w x y

/-- The shared state and the program point of every call. -/
structure World (ι : Type u) (δ : Type v) (π : Type w) where
  shared : δ
  proc : ι → π

/-- A statement of a call, or a step of the environment. -/
inductive Act (ι : Type u) (α : Type x) (ε : Type y) where
  | call (i : ι) (a : α)
  | env (e : ε)

/-- What a statement of a call does, and what the environment does. -/
structure Procs (ι : Type u) (δ : Type v) (π : Type w) (α : Type x) (ε : Type y) where
  Init : δ → Prop
  idle : π
  stmt : ι → δ → π → α → Option (δ × π)
  env : δ → ε → Option δ

namespace Procs

variable {ι : Type u} {δ : Type v} {π : Type w} {α : Type x} {ε : Type y} [DecidableEq ι]

def next (P : Procs ι δ π α ε) (s : World ι δ π) : Act ι α ε → Option (World ι δ π)
  | .call i a =>
      (P.stmt i s.shared (s.proc i) a).map fun r => ⟨r.1, Function.update s.proc i r.2⟩
  | .env e => (P.env s.shared e).map fun d => ⟨d, s.proc⟩

/-- All interleavings of the calls and the environment. -/
def machine (P : Procs ι δ π α ε) : Machine (World ι δ π) (Act ι α ε) where
  Init s := P.Init s.shared ∧ ∀ i, s.proc i = P.idle
  next := P.next

variable {P : Procs ι δ π α ε} {s t : World ι δ π} {i : ι} {a : α} {e : ε}

/-- A call's step is its statement on the shared state, and only its own program point moves. -/
theorem next_call (h : P.machine.next s (.call i a) = some t) :
    ∃ d p, P.stmt i s.shared (s.proc i) a = some (d, p) ∧
      t = ⟨d, Function.update s.proc i p⟩ := by
  simp only [machine, next, Option.map_eq_some_iff] at h
  obtain ⟨⟨d, p⟩, hst, ht⟩ := h
  exact ⟨d, p, hst, ht.symm⟩

/-- Where the statement can run, so can the machine's step. -/
theorem next_of_stmt {d : δ} {p : π} (h : P.stmt i s.shared (s.proc i) a = some (d, p)) :
    P.machine.next s (.call i a) = some ⟨d, Function.update s.proc i p⟩ := by
  change (P.stmt i s.shared (s.proc i) a).map _ = _
  rw [h]
  rfl

/-- The statement of a call that is known to be at `p₀`. -/
theorem next_at {d : δ} {p₀ p : π} (hp : s.proc i = p₀)
    (h : P.stmt i s.shared p₀ a = some (d, p)) :
    P.machine.next s (.call i a) = some ⟨d, Function.update s.proc i p⟩ :=
  next_of_stmt (hp ▸ h)

/-- Where the environment can move, so can the machine, and no call moves with it. -/
theorem next_of_env {d : δ} (h : P.env s.shared e = some d) :
    P.machine.next s (.env e) = some ⟨d, s.proc⟩ := by
  change (P.env s.shared e).map _ = _
  rw [h]
  rfl

/-- A step of the environment moves no call. -/
theorem next_env (h : P.machine.next s (.env e) = some t) :
    ∃ d, P.env s.shared e = some d ∧ t = ⟨d, s.proc⟩ := by
  simp only [machine, next, Option.map_eq_some_iff] at h
  obtain ⟨d, hd, ht⟩ := h
  exact ⟨d, hd, ht.symm⟩

/-- One statement of call `i`: a fact about every call survives, if the new point
of `i` satisfies it and the other points keep it. -/
theorem forall_update {Q : ι → π → Prop} {p : π} (hi : Q i p)
    (hother : ∀ j, j ≠ i → Q j (s.proc j)) :
    ∀ j, Q j (Function.update s.proc i p j) := by
  intro j
  by_cases hj : j = i
  · subst hj
    simpa using hi
  · simpa [hj] using hother j hj

/-- A call that takes no step stays where it is. -/
theorem Run.proc_eq {ok : World ι δ π → Act ι α ε → Prop} {as : List (Act ι α ε)} {j : ι}
    (hr : P.machine.Run ok s as t) (hj : ∀ a, Act.call j a ∉ as) : t.proc j = s.proc j := by
  induction hr with
  | refl => rfl
  | @step as t u act hr _ hn ih =>
      have hprev : t.proc j = s.proc j := by
        apply ih
        intro a ha
        exact hj a (List.mem_append_left _ ha)
      cases act with
      | call i a =>
          obtain ⟨d, p, -, rfl⟩ := next_call hn
          have hne : j ≠ i := by
            rintro rfl
            exact hj a (List.mem_append_right _ (List.mem_singleton.mpr rfl))
          change Function.update t.proc i p j = s.proc j
          rw [Function.update_of_ne hne, hprev]
      | env e =>
          obtain ⟨d, -, rfl⟩ := next_env hn
          exact hprev

/-- A call that can take no step any more stays where it is. -/
theorem Run.proc_final {ok : World ι δ π → Act ι α ε → Prop} {as : List (Act ι α ε)} {j : ι}
    (hr : P.machine.Run ok s as t) (hj : ∀ d a, P.stmt j d (s.proc j) a = none) :
    t.proc j = s.proc j := by
  induction hr with
  | refl => rfl
  | @step as t u act hr _ hn ih =>
      cases act with
      | call i a =>
          obtain ⟨d, p, hst, rfl⟩ := next_call hn
          have hne : j ≠ i := by
            rintro rfl
            rw [ih, hj] at hst
            cases hst
          change Function.update t.proc i p j = s.proc j
          rw [Function.update_of_ne hne, ih]
      | env e =>
          obtain ⟨d, -, rfl⟩ := next_env hn
          exact ih

section Rules

variable (ok : World ι δ π → Act ι α ε → Prop) (Inv : δ → Prop) (Loc : ι → δ → π → Prop)
  (Rely : ι → δ → δ → Prop)

/-- The invariant together with every call's local fact. -/
def Holds (s : World ι δ π) : Prop := Inv s.shared ∧ ∀ i, Loc i s.shared (s.proc i)

/-- Non-interference, one step: each statement keeps the invariant, establishes
its call's next local fact and does not disturb the fact of any other call. -/
theorem noninterference_step {act : Act ι α ε}
    (hstmt : ∀ s i a d p, ok s (.call i a) → Holds Inv Loc s →
      P.stmt i s.shared (s.proc i) a = some (d, p) →
      Inv d ∧ Loc i d p ∧ ∀ j, j ≠ i → Loc j d (s.proc j))
    (henv : ∀ s e d, ok s (.env e) → Holds Inv Loc s → P.env s.shared e = some d →
      Inv d ∧ ∀ j, Loc j d (s.proc j))
    (hok : ok s act) (hn : P.machine.next s act = some t) (h : Holds Inv Loc s) :
    Holds Inv Loc t := by
  cases act with
  | call i a =>
      obtain ⟨d, p, hst, rfl⟩ := next_call hn
      obtain ⟨hinv, hloc, hothers⟩ := hstmt s i a d p hok h hst
      exact ⟨hinv, forall_update (Q := fun j => Loc j d) hloc hothers⟩
  | env e =>
      obtain ⟨d, hd, rfl⟩ := next_env hn
      exact henv s e d hok h hd

/-- Non-interference, whole runs. -/
theorem noninterference {as : List (Act ι α ε)}
    (hstmt : ∀ s i a d p, ok s (.call i a) → Holds Inv Loc s →
      P.stmt i s.shared (s.proc i) a = some (d, p) →
      Inv d ∧ Loc i d p ∧ ∀ j, j ≠ i → Loc j d (s.proc j))
    (henv : ∀ s e d, ok s (.env e) → Holds Inv Loc s → P.env s.shared e = some d →
      Inv d ∧ ∀ j, Loc j d (s.proc j))
    (hr : P.machine.Run ok s as t) (h : Holds Inv Loc s) : Holds Inv Loc t :=
  hr.invariant (P := Holds Inv Loc)
    (fun _ _ _ hok hn hp => noninterference_step ok Inv Loc hstmt henv hok hn hp) h

/-- Rely–guarantee: what a statement may do to the others is summed up in `Rely`,
and the local facts survive that. -/
theorem rely_guarantee {as : List (Act ι α ε)}
    (hstmt : ∀ s i a d p, ok s (.call i a) → Holds Inv Loc s →
      P.stmt i s.shared (s.proc i) a = some (d, p) →
      Inv d ∧ Loc i d p ∧ ∀ j, j ≠ i → Rely j s.shared d)
    (henv : ∀ s e d, ok s (.env e) → Holds Inv Loc s → P.env s.shared e = some d →
      Inv d ∧ ∀ j, Rely j s.shared d)
    (hstable : ∀ j d d' p, Inv d → Inv d' → Rely j d d' → Loc j d p → Loc j d' p)
    (hr : P.machine.Run ok s as t) (h : Holds Inv Loc s) : Holds Inv Loc t := by
  refine noninterference ok Inv Loc ?_ ?_ hr h
  · intro s i a d p hok hs hst
    obtain ⟨hinv, hloc, hrely⟩ := hstmt s i a d p hok hs hst
    refine ⟨hinv, hloc, ?_⟩
    intro j hj
    exact hstable j s.shared d (s.proc j) hs.1 hinv (hrely j hj) (hs.2 j)
  · intro s e d hok hs hd
    obtain ⟨hinv, hrely⟩ := henv s e d hok hs hd
    exact ⟨hinv, fun j => hstable j s.shared d (s.proc j) hs.1 hinv (hrely j) (hs.2 j)⟩

end Rules

end Procs

end Core

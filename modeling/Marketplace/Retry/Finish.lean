import Marketplace.Retry.Debit
import Mathlib.Algebra.Order.BigOperators.Group.Finset
import Mathlib.Data.Fintype.Card
import Mathlib.Tactic.NormNum

/-!
# Retry.Finish — nobody gives up

Runs of `Retry.Debit` in which no statement fails by itself. A conflict is somebody else's
COMMIT since the snapshot, and every call commits once: so a call fails less often than there
are calls, and with no more calls than attempts every one of them returns (`debits_finish`).
The version of the row is what carries this: the snapshots of a call's attempts show versions
that grow, so the failures so far are no more than the version it has seen (`Steady`).
-/

namespace Marketplace.Retry

open Core Orders

variable {ι ε : Type} [DecidableEq ι] {driver : Driver ε}

/-- No statement fails but by a conflict. -/
def NoFailure (_ : St ι ε) : Act ι (Stmt ε) Empty → Prop
  | .call _ a => a = .run
  | .env _ => True

section

variable [Fintype ι] {i j : ι} {d d' : Db ι} {pc pc' : Pc ε} {failures : List ε}
  {σ : Snapshot AccountId User} {current : ℤ}

/-- A call has failed no more often than the row was written when it last looked. -/
def Steady (d : Db ι) : Pc ε → Prop
  | .call failures | .select failures => failures.length ≤ d.users.version accountId
  | .update failures σ current =>
      failures.length ≤ σ.version accountId ∧
        current = initialBalance - delta * σ.version accountId
  | .commit failures σ _ => failures.length ≤ σ.version accountId
  | .returned failures => failures.length < Fintype.card ι
  | .thrown _ _ => False

section

omit [DecidableEq ι]

/-- A call that is on its way stays so while others move. -/
theorem Steady.stable (hrely : Rely j d d') (h : Steady d pc) : Steady d' pc := by
  cases pc with
  | call failures | select failures => exact Nat.le_trans h hrely.version
  | update | commit | returned | thrown => exact h

/-- A call that has not committed is missing among those that have. -/
theorem Inv.room (hinv : Inv d) (hno : i ∉ d.commits) :
    d.users.version accountId < Fintype.card ι := by
  have hnodup : (i :: d.commits).Nodup := List.nodup_cons.mpr ⟨hno, hinv.once⟩
  have hlen := hnodup.length_le_card
  rw [List.length_cons] at hlen
  rw [hinv.version]
  omega

end

/-- A conflict with attempts left is retried. -/
theorem caught_conflict (h : (failures.length : ℤ) + 1 < debitOptions.attempts) :
    caught driver failures driver.conflict = .call (failures ++ [driver.conflict]) := by
  have hcode : retryCode driver.pgLike debitOptions (failures.length + 1) driver.conflict =
      some "40001" := by
    rw [retryCode_some_iff]
    exact ⟨driver.conflict_code, by decide, by push_cast; exact h⟩
  rw [caught, hcode]

/-- How far a call has got. -/
def Pc.rank : Pc ε → ℕ
  | .call failures => 4 * failures.length
  | .select failures => 4 * failures.length + 1
  | .update failures _ _ => 4 * failures.length + 2
  | .commit failures _ _ => 4 * failures.length + 3
  | .returned failures => 4 * failures.length + 4
  | .thrown failures _ => 4 * failures.length + 4

/-- One step: the call stays within its attempts, and gets further. -/
theorem stmt_steady (hcard : (Fintype.card ι : ℤ) ≤ debitOptions.attempts) (hinv : Inv d)
    (hloc : Loc driver i d pc) (hsteady : Steady d pc)
    (h : stmt driver i d pc .run = some (d', pc')) : Steady d' pc' ∧ pc.rank < pc'.rank := by
  -- a collision needs a COMMIT of another call since the snapshot, so collisions are fewer than
  -- calls
  cases stmt_does h with
  | @begins failures => exact ⟨hsteady, by simp only [Pc.rank]; omega⟩
  | @reads failures user huser =>
      refine ⟨⟨hsteady, ?_⟩, by simp only [Pc.rank]; omega⟩
      -- what is committed now is what the snapshot shows
      have hbalance := hinv.balance
      rw [huser, ← hinv.version] at hbalance
      exact Option.some.inj hbalance
  | @updates failures σ current users hdone hcheck =>
      exact ⟨hsteady.1, by simp only [Pc.rank]; omega⟩
  | @conflicts failures σ current hconflict =>
      obtain ⟨-, hno, -, hreads⟩ := hloc
      have hne := Versioned.update_conflict hconflict
      have hold := hreads.valid.old accountId
      have hroom := hinv.room hno
      have hfail : failures.length ≤ σ.version accountId := hsteady.1
      rw [caught_conflict (by omega)]
      constructor
      · change (failures ++ [driver.conflict]).length ≤ d.users.version accountId
        rw [List.length_append, List.length_singleton]
        omega
      · simp only [Pc.rank, List.length_append, List.length_singleton]
        omega
  | @commits failures σ current =>
      obtain ⟨-, hno, hheld, hreads, -⟩ := hloc
      have hroom := hinv.room hno
      have hversion := hreads.valid.held accountId hheld
      have hfail : failures.length ≤ σ.version accountId := hsteady
      refine ⟨?_, by simp only [Pc.rank]; omega⟩
      change failures.length < Fintype.card ι
      omega
  | misses hnone =>
      have hbalance := hinv.balance
      rw [hnone] at hbalance
      cases hbalance
  | @refused failures σ current hcheck =>
      -- fewer than twenty calls have taken their one cent of the hundred
      obtain ⟨-, hno, -, hreads⟩ := hloc
      have hroom := hinv.room hno
      have hold := hreads.valid.old accountId
      have hcurrent : current = initialBalance - delta * σ.version accountId := hsteady.2
      have hattempts : debitOptions.attempts = 20 := rfl
      rw [hattempts] at hcard
      rw [hcurrent] at hcheck
      simp only [initialBalance, delta] at hcheck
      omega

/-- No call makes more than four steps for each attempt, and no more attempts than there are
calls. -/
theorem Steady.rank_le (hinv : Inv d) (hloc : Loc driver i d pc) (h : Steady d pc) :
    pc.rank ≤ 4 * Fintype.card ι := by
  cases pc with
  | call failures | select failures =>
      have hroom := hinv.room hloc.2.1
      have hfail : failures.length ≤ d.users.version accountId := h
      simp only [Pc.rank]
      omega
  | update failures σ current =>
      have hroom := hinv.room hloc.2.1
      have hold := hloc.2.2.2.valid.old accountId
      have hfail : failures.length ≤ σ.version accountId := h.1
      simp only [Pc.rank]
      omega
  | commit failures σ current =>
      have hroom := hinv.room hloc.2.1
      have hold := hloc.2.2.2.1.valid.old accountId
      have hfail : failures.length ≤ σ.version accountId := h
      simp only [Pc.rank]
      omega
  | returned failures =>
      have hfail : failures.length < Fintype.card ι := h
      simp only [Pc.rank]
      omega
  | thrown => cases h

section

omit [Fintype ι]

/-- A call that has not ended takes its next step, unless somebody else has the row. -/
theorem enabled_or_waits (hrun : pc.running = some failures) :
    (∃ d' pc', stmt driver i d pc .run = some (d', pc')) ∨ ¬ (d.users.rows accountId).Free i := by
  cases pc with
  | call failures => exact Or.inl ⟨_, _, rfl⟩
  | select failures =>
      left
      simp only [stmt]
      split <;> exact ⟨_, _, rfl⟩
  | update failures σ current =>
      simp only [stmt]
      split
      · next hwaits => exact Or.inr (Versioned.update_waits hwaits)
      · exact Or.inl ⟨_, _, rfl⟩
      · left
        split <;> exact ⟨_, _, rfl⟩
  | commit failures σ current => exact Or.inl ⟨_, _, rfl⟩
  | returned | thrown => cases hrun

/-- Only a call at its COMMIT holds the row. -/
theorem Loc.of_holds (h : Loc driver i d pc) (hheld : Holds i d) :
    ∃ failures σ current, pc = .commit failures σ current := by
  cases pc with
  | commit failures σ current => exact ⟨failures, σ, current, rfl⟩
  | call | select => exact absurd hheld h.2.2
  | update => exact absurd hheld h.2.2.1
  | returned => exact absurd hheld h.2.2
  | thrown => exact absurd hheld h.2.2.2

end

end

/-! ## Whole runs -/

variable [Fintype ι] {s s₀ t : St ι ε} {acts : List (Act ι (Stmt ε) Empty)}

/-- Every step keeps all calls on their way and makes the sum of their ranks larger. -/
theorem step_steady {act : Act ι (Stmt ε) Empty}
    (hcard : (Fintype.card ι : ℤ) ≤ debitOptions.attempts) (hkept : Kept driver s)
    (hok : NoFailure s act) (hn : (machine driver ι).next s act = some t)
    (h : ∀ i, Steady s.shared (s.proc i)) :
    (∀ i, Steady t.shared (t.proc i)) ∧
      ∑ i, (s.proc i).rank < ∑ i, (t.proc i).rank := by
  cases act with
  | env e => exact e.elim
  | call i a =>
      obtain rfl : a = .run := hok
      obtain ⟨d, p, hst, rfl⟩ := Procs.next_call hn
      obtain ⟨hsteady, hrank⟩ := stmt_steady hcard hkept.1 (hkept.2 i) (h i) hst
      obtain ⟨-, -, hrely⟩ := stmt_keeps hkept.1 (hkept.2 i) hst
      constructor
      · exact Procs.forall_update (Q := fun _ => Steady d) hsteady
          fun j hj => (h j).stable (hrely j hj)
      · apply Finset.sum_lt_sum
        · intro j _
          by_cases hj : j = i
          · subst hj
            simpa using hrank.le
          · simp [hj]
        · exact ⟨i, Finset.mem_univ i, by simpa using hrank⟩

/-- Along a run all calls stay on their way, and it is no longer than the ranks allow. -/
theorem run_steady (hcard : (Fintype.card ι : ℤ) ≤ debitOptions.attempts)
    (hinit : (machine driver ι).Init s₀) (hr : (machine driver ι).Run NoFailure s₀ acts s) :
    (∀ i, Steady s.shared (s.proc i)) ∧ acts.length ≤ ∑ i, (s.proc i).rank := by
  induction hr with
  | refl =>
      refine ⟨?_, Nat.zero_le _⟩
      intro i
      rw [hinit.2 i]
      exact Nat.zero_le _
  | step hr hok hn ih =>
      have hkept := kept_reachable ⟨_, _, hinit, hr.always⟩
      obtain ⟨hsteady, hrank⟩ := step_steady hcard hkept hok hn ih.1
      refine ⟨hsteady, ?_⟩
      rw [List.length_append, List.length_singleton]
      omega

/-- A state in which nobody can take a step: everybody has returned. -/
theorem returned_of_stuck (hkept : Kept driver s) (hsteady : ∀ i, Steady s.shared (s.proc i))
    (hstuck : ∀ i, (machine driver ι).next s (.call i .run) = none) (i : ι) :
    ∃ failures, s.proc i = .returned failures := by
  have stuck : ∀ j d' pc', stmt driver j s.shared (s.proc j) .run ≠ some (d', pc') := by
    intro j d' pc' hst
    have hn := Procs.next_of_stmt (P := procs driver ι) hst
    have hnone := hstuck j
    rw [machine, hn] at hnone
    cases hnone
  cases hpc : s.proc i with
  | returned failures => exact ⟨failures, rfl⟩
  | thrown failures error =>
      have hfalse := hsteady i
      rw [hpc] at hfalse
      cases hfalse
  | _ =>
      exfalso
      obtain ⟨failures, hrun⟩ : ∃ failures, (s.proc i).running = some failures := by
        rw [hpc]
        exact ⟨_, rfl⟩
      have hnext : (∃ d' pc', stmt driver i s.shared (s.proc i) .run = some (d', pc')) ∨
          ¬ (s.shared.users.rows accountId).Free i := enabled_or_waits hrun
      rcases hnext with ⟨d', pc', hst⟩ | hlocked
      · exact stuck i d' pc' hst
      · -- whoever has the row is at its COMMIT
        simp only [Slot.Free, not_forall] at hlocked
        obtain ⟨j, v, hlock, -⟩ := hlocked
        obtain ⟨failures', σ', current', hcommit⟩ := (hkept.2 j).of_holds ⟨v, hlock⟩
        exact stuck j (s.shared.commit j) (.returned failures') (by rw [hcommit]; rfl)

/-- With at most as many calls at once as there are attempts, and no failure but the collisions,
the calls come to an end: none throws, and when no call can go on the balance has lost `delta`
for each of them. -/
theorem debits_finish (hcard : (Fintype.card ι : ℤ) ≤ debitOptions.attempts)
    (hinit : (machine driver ι).Init s₀) (hr : (machine driver ι).Run NoFailure s₀ acts s) :
    acts.length ≤ Fintype.card ι * (4 * Fintype.card ι) ∧
      (∀ i failures error, s.proc i ≠ .thrown failures error) ∧
      ((∀ i, (machine driver ι).next s (.call i .run) = none) →
        (∀ i, ∃ failures, s.proc i = .returned failures) ∧
          balance s.shared = initialBalance - delta * Fintype.card ι) := by
  have hreach : (machine driver ι).Reachable s := ⟨_, _, hinit, hr.always⟩
  have hkept := kept_reachable hreach
  obtain ⟨hsteady, hlength⟩ := run_steady hcard hinit hr
  refine ⟨?_, ?_, ?_⟩
  · calc acts.length ≤ ∑ i, (s.proc i).rank := hlength
      _ ≤ ∑ _i : ι, 4 * Fintype.card ι :=
          Finset.sum_le_sum fun i _ => (hsteady i).rank_le hkept.1 (hkept.2 i)
      _ = Fintype.card ι * (4 * Fintype.card ι) := by
          exact Finset.sum_const_nat fun _ _ => rfl
  · intro i failures error hpc
    have hfalse := hsteady i
    rw [hpc] at hfalse
    cases hfalse
  · intro hstuck
    have hall := returned_of_stuck hkept hsteady hstuck
    refine ⟨hall, ?_⟩
    have hmem : ∀ i, i ∈ s.shared.commits := by
      intro i
      obtain ⟨failures, hpc⟩ := hall i
      have hloc := hkept.2 i
      rw [hpc] at hloc
      exact hloc.2.1
    -- every call is committed, and once
    have hlen : s.shared.commits.length = Fintype.card ι := by
      rw [← List.toFinset_card_of_nodup hkept.1.once]
      exact congrArg Finset.card (Finset.eq_univ_iff_forall.mpr fun i =>
        List.mem_toFinset.mpr (hmem i))
    rw [balance, hkept.1.balance, ← hlen]
    rfl

-- the demo stays within the bound
example : (parallel : ℤ) ≤ debitOptions.attempts := by decide

def isRun (_ : St (Fin 2) PgLikeError) : Act (Fin 2) (Stmt PgLikeError) Empty → Bool
  | .call _ .run => true
  | _ => false

/-- In the concrete run no statement fails but by collision. -/
theorem isRun_noFailure (s : St (Fin 2) PgLikeError) (a : Act (Fin 2) (Stmt PgLikeError) Empty)
    (h : isRun s a = true) : NoFailure s a := by
  cases a with
  | env e => exact e.elim
  | call i a =>
      cases a with
      | run => rfl
      | fail | lost => cases h

/-- Two calls that collide both return, and the balance is 98. -/
theorem debits_finish_collision : ∃ s : St (Fin 2) PgLikeError,
    (machine pgDriver (Fin 2)).exec isRun (prepared (Fin 2)) collision = some s ∧
      collision.length ≤ 16 ∧ balance s.shared = 98 := by
  have hrun : ∃ s : St (Fin 2) PgLikeError,
      (machine pgDriver (Fin 2)).exec isRun (prepared (Fin 2)) collision = some s ∧
        s.proc 0 = .returned [] ∧ s.proc 1 = .returned [pgDriver.conflict] := ⟨_, rfl, rfl, rfl⟩
  obtain ⟨s, hexec, hfirst, hsecond⟩ := hrun
  obtain ⟨hlength, -, hdone⟩ := debits_finish (by decide) (prepared_init (Fin 2))
    (Machine.exec_run isRun_noFailure hexec)
  refine ⟨s, hexec, hlength, ?_⟩
  have hstuck : ∀ i, (machine pgDriver (Fin 2)).next s (.call i .run) = none := by
    intro i
    change ((stmt pgDriver i s.shared (s.proc i) .run).map _) = none
    match i with
    | 0 =>
        rw [hfirst]
        rfl
    | 1 =>
        rw [hsecond]
        rfl
  rw [(hdone hstuck).2]
  decide

end Marketplace.Retry

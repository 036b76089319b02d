import Marketplace.Jobs.Pool
import Mathlib.Algebra.BigOperators.Fin

/-!
# Jobs.ExactlyOnce — no job is lost and none is processed twice

A worker holds the row of the job it has claimed and no other (`Loc`), and a row somebody
holds is pending in what is committed. So a COMMIT turns a pending job into a done one, once.
A worker that finds nothing has gone past every job that was pending when the pool started;
each of them is done or in the hands of a worker that has not left its loop (`Passed`).
-/

namespace Marketplace.Jobs

open Core

variable {φ : Type}

/-! ## One step -/

section

variable {ι : Type} [DecidableEq ι] {polls : ℕ} {w : String} {i j : ι} {d d' : Db ι φ}
  {pc pc' : Pc φ} {a : Stmt} {k : JobId} {job : ClaimedJob φ} {claimed : Option (ClaimedJob φ)}

/-- What a worker's step can do. -/
inductive Does (polls : ℕ) (w : String) (i : ι) (d : Db ι φ) : Pc φ → Stmt → Db ι φ → Pc φ → Prop
  | polls {c : Counters} : c.idlePolls < polls →
      Does polls w i d (.loop c) .run d (.claim c d.now (pendingIds i d))
  | exits {c : Counters} : ¬ c.idlePolls < polls → Does polls w i d (.loop c) .run d (.exited c)
  | finds {c : Counters} {at₀ : ℕ} :
      Does polls w i d (.claim c at₀ []) .run d (.commit c none)
  | takes {c : Counters} {at₀ : ℕ} {k : JobId} {rest : List JobId} {row : Job φ} :
      (d.jobs k).Free i → (d.jobs k).view i = some row → row.status = .pending →
      Does polls w i d (.claim c at₀ (k :: rest)) .run { d with jobs := d.jobs.put i k (some row) }
        (.completeJob c at₀ ⟨k, row.type, row.payload, row.orderId⟩)
  | skips {c : Counters} {at₀ : ℕ} {k : JobId} {rest : List JobId} :
      (¬ (d.jobs k).Free i ∨ ∀ row, (d.jobs k).view i = some row → row.status ≠ .pending) →
      Does polls w i d (.claim c at₀ (k :: rest)) .run d (.claim c at₀ rest)
  | completes {c : Counters} {at₀ : ℕ} {job : ClaimedJob φ} {T : Table ι JobId (Job φ)}
      {r : Option (Job φ)} :
      d.jobs.updateWhere i job.id (fun _ => true) (complete w at₀) = some (T, r) →
      Does polls w i d (.completeJob c at₀ job) .run { d with jobs := T } (.commit c (some job))
  | commits {c : Counters} {claimed : Option (ClaimedJob φ)} :
      Does polls w i d (.commit c claimed) .run (commit i d w claimed) (.committed c claimed)
  | hears {c : Counters} {claimed : Option (ClaimedJob φ)} :
      Does polls w i d (.committed c claimed) .run d (.loop (afterPoll c claimed))
  | refused {c : Counters} : Does polls w i d (.loop c) .fail d (.failed c)
  | fails {pc : Pc φ} {c : Counters} :
      Does polls w i d pc .fail { d with jobs := d.jobs.rollback i } (.failed c)

/-- Every statement of a worker is one of the ways of `Does`: later proofs split these and unfold
nothing. -/
theorem stmt_does (h : stmt polls w i d pc a = some (d', pc')) : Does polls w i d pc a d' pc' := by
  cases a with
  | run =>
      cases pc with
      | loop c =>
          simp only [stmt] at h
          split at h
          · next hlt =>
              cases h
              exact .polls hlt
          · next hlt =>
              cases h
              exact .exits hlt
      | claim c at₀ rest =>
          cases rest with
          | nil =>
              cases h
              exact .finds
          | cons k rest =>
              simp only [stmt, claimNextJob, Option.some.injEq] at h
              split at h
              · next hfree =>
                  split at h
                  · next row hrow =>
                      cases h
                      obtain ⟨hview, hpending⟩ := Option.filter_eq_some_iff.mp hrow
                      exact .takes hfree hview (of_decide_eq_true hpending)
                  · next hnone =>
                      cases h
                      refine .skips (Or.inr ?_)
                      intro row hrow hpending
                      rw [hrow, Option.filter_some, isPending, hpending] at hnone
                      simp at hnone
              · next hfree =>
                  cases h
                  exact .skips (Or.inl hfree)
      | completeJob c at₀ job =>
          simp only [stmt, completeJob, Option.map_map, Option.map_eq_some_iff] at h
          obtain ⟨⟨T, r⟩, hT, h⟩ := h
          cases h
          exact .completes hT
      | commit c claimed =>
          cases h
          exact .commits
      | committed c claimed =>
          cases h
          exact .hears
      | exited c => simp [stmt] at h
      | failed c => simp [stmt] at h
  | fail =>
      cases pc with
      | loop c =>
          simp only [stmt] at h
          split at h
          · cases h
            exact .refused
          · cases h
      | exited c => simp [stmt] at h
      | failed c => simp [stmt] at h
      | _ =>
          cases h
          exact .fails

/-! ## What a worker holds -/

/-- The job is pending, in what is committed. -/
def PendingAt (T : Table ι JobId (Job φ)) (k : JobId) : Prop :=
  ∃ row, (T k).base = some row ∧ row.status = .pending

/-- What a worker has written since its BEGIN. -/
def Loc (w : String) (i : ι) (d : Db ι φ) : Pc φ → Prop
  | .completeJob _ _ job => d.jobs.Writes i [(job.id, id)] ∧ PendingAt d.jobs job.id
  | .commit _ (some job) =>
      (∃ at₀, d.jobs.Writes i [(job.id, complete w at₀)]) ∧ PendingAt d.jobs job.id
  | _ => d.jobs.Writes i []

/-- A row that somebody holds is pending. -/
theorem Loc.pending (h : Loc w i d pc) (hk : (d.jobs k).Held i) : PendingAt d.jobs k := by
  have of_nil : d.jobs.Writes i [] → PendingAt d.jobs k := by
    intro hw
    cases (hw.held k).mp hk
  unfold Loc at h
  split at h
  · obtain ⟨hw, hp⟩ := h
    obtain rfl : k = _ := by simpa using (hw.held k).mp hk
    exact hp
  · obtain ⟨⟨at₀, hw⟩, hp⟩ := h
    obtain rfl : k = _ := by simpa using (hw.held k).mp hk
    exact hp
  · exact of_nil h

/-- Nobody else touches what a worker holds. -/
theorem Loc.kept (hk : Table.Kept i d.jobs d'.jobs) (h : Loc w i d pc) : Loc w i d' pc := by
  have pending : ∀ {k g}, d.jobs.Writes i [(k, g)] → PendingAt d.jobs k →
      PendingAt d'.jobs k := by
    rintro k g hw ⟨row, hrow, hp⟩
    have hheld : (d.jobs k).Held i := (hw.held k).mpr (by simp)
    exact ⟨row, by rw [hk.held k hheld, hrow], hp⟩
  unfold Loc at h ⊢
  split at h
  · exact ⟨h.1.kept hk, pending h.1 h.2⟩
  · obtain ⟨⟨at₀, hw⟩, hp⟩ := h
    exact ⟨⟨at₀, hw.kept hk⟩, pending hw hp⟩
  · exact h.kept hk

/-- A job is done when its one completion is committed. -/
structure Inv (d : Db ι φ) : Prop where
  ids : ∀ k, k ∈ d.ids ↔ ((d.jobs k).base).isSome
  sound : ∀ k row, (d.jobs k).base = some row → row.Sound
  once : ∀ k, (d.completions.map Completion.job).count k =
    if ((d.jobs k).base.any fun row => row.status = .done) then 1 else 0

omit [DecidableEq ι] in
/-- The invariant speaks of committed jobs only: drafts and locks do not matter. -/
theorem Inv.same {T : Table ι JobId (Job φ)} (h : Inv d) (hb : ∀ k, (T k).base = (d.jobs k).base) :
    Inv { d with jobs := T } where
  ids k := by
    rw [hb k]
    exact h.ids k
  sound k row hrow := by
    rw [hb k] at hrow
    exact h.sound k row hrow
  once k := by
    rw [hb k]
    exact h.once k

/-- A pending job that is completed is a sound one: done, processed once. -/
theorem complete_sound {row : Job φ} {at₀ : ℕ} (h : row.Sound) (hp : row.status = .pending) :
    (complete w at₀ row).Sound := by
  have hzero : row.processed = 0 := h.pending (by rw [hp]; simp)
  refine ⟨⟨?_, fun _ => rfl⟩, fun hne => absurd rfl hne⟩
  intro _
  change row.processed + 1 = 1
  rw [hzero]
  rfl

/-- COMMIT of a claim: its job is done. -/
theorem Inv.complete {at₀ : ℕ} (h : Inv d) (hw : d.jobs.Writes i [(job.id, complete w at₀)])
    (hp : PendingAt d.jobs job.id) : Inv (commit i d w (some job)) := by
  obtain ⟨row, hrow, hpending⟩ := hp
  have hat : (d.jobs.commit i job.id).base = some (Jobs.complete w at₀ row) := by
    rw [hw.commit_written (p := (job.id, Jobs.complete w at₀)) List.mem_cons_self, hrow]
    rfl
  -- the COMMIT changes the claimed job and no other
  have hother : ∀ k, k ≠ job.id → (d.jobs.commit i k).base = (d.jobs k).base := by
    intro k hk
    rw [hw.commit_other]
    simpa using hk
  refine ⟨?_, ?_, ?_⟩
  · intro k
    change k ∈ d.ids ↔ ((d.jobs.commit i k).base).isSome
    by_cases hk : k = job.id
    · rw [hk, hat, h.ids, hrow]
      rfl
    · rw [hother k hk]
      exact h.ids k
  · intro k row' hrow'
    change (d.jobs.commit i k).base = some row' at hrow'
    by_cases hk : k = job.id
    · rw [hk, hat] at hrow'
      cases hrow'
      exact complete_sound (h.sound job.id row hrow) hpending
    · rw [hother k hk] at hrow'
      exact h.sound k row' hrow'
  · intro k
    change ((d.completions ++ [Completion.mk job.id w]).map Completion.job).count k =
      if ((d.jobs.commit i k).base.any fun row => row.status = .done) then 1 else 0
    rw [List.map_append, List.count_append, h.once k]
    by_cases hk : k = job.id
    · rw [hk, hat, hrow]
      simp [Jobs.complete, hpending]
    · rw [hother k hk]
      have hnone : ([Completion.mk job.id w].map Completion.job).count k = 0 := by
        simp [Ne.symm hk]
      rw [hnone, Nat.add_zero]

/-- A COMMIT that claimed nothing changes no job. -/
theorem Inv.idle (h : Inv d) (hw : d.jobs.Writes i []) : Inv (commit i d w none) := by
  have hbase : ∀ k, (d.jobs.commit i k).base = (d.jobs k).base := by
    intro k
    rw [hw.commit_other (by simp)]
  have hsame := h.same hbase
  refine ⟨hsame.ids, hsame.sound, ?_⟩
  change ∀ k, ((d.completions ++ []).map Completion.job).count k = _
  rw [List.append_nil]
  exact hsame.once

theorem Writes.of_commit {T : Table ι JobId (Job φ)} : (T.commit i).Writes i [] :=
  Table.Writes.nil fun _ => Slot.not_held_commit

/-- A step keeps the invariant and leaves the others alone. -/
theorem stmt_keeps (hinv : Inv d) (hloc : Loc w i d pc)
    (h : stmt polls w i d pc a = some (d', pc')) :
    Inv d' ∧ Loc w i d' pc' ∧ ∀ j, j ≠ i → Table.Kept j d.jobs d'.jobs := by
  have still : ∀ {pc' : Pc φ}, Loc w i d pc' →
      Inv d ∧ Loc w i d pc' ∧ ∀ j, j ≠ i → Table.Kept j d.jobs d.jobs :=
    fun hloc => ⟨hinv, hloc, fun j _ => Table.Kept.refl j d.jobs⟩
  cases stmt_does h with
  | polls | exits | finds | skips | refused => exact still hloc
  | @takes c at₀ k rest row hfree hview hp =>
      have hw : d.jobs.Writes i [] := hloc
      have hbase : (d.jobs k).base = some row := by
        rwa [Slot.view_of_not_held (fun hk => by cases (hw.held k).mp hk)] at hview
      refine ⟨hinv.same fun k' => Table.put_base, ⟨?_, row, ?_, hp⟩, ?_⟩
      · exact hw.concat (g := id) (by simp) (by rw [hbase]; rfl)
      · exact (Table.put_base (T := d.jobs)).trans hbase
      · intro j hj
        exact Table.Kept.put hj.symm hfree
  -- the claimed row is locked, so it is still pending when the UPDATE comes
  | @completes c at₀ job T r hT =>
      obtain ⟨hw, hp⟩ := hloc
      have hheld : (d.jobs job.id).Held i := (hw.held job.id).mpr (by simp)
      obtain ⟨row, hrow, hpending⟩ := hp
      have hview : (d.jobs job.id).view i = some row := by
        rw [hw.view (job.id, id) List.mem_cons_self, hrow]
        rfl
      rcases Table.updateWhere_cases hT with ⟨-, -, hno⟩ | ⟨row', hrow', -, hfree, -, rfl⟩
      · cases hno row hview
      · obtain rfl : row = row' := Option.some.inj (hview.symm.trans hrow')
        refine ⟨hinv.same fun k' => Table.put_base, ⟨⟨at₀, ?_⟩, row, ?_, hpending⟩, ?_⟩
        · exact Table.Writes.change (A := []) (B := []) hw (by simp) (by rw [hrow]; rfl)
        · exact (Table.put_base (T := d.jobs)).trans hrow
        · intro j hj
          exact Table.Kept.put hj.symm hfree
  | @commits c claimed =>
      have hkept : ∀ j, j ≠ i → Table.Kept j d.jobs (d.jobs.commit i) :=
        fun j hj => Table.Kept.commit hj.symm
      cases claimed with
      | none => exact ⟨hinv.idle hloc, Writes.of_commit, hkept⟩
      | some job =>
          obtain ⟨⟨at₀, hw⟩, hp⟩ := hloc
          exact ⟨hinv.complete hw hp, Writes.of_commit, hkept⟩
  | hears => exact still hloc
  | fails =>
      refine ⟨hinv.same fun k => Slot.rollback_base, ?_, ?_⟩
      · exact Table.Writes.nil fun _ => Slot.not_held_rollback
      · intro j hj
        exact Table.Kept.rollback hj.symm

/-- A job that is added is sound: pending, not processed. -/
theorem newJob_sound {type : String} {payload : φ} {orderId : Option ℕ} :
    (newJob type payload orderId).Sound where
  done := by
    constructor
    · intro h
      cases h
    · intro h
      cases h
  pending _ := rfl

omit [DecidableEq ι] in
/-- Time passes, or a job is added. -/
theorem env_keeps {e : Env φ} (hinv : Inv d) (hheld : ∀ i k, (d.jobs k).Held i → PendingAt d.jobs k)
    (h : env d e = some d') : Inv d' ∧ ∀ j, Table.Kept j d.jobs d'.jobs := by
  cases e with
  | tick dt =>
      cases h
      exact ⟨⟨hinv.ids, hinv.sound, hinv.once⟩, fun j => Table.Kept.refl j d.jobs⟩
  -- a new job has an id no worker can hold
  | add new type payload orderId =>
      simp only [env] at h
      split at h
      · cases h
      · next hnew =>
          obtain rfl := Option.some.inj h
          have hnone : (d.jobs new).base = none := by
            rw [hinv.ids] at hnew
            simpa using hnew
          generalize hT : Function.update d.jobs new
            (Slot.settled (some (newJob type payload orderId))) = T
          have hself : T new = Slot.settled (some (newJob type payload orderId)) := by
            rw [← hT, Function.update_self]
          have hother : ∀ k, k ≠ new → T k = d.jobs k := by
            intro k hk
            rw [← hT, Function.update_of_ne hk]
          refine ⟨⟨?_, ?_, ?_⟩, ?_⟩
          · intro k
            by_cases hk : k = new
            · simp [hk, hself]
            · change k ∈ new :: d.ids ↔ ((T k).base).isSome
              rw [List.mem_cons, or_iff_right hk, hother k hk]
              exact hinv.ids k
          · intro k row hrow
            change (T k).base = some row at hrow
            by_cases hk : k = new
            · rw [hk, hself] at hrow
              cases hrow
              exact newJob_sound
            · rw [hother k hk] at hrow
              exact hinv.sound k row hrow
          · intro k
            change _ = if ((T k).base.any fun row => row.status = .done) then 1 else 0
            by_cases hk : k = new
            · have h0 := hinv.once new
              rw [hnone] at h0
              rw [hk, hself]
              exact h0
            · rw [hother k hk]
              exact hinv.once k
          · intro j
            refine ⟨?_, ?_⟩
            · intro k hk
              refine hother k ?_
              rintro rfl
              obtain ⟨row, hrow, -⟩ := hheld j k hk
              rw [hnone] at hrow
              cases hrow
            · intro k hk
              change ¬ (T k).Held j
              by_cases hnew : k = new
              · rw [hnew, hself]
                exact Slot.not_held_settled
              · rwa [hother k hnew]

end

/-! ## Whole runs -/

variable {options : RunWorkersOptions} {s₀ s t : St options φ} {as : List (Label options φ)}
  {l : Label options φ} {i : options.Worker} {k : JobId}

/-- What holds in every state of every run. -/
abbrev Holds (s : St options φ) : Prop :=
  Procs.Holds Inv (fun (i : options.Worker) => Loc (workerName i) i) s

/-- At the start nobody has claimed a job. -/
theorem Holds.init (h : (machine options φ).Init s) : Holds s := by
  obtain ⟨⟨hunlocked, hids, hsound, honce⟩, hidle⟩ := h
  refine ⟨⟨hids, hsound, honce⟩, ?_⟩
  intro i
  rw [hidle i]
  refine Table.Writes.nil ?_
  rintro k ⟨v, hv⟩
  rw [hunlocked k] at hv
  cases hv

/-- A row that a worker holds is pending. -/
theorem Holds.pending (h : Holds s) (hk : (s.shared.jobs k).Held i) : PendingAt s.shared.jobs k :=
  Loc.pending (h.2 i) hk

/-- Every step of the pool keeps the invariant and every worker's knowledge. -/
theorem Holds.next (h : Holds s) (hn : (machine options φ).next s l = some t) : Holds t := by
  refine Procs.noninterference_step (P := procs options φ) Machine.Always Inv
    (fun i => Loc (workerName i) i) ?_ ?_ trivial hn h
  · intro s i a d p _ hs hst
    obtain ⟨hinv, hloc, hkept⟩ := stmt_keeps hs.1 (hs.2 i) hst
    exact ⟨hinv, hloc, fun j hj => (hs.2 j).kept (hkept j hj)⟩
  · intro s e d _ hs he
    obtain ⟨hinv, hkept⟩ := env_keeps hs.1 (fun i k hk => Holds.pending hs hk) he
    exact ⟨hinv, fun j => (hs.2 j).kept (hkept j)⟩

theorem Holds.run {ok : St options φ → Label options φ → Prop} (h : Holds s)
    (hr : (machine options φ).Run ok s as t) : Holds t :=
  hr.invariant (P := Holds) (fun _ _ _ _ hn hs => hs.next hn) h

/-- The committed completions are of the jobs that are done, one each. -/
theorem Holds.count (h : Holds s) :
    (Done s k → (s.shared.completions.map Completion.job).count k = 1) ∧
    (¬ Done s k → (s.shared.completions.map Completion.job).count k = 0) := by
  have hany : ((s.shared.jobs k).base.any fun row => row.status = .done) = true ↔ Done s k := by
    rw [Option.any_eq_true]
    simp only [decide_eq_true_eq]
    rfl
  rw [h.1.once k, ← hany]
  exact ⟨fun hd => if_pos hd, fun hd => if_neg hd⟩

/-! ## What the workers count -/

/-- The completions that a worker counts or is about to count. -/
def Pc.credited : Pc φ → ℕ
  | .committed c (some _) => c.processed + 1
  | pc => pc.processed

/-- What a step of a worker adds to the completions, it adds to the worker's own count. -/
theorem stmt_credited {a : Stmt} {polls : ℕ} {w : String} {d d' : Db options.Worker φ}
    {pc pc' : Pc φ} (h : stmt polls w i d pc a = some (d', pc')) (ha : a = .run) :
    ∃ own, d'.completions = d.completions ++ own ∧ pc'.credited = pc.credited + own.length := by
  have quiet : ∀ {pc'' : Pc φ}, pc''.credited = pc.credited →
      ∃ own, d.completions = d.completions ++ own ∧ pc''.credited = pc.credited + own.length :=
    fun hc => ⟨[], by simp, by simpa using hc⟩
  cases stmt_does h with
  | polls | exits | finds | takes | skips | completes => exact quiet rfl
  | @commits c claimed => exact ⟨_, rfl, by cases claimed <;> rfl⟩
  | @hears c claimed => exact quiet (by cases claimed <;> rfl)
  | refused | fails => cases ha

/-- The workers' counts add up to the completions since the start. -/
theorem counted (hinit : (machine options φ).Init s₀)
    (hr : (machine options φ).Run NoFailure s₀ as s) :
    ∃ own, s.shared.completions = s₀.shared.completions ++ own ∧
      ∑ i, (s.proc i).credited = own.length := by
  refine hr.invariant (P := fun s => ∃ own, s.shared.completions = s₀.shared.completions ++ own ∧
    ∑ i, (s.proc i).credited = own.length) ?_ ?_
  -- only one worker moves in a step, so the sum grows by what it completed
  · rintro t l u hok hn ⟨own, hown, hsum⟩
    cases l with
    | call i a =>
        obtain ⟨d, p, hst, rfl⟩ := Procs.next_call hn
        obtain ⟨more, hmore, hp⟩ := stmt_credited hst hok
        refine ⟨own ++ more, by rw [hmore, hown, List.append_assoc], ?_⟩
        have hupdate : (fun j => (Function.update t.proc i p j).credited) =
            Function.update (fun j => (t.proc j).credited) i p.credited := by
          funext j
          exact Function.apply_update (fun _ => Pc.credited) t.proc i p j
        rw [List.length_append, ← hsum, hupdate, Finset.sum_update_of_mem (Finset.mem_univ i), hp,
          ← Finset.add_sum_erase Finset.univ (fun j => (t.proc j).credited) (Finset.mem_univ i),
          Finset.sdiff_singleton_eq_erase]
        omega
    | env e =>
        obtain ⟨d, he, rfl⟩ := Procs.next_env hn
        refine ⟨own, ?_, hsum⟩
        rw [← hown]
        cases e with
        | tick dt =>
            cases he
            rfl
        | add new type payload orderId =>
            simp only [procs, env] at he
            split at he
            · cases he
            · cases he
              rfl
  · refine ⟨[], by simp, ?_⟩
    have hzero : ∀ i, (s₀.proc i).credited = 0 := by
      intro i
      rw [hinit.2 i]
      rfl
    simp [hzero]

/-- The environment completes no job and removes none. -/
theorem env_completions {d d' : Db options.Worker φ} {e : Env φ} (h : env d e = some d') :
    d'.completions = d.completions ∧ ∀ k ∈ d.ids, k ∈ d'.ids := by
  cases e with
  | tick dt =>
      cases h
      exact ⟨rfl, fun k hk => hk⟩
  | add new type payload orderId =>
      simp only [env] at h
      split at h
      · cases h
      · cases h
        exact ⟨rfl, fun k hk => List.mem_cons_of_mem _ hk⟩

/-! ## No job is lost -/

/-- The job is done, or a worker has it. -/
def Settled (s : St options φ) (k : JobId) : Prop :=
  Done s k ∨ ∃ i, (s.shared.jobs k).Held i

/-- The worker has gone past the job since it last found one. -/
def Pc.Passed (k : JobId) : Pc φ → Prop
  | .loop c => 0 < c.idlePolls
  | .claim _ _ rest => k ∉ rest
  | .commit _ claimed | .committed _ claimed => claimed = none
  | .exited _ => True
  | .completeJob _ _ _ | .failed _ => False

section

variable {d d' : Db options.Worker φ} {pc pc' : Pc φ} {polls : ℕ} {w : String}

/-- A job that is not pending is done. -/
theorem done_of_not_pending (hinv : Inv d) (hk : k ∈ d.ids) (hfree : ¬ (d.jobs k).Held i)
    (hno : ∀ row, (d.jobs k).view i = some row → row.status ≠ .pending) :
    ∃ row, (d.jobs k).base = some row ∧ row.status = .done := by
  obtain ⟨row, hrow⟩ := Option.isSome_iff_exists.mp ((hinv.ids k).mp hk)
  have hne : row.status ≠ .pending := hno row (by rwa [Slot.view_of_not_held hfree])
  refine ⟨row, hrow, ?_⟩
  cases hs : row.status with
  | pending => exact absurd hs hne
  | done => rfl

/-- A worker that goes past a job finds it done or in somebody's hands. -/
theorem stmt_passed (hpolls : 1 ≤ polls) (hinv : Inv d) (hloc : Loc w i d pc) (hk : k ∈ d.ids)
    (h : stmt polls w i d pc .run = some (d', pc')) (hp : pc'.Passed k) :
    pc.Passed k ∨ (∃ row, (d.jobs k).base = some row ∧ row.status = .done) ∨
      ∃ j, (d.jobs k).Held j := by
  have unheld : d.jobs.Writes i [] → ¬ (d.jobs k).Held i := by
    intro hw hheld
    cases (hw.held k).mp hheld
  cases stmt_does h with
  -- an empty answer to the claim: every job was done or locked
  | @polls c hlt =>
      refine Or.inr (Or.inl (done_of_not_pending hinv hk (unheld hloc) ?_))
      intro row hrow hpending
      refine hp ?_
      rw [pendingIds, List.mem_insertionSort, List.mem_filter]
      refine ⟨hk, ?_⟩
      rw [hrow]
      exact decide_eq_true hpending
  -- a worker exits after an empty poll only
  | @exits c hlt =>
      left
      change 0 < c.idlePolls
      omega
  | finds => exact Or.inl List.not_mem_nil
  | takes | completes => cases hp
  | @skips c at₀ k' rest hskip =>
      by_cases heq : k = k'
      · subst heq
        rcases hskip with hfree | hno
        · right
          right
          simp only [Slot.Free, not_forall] at hfree
          obtain ⟨j, v, hl, -⟩ := hfree
          exact ⟨j, v, hl⟩
        · exact Or.inr (Or.inl (done_of_not_pending hinv hk (unheld hloc) hno))
      · left
        change k ∉ k' :: rest
        rw [List.mem_cons, not_or]
        exact ⟨heq, hp⟩
  | commits => exact Or.inl hp
  | @hears c claimed =>
      cases claimed with
      | none => exact Or.inl rfl
      | some job => exact absurd hp (Nat.lt_irrefl 0)

/-- A worker keeps the job it has until the job is done. -/
theorem stmt_held (hloc : Loc w i d pc) (h : stmt polls w i d pc .run = some (d', pc'))
    (hk : (d.jobs k).Held i) :
    (d'.jobs k).Held i ∨ ∃ row, (d'.jobs k).base = some row ∧ row.status = .done := by
  cases stmt_does h with
  | polls | exits | finds | skips | hears => exact Or.inl hk
  | @takes c at₀ k' rest row =>
      left
      rw [Table.held_put_iff]
      split
      · rfl
      · exact hk
  | @completes c at₀ job T r hT =>
      left
      rcases Table.updateWhere_cases hT with ⟨rfl, -, -⟩ | ⟨row, -, -, -, -, rfl⟩
      · exact hk
      · rw [Table.held_put_iff]
        split
        · rfl
        · exact hk
  | @commits c claimed =>
      cases claimed with
      | none =>
          have hw : d.jobs.Writes i [] := hloc
          cases (hw.held k).mp hk
      | some job =>
          obtain ⟨⟨at₀, hw⟩, row, hrow, -⟩ := hloc
          obtain rfl : k = job.id := by simpa using (hw.held k).mp hk
          right
          refine ⟨complete w at₀ row, ?_, rfl⟩
          have hcommit := hw.commit_written (p := (job.id, complete w at₀)) List.mem_cons_self
          rw [hrow] at hcommit
          exact hcommit

end

/-- A job that is done stays done. -/
theorem Done.mono (hs : Holds s) (ht : Holds t) {own : List Completion}
    (hown : t.shared.completions = s.shared.completions ++ own) (h : Done s k) : Done t k := by
  by_contra hd
  have hcount := ht.count.2 hd
  rw [hown, List.map_append, List.count_append, hs.count.1 h] at hcount
  omega

/-- A step without failures takes no job away. -/
theorem Settled.next (hs : Holds s) (hok : NoFailure s l)
    (hn : (machine options φ).next s l = some t) (h : Settled s k) : Settled t k := by
  have ht := hs.next hn
  cases l with
  | call i a =>
      obtain rfl : a = .run := hok
      obtain ⟨d, p, hst, rfl⟩ := Procs.next_call hn
      rcases h with hd | ⟨j, hj⟩
      · obtain ⟨own, hown, -⟩ := stmt_credited hst rfl
        exact Or.inl (hd.mono hs ht hown)
      · by_cases hij : j = i
        · subst hij
          rcases stmt_held (hs.2 j) hst hj with hheld | hd
          · exact Or.inr ⟨j, hheld⟩
          · exact Or.inl hd
        · have hkept := (stmt_keeps hs.1 (hs.2 i) hst).2.2 j hij
          exact Or.inr ⟨j, hkept.held_iff.mpr hj⟩
  | env e =>
      obtain ⟨d, he, rfl⟩ := Procs.next_env hn
      rcases h with hd | ⟨j, hj⟩
      · have hown : d.completions = s.shared.completions ++ [] := by
          rw [List.append_nil]
          exact (env_completions he).1
        exact Or.inl (hd.mono hs ht hown)
      · have hkept := (env_keeps hs.1 (fun i k hk => Holds.pending hs hk) he).2 j
        exact Or.inr ⟨j, hkept.held_iff.mpr hj⟩

/-- No worker has gone past the job while it was free. -/
structure Tracked (s : St options φ) (k : JobId) : Prop where
  row : k ∈ s.shared.ids
  passed : ∀ i, (s.proc i).Passed k → Settled s k

theorem stmt_ids {polls : ℕ} {w : String} {d d' : Db options.Worker φ} {pc pc' : Pc φ} {a : Stmt}
    (h : stmt polls w i d pc a = some (d', pc')) : d'.ids = d.ids := by
  cases stmt_does h <;> rfl

/-- A job that is pending is not lost sight of: in every state it is done, or held, or a worker
has yet to look for it. -/
theorem Tracked.next (hpolls : 1 ≤ options.pollsBeforeExit) (hs : Holds s) (hok : NoFailure s l)
    (hn : (machine options φ).next s l = some t) (h : Tracked s k) : Tracked t k := by
  have hsettled : Settled s k → Settled t k := Settled.next hs hok hn
  cases l with
  | call i a =>
      obtain rfl : a = .run := hok
      obtain ⟨d, p, hst, rfl⟩ := Procs.next_call hn
      refine ⟨?_, ?_⟩
      · change k ∈ d.ids
        rw [stmt_ids hst]
        exact h.row
      · intro j hj
        refine hsettled ?_
        change (Function.update s.proc i p j).Passed k at hj
        by_cases hij : j = i
        · subst hij
          rw [Function.update_self] at hj
          rcases stmt_passed hpolls hs.1 (hs.2 j) h.row hst hj with hpassed | hd | hheld
          · exact h.passed j hpassed
          · exact Or.inl hd
          · exact Or.inr hheld
        · rw [Function.update_of_ne hij] at hj
          exact h.passed j hj
  | env e =>
      obtain ⟨d, he, rfl⟩ := Procs.next_env hn
      exact ⟨(env_completions he).2 k h.row, fun j hj => hsettled (h.passed j hj)⟩

/-- Every job that was pending when the pool started is done when it returns. -/
theorem pending_done (hpolls : 1 ≤ options.pollsBeforeExit) (hworkers : 0 < options.workerCount)
    (hinit : (machine options φ).Init s₀) (hr : (machine options φ).Run NoFailure s₀ as s)
    (hreturned : Returned s) (hk : Pending s₀ k) : Done s k := by
  have hboth : Holds s ∧ Tracked s k := by
    refine hr.invariant (P := fun s => Holds s ∧ Tracked s k) ?_ ?_
    · rintro t l u hok hn ⟨ht, htracked⟩
      exact ⟨ht.next hn, htracked.next hpolls ht hok hn⟩
    · refine ⟨Holds.init hinit, ?_, ?_⟩
      · obtain ⟨row, hrow, -⟩ := hk
        rw [hinit.1.ids, hrow]
        rfl
      · intro i hi
        rw [hinit.2 i] at hi
        cases hi
  obtain ⟨hs, htracked⟩ := hboth
  obtain ⟨c, hc⟩ := hreturned ⟨0, hworkers⟩
  rcases htracked.passed ⟨0, hworkers⟩ (by rw [hc]; trivial) with hd | ⟨j, hj⟩
  · exact hd
  · -- nobody is left to hold it
    obtain ⟨c, hc⟩ := hreturned j
    have hw := hs.2 j
    rw [hc] at hw
    have hnil : s.shared.jobs.Writes j [] := hw
    cases (hnil.held k).mp hj

/-- In every state a job is done if it counts one run, and every other job counts none; a done
job has one committed completion. If no transaction fails and the pool has a worker, then when
it returns no job of the start is left, and what it counts is the jobs it has done. -/
theorem pool_exactly_once (hinit : (machine options φ).Init s₀) :
    (∀ as s, (machine options φ).Run Machine.Always s₀ as s →
      ∀ k row, (s.shared.jobs k).base = some row →
        (row.status = .done ↔ row.processed = 1) ∧ (row.status ≠ .done → row.processed = 0) ∧
        (s.shared.completions.map Completion.job).count k =
          if row.status = .done then 1 else 0) ∧
    (0 < options.workerCount → 1 ≤ options.pollsBeforeExit →
      ∀ as s, (machine options φ).Run NoFailure s₀ as s → Returned s →
        (∀ k, Pending s₀ k → Done s k) ∧
        ∃ own, s.shared.completions = s₀.shared.completions ++ own ∧
          (own.map Completion.job).Nodup ∧
          (∀ k, k ∈ own.map Completion.job ↔ Done s k ∧ ¬ Done s₀ k) ∧
          ∑ i, (s.proc i).processed = own.length) := by
  have hholds := Holds.init hinit
  refine ⟨?_, ?_⟩
  · intro as s hr k row hrow
    have hs := hholds.run hr
    have hsound := hs.1.sound k row hrow
    refine ⟨hsound.done, hsound.pending, ?_⟩
    rw [hs.1.once k, hrow]
    simp
  · intro hworkers hpolls as s hr hreturned
    have hs := hholds.run hr
    refine ⟨fun k => pending_done hpolls hworkers hinit hr hreturned, ?_⟩
    obtain ⟨own, hown, hsum⟩ := counted hinit hr
    have hcount : ∀ k, (s.shared.completions.map Completion.job).count k =
        (s₀.shared.completions.map Completion.job).count k + (own.map Completion.job).count k := by
      intro k
      rw [hown, List.map_append, List.count_append]
    -- each job completed in the run is counted once, by the worker that completed it
    have honce : ∀ k, (Done s k ∧ ¬ Done s₀ k → (own.map Completion.job).count k = 1) ∧
        (¬ (Done s k ∧ ¬ Done s₀ k) → (own.map Completion.job).count k = 0) := by
      intro k
      have hk := hcount k
      by_cases hd : Done s k
      · rw [hs.count.1 hd] at hk
        by_cases hd₀ : Done s₀ k
        · rw [hholds.count.1 hd₀] at hk
          exact ⟨fun h => absurd hd₀ h.2, fun _ => by omega⟩
        · rw [hholds.count.2 hd₀] at hk
          exact ⟨fun _ => by omega, fun h => absurd ⟨hd, hd₀⟩ h⟩
      · rw [hs.count.2 hd] at hk
        exact ⟨fun h => absurd h.1 hd, fun _ => by omega⟩
    refine ⟨own, hown, ?_, ?_, ?_⟩
    · rw [List.nodup_iff_count_le_one]
      intro k
      by_cases hk : Done s k ∧ ¬ Done s₀ k
      · exact ((honce k).1 hk).le
      · rw [(honce k).2 hk]
        exact Nat.zero_le 1
    · intro k
      rw [← List.count_pos_iff]
      constructor
      · intro hpos
        by_contra hk
        rw [(honce k).2 hk] at hpos
        exact Nat.lt_irrefl 0 hpos
      · intro hk
        rw [(honce k).1 hk]
        exact Nat.one_pos
    · rw [← hsum]
      refine Finset.sum_congr rfl ?_
      intro i _
      obtain ⟨c, hc⟩ := hreturned i
      rw [hc]
      rfl

/-! ## Pools over two jobs -/

/-- A receipt to send. -/
def receipt : Job String := newJob "send_receipt" "{}" none

/-- The table has two pending jobs, and the pool is about to start. -/
def twoJobs (options : RunWorkersOptions) : St options String where
  shared := ⟨Table.ofBase fun k => if k = 1 ∨ k = 2 then some receipt else none, [2, 1], 0, []⟩
  proc _ := .loop ⟨0, 0⟩

/-- The concrete start is a proper one: two pending jobs, two idle workers. -/
theorem twoJobs_init : (machine options String).Init (twoJobs options) := by
  refine ⟨⟨fun _ => rfl, ?_, ?_, ?_⟩, fun _ => rfl⟩
  · intro k
    change k ∈ [2, 1] ↔ ((if k = 1 ∨ k = 2 then some receipt else none).isSome)
    by_cases hk : k = 1 ∨ k = 2
    · rw [if_pos hk]
      simpa [or_comm] using hk
    · rw [if_neg hk]
      simpa [or_comm] using hk
  · intro k row hrow
    change (if k = 1 ∨ k = 2 then some receipt else none) = some row at hrow
    split at hrow
    · cases hrow
      exact newJob_sound
    · cases hrow
  · intro k
    change 0 = if ((if k = 1 ∨ k = 2 then some receipt else none).any _) then 1 else 0
    by_cases hk : k = 1 ∨ k = 2
    · rw [if_pos hk]
      rfl
    · rw [if_neg hk]
      rfl

/-- A pool without workers returns at once, with its jobs still pending. -/
theorem pool_without_workers : ∃ options : RunWorkersOptions, ∃ s₀ s : St options String,
    1 ≤ options.pollsBeforeExit ∧ (machine options String).Init s₀ ∧
    (machine options String).Run NoFailure s₀ [] s ∧ Returned s ∧ Pending s₀ 1 ∧ ¬ Done s 1 := by
  refine ⟨⟨0, some 1⟩, twoJobs _, twoJobs _, by decide, twoJobs_init, Machine.Run.refl, ?_, ?_, ?_⟩
  · intro i
    exact i.elim0
  · exact ⟨receipt, rfl, rfl⟩
  · rintro ⟨row, hrow, hdone⟩
    cases hrow
    cases hdone

/-- Two workers that leave after their first empty poll. -/
def twoWorkers : RunWorkersOptions := ⟨2, some 1⟩

def isRun (_ : St twoWorkers String) : Label twoWorkers String → Bool
  | .call _ a => a = .run
  | .env _ => false

/-- In the concrete run no statement fails. -/
theorem isRun_noFailure (s : St twoWorkers String) (l : Label twoWorkers String)
    (h : isRun s l = true) : NoFailure s l := by
  cases l with
  | call i a =>
      have ha : a = .run := by simpa [isRun] using h
      exact ha
  | env e => cases h

def worker₀ : Fin twoWorkers.workerCount := ⟨0, by decide⟩

def worker₁ : Fin twoWorkers.workerCount := ⟨1, by decide⟩

/-- Both workers read both ids. The second skips job 1, which the first has locked, and takes
job 2; both commit, poll once more and leave. -/
def twoTurns : List (Label twoWorkers String) :=
  (worker₀ :: worker₁ :: worker₀ :: worker₁ ::
    (List.replicate 8 [worker₁, worker₀]).flatten ++ [worker₁]).map fun i => .call i .run

/-- Two workers side by side do two jobs, one each. -/
theorem pool_exactly_once_two_workers : ∃ s : St twoWorkers String,
    (machine twoWorkers String).exec isRun (twoJobs twoWorkers) twoTurns = some s ∧
    Returned s ∧ Done s 1 ∧ Done s 2 ∧
    s.shared.completions = [⟨1, "worker-1"⟩, ⟨2, "worker-2"⟩] ∧
    (∀ k, k = 1 ∨ k = 2 → (s.shared.completions.map Completion.job).count k = 1) ∧
    ∑ i, (s.proc i).processed = 2 := by
  have hrun : ∃ s : St twoWorkers String,
      (machine twoWorkers String).exec isRun (twoJobs twoWorkers) twoTurns = some s ∧
      s.proc worker₀ = .exited ⟨1, 1⟩ ∧ s.proc worker₁ = .exited ⟨1, 1⟩ ∧
      s.shared.completions = [⟨1, "worker-1"⟩, ⟨2, "worker-2"⟩] ∧
      (s.shared.jobs 1).base = some (complete "worker-1" 0 receipt) ∧
      (s.shared.jobs 2).base = some (complete "worker-2" 0 receipt) :=
    ⟨_, rfl, rfl, rfl, by decide, by decide, by decide⟩
  obtain ⟨s, hexec, hproc₀, hproc₁, hcompletions, hbase₁, hbase₂⟩ := hrun
  have hr := Machine.exec_run isRun_noFailure hexec
  have hreturned : Returned s := Fin.forall_fin_two.mpr ⟨⟨_, hproc₀⟩, ⟨_, hproc₁⟩⟩
  obtain ⟨hevery, hreturn⟩ := pool_exactly_once twoJobs_init
  obtain ⟨hdone, own, hown, -, -, hsum⟩ :=
    hreturn (by decide) (by decide) _ s hr hreturned
  refine ⟨s, hexec, hreturned, hdone 1 ⟨receipt, rfl, rfl⟩, hdone 2 ⟨receipt, rfl, rfl⟩,
    hcompletions, ?_, ?_⟩
  · rintro k (rfl | rfl)
    · exact (hevery _ s hr.always 1 _ hbase₁).2.2
    · exact (hevery _ s hr.always 2 _ hbase₂).2.2
  · rw [hsum]
    have hlength := congrArg List.length hown
    rw [hcompletions] at hlength
    exact hlength.symm

end Marketplace.Jobs

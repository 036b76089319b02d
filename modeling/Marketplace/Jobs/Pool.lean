import Marketplace.Core.Procs
import Marketplace.Core.Sql
import Mathlib.Data.List.Sort

/-!
# Jobs.Pool — the worker pool, statement by statement

`runWorkerPool` of `src/workers.ts` over the table `jobs`. The SELECT of `claimNextJob`
goes through the rows that were pending when it started, in the order of their ids: it
skips a row somebody else has locked, and looks at the status again on the version that is
committed when it gets there. Jobs may be added at any moment.

* `machine options` has a process for each worker;
* `completions` lists the claim transactions that committed, with the job of each.
-/

namespace Marketplace.Jobs

open Core

abbrev JobId := ℕ

/-- The CHECK on `jobs.status`. -/
inductive JobStatus where
  | pending
  | done
deriving DecidableEq, Repr

/-- A row of `jobs`; `φ` is the type of the payloads. -/
structure Job (φ : Type) where
  type : String
  payload : φ
  status : JobStatus
  processed : ℤ
  workerId : Option String
  orderId : Option ℕ
  processedAt : Option ℕ
deriving DecidableEq

structure ClaimedJob (φ : Type) where
  id : JobId
  type : String
  payload : φ
  orderId : Option ℕ
deriving DecidableEq

variable {φ : Type}

/-- The row an INSERT makes, by the defaults of the schema. -/
def newJob (type : String) (payload : φ) (orderId : Option ℕ) : Job φ :=
  ⟨type, payload, .pending, 0, none, orderId, none⟩

/-- The SET list of `completeJob`. -/
def complete (workerId : String) (at₀ : ℕ) (job : Job φ) : Job φ :=
  { job with
    status := .done
    processed := job.processed + 1
    workerId := some workerId
    processedAt := some at₀ }

def isPending (job : Job φ) : Bool := job.status = .pending

structure Completion where
  job : JobId
  workerId : String
deriving DecidableEq

/-- The table, the ids that have a row, and the time. -/
structure Db (ι φ : Type) where
  jobs : Table ι JobId (Job φ)
  ids : List JobId
  now : ℕ
  completions : List Completion

/-- What a worker counts. -/
structure Counters where
  idlePolls : ℕ
  processed : ℕ
deriving DecidableEq

/-- Where a worker is. `at₀` is its transaction's `now()`. -/
inductive Pc (φ : Type) where
  /-- The condition of the `while`. -/
  | loop (c : Counters)
  | claim (c : Counters) (at₀ : ℕ) (rest : List JobId)
  | completeJob (c : Counters) (at₀ : ℕ) (job : ClaimedJob φ)
  | commit (c : Counters) (claimed : Option (ClaimedJob φ))
  /-- The transaction has committed and the worker has not heard of it. -/
  | committed (c : Counters) (claimed : Option (ClaimedJob φ))
  | exited (c : Counters)
  /-- `ds.transaction` has thrown. -/
  | failed (c : Counters)
deriving DecidableEq

/-- A worker takes its next step, or its transaction fails. -/
inductive Stmt where
  | run
  | fail
deriving DecidableEq

def workerName (index : ℕ) : String := "worker-" ++ toString (index + 1)

section

variable {ι : Type} [DecidableEq ι]

/-- The rows the SELECT goes through, those pending when it starts, `ORDER BY id`. -/
def pendingIds (i : ι) (d : Db ι φ) : List JobId :=
  (d.ids.filter fun k => ((d.jobs k).view i).any isPending).insertionSort (· ≤ ·)

/-- `FOR UPDATE SKIP LOCKED LIMIT 1` at its next row. -/
def claimNextJob (i : ι) (d : Db ι φ) (c : Counters) (at₀ : ℕ) : List JobId → Db ι φ × Pc φ
  | [] => (d, .commit c none)
  | k :: rest =>
      if (d.jobs k).Free i then
        match ((d.jobs k).view i).filter isPending with
        | some job =>
            ({ d with jobs := d.jobs.put i k (some job) },
              .completeJob c at₀ ⟨k, job.type, job.payload, job.orderId⟩)
        | none => (d, .claim c at₀ rest)
      else (d, .claim c at₀ rest)

/-- `completeJob`, an UPDATE by the primary key. -/
def completeJob (i : ι) (d : Db ι φ) (jobId : JobId) (workerId : String) (at₀ : ℕ) :
    Option (Db ι φ) :=
  (d.jobs.updateWhere i jobId (fun _ => true) (complete workerId at₀)).map fun r =>
    { d with jobs := r.1 }

def commit (i : ι) (d : Db ι φ) (workerId : String) (claimed : Option (ClaimedJob φ)) :
    Db ι φ :=
  { d with
    jobs := d.jobs.commit i
    completions := d.completions ++ (claimed.map fun job => ⟨job.id, workerId⟩).toList }

/-- The rest of the loop's body. -/
def afterPoll (c : Counters) : Option (ClaimedJob φ) → Counters
  | none => { c with idlePolls := c.idlePolls + 1 }
  | some _ => { idlePolls := 0, processed := c.processed + 1 }

/-- One step of worker `i`, whose name is `workerId`. -/
def stmt (idlePollsBeforeExit : ℕ) (workerId : String) (i : ι) (d : Db ι φ) :
    Pc φ → Stmt → Option (Db ι φ × Pc φ)
  | .loop c, .run =>
      if c.idlePolls < idlePollsBeforeExit then some (d, .claim c d.now (pendingIds i d))
      else some (d, .exited c)
  | .claim c at₀ rest, .run => some (claimNextJob i d c at₀ rest)
  | .completeJob c at₀ job, .run =>
      (completeJob i d job.id workerId at₀).map fun d' => (d', .commit c (some job))
  | .commit c claimed, .run => some (commit i d workerId claimed, .committed c claimed)
  | .committed c claimed, .run => some (d, .loop (afterPoll c claimed))
  | .exited _, .run | .failed _, .run => none
  -- no connection, or no BEGIN
  | .loop c, .fail => if c.idlePolls < idlePollsBeforeExit then some (d, .failed c) else none
  -- the last of these is a COMMIT whose answer is lost
  | .claim c _ _, .fail | .completeJob c _ _, .fail | .commit c _, .fail
  | .committed c _, .fail => some ({ d with jobs := d.jobs.rollback i }, .failed c)
  | .exited _, .fail | .failed _, .fail => none

end

/-- Time passes, or somebody adds a job. -/
inductive Env (φ : Type) where
  | tick (dt : ℕ)
  | add (id : JobId) (type : String) (payload : φ) (orderId : Option ℕ)

def env {ι : Type} (d : Db ι φ) : Env φ → Option (Db ι φ)
  | .tick dt => some { d with now := d.now + dt }
  | .add id type payload orderId =>
      if id ∈ d.ids then none
      else some { d with
        jobs := Function.update d.jobs id (Slot.settled (some (newJob type payload orderId)))
        ids := id :: d.ids }

/-- A job is done and counts one run, or is pending and counts none. -/
structure Job.Sound (job : Job φ) : Prop where
  done : job.status = .done ↔ job.processed = 1
  pending : job.status ≠ .done → job.processed = 0

/-- The table as the pool finds it: nobody has locked a row, and every job that is done was
completed once. -/
structure Init {ι : Type} (d : Db ι φ) : Prop where
  unlocked : ∀ k, (d.jobs k).lock = none
  ids : ∀ k, k ∈ d.ids ↔ ((d.jobs k).base).isSome
  sound : ∀ k job, (d.jobs k).base = some job → job.Sound
  completions : ∀ k,
    (d.completions.map Completion.job).count k =
      if ((d.jobs k).base.any fun job => job.status = .done) then 1 else 0

/-- `RunWorkersOptions`. The delays are left out: every order of steps is a run. -/
structure RunWorkersOptions where
  workerCount : ℕ
  idlePollsBeforeExit : Option ℕ

namespace RunWorkersOptions

variable (options : RunWorkersOptions)

abbrev Worker := Fin options.workerCount

/-- `options.idlePollsBeforeExit ?? 3`. -/
def pollsBeforeExit : ℕ := options.idlePollsBeforeExit.getD 3

end RunWorkersOptions

/-- `runWorkerPool`, with a worker for each index of `stats`. -/
def procs (options : RunWorkersOptions) (φ : Type) :
    Procs options.Worker (Db options.Worker φ) (Pc φ) Stmt (Env φ) where
  Init := Init
  idle := .loop ⟨0, 0⟩
  stmt i := stmt options.pollsBeforeExit (workerName i) i
  env := env

abbrev St (options : RunWorkersOptions) (φ : Type) :=
  World options.Worker (Db options.Worker φ) (Pc φ)

abbrev Label (options : RunWorkersOptions) (φ : Type) := Act options.Worker Stmt (Env φ)

def machine (options : RunWorkersOptions) (φ : Type) :
    Machine (St options φ) (Label options φ) :=
  (procs options φ).machine

/-- `stats[i].processed`. -/
def Pc.processed : Pc φ → ℕ
  | .loop c | .claim c _ _ | .completeJob c _ _ | .commit c _ | .committed c _ | .exited c
  | .failed c => c.processed

section

variable {options : RunWorkersOptions}

/-- `Promise.all` has resolved: every worker has left its loop. -/
def Returned (s : St options φ) : Prop := ∀ i, ∃ c, s.proc i = .exited c

/-- No transaction fails. -/
def NoFailure (_ : St options φ) : Label options φ → Prop
  | .call _ a => a = .run
  | .env _ => True

/-- The job is done, in what is committed. -/
def Done (s : St options φ) (k : JobId) : Prop :=
  ∃ job, (s.shared.jobs k).base = some job ∧ job.status = .done

/-- The job is pending, in what is committed. -/
def Pending (s : St options φ) (k : JobId) : Prop :=
  ∃ job, (s.shared.jobs k).base = some job ∧ job.status = .pending

end

end Marketplace.Jobs

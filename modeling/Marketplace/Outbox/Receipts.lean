import Marketplace.Outbox.ConsumerSafety

/-!
# Outbox.Receipts — one receipt for each order?

`src/queue/receipts.queue.ts` behind the consumer: `afterEffect` of `consumer-main.ts` calls
`enqueueReceipt` on every delivery, and BullMQ drops the job if one with its id is still in
the queue. A completed job leaves the queue after a day, or once 10 000 more have completed; a
failed one after a week.

A redelivery can come later than that, and then a second receipt is sent
(`second_receipt`). `one_receipt`: as long as every call of `enqueueReceipt` finds the record
of the completed job, no order gets two.
-/

namespace Marketplace.Outbox.Receipts

open Core Auth

/-! ## The queue -/

structure SendReceiptData where
  orderId : String
  userId : String
  totalCents : ℚ
deriving DecidableEq, Repr

def attempts : ℕ := 5

/-- `removeOnComplete` and `removeOnFail`. -/
def completeAge : ℕ := secs (24 * 60 * 60)
def completeCount : ℕ := 10000
def failAge : ℕ := secs (7 * 24 * 60 * 60)

/-- `n` jobs had completed when this one did. -/
inductive JobState where
  | waiting (attemptsMade : ℕ)
  | completed (at₀ n : ℕ)
  | failed (at₀ : ℕ)
deriving DecidableEq, Repr

structure Job where
  data : SendReceiptData
  state : JobState
deriving DecidableEq, Repr

/-- The queue: the records by job id, how many jobs of any name have completed, and, as a
ghost, the orders whose `send-receipt` job has completed. -/
structure Queue where
  jobs : String → Option Job
  completed : ℕ
  sent : List String

def receiptJobId (orderId : String) : String := "receipt-" ++ orderId

/-- The record is still there. -/
def JobState.Kept (now total : ℕ) : JobState → Prop
  | .waiting _ => True
  | .completed at₀ n => now ≤ at₀ + completeAge ∧ total ≤ n + completeCount
  | .failed at₀ => now ≤ at₀ + failAge

instance (now total : ℕ) : DecidablePred (JobState.Kept now total) := fun st =>
  match st with
  | .waiting _ => isTrue trivial
  | .completed _ _ => inferInstanceAs (Decidable (_ ∧ _))
  | .failed _ => inferInstanceAs (Decidable (_ ≤ _))

/-- `queue.add`: a job whose id is in the queue is not added. -/
def add (now : ℕ) (jobId : String) (data : SendReceiptData) (q : Queue) : Queue :=
  if (q.jobs jobId).any (fun job => decide (job.state.Kept now q.completed)) then q
  else { q with jobs := Function.update q.jobs jobId (some ⟨data, .waiting 0⟩) }

def enqueueReceipt (now : ℕ) (data : SendReceiptData) (q : Queue) : Queue :=
  add now (receiptJobId data.orderId) data q

/-- The worker has run the job: the attempt succeeds. -/
def complete (now : ℕ) (jobId : String) (q : Queue) : Option Queue :=
  match q.jobs jobId with
  | some ⟨data, .waiting _⟩ =>
      some { q with
        jobs := Function.update q.jobs jobId (some ⟨data, .completed now (q.completed + 1)⟩)
        completed := q.completed + 1
        sent := q.sent ++ [data.orderId] }
  | _ => none

/-- The attempt fails. -/
def attemptFails (now : ℕ) (jobId : String) (q : Queue) : Option Queue :=
  match q.jobs jobId with
  | some ⟨data, .waiting made⟩ =>
      some { q with
        jobs := Function.update q.jobs jobId
          (some ⟨data, if made + 1 < attempts then .waiting (made + 1) else .failed now⟩) }
  | _ => none

/-! ## The consumer and the queue -/

structure St where
  consumer : Consumer.St
  queue : Queue

def St.now (s : St) : ℕ := s.consumer.shared.now

/-- A step of the consumer, of the worker, or of a job of another name. `added`: the job is
added although `queue.add` fails. -/
inductive Label where
  | consumer (l : Consumer.Label) (added : Bool)
  | attemptFails (jobId : String)
  | complete (jobId : String)
  | otherCompletes

/-- The data of `enqueueReceipt` in `afterEffect`. -/
def receiptData (event : ParsedEvent) : SendReceiptData :=
  { orderId := event.orderId, userId := event.userId, totalCents := event.totalCents }

/-- The call of `enqueueReceipt` that the step makes. -/
def enqueues (s : St) : Label → Option SendReceiptData
  | .consumer (.call i .run) _ =>
      match s.consumer.proc i with
      | .effect dl _ => some (receiptData dl.event)
      | _ => none
  | .consumer (.call i (.fail _)) true =>
      match s.consumer.proc i with
      | .effect dl _ => some (receiptData dl.event)
      | _ => none
  | _ => none

/-- The queue after the call, if there is one. -/
def St.enqueue (s : St) (l : Label) : Queue :=
  match enqueues s l with
  | none => s.queue
  | some data => enqueueReceipt s.now data s.queue

def next (s : St) : Label → Option St
  | .consumer l added =>
      (Consumer.machine.next s.consumer l).map fun c => ⟨c, s.enqueue (.consumer l added)⟩
  | .attemptFails jobId =>
      (attemptFails s.now jobId s.queue).map fun q => { s with queue := q }
  | .complete jobId => (complete s.now jobId s.queue).map fun q => { s with queue := q }
  | .otherCompletes =>
      some { s with queue := { s.queue with completed := s.queue.completed + 1 } }

/-- `REDIS_QUEUE_URL` is set, and nothing was ever enqueued. -/
def machine : Machine St Label where
  Init s := Consumer.machine.Init s.consumer ∧ s.consumer.shared.afterEffect = true ∧
    (∀ k, s.queue.jobs k = none) ∧ s.queue.sent = []
  next := next

/-- A call of `enqueueReceipt` finds the receipt of its order at most a day old, with at most
10 000 jobs completed after it. -/
def Timely (s : St) (l : Label) : Prop :=
  ∀ data, enqueues s l = some data → ∀ old at₀ n,
    s.queue.jobs (receiptJobId data.orderId) = some ⟨old, .completed at₀ n⟩ →
    s.now ≤ at₀ + completeAge ∧ s.queue.completed ≤ n + completeCount

/-! ## One receipt -/

/-- Every order has at most one completed receipt, and its record is still the job of the order;
a record is under the id of its order. -/
structure OneReceipt (q : Queue) : Prop where
  once : ∀ o, q.sent.count o ≤ 1
  record : ∀ o ∈ q.sent, ∃ old at₀ n, q.jobs (receiptJobId o) = some ⟨old, .completed at₀ n⟩
  named : ∀ k job, q.jobs k = some job → k = receiptJobId job.data.orderId

/-- `queue.add` keeps it if the receipt of the order, where there is one, is found: the job is
then not added again. -/
theorem OneReceipt.add {q : Queue} {now : ℕ} {data : SendReceiptData} (h : OneReceipt q)
    (hkept : ∀ old at₀ n, q.jobs (receiptJobId data.orderId) = some ⟨old, .completed at₀ n⟩ →
      now ≤ at₀ + completeAge ∧ q.completed ≤ n + completeCount) :
    OneReceipt (enqueueReceipt now data q) := by
  unfold enqueueReceipt Receipts.add
  split
  · exact h
  · next hgone =>
      refine ⟨h.once, ?_, ?_⟩
      · intro o ho
        rcases h.record o ho with ⟨old, at₀, n, hjob⟩
        -- the record of a sent receipt is kept, so it is not this id that is free
        have hne : receiptJobId o ≠ receiptJobId data.orderId := by
          intro heq
          rw [heq] at hjob
          apply hgone
          rw [hjob]
          exact decide_eq_true (hkept old at₀ n hjob)
        exact ⟨old, at₀, n, (Function.update_of_ne hne _ _).trans hjob⟩
      · intro k job hjob
        dsimp only at hjob
        by_cases hk : k = receiptJobId data.orderId
        · subst hk
          rw [Function.update_self] at hjob
          cases hjob
          rfl
        · rw [Function.update_of_ne hk] at hjob
          exact h.named k job hjob

/-- A job that waits is not the receipt of an order that has one. -/
theorem OneReceipt.not_waiting {q : Queue} {k o : String} {data : SendReceiptData} {made : ℕ}
    (h : OneReceipt q) (hjob : q.jobs k = some ⟨data, .waiting made⟩) (ho : o ∈ q.sent) :
    receiptJobId o ≠ k := by
  rintro rfl
  rcases h.record o ho with ⟨old, at₀, n, hold⟩
  rw [hjob] at hold
  cases hold

/-- A completed job is the first receipt of its order, because a waiting job is not the record of
a sent one. -/
theorem OneReceipt.complete {q q' : Queue} {now : ℕ} {k : String} (h : OneReceipt q)
    (hc : Receipts.complete now k q = some q') : OneReceipt q' := by
  unfold Receipts.complete at hc
  split at hc
  · next data made hjob =>
      cases hc
      have hk : k = receiptJobId data.orderId := h.named k _ hjob
      have hnew : data.orderId ∉ q.sent := fun ho => h.not_waiting hjob ho hk.symm
      refine ⟨?_, ?_, ?_⟩
      · intro o
        rw [List.count_append, List.count_singleton]
        split
        · next heq =>
            rw [← eq_of_beq heq, List.count_eq_zero_of_not_mem hnew]
        · exact h.once o
      · intro o ho
        rcases List.mem_append.mp ho with ho | ho
        -- the receipts sent before keep their records
        · rcases h.record o ho with ⟨old, at₀, n, hold⟩
          exact ⟨old, at₀, n, (Function.update_of_ne (h.not_waiting hjob ho) _ _).trans hold⟩
        · rw [List.mem_singleton.mp ho, ← hk]
          exact ⟨data, now, q.completed + 1, Function.update_self _ _ _⟩
      · intro k' job hjob'
        dsimp only at hjob'
        by_cases hk' : k' = k
        · subst hk'
          rw [Function.update_self] at hjob'
          cases hjob'
          exact hk
        · rw [Function.update_of_ne hk'] at hjob'
          exact h.named k' job hjob'
  · cases hc

/-- A failed attempt sends nothing; the job waits on, or fails for good, under the same id. -/
theorem OneReceipt.attemptFails {q q' : Queue} {now : ℕ} {k : String} (h : OneReceipt q)
    (hf : Receipts.attemptFails now k q = some q') : OneReceipt q' := by
  unfold Receipts.attemptFails at hf
  split at hf
  · next data made hjob =>
      cases hf
      refine ⟨h.once, ?_, ?_⟩
      · intro o ho
        rcases h.record o ho with ⟨old, at₀, n, hold⟩
        exact ⟨old, at₀, n, (Function.update_of_ne (h.not_waiting hjob ho) _ _).trans hold⟩
      · intro k' job hjob'
        dsimp only at hjob'
        by_cases hk' : k' = k
        · subst hk'
          rw [Function.update_self] at hjob'
          cases hjob'
          have hk := h.named k' ⟨data, .waiting made⟩ hjob
          exact hk
        · rw [Function.update_of_ne hk'] at hjob'
          exact h.named k' job hjob'
  · cases hf

/-- Every timely step of consumer and queue keeps it. -/
theorem OneReceipt.next {s t : St} {l : Label} (h : OneReceipt s.queue) (hok : Timely s l)
    (hn : machine.next s l = some t) : OneReceipt t.queue := by
  cases l with
  | consumer c added =>
      simp only [machine, Receipts.next, Option.map_eq_some_iff] at hn
      rcases hn with ⟨c', -, rfl⟩
      change OneReceipt (s.enqueue (.consumer c added))
      unfold St.enqueue
      split
      · exact h
      · next data hdata => exact h.add (hok data hdata)
  | attemptFails k =>
      simp only [machine, Receipts.next, Option.map_eq_some_iff] at hn
      rcases hn with ⟨q, hq, rfl⟩
      exact h.attemptFails hq
  | complete k =>
      simp only [machine, Receipts.next, Option.map_eq_some_iff] at hn
      rcases hn with ⟨q, hq, rfl⟩
      exact h.complete hq
  | otherCompletes =>
      cases hn
      exact ⟨h.once, h.record, h.named⟩

/-- If every call of `enqueueReceipt` finds the completed receipt of its order still in the
queue, every order gets at most one. -/
theorem one_receipt {s₀ s : St} {as : List Label} (hinit : machine.Init s₀)
    (hr : machine.Run Timely s₀ as s) (orderId : String) : s.queue.sent.count orderId ≤ 1 := by
  rcases hinit with ⟨-, -, hjobs, hsent⟩
  have h₀ : OneReceipt s₀.queue := by
    refine ⟨?_, ?_, ?_⟩
    · intro o
      rw [hsent]
      exact Nat.zero_le 1
    · intro o ho
      rw [hsent] at ho
      cases ho
    · intro k job hjob
      rw [hjobs] at hjob
      cases hjob
  have h := hr.invariant (P := fun s => OneReceipt s.queue)
    (fun _ _ _ hok hn hp => OneReceipt.next hp hok hn) h₀
  exact h.once orderId

/-! ## Two deliveries -/

def emptyStart : St := ⟨Consumer.emptyStart, ⟨fun _ => none, 0, []⟩⟩

theorem emptyStart_init : machine.Init emptyStart :=
  ⟨Consumer.emptyStart_init, rfl, fun _ => rfl, rfl⟩

def onConsumer (l : Consumer.Label) : Label := .consumer l false

/-- The first handler crashes between `afterEffect` and `ack`; the receipt is sent. -/
def firstDelivery : List Label :=
  [.env (.publish Consumer.oneEvent), .call 0 (.deliver 0), .call 0 .run, .call 0 .run,
    .call 0 .run, .call 0 .run, .call 0 .run, .call 0 .run, .call 0 .abort].map onConsumer ++
  [.complete "receipt-1"]

/-- The message comes back after `wait`, and the mark is found. -/
def secondDelivery (wait : ℕ) : List Label :=
  [.env (.returned 0 true), .env (.tick wait), .call 1 (.deliver 0), .call 1 .run, .call 1 .run,
    .call 1 .run, .call 1 .run, .call 1 .run].map onConsumer

/-- Redelivered after a day, the order gets a second receipt. -/
theorem second_receipt :
    ¬ ∀ s, machine.Reachable s → ∀ orderId, s.queue.sent.count orderId ≤ 1 := by
  intro hall
  have hrun : ((machine.exec (fun _ _ => true) emptyStart
      (firstDelivery ++ secondDelivery (completeAge + 1) ++ [.complete "receipt-1"])).map
        fun s => s.queue.sent) = some ["1", "1"] := by
    decide +kernel
  rw [Option.map_eq_some_iff] at hrun
  rcases hrun with ⟨s, hexec, hsent⟩
  have hle := hall s ⟨emptyStart, _, emptyStart_init, Machine.exec_always hexec⟩ "1"
  rw [hsent] at hle
  revert hle
  decide +kernel

/-- `Timely`, evaluated. -/
def isTimely (s : St) (l : Label) : Bool :=
  match enqueues s l with
  | none => true
  | some data =>
      match s.queue.jobs (receiptJobId data.orderId) with
      | some ⟨_, .completed at₀ n⟩ =>
          decide (s.now ≤ at₀ + completeAge ∧ s.queue.completed ≤ n + completeCount)
      | _ => true

/-- The decision procedure of the example is right: what it accepts is timely. -/
theorem isTimely_ok (s : St) (l : Label) (h : isTimely s l = true) : Timely s l := by
  intro data hdata old at₀ n hjob
  unfold isTimely at h
  rw [hdata] at h
  dsimp only at h
  rw [hjob] at h
  exact of_decide_eq_true h

/-- Redelivered within the day, the order keeps its one receipt. -/
theorem one_receipt_redelivered : ∃ s, machine.Run Timely emptyStart
      (firstDelivery ++ secondDelivery completeAge) s ∧
    s.queue.sent.length = 1 ∧ s.queue.sent.count "1" ≤ 1 := by
  have hrun : ((machine.exec isTimely emptyStart (firstDelivery ++ secondDelivery completeAge)).map
      fun s => s.queue.sent.length) = some 1 := by
    decide +kernel
  rw [Option.map_eq_some_iff] at hrun
  rcases hrun with ⟨s, hexec, hlen⟩
  have hr := Machine.exec_run isTimely_ok hexec
  exact ⟨s, hr, hlen, one_receipt emptyStart_init hr "1"⟩

end Marketplace.Outbox.Receipts

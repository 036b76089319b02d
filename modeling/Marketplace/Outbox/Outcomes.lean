import Marketplace.Outbox.Consumer

/-!
# Outbox.Outcomes — what one delivery does to the counters and the channel

`handle` and `withLocalRetry` of `src/outbox/consumer.ts`, between two awaits at a time. Here
the database is a list of results, `afterEffect` may fulfil, reject or throw, and every call on
the channel may throw; the transactions themselves are `Outbox.Consumer`.

* a handler runs from one await to the next in one step, so the counters of handlers that
  overlap are never lost;
* `calls` and `started` are ghosts: the calls on the channel that were attempted, and the
  handlers that took a delivery.
-/

namespace Marketplace.Outbox.Outcomes

open Core

/-! ## One handler -/

/-- A call that settles a delivery. -/
inductive Settling where
  | ack
  | rejectRequeue
  | reject
  | nack
deriving DecidableEq, Repr

/-- What the catch block is given: an `AfterEffectError`, or any other value. -/
inductive Thrown where
  | afterEffect
  | other (err : Err)

/-- The header `x-delivery-count`. A number may be no finite one; of any other value (a missing
one included) only what `Number` makes of it matters, and `Number` throws on an object without
a primitive value. -/
inductive CountHeader where
  | number (n : Option ℚ)
  | value (number : Except Err (Option ℚ))

structure Message where
  content : Option Json
  count : CountHeader
  redelivered : Bool

/-- What each call on the channel throws, at one moment. -/
structure Channel where
  ack : Option Err
  reject : Option Err
  nack : Option Err

/-- The counters, and the calls attempted so far with the handler of each. -/
structure Book where
  stats : ConsumerStats
  calls : List (ℕ × Settling)
  started : List ℕ

/-- Where a handler is: `applying` in an attempt of `withLocalRetry`, `effect` in `afterEffect`,
at its end, or rejected with an error. -/
inductive Pc where
  | idle
  | applying (msg : Message) (attempt : ℕ)
  | effect (msg : Message) (applied : Bool)
  | done
  | rejected (err : Err)

def Pc.Open : Pc → Prop
  | .applying _ _ | .effect _ _ => True
  | _ => False

/-- How `afterEffect` ends. `threw` is a call that throws before it returns a promise, and a
rejection that cannot be turned into a text. -/
inductive EffectResult where
  | fulfilled
  | rejected
  | threw (err : Err)

/-- What a handler waits for. -/
inductive Event where
  | deliver (msg : Message)
  | applied (result : Except Err Bool)
  | effect (result : EffectResult)

/-- The counters a delivery can end in. -/
inductive Counter where
  | applied | skipped | rejected | requeued | failed
deriving DecidableEq, Repr

def count (s : ConsumerStats) : Counter → ConsumerStats
  | .applied => { s with applied := s.applied + 1 }
  | .skipped => { s with skipped := s.skipped + 1 }
  | .rejected => { s with rejected := s.rejected + 1 }
  | .requeued => { s with requeued := s.requeued + 1 }
  | .failed => { s with failed := s.failed + 1 }

def Book.count (b : Book) (c : Counter) : Book := { b with stats := Outcomes.count b.stats c }

def Book.attempt (b : Book) (i : ℕ) (call : Settling) : Book :=
  { b with calls := b.calls ++ [(i, call)] }

/-- `stats.deliveries += 1`. -/
def Book.deliver (b : Book) (i : ℕ) : Book :=
  { b with stats.deliveries := b.stats.deliveries + 1, started := b.started ++ [i] }

/-- `safely`: whatever the call throws is dropped. -/
def safely (_thrown : Option Err) : Option Err := none

/-- The end of a branch whose last call threw, or did not. -/
def ended : Option Err → Pc
  | none => .done
  | some err => .rejected err

def deliveryCount (msg : Message) : Except Err ℚ :=
  let number : Except Err (Option ℚ) := match msg.count with
    | .number n => .ok n
    | .value number => number
  number.map fun n => n.getD (if msg.redelivered then 1 else 0)

/-- `isTransientDbError(err) || err instanceof AfterEffectError`. -/
def transient : Thrown → Bool
  | .afterEffect => true
  | .other err => isTransientDbError err

/-- The catch block of `handle`. -/
def handleError (i : ℕ) (ch : Channel) (msg : Message) (err : Thrown) (b : Book) : Book × Pc :=
  let fail := ((b.count .failed).attempt i .nack, ended (safely ch.nack))
  if transient err then
    match deliveryCount msg with
    -- thrown inside the catch block
    | .error err => (b, .rejected err)
    | .ok n =>
        if n < consumerMaxRedeliveries then
          ((b.count .requeued).attempt i .rejectRequeue, ended (safely ch.reject))
        else fail
  else fail

/-- The try block from the counters on, and its catch block. -/
def conclude (i : ℕ) (ch : Channel) (msg : Message) : Except Thrown Bool → Book → Book × Pc
  | .error err, b => handleError i ch msg err b
  | .ok applied, b =>
      let b := (b.count (if applied then .applied else .skipped)).attempt i .ack
      match ch.ack with
      | none => (b, .done)
      | some err => handleError i ch msg (.other err) b

/-- How the try block goes on: it waits again, or comes to its counters or its catch block. -/
inductive Next where
  | wait (pc : Pc)
  | leave (msg : Message) (result : Except Thrown Bool)

/-- One result of `applyOrderPlaced`, in `withLocalRetry` and after it. -/
def applyResult (withEffect : Bool) (msg : Message) (attempt : ℕ) : Except Err Bool → Next
  | .ok applied => if withEffect then .wait (.effect msg applied) else .leave msg (.ok applied)
  | .error err =>
      if !isTransientDbError err || consumerLocalAttempts ≤ attempt then
        .leave msg (.error (.other err))
      else .wait (.applying msg (attempt + 1))

def effectResult (msg : Message) (applied : Bool) : EffectResult → Next
  | .fulfilled => .leave msg (.ok applied)
  | .rejected => .leave msg (.error .afterEffect)
  | .threw err => .leave msg (.error (.other err))

/-- The try block of `handle`, with the promise it waits for settled. -/
def resume (withEffect : Bool) : Pc → Event → Option Next
  | .applying msg attempt, .applied result => some (applyResult withEffect msg attempt result)
  | .effect msg applied, .effect result => some (effectResult msg applied result)
  | _, _ => none

/-- `handle`, up to its first await. -/
def receive (i : ℕ) (ch : Channel) (msg : Message) (b : Book) : Book × Pc :=
  let b := b.deliver i
  match parseOrderPlacedEvent msg.content with
  | none => ((b.count .rejected).attempt i .reject, ended (safely ch.reject))
  | some _ => (b, .applying msg 1)

def proceed (i : ℕ) (ch : Channel) (b : Book) : Next → Book × Pc
  | .wait pc => (b, pc)
  | .leave msg result => conclude i ch msg result b

/-- One handler, from one await to the next, on the channel as it is at that moment. -/
def stmt (withEffect : Bool) (i : ℕ) (b : Book) : Pc → Event × Channel → Option (Book × Pc)
  | .idle, (.deliver msg, ch) => some (receive i ch msg b)
  | pc, (event, ch) => (resume withEffect pc event).map (proceed i ch b)

/-- A handler that has its delivery goes on with the try block, whatever it waits for. -/
theorem stmt_of_ne_idle {withEffect : Bool} {i : ℕ} {b : Book} {pc : Pc} {event : Event}
    {ch : Channel} (h : pc ≠ .idle) :
    stmt withEffect i b pc (event, ch) = (resume withEffect pc event).map (proceed i ch b) := by
  cases pc <;> first | exact absurd rfl h | (cases event <;> rfl)

/-! ## Any number of handlers -/

def procs (withEffect : Bool) : Procs ℕ Book Pc (Event × Channel) Empty where
  Init b := b = ⟨emptyStats, [], []⟩
  idle := .idle
  stmt := stmt withEffect
  env _ e := e.elim

abbrev machine (withEffect : Bool) : Machine (World ℕ Book Pc) (Act ℕ (Event × Channel) Empty) :=
  (procs withEffect).machine

/-! ## One whole run of handle -/

/-- What a run of `handle` meets: a message, the result of each attempt, how `afterEffect` ends
where it is set, and the channel when it is called. -/
structure Delivery where
  msg : Message
  db : ℕ → Except Err Bool
  withEffect : Bool
  effect : EffectResult
  ch : Channel

def Delivery.answer (dl : Delivery) : Pc → Event
  | .applying _ attempt => .applied (dl.db attempt)
  | .effect _ _ => .effect dl.effect
  | _ => .deliver dl.msg

/-- A delivery is taken, and each await is answered. -/
def Delivery.steps (dl : Delivery) (i : ℕ) : ℕ → Book × Pc → Book × Pc
  | 0, r => r
  | n + 1, (b, pc) =>
      match stmt dl.withEffect i b pc (dl.answer pc, dl.ch) with
      | none => (b, pc)
      | some r => dl.steps i n r

/-- `handle`: the delivery, three attempts and `afterEffect` at most. -/
def Delivery.handle (dl : Delivery) (i : ℕ) (b : Book) : Book × Pc := dl.steps i 5 (b, .idle)

/-- `withLocalRetry`, `left` attempts before the last one. -/
def withLocalRetry (db : ℕ → Except Err Bool) : ℕ → ℕ → Except Err Bool
  | 0, attempt => db attempt
  | left + 1, attempt =>
      match db attempt with
      | .ok applied => .ok applied
      | .error err =>
          if isTransientDbError err then withLocalRetry db left (attempt + 1) else .error err

/-- How the try block comes to its end, given the end of `withLocalRetry`. -/
def Delivery.after (dl : Delivery) : Except Err Bool → Except Thrown Bool
  | .error err => .error (.other err)
  | .ok applied =>
      if dl.withEffect then
        match dl.effect with
        | .fulfilled => .ok applied
        | .rejected => .error .afterEffect
        | .threw err => .error (.other err)
      else .ok applied

def Delivery.result (dl : Delivery) : Except Thrown Bool :=
  dl.after (withLocalRetry dl.db (consumerLocalAttempts - 1) 1)

/-! ## Exactly one outcome -/

/-- One counter was raised, one call attempted, and the handler has returned. -/
def OneOutcome (i : ℕ) (b : Book) (r : Book × Pc) : Prop :=
  ∃ c call, r = ((b.count c).attempt i call, .done)

/-- `ack` does not throw where it is reached, and the delivery count can be read where the
catch block reads it. -/
def Clear (ch : Channel) (msg : Message) : Except Thrown Bool → Prop
  | .ok _ => ch.ack = none
  | .error err => transient err = true → ∃ n, deliveryCount msg = .ok n

def Delivery.Clear (dl : Delivery) : Prop :=
  parseOrderPlacedEvent dl.msg.content ≠ none → Outcomes.Clear dl.ch dl.msg dl.result

section

variable {i : ℕ} {b : Book} {ch : Channel} {msg : Message} {err : Thrown}
  {result : Except Thrown Bool}

/-- The catch block gives a delivery its outcome if the error is permanent, or if the delivery
count can be read. -/
theorem handleError_clear (h : transient err = true → ∃ n, deliveryCount msg = .ok n) :
    OneOutcome i b (handleError i ch msg err b) := by
  unfold handleError
  by_cases ht : transient err = true
  · obtain ⟨n, hn⟩ := h ht
    rw [if_pos ht, hn]
    by_cases hlt : n < consumerMaxRedeliveries
    · exact ⟨.requeued, .rejectRequeue, by simp only [if_pos hlt]; rfl⟩
    · exact ⟨.failed, .nack, by simp only [if_neg hlt]; rfl⟩
  · rw [if_neg ht]
    exact ⟨.failed, .nack, rfl⟩

/-- A transient error with a delivery count that cannot be read: `Number` throws inside the catch
block, nothing is counted and nothing settled. -/
theorem handleError_stuck {e : Err} (ht : transient err = true)
    (hcount : deliveryCount msg = .error e) :
    handleError i ch msg err b = (b, .rejected e) := by
  unfold handleError
  rw [if_pos ht, hcount]

/-- Whatever else happens, the handler is over. -/
theorem handleError_over :
    (handleError i ch msg err b).2 = .done ∨ ∃ e, (handleError i ch msg err b).2 = .rejected e := by
  by_cases h : transient err = true → ∃ n, deliveryCount msg = .ok n
  · have hone : OneOutcome i b (handleError i ch msg err b) := handleError_clear h
    obtain ⟨c, call, heq⟩ := hone
    exact Or.inl (by rw [heq])
  · simp only [not_forall, not_exists] at h
    obtain ⟨ht, hn⟩ := h
    cases hcount : deliveryCount msg with
    | ok n => exact absurd hcount (hn n)
    | error e => exact Or.inr ⟨e, by rw [handleError_stuck ht hcount]⟩

/-- The end of the try block gives the delivery one outcome exactly if `ack` does not throw after
a success, or the count can be read after a transient error. -/
theorem conclude_iff : OneOutcome i b (conclude i ch msg result b) ↔ Clear ch msg result := by
  cases result with
  | error err =>
      constructor
      · intro h ht
        cases hcount : deliveryCount msg with
        | ok n => exact ⟨n, rfl⟩
        | error e =>
            obtain ⟨c, call, heq⟩ := h
            rw [conclude, handleError_stuck ht hcount] at heq
            cases congrArg Prod.snd heq
      · exact handleError_clear
  | ok applied =>
      show OneOutcome i b (match ch.ack with | none => _ | some err => _) ↔ ch.ack = none
      cases hack : ch.ack with
      -- acknowledged, and that is all
      | none => exact ⟨fun _ => rfl, fun _ => ⟨_, .ack, rfl⟩⟩
      | some e =>
          refine ⟨?_, fun h => by cases h⟩
          rintro ⟨c, call, heq⟩
          -- `ack` was attempted, and the catch block settles once more or rejects
          by_cases h : transient (.other e) = true → ∃ n, deliveryCount msg = .ok n
          · have hone : OneOutcome i ((b.count (if applied then .applied else .skipped)).attempt i
                .ack) (handleError i ch msg (.other e) _) := handleError_clear h
            obtain ⟨c', call', heq'⟩ := hone
            have hlen := congrArg (fun r : Book × Pc => r.1.calls.length) (heq'.symm.trans heq)
            simp [Book.attempt, Book.count] at hlen
          · simp only [not_forall, not_exists] at h
            obtain ⟨ht, hn⟩ := h
            cases hcount : deliveryCount msg with
            | ok n => exact absurd hcount (hn n)
            | error e' =>
                have hstuck := (handleError_stuck ht hcount).symm.trans heq
                cases congrArg Prod.snd hstuck

/-- At the end of the try block the handler is over: it has returned, or its promise is rejected.
-/
theorem conclude_over : (conclude i ch msg result b).2 = .done ∨
    ∃ e, (conclude i ch msg result b).2 = .rejected e := by
  cases result with
  | error err => exact handleError_over
  | ok applied =>
      unfold conclude
      cases ch.ack with
      | none => exact Or.inl rfl
      | some e => exact handleError_over

end

section

variable {dl : Delivery} {i : ℕ} {b : Book}

/-- A handler that is over takes no further step. -/
theorem steps_over {pc : Pc} (h : pc = .done ∨ ∃ e, pc = .rejected e) (n : ℕ) :
    dl.steps i n (b, pc) = (b, pc) := by
  cases n with
  | zero => rfl
  | succ n => rcases h with rfl | ⟨e, rfl⟩ <;> rfl

/-- The end of the try block, and nothing after it. -/
theorem steps_leave {pc : Pc} {msg : Message} {result : Except Thrown Bool} {n : ℕ}
    (hpc : pc ≠ .idle)
    (h : resume dl.withEffect pc (dl.answer pc) = some (.leave msg result)) :
    dl.steps i (n + 1) (b, pc) = conclude i dl.ch msg result b := by
  have hstmt : stmt dl.withEffect i b pc (dl.answer pc, dl.ch) =
      some (conclude i dl.ch msg result b) := by
    rw [stmt_of_ne_idle hpc, h]
    rfl
  rw [Delivery.steps, hstmt]
  exact steps_over conclude_over n

/-- Where the try block waits again, the run goes on from the new point with the same counters. -/
theorem steps_wait {pc pc' : Pc} {n : ℕ} (hpc : pc ≠ .idle)
    (h : resume dl.withEffect pc (dl.answer pc) = some (.wait pc')) :
    dl.steps i (n + 1) (b, pc) = dl.steps i n (b, pc') := by
  have hstmt : stmt dl.withEffect i b pc (dl.answer pc, dl.ch) = some (b, pc') := by
    rw [stmt_of_ne_idle hpc, h]
    rfl
  rw [Delivery.steps, hstmt]

/-- From an attempt that succeeds two steps lead to the end of the try block, with `afterEffect`
in between where it is set. -/
theorem steps_applied {msg : Message} {attempt n : ℕ} {applied : Bool}
    (h : dl.db attempt = .ok applied) :
    dl.steps i (n + 2) (b, .applying msg attempt) =
      conclude i dl.ch msg (dl.after (.ok applied)) b := by
  have hresume : resume dl.withEffect (.applying msg attempt) (dl.answer (.applying msg attempt)) =
      some (applyResult dl.withEffect msg attempt (.ok applied)) := by
    show some (applyResult _ _ _ (dl.db attempt)) = _
    rw [h]
  -- one await more, or straight to the counters
  by_cases hset : dl.withEffect = true
  · rw [applyResult, if_pos hset] at hresume
    rw [steps_wait (by simp) hresume, Delivery.after, if_pos hset]
    have heffect : resume dl.withEffect (.effect msg applied) (dl.answer (.effect msg applied)) =
        some (effectResult msg applied dl.effect) := rfl
    cases he : dl.effect <;> exact steps_leave (by simp) (heffect.trans (by rw [he]; rfl))
  · rw [applyResult, if_neg hset] at hresume
    rw [steps_leave (by simp) hresume, Delivery.after, if_neg hset]

/-- Induction over the attempts that are left. -/
theorem steps_applying {msg : Message} : ∀ left attempt : ℕ,
    attempt + left = consumerLocalAttempts →
      dl.steps i (left + 2) (b, .applying msg attempt) =
        conclude i dl.ch msg (dl.after (withLocalRetry dl.db left attempt)) b := by
  intro left
  induction left with
  -- the last attempt: any error leaves the try block
  | zero =>
      intro attempt hsum
      cases h : dl.db attempt with
      | ok applied => rw [steps_applied h, withLocalRetry, h]
      | error err =>
          have hresume : resume dl.withEffect (.applying msg attempt)
              (dl.answer (.applying msg attempt)) = some (.leave msg (.error (.other err))) := by
            show some (applyResult _ _ _ (dl.db attempt)) = _
            rw [h, applyResult, if_pos (by simp [← hsum])]
          rw [steps_leave (by simp) hresume, withLocalRetry, h]
          rfl
  | succ left ih =>
      intro attempt hsum
      cases h : dl.db attempt with
      | ok applied => rw [steps_applied h, withLocalRetry, h]
      | error err =>
          -- transient: the next attempt, by the hypothesis; permanent: the catch block
          by_cases ht : isTransientDbError err = true
          · have hresume : resume dl.withEffect (.applying msg attempt)
                (dl.answer (.applying msg attempt)) =
                  some (.wait (.applying msg (attempt + 1))) := by
              show some (applyResult _ _ _ (dl.db attempt)) = _
              rw [h, applyResult, if_neg (by simp [ht]; omega)]
            rw [steps_wait (by simp) hresume, ih (attempt + 1) (by omega), withLocalRetry, h]
            simp [ht]
          · have hresume : resume dl.withEffect (.applying msg attempt)
                (dl.answer (.applying msg attempt)) = some (.leave msg (.error (.other err))) := by
              show some (applyResult _ _ _ (dl.db attempt)) = _
              rw [h, applyResult, if_pos (by simp [ht])]
            rw [steps_leave (by simp) hresume, withLocalRetry, h]
            simp [ht, Delivery.after]

/-- A message that is no event is rejected at once, and that is its outcome. -/
theorem handle_malformed (h : parseOrderPlacedEvent dl.msg.content = none) :
    dl.handle i b = (((b.deliver i).count .rejected).attempt i .reject, .done) := by
  have hstmt : stmt dl.withEffect i b .idle (dl.answer .idle, dl.ch) =
      some (((b.deliver i).count .rejected).attempt i .reject, .done) := by
    show some (receive i dl.ch dl.msg b) = _
    rw [receive, h]
    rfl
  rw [Delivery.handle, Delivery.steps, hstmt]
  exact steps_over (Or.inl rfl) 4

/-- The run of `handle` on an event is `withLocalRetry`, then `afterEffect`, then the counters or
the catch block. -/
theorem handle_wellFormed (h : parseOrderPlacedEvent dl.msg.content ≠ none) :
    dl.handle i b = conclude i dl.ch dl.msg dl.result (b.deliver i) := by
  obtain ⟨event, hevent⟩ := Option.ne_none_iff_exists'.mp h
  have hstmt : stmt dl.withEffect i b .idle (dl.answer .idle, dl.ch) =
      some (b.deliver i, .applying dl.msg 1) := by
    show some (receive i dl.ch dl.msg b) = _
    rw [receive, hevent]
  rw [Delivery.handle, Delivery.steps, hstmt]
  exact steps_applying 2 1 rfl

/-- Exactly the clear deliveries have one outcome; a malformed message always is one. -/
theorem handle_iff : OneOutcome i (b.deliver i) (dl.handle i b) ↔ dl.Clear := by
  by_cases h : parseOrderPlacedEvent dl.msg.content = none
  · refine ⟨fun _ hne => absurd h hne, fun _ => ?_⟩
    exact ⟨.rejected, .reject, handle_malformed h⟩
  · rw [handle_wellFormed h, conclude_iff]
    exact ⟨fun hclear _ => hclear, fun hclear => hclear h⟩

end

/-! ## All handlers -/

/-- The step does not end a try block, or ends it clear. -/
def Heeded (withEffect : Bool) (s : World ℕ Book Pc) : Act ℕ (Event × Channel) Empty → Prop
  | .call i (event, ch) => ∀ msg result,
      resume withEffect (s.proc i) event = some (.leave msg result) → Clear ch msg result
  | .env _ => True

def outcomes (s : ConsumerStats) : ℕ := s.applied + s.skipped + s.rejected + s.requeued + s.failed

@[simp] theorem outcomes_count (b : Book) (c : Counter) :
    outcomes (b.count c).stats = outcomes b.stats + 1 := by
  cases c <;> simp only [Book.count, count, outcomes] <;> omega

@[simp] theorem deliveries_count (b : Book) (c : Counter) :
    (b.count c).stats.deliveries = b.stats.deliveries := by
  cases c <;> rfl

/-- Each handler that started has a delivery, each that is over a counter and a call. -/
structure Counted (s : World ℕ Book Pc) : Prop where
  deliveries : s.shared.stats.deliveries = s.shared.started.length
  outcomes : outcomes s.shared.stats = s.shared.calls.length
  started : s.shared.started.Nodup ∧ ∀ i, i ∈ s.shared.started ↔ s.proc i ≠ .idle
  settled : (s.shared.calls.map Prod.fst).Nodup ∧
    ∀ i, i ∈ s.shared.calls.map Prod.fst ↔ s.proc i = .done
  resolved : ∀ i err, s.proc i ≠ .rejected err

section

variable {s : World ℕ Book Pc} {i : ℕ}

/-- A handler that takes a delivery is one more that has started, and no other changes. -/
theorem Counted.deliver (h : Counted s) (hi : s.proc i = .idle) (msg : Message) :
    Counted ⟨s.shared.deliver i, Function.update s.proc i (.applying msg 1)⟩ := by
  constructor
  · show s.shared.stats.deliveries + 1 = (s.shared.started ++ [i]).length
    rw [h.deliveries, List.length_append, List.length_singleton]
  · exact h.outcomes
  · constructor
    · refine List.nodup_append.mpr ⟨h.started.1, List.nodup_singleton i, ?_⟩
      intro j hj k hk hjk
      obtain rfl := List.mem_singleton.mp hk
      exact (h.started.2 j).mp hj (hjk ▸ hi)
    · intro j
      show j ∈ s.shared.started ++ [i] ↔ Function.update s.proc i _ j ≠ .idle
      rw [List.mem_append, List.mem_singleton, h.started.2 j]
      by_cases hj : j = i
      · simp [hj]
      · simp [hj]
  · refine ⟨h.settled.1, ?_⟩
    intro j
    show j ∈ s.shared.calls.map Prod.fst ↔ Function.update s.proc i _ j = .done
    rw [h.settled.2 j]
    by_cases hj : j = i
    · simp [hj, hi]
    · simp [hj]
  · intro j err
    show Function.update s.proc i _ j ≠ .rejected err
    by_cases hj : j = i
    · simp [hj]
    · simpa [hj] using h.resolved j err

/-- A handler that waits again changes no count. -/
theorem Counted.wait (h : Counted s) (hi : (s.proc i).Open) {pc : Pc} (hpc : pc.Open) :
    Counted ⟨s.shared, Function.update s.proc i pc⟩ := by
  refine ⟨h.deliveries, h.outcomes, ⟨h.started.1, ?_⟩, ⟨h.settled.1, ?_⟩, ?_⟩
  · intro j
    show j ∈ s.shared.started ↔ Function.update s.proc i pc j ≠ .idle
    rw [h.started.2 j]
    by_cases hj : j = i
    · subst hj
      rw [Function.update_self]
      constructor <;> rintro - heq
      · simp [heq, Pc.Open] at hpc
      · simp [heq, Pc.Open] at hi
    · simp [hj]
  · intro j
    show j ∈ s.shared.calls.map Prod.fst ↔ Function.update s.proc i pc j = .done
    rw [h.settled.2 j]
    by_cases hj : j = i
    · subst hj
      rw [Function.update_self]
      constructor <;> intro heq
      · simp [heq, Pc.Open] at hi
      · simp [heq, Pc.Open] at hpc
    · simp [hj]
  · intro j err
    show Function.update s.proc i pc j ≠ .rejected err
    by_cases hj : j = i
    · subst hj
      rw [Function.update_self]
      intro heq
      simp [heq, Pc.Open] at hpc
    · simpa [hj] using h.resolved j err

/-- A handler that comes to its outcome adds one to the counters and one to the calls, and both
are its own. -/
theorem Counted.outcome (h : Counted s) (hi : (s.proc i).Open) {r : Book × Pc}
    (hr : OneOutcome i s.shared r) : Counted ⟨r.1, Function.update s.proc i r.2⟩ := by
  obtain ⟨c, call, rfl⟩ := hr
  have hnotIdle : s.proc i ≠ .idle := fun heq => by simp [heq, Pc.Open] at hi
  have hnotDone : s.proc i ≠ .done := fun heq => by simp [heq, Pc.Open] at hi
  constructor
  · exact (deliveries_count s.shared c).trans h.deliveries
  · show Outcomes.outcomes (s.shared.count c).stats = (s.shared.calls ++ [(i, call)]).length
    rw [outcomes_count, h.outcomes, List.length_append, List.length_singleton]
  -- it had started before
  · refine ⟨h.started.1, ?_⟩
    intro j
    show j ∈ s.shared.started ↔ Function.update s.proc i _ j ≠ .idle
    rw [h.started.2 j]
    by_cases hj : j = i
    · simp [hj, hnotIdle]
    · simp [hj]
  · show (((s.shared.calls ++ [(i, call)]).map Prod.fst).Nodup) ∧
      ∀ j, j ∈ (s.shared.calls ++ [(i, call)]).map Prod.fst ↔ Function.update s.proc i _ j = .done
    rw [List.map_append, List.map_singleton]
    constructor
    · refine List.nodup_append.mpr ⟨h.settled.1, List.nodup_singleton i, ?_⟩
      intro j hj k hk hjk
      obtain rfl := List.mem_singleton.mp hk
      exact hnotDone (hjk ▸ (h.settled.2 j).mp hj)
    · intro j
      rw [List.mem_append, List.mem_singleton, h.settled.2 j]
      by_cases hj : j = i
      · simp [hj]
      · simp [hj]
  · intro j err
    show Function.update s.proc i _ j ≠ .rejected err
    by_cases hj : j = i
    · simp [hj]
    · simpa [hj] using h.resolved j err

end

/-- What one step of a handler can do. -/
theorem stmt_cases {withEffect : Bool} {i : ℕ} {b : Book} {pc : Pc} {event : Event} {ch : Channel}
    {r : Book × Pc} (h : stmt withEffect i b pc (event, ch) = some r) :
    (pc = .idle ∧ ((∃ msg, r = (b.deliver i, .applying msg 1)) ∨ OneOutcome i (b.deliver i) r)) ∨
    (pc.Open ∧ ((∃ pc' : Pc, pc'.Open ∧ r = (b, pc')) ∨
      ∃ msg result, resume withEffect pc event = some (.leave msg result) ∧
        r = conclude i ch msg result b)) := by
  by_cases hidle : pc = .idle
  · subst hidle
    cases event with
    | deliver msg =>
        left
        refine ⟨rfl, ?_⟩
        obtain rfl : receive i ch msg b = r := by simpa [stmt] using h
        unfold receive
        cases parseOrderPlacedEvent msg.content with
        | none => exact Or.inr ⟨.rejected, .reject, rfl⟩
        | some parsed => exact Or.inl ⟨msg, rfl⟩
    | applied result => cases h
    | effect result => cases h
  · right
    rw [stmt_of_ne_idle hidle] at h
    obtain ⟨next, hnext, rfl⟩ := Option.map_eq_some_iff.mp h
    have hopen : pc.Open := by
      cases pc <;> first | exact trivial | (cases event <;> cases hnext)
    refine ⟨hopen, ?_⟩
    cases next with
    | leave msg result => exact Or.inr ⟨msg, result, hnext, rfl⟩
    | wait pc' =>
        -- it waits for the next attempt or for `afterEffect`
        refine Or.inl ⟨pc', ?_, rfl⟩
        cases pc with
        | applying msg attempt =>
            cases event with
            | applied result =>
                have hres : applyResult withEffect msg attempt result = .wait pc' :=
                  Option.some.inj hnext
                cases result with
                | ok applied =>
                    rw [applyResult] at hres
                    split at hres <;> cases hres
                    trivial
                | error err =>
                    rw [applyResult] at hres
                    split at hres <;> cases hres
                    trivial
            | deliver msg => cases hnext
            | effect result => cases hnext
        | effect msg applied =>
            cases event with
            | effect result => cases result <;> cases hnext
            | deliver msg => cases hnext
            | applied result => cases hnext
        | _ => exact hopen.elim

/-- Every step that ends no try block, or a clear one, keeps the counts. -/
theorem counted_step {withEffect : Bool} {s t : World ℕ Book Pc}
    {a : Act ℕ (Event × Channel) Empty} (hok : Heeded withEffect s a)
    (hn : (machine withEffect).next s a = some t) (h : Counted s) : Counted t := by
  cases a with
  | env e => exact e.elim
  | call i a =>
      obtain ⟨event, ch⟩ := a
      obtain ⟨b, pc, hst, rfl⟩ := Procs.next_call hn
      rcases stmt_cases hst with ⟨hidle, ⟨msg, hr⟩ | hone⟩ | ⟨hopen, ⟨pc', hpc', hr⟩ | hleave⟩
      · -- a delivery that is taken
        cases hr
        exact h.deliver hidle msg
      · -- a delivery that is rejected at once, as one that is taken and ends
        have htaken := h.deliver hidle ⟨none, .number none, false⟩
        have hend := htaken.outcome (i := i) (by simp [Pc.Open]) hone
        simpa using hend
      · cases hr
        exact h.wait hopen hpc'
      -- the try block ends, and is clear
      · obtain ⟨msg, result, hresume, hr⟩ := hleave
        have hone : OneOutcome i s.shared (b, pc) := hr ▸ conclude_iff.mpr (hok msg result hresume)
        exact h.outcome hopen hone

/-- So the counts hold in every run in which each try block ends clear. -/
theorem counted_run {withEffect : Bool} {s t : World ℕ Book Pc}
    {as : List (Act ℕ (Event × Channel) Empty)} (hinit : (machine withEffect).Init s)
    (hr : (machine withEffect).Run (Heeded withEffect) s as t) : Counted t := by
  refine hr.invariant (fun _ _ _ hok hn h => counted_step hok hn h) ?_
  obtain ⟨hbook, hidle⟩ := hinit
  have hbook : s.shared = ⟨emptyStats, [], []⟩ := hbook
  have hidle : ∀ i, s.proc i = .idle := hidle
  constructor
  · rw [hbook]
    rfl
  · rw [hbook]
    rfl
  · exact ⟨by simp [hbook], by simp [hbook, hidle]⟩
  · exact ⟨by simp [hbook], by simp [hbook, hidle]⟩
  · simp [hidle]

/-- When no handler is under way, the outcomes add up. -/
theorem Counted.balance {s : World ℕ Book Pc} (h : Counted s) (hover : ∀ i, ¬ (s.proc i).Open) :
    s.shared.stats.deliveries = Outcomes.outcomes s.shared.stats := by
  have hperm : s.shared.started.Perm (s.shared.calls.map Prod.fst) := by
    refine (List.perm_ext_iff_of_nodup h.started.1 h.settled.1).mpr ?_
    intro i
    rw [h.started.2 i, h.settled.2 i]
    have hover := hover i
    have hresolved := h.resolved i
    cases hi : s.proc i <;> simp_all [Pc.Open]
  rw [h.deliveries, h.outcomes, hperm.length_eq, List.length_map]

/-- `handle` has one outcome exactly when `ack` does not throw where it is reached and the
delivery count can be read where the catch block reads it. In every run of any number of
handlers that keeps to this, none is rejected, each that is over has settled its delivery once,
and the counters add up as soon as all are over. -/
theorem one_outcome_iff (dl : Delivery) (i : ℕ) (b : Book) :
    (OneOutcome i (b.deliver i) (dl.handle i b) ↔ dl.Clear) ∧
    ∀ (s t : World ℕ Book Pc) (as : List (Act ℕ (Event × Channel) Empty)),
      (machine dl.withEffect).Init s →
      (machine dl.withEffect).Run (Heeded dl.withEffect) s as t →
      (∀ i err, t.proc i ≠ .rejected err) ∧
      (∀ i, t.proc i = .done → (t.shared.calls.map Prod.fst).count i = 1) ∧
      ((∀ i, ¬ (t.proc i).Open) →
        t.shared.stats.deliveries = t.shared.stats.applied + t.shared.stats.skipped +
          t.shared.stats.rejected + t.shared.stats.requeued + t.shared.stats.failed) := by
  refine ⟨handle_iff, ?_⟩
  intro s t as hinit hr
  have h := counted_run hinit hr
  refine ⟨h.resolved, ?_, h.balance⟩
  intro i hi
  exact List.count_eq_one_of_mem h.settled.1 ((h.settled.2 i).mpr hi)

def emptyBook : Book := ⟨emptyStats, [], []⟩

def sampleEvent : OrderPlacedEvent := ⟨1, 0, 1, 1, 100, "UA", [⟨1, 1, 100⟩]⟩

/-- The effect is committed, and the channel has closed before `ack`. -/
def closing : Delivery where
  msg := ⟨some sampleEvent.toJson, .value (.ok none), false⟩
  db _ := .ok true
  withEffect := false
  effect := .fulfilled
  ch := ⟨some (.object none (some "Channel closed")), some (.object none (some "Channel closed")),
    some (.object none (some "Channel closed"))⟩

/-- One delivery, two counters and two calls. -/
theorem closed_channel_counts_twice :
    (closing.handle 0 emptyBook).1.stats = ⟨1, 1, 0, 0, 0, 1⟩ ∧
    (closing.handle 0 emptyBook).1.calls = [(0, .ack), (0, .nack)] ∧
    ¬ OneOutcome 0 (emptyBook.deliver 0) (closing.handle 0 emptyBook) := by
  have hparsed : parseOrderPlacedEvent closing.msg.content ≠ none := by
    rw [show closing.msg.content = some sampleEvent.toJson from rfl, parse_toJson]
    exact Option.some_ne_none _
  have hpermanent : transient (.other (.object none (some "Channel closed"))) = false := by decide
  have hconclude : conclude 0 closing.ch closing.msg (.ok true) (emptyBook.deliver 0) =
      handleError 0 closing.ch closing.msg (.other (.object none (some "Channel closed")))
        (((emptyBook.deliver 0).count .applied).attempt 0 .ack) := rfl
  have hhandle : closing.handle 0 emptyBook =
      (((((emptyBook.deliver 0).count .applied).attempt 0 .ack).count .failed).attempt 0 .nack,
        .done) := by
    rw [handle_wellFormed hparsed, show closing.result = .ok true from rfl, hconclude, handleError,
      hpermanent]
    rfl
  refine ⟨by rw [hhandle]; rfl, by rw [hhandle]; rfl, ?_⟩
  rintro ⟨c, call, heq⟩
  have hlen := congrArg (fun r : Book × Pc => r.1.calls.length) (hhandle.symm.trans heq)
  cases hlen

def sampleMessage : Message := ⟨some sampleEvent.toJson, .value (.ok none), false⟩

def malformedMessage : Message := ⟨none, .number none, false⟩

/-- Nothing throws on the channel. -/
def openChannel : Channel := ⟨none, none, none⟩

/-- Handler 0 retries after a serialization failure, applies its event, waits for `afterEffect`
and acknowledges; handler 1 meanwhile rejects a text that is no event. -/
def twoHandlers : List (Act ℕ (Event × Channel) Empty) :=
  [.call 0 (.deliver sampleMessage, openChannel), .call 1 (.deliver malformedMessage, openChannel),
    .call 0 (.applied (.error (pgError "40001")), openChannel),
    .call 0 (.applied (.ok true), openChannel), .call 0 (.effect .fulfilled, openChannel)]

/-- The run of the example: every step of it is one of the machine, and both handlers are over at
its end. -/
theorem twoHandlers_run : ∃ t : World ℕ Book Pc,
    (machine true).Run (Heeded true) ⟨emptyBook, fun _ => .idle⟩ twoHandlers t ∧
    t.proc 0 = .done ∧ t.proc 1 = .done ∧ (∀ j, j ≠ 0 → j ≠ 1 → t.proc j = .idle) ∧
    t.shared.stats = ⟨2, 1, 0, 1, 0, 0⟩ := by
  have hparsed : parseOrderPlacedEvent sampleMessage.content = some sampleEvent.parsed :=
    parse_toJson sampleEvent
  have hretry : applyResult true sampleMessage 1 (.error (pgError "40001")) =
      .wait (.applying sampleMessage 2) := by
    have htransient : isTransientDbError (pgError "40001") = true := by decide
    simp [applyResult, htransient, consumerLocalAttempts]
  -- one step on an open channel, which never spoils the end of a try block
  have step : ∀ (i : ℕ) (event : Event) {s : World ℕ Book Pc}
      {as : List (Act ℕ (Event × Channel) Empty)} {b : Book} {q q' : Pc},
      (machine true).Run (Heeded true) ⟨emptyBook, fun _ => .idle⟩ as s → s.proc i = q →
      stmt true i s.shared q (event, openChannel) = some (b, q') →
      (∀ msg err, resume true q event ≠ some (.leave msg (.error err))) →
      (machine true).Run (Heeded true) ⟨emptyBook, fun _ => .idle⟩
        (as ++ [.call i (event, openChannel)]) ⟨b, Function.update s.proc i q'⟩ := by
    intro i event s as b q q' hr hq hst herr
    refine hr.step ?_ (Procs.next_at (P := procs true) hq hst)
    intro msg result hleave
    rw [hq] at hleave
    cases result with
    | ok applied => rfl
    | error err => exact absurd hleave (herr msg err)
  have h₀ : (machine true).Run (Heeded true) ⟨emptyBook, fun _ => .idle⟩ []
    ⟨emptyBook, fun _ => .idle⟩ := Machine.Run.refl
  have hdelivered : stmt true 0 emptyBook .idle (.deliver sampleMessage, openChannel) =
      some (emptyBook.deliver 0, .applying sampleMessage 1) := by
    show some (receive 0 openChannel sampleMessage emptyBook) = _
    rw [receive, hparsed]
  have h₁ := step 0 (.deliver sampleMessage) h₀ rfl hdelivered nofun
  have h₂ := step 1 (.deliver malformedMessage) h₁ rfl rfl nofun
  have hagain : ∀ b, stmt true 0 b (.applying sampleMessage 1)
      (.applied (.error (pgError "40001")), openChannel) =
      some (b, .applying sampleMessage 2) := by
    intro b
    show some (proceed 0 openChannel b (applyResult true sampleMessage 1 _)) = _
    rw [hretry]
    rfl
  have hwaits : ∀ msg err, resume true (.applying sampleMessage 1)
      (.applied (.error (pgError "40001"))) ≠ some (.leave msg (.error err)) := by
    show ∀ msg err, some (applyResult true sampleMessage 1 _) ≠ _
    rw [hretry]
    exact nofun
  have h₃ := step 0 (.applied (.error (pgError "40001"))) h₂ rfl (hagain _) hwaits
  have h₄ := step 0 (.applied (.ok true)) h₃ rfl rfl nofun
  have h₅ := step 0 (.effect .fulfilled) h₄ rfl rfl nofun
  refine ⟨_, h₅, rfl, rfl, ?_, rfl⟩
  intro j h0 h1
  simp [h0, h1]

/-- Two handlers side by side: one applies its event and acknowledges it, one rejects a text. -/
theorem one_outcome_two_handlers : ∃ t : World ℕ Book Pc,
    (machine true).Run (Heeded true) ⟨emptyBook, fun _ => .idle⟩ twoHandlers t ∧
    t.proc 0 = .done ∧ (t.shared.calls.map Prod.fst).count 0 = 1 ∧
    t.proc 1 = .done ∧ (t.shared.calls.map Prod.fst).count 1 = 1 ∧
    t.shared.stats = ⟨2, 1, 0, 1, 0, 0⟩ ∧
    t.shared.stats.deliveries = t.shared.stats.applied + t.shared.stats.skipped +
      t.shared.stats.rejected + t.shared.stats.requeued + t.shared.stats.failed := by
  obtain ⟨t, hr, h₀, h₁, hidle, hstats⟩ := twoHandlers_run
  let dl : Delivery := ⟨sampleMessage, fun _ => .ok true, true, .fulfilled, openChannel⟩
  have hinit : (machine dl.withEffect).Init ⟨emptyBook, fun _ => .idle⟩ := ⟨rfl, fun _ => rfl⟩
  obtain ⟨-, hsettled, hbalance⟩ := (one_outcome_iff dl 0 emptyBook).2 _ t _ hinit hr
  refine ⟨t, hr, h₀, hsettled 0 h₀, h₁, hsettled 1 h₁, hstats, hbalance ?_⟩
  intro i
  by_cases hi₀ : i = 0
  · rw [hi₀, h₀]
    exact id
  by_cases hi₁ : i = 1
  · rw [hi₁, h₁]
    exact id
  rw [hidle i hi₀ hi₁]
  exact id

end Marketplace.Outbox.Outcomes

import Marketplace.Orders.Requests
import Marketplace.Outbox.ConsumerSafety
import Marketplace.Outbox.RelaySafety

/-!
# Outbox.Delivery — the relay, the broker and the consumer together

One system of the relay passes (`Outbox.Relay`), the consumer with its queue
(`Outbox.Consumer`) and `purgeOutbox` of `src/outbox/retention.ts`, on one clock.

* a message that the broker accepts from the relay arrives in the queue in the same step;
* `purgeOutbox` deletes rows and marks in batches, each older than its own retention period;
* `rows` are the outbox rows that were inserted, `acceptedAt` has the moment each message
  arrived in the queue, and `markedAt` the `processed_at` of each mark that was ever
  committed. No statement reads them.
-/

namespace Marketplace.Outbox.Delivery

open Core Auth Orders

/-- `7` days, as `OUTBOX_RETENTION_MS`. -/
def outboxRetention : ℕ := secs (7 * 24 * 60 * 60)

structure St where
  relay : Relay.St
  consumer : Consumer.St
  rows : List OutboxInsert
  acceptedAt : ℕ → ℕ
  markedAt : String → Option ℕ

def St.now (s : St) : ℕ := s.consumer.shared.now

/-- The row of the INSERT in `placeOrder`. -/
def toOutboxRow (row : OutboxInsert) : OutboxRow :=
  { id := row.id, aggregateType := "order", aggregateId := Nat.repr row.aggregateId
    type := orderPlaced, payload := row.payload.toJson, createdAt := row.createdAt
    publishedAt := none, attempts := 0, lastError := none }

inductive Label where
  | insert (row : OutboxInsert)
  | relay (i : ℕ) (a : Relay.Stmt)
  | accept (n : ℕ)
  | confirm (n : ℕ)
  | reject (n : ℕ) (message : String)
  | consumer (i : ℕ) (a : Consumer.Stmt)
  | publishMalformed (content : Option Json)
  | returned (i : ℕ) (counted : Bool)
  | purgeOutbox (cutoff : ℕ) (ids : List EventId)
  | purgeMarks (cutoff : ℕ) (keys : List String)
  | tick (dt : ℕ)

/-- The mark that the COMMIT of a handler makes. -/
def commitsMark : Consumer.Pc → Consumer.Stmt → Option String
  | .commit dl _, .run | .commit dl _, .failCommitted _ => some dl.event.eventId
  | _, _ => none

namespace St

def onRelay (l : Relay.Label) (s : St) : Option St :=
  (Relay.machine.next s.relay l).map fun r => { s with relay := r }

def onConsumer (l : Consumer.Label) (s : St) : Option St :=
  (Consumer.machine.next s.consumer l).map fun c => { s with consumer := c }

/-- The next message arrives in the queue. -/
def arrive (s : St) : St :=
  { s with acceptedAt := Function.update s.acceptedAt s.consumer.shared.broker.next s.now }

def noteMark (s : St) (i : ℕ) (a : Consumer.Stmt) : St :=
  match commitsMark (s.consumer.proc i) a with
  | none => s
  | some k =>
      { s with
        markedAt := Function.update s.markedAt k ((s.consumer.shared.processed k).view i) }

/-- The row of a message of the relay. -/
def rowOf (s : St) (n : ℕ) : Option OutboxInsert :=
  (s.relay.shared.sends n).bind fun send => s.rows.find? fun row => row.id == send.row.id

end St

/-- Event ids and orders go together. -/
def Fresh (row : OutboxInsert) (rows : List OutboxInsert) : Prop :=
  row.payload.eventId = row.id ∧ Consumer.Distinct row.payload (rows.map OutboxInsert.payload)

instance (row : OutboxInsert) (rows : List OutboxInsert) : Decidable (Fresh row rows) :=
  inferInstanceAs (Decidable (_ ∧ _))

def next (s : St) : Label → Option St
  | .insert row =>
      if Fresh row s.rows then
        St.onRelay (.env (.insert (toOutboxRow row))) { s with rows := s.rows ++ [row] }
      else none
  | .relay i a => s.onRelay (.call i a)
  | .accept n =>
      (s.rowOf n).bind fun row => (s.onRelay (.env (.accept n))).bind fun s' =>
        s'.arrive.onConsumer (.env (.publish row.payload))
  | .confirm n => s.onRelay (.env (.confirm n))
  | .reject n message => s.onRelay (.env (.reject n message))
  | .consumer i a => (s.noteMark i a).onConsumer (.call i a)
  | .publishMalformed content => s.arrive.onConsumer (.env (.publishMalformed content))
  | .returned i counted => s.onConsumer (.env (.returned i counted))
  | .purgeOutbox cutoff ids =>
      if cutoff + outboxRetention ≤ s.now then s.onRelay (.env (.purge cutoff ids)) else none
  | .purgeMarks cutoff keys => s.onConsumer (.env (.purge cutoff keys))
  | .tick dt => (s.onRelay (.env (.tick dt))).bind fun s' => s'.onConsumer (.env (.tick dt))

def machine : Machine St Label where
  Init s := Relay.machine.Init s.relay ∧ Consumer.machine.Init s.consumer ∧
    s.relay.shared.now = s.consumer.shared.now ∧ s.rows = [] ∧ ∀ k, s.markedAt k = none
  next := next

/-! ## The parts -/

variable {s t : St} {l : Label}

/-- A step of the relay within the system is one of its own machine; the consumer, the rows and
the moments stay. -/
theorem onRelay_spec {rl : Relay.Label} (h : s.onRelay rl = some t) :
    ∃ r, Relay.machine.next s.relay rl = some r ∧ t = { s with relay := r } := by
  unfold St.onRelay at h
  rw [Option.map_eq_some_iff] at h
  rcases h with ⟨r, hr, rfl⟩
  exact ⟨r, hr, rfl⟩

/-- A step of the consumer within the system is one of its own machine; the relay, the rows and
the moments stay. -/
theorem onConsumer_spec {cl : Consumer.Label} (h : s.onConsumer cl = some t) :
    ∃ c, Consumer.machine.next s.consumer cl = some c ∧ t = { s with consumer := c } := by
  unfold St.onConsumer at h
  rw [Option.map_eq_some_iff] at h
  rcases h with ⟨c, hc, rfl⟩
  exact ⟨c, hc, rfl⟩

/-- Noting the moment of a mark is no step of the relay. -/
theorem noteMark_relay (s : St) (i : ℕ) (a : Consumer.Stmt) : (s.noteMark i a).relay = s.relay := by
  unfold St.noteMark
  split <;> rfl

/-- Nor is it a step of the consumer, which does not know the note. -/
theorem noteMark_consumer (s : St) (i : ℕ) (a : Consumer.Stmt) :
    (s.noteMark i a).consumer = s.consumer := by
  unfold St.noteMark
  split <;> rfl

theorem noteMark_rows (s : St) (i : ℕ) (a : Consumer.Stmt) : (s.noteMark i a).rows = s.rows := by
  unfold St.noteMark
  split <;> rfl

/-- A step of the system is a step of the relay and of the consumer, or leaves them alone. -/
theorem next_parts (h : machine.next s l = some t) :
    (t.relay = s.relay ∨ ∃ rl, Relay.machine.next s.relay rl = some t.relay) ∧
      (t.consumer = s.consumer ∨ ∃ cl, Consumer.machine.next s.consumer cl = some t.consumer) := by
  have relayStep : ∀ {s t : St} {rl : Relay.Label}, s.onRelay rl = some t →
      (t.relay = s.relay ∨ ∃ rl, Relay.machine.next s.relay rl = some t.relay) ∧
        (t.consumer = s.consumer ∨
          ∃ cl, Consumer.machine.next s.consumer cl = some t.consumer) := by
    intro s t rl h
    rcases onRelay_spec h with ⟨r, hr, rfl⟩
    exact ⟨Or.inr ⟨rl, hr⟩, Or.inl rfl⟩
  have consumerStep : ∀ {s t : St} {cl : Consumer.Label}, s.onConsumer cl = some t →
      (t.relay = s.relay ∨ ∃ rl, Relay.machine.next s.relay rl = some t.relay) ∧
        (t.consumer = s.consumer ∨
          ∃ cl, Consumer.machine.next s.consumer cl = some t.consumer) := by
    intro s t cl h
    rcases onConsumer_spec h with ⟨c, hc, rfl⟩
    exact ⟨Or.inl rfl, Or.inr ⟨cl, hc⟩⟩
  cases l with
  | insert row =>
      simp only [machine, next] at h
      split at h
      · have hparts := relayStep h
        exact hparts
      · cases h
  | relay i a => exact relayStep h
  -- the only step of both: the message leaves the relay and arrives in the queue
  | accept n =>
      simp only [machine, next, Option.bind_eq_some_iff] at h
      rcases h with ⟨row, -, s', hs', h⟩
      rcases onRelay_spec hs' with ⟨r, hr, rfl⟩
      rcases onConsumer_spec h with ⟨c, hc, rfl⟩
      exact ⟨Or.inr ⟨_, hr⟩, Or.inr ⟨_, hc⟩⟩
  | confirm n => exact relayStep h
  | reject n message => exact relayStep h
  | consumer i a =>
      have hparts := consumerStep h
      rw [noteMark_relay, noteMark_consumer] at hparts
      exact hparts
  | publishMalformed content =>
      change s.arrive.onConsumer _ = some t at h
      have hparts := consumerStep h
      exact hparts
  | returned i counted =>
      change s.onConsumer (.env (.returned i counted)) = some t at h
      exact consumerStep h
  | purgeOutbox cutoff ids =>
      simp only [machine, next] at h
      split at h
      · exact relayStep h
      · cases h
  | purgeMarks cutoff keys => exact consumerStep h
  -- time passes for both alike
  | tick dt =>
      simp only [machine, next, Option.bind_eq_some_iff] at h
      rcases h with ⟨s', hs', h⟩
      rcases onRelay_spec hs' with ⟨r, hr, rfl⟩
      rcases onConsumer_spec h with ⟨c, hc, rfl⟩
      exact ⟨Or.inr ⟨_, hr⟩, Or.inr ⟨_, hc⟩⟩

end Marketplace.Outbox.Delivery

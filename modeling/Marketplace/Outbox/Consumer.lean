import Marketplace.Core.Broker
import Marketplace.Core.IntText
import Marketplace.Core.Procs
import Marketplace.Core.Sql
import Marketplace.Outbox.Codec
import Mathlib.Data.List.Infix

/-!
# Outbox.Consumer — the handler of order.placed, statement by statement

`src/outbox/consumer.ts` and `src/outbox/errors.ts`: any number of handlers at once, each on
one delivery of the broker.

* every statement of `applyOrderPlaced` may fail with any error, COMMIT also after it took
  effect (`failCommitted`), and a handler may crash anywhere (`abort`);
* a verdict on a channel that is dead is lost, or `ch.ack` throws. The delivery of a dead
  channel returns to the queue (`returned`), at any time;
* `published`, `applied` and `effects` are ghosts: the events that were published, the event
  ids whose mark was committed, and the messages for which `afterEffect` succeeded.
-/

namespace Marketplace.Outbox

open Core Auth

def consumerLocalAttempts : ℕ := 3
def consumerMaxRedeliveries : ℕ := 5

/-! ## Errors -/

/-- A thrown value: an object with its `code` and `message` where these are strings, or
anything else. -/
inductive Err where
  | object (code message : Option String)
  | other
deriving DecidableEq, Repr

def transientPgCodes : List String :=
  ["40001", "40P01", "53300", "55P03", "57P01", "57P02", "57P03"]

def transientNodeCodes : List String :=
  ["ECONNREFUSED", "ECONNRESET", "EPIPE", "ETIMEDOUT", "EAI_AGAIN"]

/-- `code.startsWith('08')`, or one of the known codes. -/
def transientCode (code : String) : Bool :=
  "08".toList.isPrefixOf code.toList || transientPgCodes.contains code ||
    transientNodeCodes.contains code

/-- `/Connection terminated|connection timeout|timeout exceeded when trying to connect/i`. -/
def transientMessage (message : String) : Bool :=
  ["connection terminated", "connection timeout", "timeout exceeded when trying to connect"].any
    fun text => decide (text.toList <:+: message.toList.map Char.toLower)

def isTransientDbError : Err → Bool
  | .object code message => code.any transientCode || message.any transientMessage
  | .other => false

def pgError (code : String) : Err := .object (some code) none

/-! ## Rows -/

/-- A row of `order_confirmations`; its key is the order id. -/
structure Confirmation where
  eventId : String
  userId : ℤ
  totalCents : ℤ
deriving DecidableEq, Repr

def castError : IntText.CastError → Err
  | .invalidSyntax => pgError "22P02"
  | .outOfRange => pgError "22003"

/-- A text parameter of a `bigint` column. -/
def castBigint (s : String) : Except Err ℤ := (IntText.int8in s.toList).mapError castError

/-- A number parameter of an `integer` column. The driver sends its text, which has an exponent
from `1e21` on. -/
def castInteger (q : ℚ) : Except Err ℤ :=
  if q.den = 1 ∧ q.num.natAbs < 10 ^ 21 then
    if Int4 q.num then .ok q.num else .error (castError .outOfRange)
  else .error (castError .invalidSyntax)

/-- The row of the INSERT, or the error of its casts and its CHECK. -/
def confirmationOf (event : ParsedEvent) : Except Err (ℤ × Confirmation) := do
  let orderId ← castBigint event.orderId
  let userId ← castBigint event.userId
  let totalCents ← castInteger event.totalCents
  if totalCents < 0 then .error (pgError "23514")
  else .ok (orderId, { eventId := event.eventId, userId, totalCents })

structure ConsumerStats where
  deliveries : ℕ
  applied : ℕ
  skipped : ℕ
  rejected : ℕ
  requeued : ℕ
  failed : ℕ
deriving DecidableEq, Repr

def emptyStats : ConsumerStats := ⟨0, 0, 0, 0, 0, 0⟩

namespace Consumer

abbrev Message := Item (Option Json)

/-- The tables of the consumer and the queue it reads. `processed` has the time of each mark;
`afterEffect` says whether the option is set. -/
structure Db where
  processed : Table ℕ String ℕ
  confirmations : Table ℕ ℤ Confirmation
  broker : Broker ℕ (Option Json)
  afterEffect : Bool
  stats : ConsumerStats
  now : ℕ
  published : List OrderPlacedEvent
  applied : List String
  effects : List ℕ

/-- A message and what its text says. -/
structure Delivery where
  msg : Message
  event : ParsedEvent

/-- Where a handler is. `attempt` counts the calls of `applyOrderPlaced`, and `at₀` is its
transaction's `now()`. -/
inductive Pc where
  | idle
  | connect (dl : Delivery) (attempt : ℕ)
  | begin (dl : Delivery) (attempt : ℕ)
  | mark (dl : Delivery) (attempt at₀ : ℕ)
  | rollbackSkip (dl : Delivery) (attempt : ℕ)
  | confirm (dl : Delivery) (attempt : ℕ)
  | commit (dl : Delivery) (attempt : ℕ)
  | rollback (dl : Delivery) (attempt : ℕ) (err : Err)
  | effect (dl : Delivery) (applied : Bool)
  | ack (dl : Delivery) (applied : Bool)
  /-- `reject` or `nack`; `closed` if the channel has thrown already. -/
  | settle (msg : Message) (verdict : Verdict) (closed : Bool)
  | done
  | aborted

/-- The handler runs. -/
def Pc.Open : Pc → Prop
  | .idle | .done | .aborted => False
  | _ => True

instance : DecidablePred Pc.Open := fun p => by
  cases p <;> first | exact isTrue trivial | exact isFalse id

/-- An action of a handler: it takes a message, runs its next statement, has that statement
fail, or crashes. -/
inductive Stmt where
  | deliver (n : ℕ)
  | run
  | fail (err : Err)
  /-- COMMIT took effect and was reported as failed. -/
  | failCommitted (err : Err)
  /-- The verdict was sent and is lost, or the channel is closed. -/
  | lost
  | abort
deriving DecidableEq, Repr

/-- `x-delivery-count` where the broker has set it. -/
def deliveryCount (msg : Message) : ℕ :=
  if msg.deliveryCount > 0 then msg.deliveryCount else if msg.redelivered then 1 else 0

def Db.commit (i : ℕ) (eventId : String) (d : Db) : Db :=
  { d with
    processed := d.processed.commit i
    confirmations := d.confirmations.commit i
    applied := d.applied ++ [eventId] }

def Db.rollback (i : ℕ) (d : Db) : Db :=
  { d with processed := d.processed.rollback i, confirmations := d.confirmations.rollback i }

/-- The catch block of `handle`. -/
def handleError (d : Db) (msg : Message) (isTransient closed : Bool) : Db × Pc :=
  if isTransient && deliveryCount msg < consumerMaxRedeliveries then
    ({ d with stats.requeued := d.stats.requeued + 1 }, .settle msg .requeue closed)
  else ({ d with stats.failed := d.stats.failed + 1 }, .settle msg .discard closed)

/-- `withLocalRetry`, when an attempt has thrown. -/
def attemptFailed (d : Db) (dl : Delivery) (attempt : ℕ) (err : Err) : Db × Pc :=
  if !isTransientDbError err || consumerLocalAttempts ≤ attempt then
    handleError d dl.msg (isTransientDbError err) false
  else (d, .connect dl (attempt + 1))

/-- `applyOrderPlaced` has returned. -/
def attemptDone (d : Db) (dl : Delivery) (applied : Bool) : Pc :=
  if d.afterEffect then .effect dl applied else .ack dl applied

/-- The counters before `ch.ack`. -/
def countApplied (d : Db) (applied : Bool) : Db :=
  if applied then { d with stats.applied := d.stats.applied + 1 }
  else { d with stats.skipped := d.stats.skipped + 1 }

/-- `handle`, up to the verdict on a message that cannot be parsed. -/
def receive (d : Db) (msg : Message) : Db × Pc :=
  match parseOrderPlacedEvent msg.content with
  | none =>
      ({ d with
          stats.deliveries := d.stats.deliveries + 1
          stats.rejected := d.stats.rejected + 1 },
        .settle msg .discard false)
  | some event => ({ d with stats.deliveries := d.stats.deliveries + 1 }, .connect ⟨msg, event⟩ 1)

def stmt (i : ℕ) (d : Db) : Pc → Stmt → Option (Db × Pc)
  | .idle, .deliver n =>
      (d.broker.deliver i n).map fun r => receive { d with broker := r.1 } r.2
  | .connect dl attempt, .run => some (d, .begin dl attempt)
  | .connect dl attempt, .fail err => some (attemptFailed d dl attempt err)
  | .begin dl attempt, .run => some (d, .mark dl attempt d.now)
  | .mark dl attempt at₀, .run =>
      (d.processed.insertNew i dl.event.eventId at₀).map fun r =>
        ({ d with processed := r.1 },
          if r.2 then .confirm dl attempt else .rollbackSkip dl attempt)
  | .rollbackSkip dl _, .run => some (d.rollback i, attemptDone d dl false)
  | .confirm dl attempt, .run =>
      match confirmationOf dl.event with
      | .error err => some (d, .rollback dl attempt err)
      | .ok (orderId, row) =>
          (d.confirmations.insertNew i orderId row).map fun r =>
            ({ d with confirmations := r.1 }, .commit dl attempt)
  | .commit dl _, .run => some (d.commit i dl.event.eventId, attemptDone d dl true)
  | .commit dl attempt, .failCommitted err =>
      some (d.commit i dl.event.eventId, .rollback dl attempt err)
  | .rollback dl attempt err, .run => some (attemptFailed (d.rollback i) dl attempt err)
  | .effect dl applied, .run =>
      some ({ d with effects := d.effects ++ [dl.msg.number] }, .ack dl applied)
  | .effect dl _, .fail _ => some (handleError d dl.msg true false)
  | .ack _ applied, .run =>
      some ({ countApplied d applied with broker := d.broker.settle i .ack }, .done)
  | .ack _ applied, .lost => some (countApplied d applied, .done)
  | .ack dl applied, .fail err =>
      some (handleError (countApplied d applied) dl.msg (isTransientDbError err) true)
  | .settle _ verdict closed, .run =>
      if closed then none else some ({ d with broker := d.broker.settle i verdict }, .done)
  | .settle _ _ _, .lost => some (d, .done)
  -- any other statement of the transaction
  | .begin dl attempt, .fail err | .mark dl attempt _, .fail err
  | .rollbackSkip dl attempt, .fail err | .confirm dl attempt, .fail err
  | .commit dl attempt, .fail err => some (d, .rollback dl attempt err)
  | pc, .abort => if pc.Open then some (d.rollback i, .aborted) else none
  | _, _ => none

/-- `30` days, as `INBOX_RETENTION_MS`. -/
def inboxRetention : ℕ := secs (30 * 24 * 60 * 60)

/-- What the other parties do: the relay publishes an event, somebody a text that is none,
the channel of a handler dies, purgeOutbox deletes marks, time passes. -/
inductive Env where
  | publish (e : OrderPlacedEvent)
  | publishMalformed (content : Option Json)
  | returned (i : ℕ) (counted : Bool)
  | purge (cutoff : ℕ) (keys : List String)
  | tick (dt : ℕ)

/-- Event ids and orders go together. -/
def Distinct (e : OrderPlacedEvent) (published : List OrderPlacedEvent) : Prop :=
  ∀ e' ∈ published, e'.eventId = e.eventId ∨ e'.orderId = e.orderId → e' = e

instance (e : OrderPlacedEvent) (published : List OrderPlacedEvent) :
    Decidable (Distinct e published) := inferInstanceAs (Decidable (∀ e' ∈ _, _))

def env (d : Db) : Env → Option Db
  | .publish e =>
      if Distinct e d.published then
        some { d with
          broker := d.broker.publish (some e.toJson)
          published := if e ∈ d.published then d.published else d.published ++ [e] }
      else none
  | .publishMalformed content =>
      if parseOrderPlacedEvent content = none then
        some { d with broker := d.broker.publish content }
      else none
  | .returned i counted => some { d with broker := d.broker.settle i (.returned counted) }
  | .purge cutoff keys =>
      if cutoff + inboxRetention ≤ d.now ∧ ∀ k ∈ keys, (d.processed k).lock = none ∧
          (d.processed k).base.any (fun t => decide (t < cutoff)) = true then
        some { d with
          processed := fun k => if k ∈ keys then Slot.settled none else d.processed k }
      else none
  | .tick dt => some { d with now := d.now + dt }

/-- Empty tables and an empty queue. -/
def Init (d : Db) : Prop :=
  (∀ k, d.processed k = Slot.settled none) ∧ (∀ k, d.confirmations k = Slot.settled none) ∧
    d.broker = Broker.empty ∧ d.published = [] ∧ d.applied = [] ∧ d.effects = []

def procs : Procs ℕ Db Pc Stmt Env where
  Init := Init
  idle := .idle
  stmt := stmt
  env := env

abbrev St := World ℕ Db Pc
abbrev Label := Act ℕ Stmt Env
abbrev machine : Machine St Label := procs.machine

/-! ## What one statement does -/

/-- The statement is one of the transaction's, and not its last ROLLBACK. -/
inductive Pc.Runs (dl : Delivery) (attempt : ℕ) : Pc → Prop
  | begin : Runs dl attempt (.begin dl attempt)
  | mark {at₀ : ℕ} : Runs dl attempt (.mark dl attempt at₀)
  | rollbackSkip : Runs dl attempt (.rollbackSkip dl attempt)
  | confirm : Runs dl attempt (.confirm dl attempt)
  | commit : Runs dl attempt (.commit dl attempt)

/-- The steps of a handler, one by one: the case analysis of `stmt`, made once. -/
inductive Does (i : ℕ) (d : Db) : Pc → Stmt → Db → Pc → Prop
  | receives {n : ℕ} {b : Broker ℕ (Option Json)} {msg : Message} :
      d.broker.deliver i n = some (b, msg) →
      Does i d .idle (.deliver n) (receive { d with broker := b } msg).1
        (receive { d with broker := b } msg).2
  | connects {dl : Delivery} {attempt : ℕ} :
      Does i d (.connect dl attempt) .run d (.begin dl attempt)
  | noConnection {dl : Delivery} {attempt : ℕ} {err : Err} :
      Does i d (.connect dl attempt) (.fail err) (attemptFailed d dl attempt err).1
        (attemptFailed d dl attempt err).2
  | begins {dl : Delivery} {attempt : ℕ} :
      Does i d (.begin dl attempt) .run d (.mark dl attempt d.now)
  | marks {dl : Delivery} {attempt at₀ : ℕ} {T : Table ℕ String ℕ} {inserted : Bool} :
      d.processed.insertNew i dl.event.eventId at₀ = some (T, inserted) →
      Does i d (.mark dl attempt at₀) .run { d with processed := T }
        (if inserted then .confirm dl attempt else .rollbackSkip dl attempt)
  | skips {dl : Delivery} {attempt : ℕ} :
      Does i d (.rollbackSkip dl attempt) .run (d.rollback i) (attemptDone d dl false)
  | refuses {dl : Delivery} {attempt : ℕ} {err : Err} : confirmationOf dl.event = .error err →
      Does i d (.confirm dl attempt) .run d (.rollback dl attempt err)
  | confirms {dl : Delivery} {attempt : ℕ} {orderId : ℤ} {row : Confirmation}
      {T : Table ℕ ℤ Confirmation} {inserted : Bool} :
      confirmationOf dl.event = .ok (orderId, row) →
      d.confirmations.insertNew i orderId row = some (T, inserted) →
      Does i d (.confirm dl attempt) .run { d with confirmations := T } (.commit dl attempt)
  | commits {dl : Delivery} {attempt : ℕ} :
      Does i d (.commit dl attempt) .run (d.commit i dl.event.eventId) (attemptDone d dl true)
  | commitsUnheard {dl : Delivery} {attempt : ℕ} {err : Err} :
      Does i d (.commit dl attempt) (.failCommitted err) (d.commit i dl.event.eventId)
        (.rollback dl attempt err)
  | throws {pc : Pc} {dl : Delivery} {attempt : ℕ} {err : Err} : pc.Runs dl attempt →
      Does i d pc (.fail err) d (.rollback dl attempt err)
  | rollsBack {dl : Delivery} {attempt : ℕ} {err : Err} :
      Does i d (.rollback dl attempt err) .run (attemptFailed (d.rollback i) dl attempt err).1
        (attemptFailed (d.rollback i) dl attempt err).2
  | effect {dl : Delivery} {applied : Bool} :
      Does i d (.effect dl applied) .run { d with effects := d.effects ++ [dl.msg.number] }
        (.ack dl applied)
  | effectFails {dl : Delivery} {applied : Bool} {err : Err} :
      Does i d (.effect dl applied) (.fail err) (handleError d dl.msg true false).1
        (handleError d dl.msg true false).2
  | acks {dl : Delivery} {applied : Bool} :
      Does i d (.ack dl applied) .run
        { countApplied d applied with broker := d.broker.settle i .ack } .done
  | ackLost {dl : Delivery} {applied : Bool} :
      Does i d (.ack dl applied) .lost (countApplied d applied) .done
  | ackThrows {dl : Delivery} {applied : Bool} {err : Err} :
      Does i d (.ack dl applied) (.fail err)
        (handleError (countApplied d applied) dl.msg (isTransientDbError err) true).1
        (handleError (countApplied d applied) dl.msg (isTransientDbError err) true).2
  | settles {msg : Message} {v : Verdict} :
      Does i d (.settle msg v false) .run { d with broker := d.broker.settle i v } .done
  | settleLost {msg : Message} {v : Verdict} {closed : Bool} :
      Does i d (.settle msg v closed) .lost d .done
  | aborts {pc : Pc} : pc.Open → Does i d pc .abort (d.rollback i) .aborted

/-- A statement that succeeds is one of the constructors of `Does`. This is the only place where
`stmt` is taken apart; every fact about a step is a case analysis of `Does`. -/
theorem stmt_does {i : ℕ} {d d' : Db} {pc pc' : Pc} {a : Stmt}
    (h : stmt i d pc a = some (d', pc')) : Does i d pc a d' pc' := by
  -- a lost connection is treated alike at every open program point, so it goes first
  by_cases hab : a = .abort
  · subst hab
    have hopen : pc.Open := by
      by_contra hclosed
      cases pc <;> first | exact hclosed trivial | simp [stmt, Pc.Open] at h
    have hr : d' = d.rollback i ∧ pc' = .aborted := by
      cases pc <;> simp [stmt, Pc.Open] at h <;> exact ⟨h.1.symm, h.2.symm⟩
    rw [hr.1, hr.2]
    exact .aborts hopen
  -- one block for each program point; a statement that is not possible there gives `none`
  cases pc with
  | idle =>
      cases a with
      | deliver n =>
          simp only [stmt, Option.map_eq_some_iff] at h
          obtain ⟨⟨b, msg⟩, hb, hr⟩ := h
          have hdoes : Does i d .idle (.deliver n) _ _ := .receives hb
          rwa [hr] at hdoes
      | abort => exact absurd rfl hab
      | _ => simp [stmt] at h
  | connect dl attempt =>
      cases a with
      | run =>
          cases h
          exact .connects
      | fail err =>
          have hdoes : Does i d (.connect dl attempt) (.fail err) _ _ := .noConnection
          rwa [Option.some.inj h] at hdoes
      | abort => exact absurd rfl hab
      | _ => simp [stmt] at h
  | begin dl attempt =>
      cases a with
      | run =>
          cases h
          exact .begins
      | fail err =>
          cases h
          exact .throws .begin
      | abort => exact absurd rfl hab
      | _ => simp [stmt] at h
  | mark dl attempt at₀ =>
      cases a with
      | run =>
          simp only [stmt, Option.map_eq_some_iff] at h
          obtain ⟨⟨T, inserted⟩, hT, hr⟩ := h
          cases hr
          exact .marks hT
      | fail err =>
          cases h
          exact .throws .mark
      | abort => exact absurd rfl hab
      | _ => simp [stmt] at h
  | rollbackSkip dl attempt =>
      cases a with
      | run =>
          cases h
          exact .skips
      | fail err =>
          cases h
          exact .throws .rollbackSkip
      | abort => exact absurd rfl hab
      | _ => simp [stmt] at h
  | confirm dl attempt =>
      cases a with
      | run =>
          simp only [stmt] at h
          split at h
          · next herr =>
              cases h
              exact .refuses herr
          · next hrow =>
              obtain ⟨⟨T, inserted⟩, hT, hr⟩ := Option.map_eq_some_iff.mp h
              cases hr
              exact .confirms hrow hT
      | fail err =>
          cases h
          exact .throws .confirm
      | abort => exact absurd rfl hab
      | _ => simp [stmt] at h
  | commit dl attempt =>
      cases a with
      | run =>
          cases h
          exact .commits
      | failCommitted err =>
          cases h
          exact .commitsUnheard
      | fail err =>
          cases h
          exact .throws .commit
      | abort => exact absurd rfl hab
      | _ => simp [stmt] at h
  | rollback dl attempt err =>
      cases a with
      | run =>
          have hdoes : Does i d (.rollback dl attempt err) .run _ _ := .rollsBack
          rwa [Option.some.inj h] at hdoes
      | abort => exact absurd rfl hab
      | _ => simp [stmt] at h
  | effect dl applied =>
      cases a with
      | run =>
          cases h
          exact .effect
      | fail err =>
          have hdoes : Does i d (.effect dl applied) (.fail err) _ _ := .effectFails
          rwa [Option.some.inj h] at hdoes
      | abort => exact absurd rfl hab
      | _ => simp [stmt] at h
  | ack dl applied =>
      cases a with
      | run =>
          cases h
          exact .acks
      | lost =>
          cases h
          exact .ackLost
      | fail err =>
          have hdoes : Does i d (.ack dl applied) (.fail err) _ _ := .ackThrows
          rwa [Option.some.inj h] at hdoes
      | abort => exact absurd rfl hab
      | _ => simp [stmt] at h
  | settle msg v closed =>
      cases a with
      | run =>
          cases closed with
          | true => cases h
          | false =>
              cases h
              exact .settles
      | lost =>
          cases h
          exact .settleLost
      | abort => exact absurd rfl hab
      | _ => simp [stmt] at h
  | done | aborted =>
      cases a with
      | abort => exact absurd rfl hab
      | _ => simp [stmt] at h

end Consumer

end Marketplace.Outbox

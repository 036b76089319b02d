import Marketplace.Core.Json
import Marketplace.Core.Procs
import Marketplace.Core.Sql
import Marketplace.Http
import Marketplace.Outbox.Event
import Mathlib.Data.List.Infix
import Mathlib.Data.List.Sort

/-!
# Outbox.Relay — relayBatch, statement by statement

`src/outbox/relay.ts`: any number of passes over one outbox table, with the broker as part
of the environment.

* `FOR UPDATE SKIP LOCKED` is a snapshot of the rows to visit and then one action for each
  row: a row that another open transaction has locked is skipped, and the WHERE is checked
  again on the version that is committed now;
* `sends` has every message that was ever published. The broker accepts a message at any
  time, also after the pass that sent it is gone; what the pass hears of it, a confirm or a
  rejection, is a second event. A rejection that reports a closed channel says nothing about
  whether the message was accepted;
* `inserted` and `passes` are ghosts: the ids that were ever in the table, and the passes
  that have committed.
-/

namespace Marketplace.Outbox

open Core

def relayMaxAttempts : ℕ := 5

structure OutboxRow where
  id : EventId
  aggregateType : String
  aggregateId : String
  type : String
  payload : Json
  createdAt : ℕ
  publishedAt : Option ℕ
  attempts : ℕ
  lastError : Option String

/-- How the promise of a published row has settled. -/
inductive Settled where
  | confirmed
  | rejected (message : String)
deriving DecidableEq, Repr

/-- A message on its way to the broker, and what became of it. -/
structure Send where
  pass : ℕ
  row : OutboxRow
  /-- The broker has it in its queue. -/
  accepted : Bool
  seen : Option Settled

structure RelayResult where
  published : ℕ
  failed : ℕ
deriving DecidableEq, Repr

/-- `/channel closed|channel ended|connection closed/i.test(errorMessage(err))`. -/
def isChannelClosed (message : String) : Bool :=
  ["channel closed", "channel ended", "connection closed"].any fun text =>
    decide (text.toList <:+: message.toList.map Char.toLower)

/-- The broker, not the channel, has refused the message. -/
def Settled.Refused : Settled → Prop
  | .confirmed => False
  | .rejected message => isChannelClosed message = false

instance : DecidablePred Settled.Refused := fun s =>
  match s with
  | .confirmed => isFalse id
  | .rejected message => inferInstanceAs (Decidable (isChannelClosed message = false))

namespace Relay

structure Db where
  outbox : Table ℕ EventId OutboxRow
  sends : ℕ → Option Send
  nextSend : ℕ
  now : ℕ
  inserted : List EventId
  passes : List ℕ

/-- Where a pass is. `at₀` is its transaction's `now()`; `sent` has the rows it has
published with the number of the message. -/
inductive Pc where
  | idle
  | select (at₀ batchSize : ℕ)
  | lock (at₀ batchSize : ℕ) (todo : List EventId) (rows : List OutboxRow)
  | commitEmpty
  | publish (at₀ : ℕ) (sent : List (OutboxRow × ℕ)) (todo : List OutboxRow)
  | settle (at₀ : ℕ) (sent : List (OutboxRow × ℕ))
  | afterPublish (at₀ : ℕ) (confirmed : List OutboxRow) (failed : List (EventId × String))
  | markPublished (at₀ : ℕ) (confirmed : List OutboxRow) (failed : List (EventId × String))
  | markFailed (at₀ : ℕ) (confirmed : List OutboxRow) (marked todo : List (EventId × String))
  | commit (at₀ : ℕ) (confirmed : List OutboxRow) (failed : List (EventId × String))
  | rollback (err : Thrown)
  | done (result : Except Thrown RelayResult)
  | aborted

/-- The pass has begun and not ended. -/
def Pc.Open : Pc → Prop
  | .idle | .done _ | .aborted => False
  | _ => True

instance : DecidablePred Pc.Open := fun p => by
  cases p <;> first | exact isTrue trivial | exact isFalse id

/-- An action of a pass: it begins, runs its next statement, has that statement or the hook
fail, or crashes. -/
inductive Stmt where
  | start (batchSize : ℕ)
  | run
  | fail (message : String)
  | abort
deriving DecidableEq, Repr

/-- `WHERE published_at IS NULL AND attempts < RELAY_MAX_ATTEMPTS`. -/
def Pending (row : OutboxRow) : Prop :=
  row.publishedAt = none ∧ row.attempts < relayMaxAttempts

instance : DecidablePred Pending := fun _ => inferInstanceAs (Decidable (_ ∧ _))

/-- `ORDER BY created_at, id`. -/
def older (a b : OutboxRow) : Prop :=
  a.createdAt < b.createdAt ∨ a.createdAt = b.createdAt ∧ a.id ≤ b.id

instance : DecidableRel older := fun _ _ => inferInstanceAs (Decidable (_ ∨ _))

/-- The committed rows that satisfy the WHERE, in the order of the SELECT. -/
def candidates (d : Db) : List OutboxRow :=
  (d.inserted.filterMap fun k => (d.outbox k).base.filter fun row => decide (Pending row))
    |>.insertionSort older

/-- Visit one row of the snapshot: `none` if it is skipped. -/
def visit (i : ℕ) (d : Db) (k : EventId) : Option OutboxRow :=
  if (d.outbox k).Free i then (d.outbox k).base.filter fun row => decide (Pending row) else none

/-- The rows in hand: publish them, or COMMIT at once if there are none. -/
def claimed (at₀ : ℕ) (rows : List OutboxRow) : Pc :=
  if rows.isEmpty then .commitEmpty else .publish at₀ [] rows

/-- `settled.forEach`: the confirmed and the failed rows, or the message of a channel that
was closed. -/
def sortOut : List (OutboxRow × Settled) →
    Except String (List OutboxRow × List (EventId × String))
  | [] => .ok ([], [])
  | (row, .confirmed) :: rest => (sortOut rest).map fun r => (row :: r.1, r.2)
  | (row, .rejected message) :: rest =>
      if isChannelClosed message then .error message
      else (sortOut rest).map fun r => (r.1, (row.id, message) :: r.2)

/-- `Promise.allSettled(confirms)`: `none` while a message is outstanding. -/
def allSettled (d : Db) (sent : List (OutboxRow × ℕ)) : Option (List (OutboxRow × Settled)) :=
  sent.mapM fun p => ((d.sends p.2).bind Send.seen).map (p.1, ·)

def markPublishedRow (at₀ : ℕ) (row : OutboxRow) : OutboxRow :=
  { row with publishedAt := some at₀, attempts := row.attempts + 1, lastError := none }

def markFailedRow (message : String) (row : OutboxRow) : OutboxRow :=
  { row with attempts := row.attempts + 1, lastError := some message }

/-- `UPDATE outbox SET … WHERE id = $1`; `none` while it waits. -/
def update (i : ℕ) (d : Db) (k : EventId) (f : OutboxRow → OutboxRow) : Option Db :=
  (d.outbox.updateWhere i k (fun _ => true) f).map fun r => { d with outbox := r.1 }

/-- `UPDATE outbox SET published_at = now(), … WHERE id = ANY($1)`. -/
def updateAll (i at₀ : ℕ) : Db → List OutboxRow → Option Db
  | d, [] => some d
  | d, row :: rest =>
      (update i d row.id (markPublishedRow at₀)).bind fun d' => updateAll i at₀ d' rest

def Db.commit (i : ℕ) (d : Db) : Db :=
  { d with outbox := d.outbox.commit i, passes := d.passes ++ [i] }

def Db.rollback (i : ℕ) (d : Db) : Db := { d with outbox := d.outbox.rollback i }

/-- `ch.publish`. -/
def Db.publish (i : ℕ) (row : OutboxRow) (d : Db) : Db :=
  { d with
    sends := Function.update d.sends d.nextSend (some ⟨i, row, false, none⟩)
    nextSend := d.nextSend + 1 }

def stmt (i : ℕ) (d : Db) : Pc → Stmt → Option (Db × Pc)
  | .idle, .start batchSize => some (d, .select d.now batchSize)
  | .select at₀ batchSize, .run =>
      some (d, .lock at₀ batchSize ((candidates d).map OutboxRow.id) [])
  | .lock at₀ batchSize (k :: todo) rows, .run =>
      if rows.length < batchSize then
        match visit i d k with
        | none => some (d, .lock at₀ batchSize todo rows)
        | some row =>
            some ({ d with outbox := d.outbox.put i k (some row) },
              .lock at₀ batchSize todo (rows ++ [row]))
      else some (d, claimed at₀ rows)
  | .lock at₀ _ [] rows, .run => some (d, claimed at₀ rows)
  | .commitEmpty, .run => some (d.commit i, .done (.ok ⟨0, 0⟩))
  | .publish at₀ sent (row :: todo), .run =>
      some (d.publish i row, .publish at₀ (sent ++ [(row, d.nextSend)]) todo)
  | .publish at₀ sent [], .run => some (d, .settle at₀ sent)
  | .settle at₀ sent, .run =>
      (allSettled d sent).map fun settled =>
        match sortOut settled with
        | .error message => (d, .rollback (.error message))
        | .ok (confirmed, failed) => (d, .afterPublish at₀ confirmed failed)
  | .afterPublish at₀ confirmed failed, .run =>
      some (d, if confirmed.isEmpty then .markFailed at₀ confirmed [] failed
        else .markPublished at₀ confirmed failed)
  | .markPublished at₀ confirmed failed, .run =>
      (updateAll i at₀ d confirmed).map fun d' => (d', .markFailed at₀ confirmed [] failed)
  | .markFailed at₀ confirmed marked ((k, message) :: todo), .run =>
      (update i d k (markFailedRow message)).map fun d' =>
        (d', .markFailed at₀ confirmed (marked ++ [(k, message)]) todo)
  | .markFailed at₀ confirmed marked [], .run => some (d, .commit at₀ confirmed marked)
  | .commit _ confirmed failed, .run =>
      some (d.commit i, .done (.ok ⟨confirmed.length, failed.length⟩))
  | .rollback err, .run => some (d.rollback i, .done (.error err))
  -- the broker's errors reach the pass as rejections, every other statement may throw
  | .publish _ _ _, .fail _ | .settle _ _, .fail _ | .rollback _, .fail _ => none
  | pc, .fail message => if pc.Open then some (d, .rollback (.error message)) else none
  | pc, .abort => if pc.Open then some (d.rollback i, .aborted) else none
  | _, _ => none

/-- What the other parties do: an order puts its row in, the broker takes a message, the
pass hears of it, purgeOutbox deletes rows, time passes. -/
inductive Env where
  | insert (row : OutboxRow)
  | accept (n : ℕ)
  | confirm (n : ℕ)
  | reject (n : ℕ) (message : String)
  | purge (cutoff : ℕ) (ids : List EventId)
  | tick (dt : ℕ)

/-- `published_at IS NOT NULL AND published_at < $1`. -/
def Purgeable (cutoff : ℕ) (row : OutboxRow) : Prop := ∃ t, row.publishedAt = some t ∧ t < cutoff

instance (cutoff : ℕ) : DecidablePred (Purgeable cutoff) := fun row =>
  match h : row.publishedAt with
  | none => isFalse (by rintro ⟨t, ht, -⟩; rw [h] at ht; cases ht)
  | some t =>
      if ht : t < cutoff then isTrue ⟨t, h, ht⟩
      else isFalse (by rintro ⟨t', ht', hlt⟩; rw [h] at ht'; cases ht'; exact ht hlt)

def setSend (d : Db) (n : ℕ) (s : Send) : Db := { d with sends := Function.update d.sends n (some s) }

def env (d : Db) : Env → Option Db
  | .insert row =>
      if row.id ∈ d.inserted ∨ row.publishedAt ≠ none ∨ row.attempts ≠ 0 then none
      else some { d with
        outbox := Function.update d.outbox row.id (Slot.settled (some row))
        inserted := d.inserted ++ [row.id] }
  | .accept n =>
      (d.sends n).bind fun s =>
        -- a message is taken once, and not after the broker has refused it
        if s.accepted ∨ s.seen.any (fun r => decide r.Refused) then none
        else some (setSend d n { s with accepted := true })
  | .confirm n =>
      (d.sends n).bind fun s =>
        if s.accepted ∧ s.seen = none then some (setSend d n { s with seen := some .confirmed })
        else none
  | .reject n message =>
      (d.sends n).bind fun s =>
        if (isChannelClosed message ∨ ¬ s.accepted) ∧ s.seen = none then
          some (setSend d n { s with seen := some (.rejected message) })
        else none
  | .purge cutoff ids =>
      if ∀ k ∈ ids, (d.outbox k).lock = none ∧
          (d.outbox k).base.any fun row => decide (Purgeable cutoff row) then
        some { d with outbox := fun k => if k ∈ ids then Slot.settled none else d.outbox k }
      else none
  | .tick dt => some { d with now := d.now + dt }

/-- An empty table: every row is inserted during the run. -/
def Init (d : Db) : Prop :=
  (∀ k, d.outbox k = Slot.settled none) ∧ (∀ n, d.sends n = none) ∧ d.inserted = [] ∧
    d.passes = []

def procs : Procs ℕ Db Pc Stmt Env where
  Init := Init
  idle := .idle
  stmt := stmt
  env := env

abbrev St := World ℕ Db Pc
abbrev Label := Act ℕ Stmt Env
abbrev machine : Machine St Label := procs.machine

end Relay

end Marketplace.Outbox

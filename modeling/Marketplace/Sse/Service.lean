import Marketplace.Core.JsNumber
import Marketplace.Core.JsText
import Marketplace.Core.Machine
import Mathlib.Logic.Function.Basic

/-!
# Sse.Service — order events and the streams that carry them

`OrderEventsService` of `src/orders/order-events.service.ts` and, from its `writeHead` on,
`orderEventsStream` of `src/orders/orders.controller.ts`. That part runs without a break up to
the subscription, so a client connects in one step; `publish` runs without a break too, and
its subscribers with it.

`published` is the history of the process, and `written` what a response has been sent, write
by write.
-/

namespace Marketplace.Sse

open Core

/-- `Number(order.id)`. -/
abbrev OrderId := ℕ

structure OrderStatusEvent where
  id : ℕ
  orderId : OrderId
  status : String
  at₀ : ℕ
deriving DecidableEq

def bufferLimit : ℕ := 100

/-- The fields of `OrderEventsService`, without its subject. -/
structure OrderEventsService where
  seq : ℕ
  buffers : OrderId → Option (List OrderStatusEvent)

namespace OrderEventsService

def empty : OrderEventsService := ⟨0, fun _ => none⟩

/-- `publish` up to `subject.next`. -/
def publish (service : OrderEventsService) (orderId : OrderId) (status : String) (now : ℕ) :
    OrderEventsService × OrderStatusEvent :=
  let event : OrderStatusEvent := ⟨service.seq + 1, orderId, status, now⟩
  let buf := (service.buffers orderId).getD [] ++ [event]
  let buf := if bufferLimit < buf.length then buf.tail else buf
  (⟨event.id, Function.update service.buffers orderId (some buf)⟩, event)

def historyAfter (service : OrderEventsService) (orderId : OrderId) (lastEventId : ℚ) :
    List OrderStatusEvent :=
  ((service.buffers orderId).getD []).filter fun e => lastEventId < (e.id : ℚ)

end OrderEventsService

/-! ## The stream of one client -/

/-- `req.headers[name]`, where it is there. -/
inductive HeaderValue where
  | one (value : String)
  | several (values : List String)
deriving DecidableEq

/-- `Array.isArray(rawLastId) ? rawLastId[0] : rawLastId`. -/
def lastEventHeader : Option HeaderValue → Option String
  | none => none
  | some (.one value) => some value
  | some (.several values) => values.head?

def finite : WithTop ℚ → Option ℚ
  | none => none
  | some r => some r

/-- `Number(s)` where `Number.isFinite` accepts it. -/
def finiteNumber (dbl : Doubles) (s : String) : Option ℚ :=
  (JsText.number s.toList).bind fun q =>
    if q < 0 then (finite (dbl.round (-q))).map fun r => -r else finite (dbl.round q)

/-- The id after which the client resumes, if it says one. -/
def lastEventId (dbl : Doubles) (header : Option HeaderValue) : Option ℚ :=
  ((lastEventHeader header).filter fun s => s ≠ "").bind (finiteNumber dbl)

example : lastEventId .unrounded (some (.one "7")) = some 7 := by decide +kernel

/-- The texts `writeSse` writes. -/
def writeSse (event : OrderStatusEvent) : List String :=
  ["id: " ++ toString event.id ++ "\n",
    "event: order.status\n",
    "data: \x7b\"orderId\":" ++ toString event.orderId ++ ",\"status\":" ++
      String.ofList (JsText.stringify event.status.toList) ++ "\x7d\n\n"]

/-- What is written before the first event. -/
def hello : List String := ["retry: 1000\n\n"]

structure Client where
  orderId : OrderId
  /-- It has not closed its request. -/
  subscribed : Bool
  written : List String

/-- The observer of `stream(id).subscribe(…)`. -/
def Client.next (client : Client) (event : OrderStatusEvent) : Client :=
  if client.subscribed ∧ event.orderId = client.orderId then
    { client with written := client.written ++ writeSse event }
  else client

/-! ## The process -/

structure St where
  service : OrderEventsService
  clients : ℕ → Option Client
  now : ℕ
  published : List OrderStatusEvent

inductive Label where
  | publish (orderId : OrderId) (status : String)
  | connect (c : ℕ) (orderId : OrderId) (header : Option HeaderValue)
  | close (c : ℕ)
  | tick (dt : ℕ)
deriving DecidableEq

/-- `orderEventsStream` from `writeHead` to `subscribe`. -/
def orderEventsStream (dbl : Doubles) (service : OrderEventsService) (orderId : OrderId)
    (header : Option HeaderValue) : Client where
  orderId
  subscribed := true
  written := hello ++
    match lastEventId dbl header with
    | none => []
    | some last => (service.historyAfter orderId last).flatMap writeSse

def next (dbl : Doubles) (s : St) : Label → Option St
  | .publish orderId status =>
      let r := s.service.publish orderId status s.now
      some { s with
        service := r.1
        clients := fun c => (s.clients c).map fun client => client.next r.2
        published := s.published ++ [r.2] }
  | .connect c orderId header =>
      let client := orderEventsStream dbl s.service orderId header
      if (s.clients c).isSome then none
      else some { s with clients := Function.update s.clients c (some client) }
  | .close c =>
      (s.clients c).map fun client =>
        { s with clients := Function.update s.clients c (some { client with subscribed := false }) }
  | .tick dt => some { s with now := s.now + dt }

/-- A process that has just started. -/
def Init (s : St) : Prop :=
  s.service = .empty ∧ (∀ c, s.clients c = none) ∧ s.published = []

def machine (dbl : Doubles) : Machine St Label := ⟨Init, next dbl⟩

/-- The events of one order, in the order they were published. -/
def St.eventsOf (s : St) (orderId : OrderId) : List OrderStatusEvent :=
  s.published.filter fun e => e.orderId = orderId

end Marketplace.Sse

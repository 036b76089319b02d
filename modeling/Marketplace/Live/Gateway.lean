import Marketplace.Auth.LoggedOut
import Marketplace.Sse.Agreement

/-!
# Live.Gateway — who may watch an order, and who may change it

`OrdersGateway` of `src/orders/orders.gateway.ts`, `AuthGuard` and `bearerToken` of
`src/auth/auth.guard.ts`, and of `src/orders/orders.controller.ts` the way into
`orderEventsStream` and `updateStatus`, in one process and await by await. All three come in
through `authenticate`: the token is verified, and then a query asks whether it has been revoked.
The other parts are those of their own models: the auth calls of `Auth.Atomic`, the order calls
of `Orders.Service`, and the event streams of `Sse.Service`.

* `decode` is what a text says that is a token of this service;
* a visit is a join of a socket or a request, and `visits i` says how far it has come; the call
  of `updateStatus` that visit `i` makes is call `i` of the orders;
* a login, a refresh and a logout are one step each, so two of them do not overlap: what follows
  about a logout is about one that no refresh of its family overlaps;
* one clock for all parts.
-/

namespace Marketplace.Live

open Core Orders
open Auth (AccessClaims UserId)
open Outbox (OrderId)
open Auth.Atomic (Store verify isAccessRevoked unauthorized)
open Sse (HeaderValue OrderStatusEvent statusText)

/-! ## Tokens of a request -/

def bearer : List Char := "Bearer ".toList

/-- The token of an Authorization header. -/
def bearerToken (header : Option (List Char)) : Option (List Char) :=
  match header with
  | none => none
  | some text =>
      if bearer.isPrefixOf text then
        let rest := JsText.trim (text.drop bearer.length)
        if rest = [] then none else some rest
      else none

/-- `req.query.access_token`. -/
inductive QueryValue where
  | text (s : List Char)
  /-- An array, or an object. -/
  | other

def sseToken (authorization : Option (List Char)) (accessToken : Option QueryValue) :
    Option (List Char) :=
  match bearerToken authorization with
  | some token => some token
  | none =>
      match accessToken with
      | some (.text s) => if s = [] then none else some s
      | _ => none

/-- `Number(body?.orderId)`, if the gateway accepts it; `none` is NaN or an infinity. -/
def joinOrder (number : Option ℚ) : Option OrderId :=
  match number with
  | none => none
  | some q => if q.den = 1 ∧ 1 ≤ q then some q.num.toNat else none

/-! ## Visits -/

/-- What comes in. -/
inductive Arrival where
  | join (socket : ℕ) (orderId : Option ℚ)
  | events (orderId : OrderId) (authorization : Option (List Char))
      (accessToken : Option QueryValue) (lastEventId : Option HeaderValue)
  | updateStatus (id : OrderId) (status : OrderStatus) (authorization : Option (List Char))

/-- What it is for. -/
inductive Goal where
  | join (socket : ℕ) (orderId : OrderId)
  | events (orderId : OrderId) (lastEventId : Option HeaderValue)
  | updateStatus (id : OrderId) (status : OrderStatus)
deriving DecidableEq

def Goal.order : Goal → OrderId
  | .join _ orderId | .events orderId _ | .updateStatus orderId _ => orderId

/-- What comes back when it ends without success. -/
inductive Answer where
  /-- `{ ok: false, error }`. -/
  | notOk (error : String)
  | thrown (err : Thrown)
deriving DecidableEq

/-- The `catch` of `handleJoin`; the other two answer with the exception. -/
def Goal.refuse (err : Thrown) : Goal → Answer
  | .join _ _ =>
      match err with
      | .http 401 _ => .notOk "unauthorized"
      | .http 403 _ => .notOk "forbidden"
      | .http 404 _ => .notOk "not_found"
      | _ => .thrown err
  | _ => .thrown err

inductive Visit where
  | absent
  /-- `authenticate` after `tokens.verify`. -/
  | checking (goal : Goal) (claims : AccessClaims)
  /-- Before the query of `requireOwner`. -/
  | owning (goal : Goal) (claims : AccessClaims)
  | entering (goal : Goal) (claims : AccessClaims)
  /-- The socket is in its room, the stream is open, or `updateStatus` has been called. -/
  | inside (goal : Goal) (claims : AccessClaims)
  | refused (answer : Answer)
deriving DecidableEq

/-- A connection of socket.io. -/
structure Socket where
  /-- `handshake.auth.token`, where it is a string. -/
  token : Option (List Char)
  connected : Bool
  rooms : List OrderId
  received : List OrderStatusEvent

/-- `server.to(room).emit(…)`, for one socket. -/
def Socket.emit (event : OrderStatusEvent) (socket : Socket) : Socket :=
  if socket.connected ∧ event.orderId ∈ socket.rooms then
    { socket with received := socket.received ++ [event] }
  else socket

structure Site (η : Type) where
  auth : Store
  calls : Orders.St η
  bus : Sse.St
  /-- The `updateStatus` calls that have published. -/
  heard : ℕ → Bool
  sockets : ℕ → Option Socket
  visits : ℕ → Visit

inductive Step where
  | auth (call : Auth.Atomic.Call) (w : Auth.Atomic.Sweep)
  /-- A placeOrder or a checkout begins, or a call goes on. -/
  | order (i : ℕ) (a : Orders.Stmt)
  | tick (dt : ℕ)
  | connect (k : ℕ) (token : Option (List Char))
  | disconnect (k : ℕ)
  | arrive (i : ℕ) (arrival : Arrival)
  /-- A visit goes on. -/
  | go (i : ℕ)
  /-- The save of call `i` is through, and it publishes. -/
  | hear (i : ℕ)
  /-- The client closes its stream. -/
  | close (i : ℕ)

/-- The state of the process with the visit at another point. -/
def Site.put {η : Type} (s : Site η) (i : ℕ) (visit : Visit) : Site η :=
  { s with visits := Function.update s.visits i visit }

section

variable {η : Type} (decode : List Char → Option AccessClaims)

/-- `authenticate` up to its query. -/
def Site.authenticating (s : Site η) (goal : Goal) (token : Option (List Char)) : Visit :=
  match token with
  | none | some [] => .refused (goal.refuse unauthorized)
  | some text =>
      match (decode text).bind fun token => verify token s.auth with
      | none => .refused (goal.refuse unauthorized)
      | some claims => .checking goal claims

/-- How far a visit comes at once. A socket that is not connected sends nothing. -/
def Site.arrive (s : Site η) : Arrival → Option Visit
  | .join k number =>
      match s.sockets k with
      | none => none
      | some socket =>
          if socket.connected then
            match joinOrder number with
            | none => some (.refused (.notOk "invalid_order"))
            | some orderId => some (s.authenticating decode (.join k orderId) socket.token)
          else none
  | .events orderId authorization accessToken lastEventId =>
      some (s.authenticating decode (.events orderId lastEventId)
        (sseToken authorization accessToken))
  | .updateStatus id status authorization =>
      some (s.authenticating decode (.updateStatus id status) (bearerToken authorization))

end

section

variable {η : Type} [DecidableEq η] (dbl : Doubles) (decode : List Char → Option AccessClaims)
  (hash : Request → η)

def requireOwner (d : Orders.Db η) (orderId : OrderId) (userId : UserId) :
    Except Thrown Order :=
  match (d.orders orderId).base with
  | none => .error (.http 404 s!"Order {orderId} not found")
  | some order => if order.userId ≠ userId then .error (.http 403 "forbidden") else .ok order

/-- The query of `requireOwner`. -/
def Site.own (s : Site η) (goal : Goal) (claims : AccessClaims) : Visit :=
  match requireOwner s.calls.shared goal.order claims.sub with
  | .error err => .refused (goal.refuse err)
  | .ok _ => .entering goal claims

/-- `isAccessRevoked` says no. -/
def Site.pass (s : Site η) (i : ℕ) (claims : AccessClaims) : Goal → Option (Site η)
  | .updateStatus id status =>
      ((Orders.machine hash).next s.calls (.call i (.updateStatus id status claims))).map
        fun calls => { s.put i (.inside (.updateStatus id status) claims) with calls }
  | goal => some (s.put i (.owning goal claims))

/-- `client.join`, and the stream from `writeHead` on. -/
def Site.enter (s : Site η) (i : ℕ) (claims : AccessClaims) : Goal → Option (Site η)
  | .join k orderId =>
      (s.sockets k).map fun socket =>
        { s.put i (.inside (.join k orderId) claims) with
          sockets := Function.update s.sockets k
            (some { socket with rooms := orderId :: socket.rooms }) }
  | .events orderId lastEventId =>
      (Sse.next dbl s.bus (.connect i orderId lastEventId)).map fun bus =>
        { s.put i (.inside (.events orderId lastEventId) claims) with bus }
  | .updateStatus _ _ => none

def Site.go (s : Site η) (i : ℕ) : Option (Site η) :=
  match s.visits i with
  | .checking goal claims =>
      if isAccessRevoked claims s.auth then some (s.put i (.refused (goal.refuse unauthorized)))
      else s.pass hash i claims goal
  | .owning goal claims => some (s.put i (s.own goal claims))
  | .entering goal claims => s.enter dbl i claims goal
  | _ => none

/-- `updateStatus` after its save: `publish`, and all who are subscribed. -/
def Site.hear (s : Site η) (i : ℕ) : Option (Site η) :=
  match s.visits i, s.calls.proc i with
  | .inside (.updateStatus id status) _, .statusSet (.ok _) =>
      if s.heard i then none
      else
        let event := (s.bus.service.publish id (statusText status) s.bus.now).2
        (Sse.next dbl s.bus (.publish id (statusText status))).map fun bus =>
          { s with
            bus
            heard := Function.update s.heard i true
            sockets := fun k => (s.sockets k).map (Socket.emit event) }
  | _, _ => none

def next (s : Site η) : Step → Option (Site η)
  | .auth (.tick _) _ => none
  | .auth call w => (Auth.Atomic.step w s.auth call).map fun r => { s with auth := r.1 }
  | .order _ (.updateStatus _ _ _) => none
  | .order i a =>
      ((Orders.machine hash).next s.calls (.call i a)).map fun calls => { s with calls }
  | .tick dt =>
      some { s with
        auth := { s.auth with now := s.auth.now + dt }
        calls := { s.calls with shared := { s.calls.shared with now := s.calls.shared.now + dt } }
        bus := { s.bus with now := s.bus.now + dt } }
  | .connect k token =>
      match s.sockets k with
      | some _ => none
      | none =>
          some { s with sockets := Function.update s.sockets k (some ⟨token, true, [], []⟩) }
  | .disconnect k =>
      (s.sockets k).map fun socket =>
        { s with sockets := Function.update s.sockets k (some { socket with connected := false }) }
  | .arrive i arrival =>
      match s.visits i with
      | .absent => (s.arrive decode arrival).map (s.put i)
      | _ => none
  | .go i => s.go dbl hash i
  | .hear i => s.hear dbl i
  | .close i => (Sse.next dbl s.bus (.close i)).map fun bus => { s with bus }

/-- A process that has just started, over any orders and with no token signed so far. -/
structure Init (s : Site η) : Prop where
  rows : ∀ k, s.auth.refreshTokens k = none
  issued : s.auth.issued = []
  calls : (Orders.machine hash).Init s.calls
  bus : Sse.Init s.bus
  heard : ∀ i, s.heard i = false
  sockets : ∀ k, s.sockets k = none
  visits : ∀ i, s.visits i = .absent

def machine : Machine (Site η) Step := ⟨Init hash, next dbl decode hash⟩

/-- Whose order it is. -/
def Site.owner (s : Site η) (o : OrderId) : Option UserId :=
  ((s.calls.shared.orders o).base).map Order.userId

end

end Marketplace.Live

import Marketplace.Auth.Tokens
import Mathlib.Data.Int.Notation

/-!
# Outbox.Event — a placed order and its event

The types of `src/outbox/order-placed.event.ts`. The encoding of an event as JSON and
its decoder are in `Outbox.Codec`.
-/

namespace Marketplace.Outbox

open Auth

abbrev ProductId := ℤ
abbrev OrderId := ℕ
abbrev EventId := ℕ

structure Line where
  productId : ProductId
  quantity : ℤ
  unitPriceCents : ℤ
  lineTotalCents : ℤ
deriving DecidableEq, Repr

structure PlacedOrder where
  orderId : OrderId
  userId : UserId
  totalCents : ℤ
  shippingCountry : String
  createdAt : ℕ
  items : List Line
deriving DecidableEq, Repr

structure EventItem where
  productId : ProductId
  quantity : ℤ
  unitPriceCents : ℤ
deriving DecidableEq, Repr

/-- `OrderPlacedEvent`, with the fields of its `data`; `type` and `version` are
constants. -/
structure OrderPlacedEvent where
  eventId : EventId
  occurredAt : ℕ
  orderId : OrderId
  userId : UserId
  totalCents : ℤ
  shippingCountry : String
  items : List EventItem
deriving DecidableEq, Repr

def toOrderPlacedEvent (eventId : EventId) (order : PlacedOrder) : OrderPlacedEvent :=
  { eventId
    occurredAt := order.createdAt
    orderId := order.orderId
    userId := order.userId
    totalCents := order.totalCents
    shippingCountry := order.shippingCountry
    items := order.items.map fun l => ⟨l.productId, l.quantity, l.unitPriceCents⟩ }

end Marketplace.Outbox

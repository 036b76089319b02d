import Marketplace.Http
import Marketplace.Outbox.Event
import Mathlib.Algebra.BigOperators.Group.List.Basic
import Mathlib.Algebra.Order.Ring.Int
import Mathlib.Data.List.Sort

/-!
# Orders.Requests — inputs, rows and answers of the order paths

The data of `src/orders/place-order.ts` and `src/checkout/checkout.ts`. The SHA-256 of
the canonical request is a parameter of the model, an injective function into any type
`η` of hashes.
-/

namespace Marketplace.Orders

open Auth Outbox

structure Item where
  productId : ProductId
  quantity : ℤ
deriving DecidableEq, Repr

structure PlaceOrderInput where
  userId : UserId
  items : List Item
  shippingCountry : Option String
  idempotencyKey : Option String
deriving DecidableEq, Repr

structure CheckoutInput where
  userId : UserId
  productId : ProductId
  quantity : ℤ
  shippingCountry : Option String
deriving DecidableEq, Repr

/-- What `hashRequest` hashes. -/
structure Request where
  userId : UserId
  shippingCountry : String
  items : List Item
deriving DecidableEq, Repr

namespace PlaceOrderInput

/-- The key as `if (key)` sees it: an empty string is no key. -/
def key (inp : PlaceOrderInput) : Option String := inp.idempotencyKey.filter (· ≠ "")

def country (inp : PlaceOrderInput) : String := inp.shippingCountry.getD "US"

def request (inp : PlaceOrderInput) : Request := ⟨inp.userId, inp.country, inp.items⟩

/-- The lock order: `sort((a, b) => Number(a.productId) - Number(b.productId))`, which is
stable. -/
def sortedItems (inp : PlaceOrderInput) : List Item :=
  inp.items.insertionSort fun a b => a.productId ≤ b.productId

end PlaceOrderInput

structure Product where
  priceCents : ℤ
  stock : ℤ
  isActive : Bool
deriving DecidableEq, Repr

structure User where
  balanceCents : ℤ
deriving DecidableEq, Repr

inductive OrderStatus where
  | pending | completed | cancelled | refunded
deriving DecidableEq, Repr

structure Order where
  userId : UserId
  status : OrderStatus
  totalCents : ℤ
  shippingCountry : String
  createdAt : ℕ
deriving DecidableEq, Repr

structure OrderItem where
  orderId : OrderId
  line : Line
deriving DecidableEq, Repr

structure OutboxInsert where
  id : EventId
  aggregateId : OrderId
  payload : OrderPlacedEvent
  createdAt : ℕ
deriving DecidableEq, Repr

structure Job where
  id : ℕ
  orderId : OrderId
  userId : UserId
deriving DecidableEq, Repr

structure ResponseBody where
  id : OrderId
  items : List Line
  totalCents : ℤ
  createdAt : ℕ
deriving DecidableEq, Repr

structure PlaceOrderResult where
  status : ℕ
  body : ResponseBody
  replayed : Bool
deriving DecidableEq, Repr

structure CheckoutResult where
  orderId : OrderId
  jobId : ℕ
  totalCents : ℤ
  stockLeft : ℤ
deriving DecidableEq, Repr

structure IdempotencyRecord (η : Type) where
  orderId : OrderId
  requestHash : η
  responseStatus : ℕ
  responseBody : ResponseBody
deriving DecidableEq, Repr

/-- A line of the order as the RETURNING of the stock update makes it. -/
def toLine (item : Item) (unitPriceCents : ℤ) : Line :=
  { productId := item.productId, quantity := item.quantity, unitPriceCents,
    lineTotalCents := unitPriceCents * item.quantity }

/-- `lines.reduce((sum, l) => sum + l.lineTotalCents, 0)`. -/
def totalOf (lines : List Line) : ℤ := (lines.map Line.lineTotalCents).sum

def toResponseBody (order : PlacedOrder) : ResponseBody :=
  ⟨order.orderId, order.items, order.totalCents, order.createdAt⟩

/-- The row of the order, with its `created_at` in microseconds. -/
def toOrderRow (order : PlacedOrder) (createdAt : ℕ) : Order :=
  { userId := order.userId, status := .completed, totalCents := order.totalCents,
    shippingCountry := order.shippingCountry, createdAt }

/-- `new Date(created_at)`, in milliseconds. -/
def toDate (createdAt : ℕ) : ℕ := createdAt / 1000

/-- The record that claims the key. -/
def toRecord {η : Type} (hash : Request → η) (inp : PlaceOrderInput) (order : PlacedOrder) :
    IdempotencyRecord η :=
  { orderId := order.orderId, requestHash := hash inp.request, responseStatus := 201,
    responseBody := toResponseBody order }

def toOutboxInsert (eventId : EventId) (createdAt : ℕ) (order : PlacedOrder) : OutboxInsert :=
  { id := eventId, aggregateId := order.orderId, payload := toOrderPlacedEvent eventId order,
    createdAt }

def orderItems (order : PlacedOrder) : List OrderItem := order.items.map (⟨order.orderId, ·⟩)

/-- `char(2)` and `CHECK (shipping_country ~ '^[A-Z]{2}$')`. -/
def countryOk (country : String) : Bool :=
  country.toList.length == 2 && country.toList.all fun c => 'A' ≤ c && c ≤ 'Z'

end Marketplace.Orders

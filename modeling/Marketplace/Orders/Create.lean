import Marketplace.Core.JsNumber
import Marketplace.Orders.Service
import Mathlib.Algebra.Order.Ring.Cast

/-!
# Orders.Create — from the validated body to placeOrder

`CreateOrderDto` and `OrdersService.create`. A product id is a JavaScript number in the body,
its text in `PlaceOrderInput`, and a `bigint` in the database. `create_sortedItems`: sorting
by `Number` of the texts is sorting by what the database makes of them, so the locks are taken
in the order of the rows.
-/

namespace Marketplace.Orders

open Core Auth

/-- `OrderItemDto`, an item as the body has it. -/
structure OrderItemDto where
  productId : ℤ
  quantity : ℤ
deriving DecidableEq, Repr

/-- `@IsInt @Min(1)` and `@IsInt @Min(1) @Max(100)`. -/
def OrderItemDto.Valid (dbl : Doubles) (item : OrderItemDto) : Prop :=
  dbl.IsInteger item.productId ∧ 1 ≤ item.productId ∧ 1 ≤ item.quantity ∧ item.quantity ≤ 100

/-- `CreateOrderDto` on the items. -/
def ValidItems (dbl : Doubles) (items : List OrderItemDto) : Prop :=
  1 ≤ items.length ∧ items.length ≤ 100 ∧ ∀ item ∈ items, item.Valid dbl

/-- The item with the `bigint` that `String(i.product_id)` denotes. -/
def OrderItemDto.toItem (num : Numerals) (item : OrderItemDto) : Item :=
  ⟨num.text item.productId, item.quantity⟩

/-- `OrdersService.create`. -/
def create (num : Numerals) (orderItems : List OrderItemDto) (userId : UserId)
    (idempotencyKey shippingCountry : Option String) : PlaceOrderInput where
  userId := userId
  items := orderItems.map (OrderItemDto.toItem num)
  shippingCountry := some (shippingCountry.getD "US")
  idempotencyKey := idempotencyKey

/-- `Number(item.productId)`, of a text that `String` has made. -/
def itemNumber (num : Numerals) (item : Item) : WithTop ℚ := num.round item.productId

/-- The lock order of an order that `create` hands over. -/
theorem create_sortedItems (num : Numerals) {orderItems : List OrderItemDto}
    (hint : ∀ item ∈ orderItems, num.IsInteger item.productId) (userId : UserId)
    (key country : Option String) :
    (create num orderItems userId key country).sortedItems =
      (create num orderItems userId key country).items.insertionSort
        fun a b => itemNumber num a ≤ itemNumber num b := by
  have hsame := List.map_insertionSort (fun a b : Item => a.productId ≤ b.productId)
    (fun a b => itemNumber num a ≤ itemNumber num b) id
    (create num orderItems userId key country).items ?_
  · rwa [List.map_id, List.map_id] at hsame
  intro a ha b hb
  obtain ⟨x, hx, rfl⟩ := List.mem_map.mp ha
  obtain ⟨y, hy, rfl⟩ := List.mem_map.mp hb
  change num.text x.productId ≤ num.text y.productId ↔
    num.round (num.text x.productId) ≤ num.round (num.text y.productId)
  rw [num.number_text _ (hint x hx), num.number_text _ (hint y hy), WithTop.coe_le_coe,
    num.text_le_iff (hint x hx) (hint y hy), Int.cast_le]

end Marketplace.Orders

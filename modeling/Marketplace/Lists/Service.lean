import Marketplace.Auth.Tokens
import Marketplace.Core.JsNumber
import Marketplace.Core.JsText
import Marketplace.Core.Sql
import Marketplace.Http
import Marketplace.Outbox.Codec

/-!
# Lists.Service — the two list endpoints

`ProductsService.findAll` of `src/products/products.service.ts` and
`OrdersService.findAllForViewer` of `src/orders/orders.service.ts`, with the controllers that
hand the limit on as it came. The two are one function with other rows, another WHERE and
another response (`Listing`).

Ids are below 2⁵³, so `Number(p.id)` is the id. A limit is a whole number; `limit + 1` is
rounded from 2⁵³ on, but no table has so many rows.
-/

namespace Marketplace.Lists

open Core Auth

/-- The rows of a table, with their primary keys. -/
structure Table (α : Type) (id : α → ℤ) where
  rows : List α
  distinct : (rows.map id).Nodup
  small : ∀ row ∈ rows, |id row| < 2 ^ 53

structure Page (β : Type) where
  items : List β
  nextCursor : Option String

/-- What the two endpoints do not share. -/
structure Listing (α β : Type) where
  id : α → ℤ
  /-- The WHERE of the list, the cursor apart. -/
  visible : α → Bool
  toResponse : α → β
  responseId : β → ℤ
  responseId_eq : ∀ row, responseId (toResponse row) = id row

/-- `take` of `find`: LIMIT for a positive number, no limit for 0. What becomes of a negative
one is left open: some rows, or an error of the database. -/
structure TypeOrm where
  negative : ∀ {α : Type}, ℤ → List α → Option (List α)

def TypeOrm.take {α : Type} (orm : TypeOrm) (n : ℤ) (rows : List α) : Option (List α) :=
  if 0 < n then some (rows.take n.toNat)
  else if n = 0 then some rows
  else orm.negative n rows

/-- `rows.slice(0, stop)`. -/
def slice {α : Type} (stop : ℤ) (rows : List α) : List α :=
  rows.take (if stop < 0 then (rows.length + stop).toNat else stop.toNat)

/-- `if (cursor) where.id = MoreThan(Number(cursor))`. The outer `none` is the error of the
database for a number that is no `bigint`. -/
def moreThan (dbl : Doubles) (cursor : Option String) : Option (Option ℤ) :=
  match cursor.filter (· ≠ "") with
  | none => some none
  | some text =>
      ((JsText.number text.toList).bind dbl.finite).bind fun q =>
        if q.den = 1 ∧ Int8 q.num then some (some q.num) else none

namespace Listing

variable {α β : Type} (orm : TypeOrm) (dbl : Doubles) (l : Listing α β)

/-- The rows after the bound that the WHERE lets through, `ORDER BY id ASC`. -/
def selected (table : Table α l.id) (bound : Option ℤ) : List α :=
  (table.rows.filter fun row => l.visible row && bound.all (· < l.id row)).mergeSort
    fun a b => decide (l.id a ≤ l.id b)

/-- The page made of the rows found. -/
def respond (limit : ℤ) (found : List α) : Except Thrown (Page β) :=
  let hasMore := decide (limit < found.length)
  let items := (if hasMore then slice limit found else found).map l.toResponse
  if hasMore then
    match items.getLast? with
    -- `items[items.length - 1].id` of no items
    | none => .error (.error "TypeError")
    | some last => .ok ⟨items, some (toString (l.responseId last))⟩
  else .ok ⟨items, none⟩

def list (table : Table α l.id) (limit : ℤ) (cursor : Option String) : Except Thrown (Page β) :=
  match (moreThan dbl cursor).bind fun bound => orm.take (limit + 1) (l.selected table bound) with
  | none => .error (.error "QueryFailedError")
  | some found => l.respond limit found

end Listing

/-! ## Products -/

structure Product where
  id : ℤ
  name : String
  priceCents : ℕ
  isActive : Bool
deriving DecidableEq, Repr

structure ProductItem where
  id : ℤ
  name : String
  priceCents : ℕ
deriving DecidableEq, Repr

def productListing : Listing Product ProductItem where
  id p := p.id
  visible p := p.isActive
  toResponse p := { id := p.id, name := p.name, priceCents := p.priceCents }
  responseId item := item.id
  responseId_eq _ := rfl

abbrev Products := Table Product Product.id

def ProductsService.findAll (orm : TypeOrm) (dbl : Doubles) (products : Products) (limit : ℤ)
    (cursor : Option String) : Except Thrown (Page ProductItem) :=
  productListing.list orm dbl products limit cursor

def ProductsController.listProducts (orm : TypeOrm) (dbl : Doubles) (products : Products)
    (limit : Option ℤ) (cursor : Option String) : Except Thrown (Page ProductItem) :=
  ProductsService.findAll orm dbl products (limit.getD 20) cursor

/-! ## Orders -/

structure OrderItem where
  productId : ℤ
  quantity : ℕ
  unitPriceCents : ℕ
  lineTotalCents : ℕ
deriving DecidableEq, Repr

structure Order where
  id : ℤ
  userId : UserId
  items : List OrderItem
  totalCents : ℕ
  createdAt : ℕ
deriving DecidableEq, Repr

structure OrderResponse where
  id : ℤ
  items : List OrderItem
  totalCents : ℕ
  createdAt : String
deriving DecidableEq, Repr

/-- The orders that the WHERE of `findAllForViewer` lets this viewer see. -/
def orderListing (viewer : AccessClaims) : Listing Order OrderResponse where
  id o := o.id
  visible o := viewer.role = .admin ∨ o.userId = viewer.sub
  toResponse o :=
    { id := o.id, items := o.items, totalCents := o.totalCents
      createdAt := Outbox.toISOString o.createdAt }
  responseId order := order.id
  responseId_eq _ := rfl

abbrev Orders := Table Order Order.id

def OrdersService.findAllForViewer (orm : TypeOrm) (dbl : Doubles) (orders : Orders)
    (viewer : AccessClaims) (limit : ℤ) (cursor : Option String) :
    Except Thrown (Page OrderResponse) :=
  (orderListing viewer).list orm dbl orders limit cursor

def OrdersController.listOrders (orm : TypeOrm) (dbl : Doubles) (orders : Orders)
    (viewer : AccessClaims) (limit : Option ℤ) (cursor : Option String) :
    Except Thrown (Page OrderResponse) :=
  OrdersService.findAllForViewer orm dbl orders viewer (limit.getD 20) cursor

end Marketplace.Lists

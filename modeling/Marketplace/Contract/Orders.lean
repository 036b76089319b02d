import Marketplace.Contract.Cursor
import Marketplace.Contract.Json
import Marketplace.Core.JsMap
import Mathlib.Algebra.Order.BigOperators.Group.List

/-!
# Contract.Orders — POST /orders of the contract-first API

`hw-09/src/app.js` and the schemas of `hw-09/openapi/openapi.yaml`. The store is in memory: a list
of orders and a `Map` of the keys that have succeeded.

* the validator stands before the handler, so a request is one that `CreateOrderRequest` and the
  header's schema admit (`Request.Admitted`). Amounts are whole numbers far below 2⁵³, so
  nothing is rounded (`Priced.exact`);
* `serve` answers requests one after the other. The handler awaits nothing, so there is no other
  order of events.
-/

namespace Marketplace.Contract

open Core Core.JsString

/-! ## The store -/

structure Product where
  id : ℤ
  name : String
  priceCents : ℤ
deriving DecidableEq

def products : List Product :=
  [⟨1, "Mechanical Keyboard", 12900⟩, ⟨2, "Wireless Mouse", 5900⟩, ⟨3, "USB-C Hub", 7900⟩,
    ⟨4, "Laptop Stand", 4500⟩, ⟨5, "Web Camera", 9900⟩]

structure OrderItem where
  productId : ℤ
  quantity : ℤ
  unitPriceCents : ℤ
  lineTotalCents : ℤ
deriving DecidableEq

structure Order where
  id : ℕ
  items : List OrderItem
  totalCents : ℤ
  createdAt : String
deriving DecidableEq

def initialOrders : List Order :=
  [{ id := 1
     items := [⟨2, 2, 5900, 11800⟩]
     totalCents := 11800
     createdAt := "2026-08-01T10:00:00.000Z" }]

/-- What a key has been used for. -/
structure Record where
  requestFingerprint : Units
  order : Order

structure Store where
  orders : List Order
  idempotencyRecords : JsMap Units Record

def createApp : Store := ⟨initialOrders, JsMap.empty⟩

/-- `now` is `new Date().toISOString()`. -/
structure Request where
  key : Units
  body : Value
  now : String

inductive Answer where
  /-- 201, with `Location` and `Idempotency-Replay`. -/
  | created (location : List Char) (replay : Bool) (order : Order)
  | problem (error : ApiError)
  /-- A TypeError, or a number that is not whole. -/
  | failed

def created (replay : Bool) (order : Order) : Answer :=
  .created ("/orders/".toList ++ (toString order.id).toList) replay order

def idempotencyConflict : ApiError where
  status := 422
  title := "Idempotency Conflict"
  detail := "This Idempotency-Key was already used with a different request body.".toList
  type := "https://marketplace.example/problems/idempotency-conflict"

def productNotFound (dec : NumberTexts) (productId : ℤ) : ApiError where
  status := 404
  title := "Product Not Found"
  detail := "Product ".toList ++ dec.decimal productId ++ " does not exist.".toList
  type := "https://marketplace.example/problems/product-not-found"

/-! ## The schemas -/

def itemsName : Units := units "items".toList
def productIdName : Units := units "product_id".toList
def quantityName : Units := units "quantity".toList

/-- `type: integer`, with `minimum` and `maximum`. -/
def IntegerIn (minimum : ℤ) (maximum : Option ℤ) : Value → Prop
  | .num n => ∃ k : ℤ, n.value = k ∧ minimum ≤ k ∧ ∀ m ∈ maximum, k ≤ m
  | _ => False

/-- The names are required, and no others are allowed. -/
def Names (names : List Units) (fields : List (Units × Value)) : Prop :=
  ∀ k, k ∈ fields.map Prod.fst ↔ k ∈ names

def OrderItemInput : Value → Prop
  | .obj fields => Names [productIdName, quantityName] fields ∧
      (∀ v, (productIdName, v) ∈ fields → IntegerIn 1 none v) ∧
      ∀ v, (quantityName, v) ∈ fields → IntegerIn 1 (some 100) v
  | _ => False

def CreateOrderRequest : Value → Prop
  | .obj fields => Names [itemsName] fields ∧
      ∀ v, (itemsName, v) ∈ fields → ∃ items, v = .arr items ∧ 1 ≤ items.length ∧
        items.length ≤ 100 ∧ ∀ item ∈ items, OrderItemInput item
  | _ => False

/-- What reaches the handler: a parsed body of the schema, and a key of 1 to 255 characters. -/
structure Request.Admitted (dec : NumberTexts) (req : Request) : Prop where
  key : 1 ≤ req.key.length ∧ req.key.length ≤ 255
  parsed : Parsed dec req.body
  body : CreateOrderRequest req.body

/-! ## The handler -/

/-- `value[name]`; `none` for `undefined`. -/
def property (name : Units) : Value → Option Value
  | .obj fields => fields.lookup name
  | _ => none

def integer : Value → Option ℤ
  | .num n => if n.value.den = 1 then some n.value.num else none
  | _ => none

/-- `product_id` and `quantity` of an item. -/
def readItem (item : Value) : Option (ℤ × ℤ) := do
  let productId ← (property productIdName item).bind integer
  let quantity ← (property quantityName item).bind integer
  return (productId, quantity)

def readItems (body : Value) : Option (List (ℤ × ℤ)) :=
  match property itemsName body with
  | some (.arr items) => items.mapM readItem
  | _ => none

/-- The loop over the items; `error` is the first product that does not exist. -/
def orderItems : List (ℤ × ℤ) → Except ℤ (List OrderItem)
  | [] => .ok []
  | (productId, quantity) :: items =>
      match products.find? fun p => p.id = productId with
      | none => .error productId
      | some product =>
          (orderItems items).map fun lines =>
            { productId := product.id
              quantity
              unitPriceCents := product.priceCents
              lineTotalCents := product.priceCents * quantity } :: lines

def newOrder (orders : List Order) (items : List OrderItem) (now : String) : Order where
  id := orders.length + 1
  items := items
  totalCents := items.foldl (fun total item => total + item.lineTotalCents) 0
  createdAt := now

/-- `app.post('/orders', …)`. -/
def post (dec : NumberTexts) (req : Request) (s : Store) : Answer × Store :=
  let requestFingerprint := stableStringify dec req.body
  match s.idempotencyRecords.get req.key with
  | some previous =>
      if previous.requestFingerprint ≠ requestFingerprint then (.problem idempotencyConflict, s)
      else (created true previous.order, s)
  | none =>
      match readItems req.body with
      | none => (.failed, s)
      | some items =>
          match orderItems items with
          | .error productId => (.problem (productNotFound dec productId), s)
          | .ok items =>
              let order := newOrder s.orders items req.now
              (created false order,
                { orders := s.orders ++ [order]
                  idempotencyRecords :=
                    s.idempotencyRecords.set req.key ⟨requestFingerprint, order⟩ })

/-- Requests one after the other, with their answers. -/
def serve (dec : NumberTexts) (reqs : List Request) : Store × List (Request × Answer) :=
  reqs.foldl
    (fun (s, log) req => ((post dec req s).2, log ++ [(req, (post dec req s).1)]))
    (createApp, [])

/-! ## Reading an admitted body -/

section

variable {dec : NumberTexts} {v item body : Value} {fields : List (Units × Value)}
  {names : List Units} {k : Units}

/-- A required name is found. -/
theorem property_of_names (hnames : Names names fields) (hk : k ∈ names) :
    ∃ v, property k (.obj fields) = some v ∧ (k, v) ∈ fields := by
  have hin : k ∈ fields.map Prod.fst := (hnames k).mpr hk
  cases h : fields.lookup k with
  | none =>
      obtain ⟨f, hf, rfl⟩ := List.mem_map.mp hin
      have hne := List.lookup_eq_none_iff.mp h f hf
      simp at hne
  | some v =>
      obtain ⟨front, back, rfl, -⟩ := List.lookup_eq_some_iff.mp h
      exact ⟨v, h, by simp⟩

/-- A value that passes the range check is an integer within the range. -/
theorem integer_of_in {lo : ℤ} {hi : Option ℤ} (h : IntegerIn lo hi v) :
    ∃ n, integer v = some n ∧ lo ≤ n ∧ ∀ m ∈ hi, n ≤ m := by
  cases v with
  | num n =>
      obtain ⟨n', hvalue, hlo, hhi⟩ := h
      refine ⟨n', ?_, hlo, hhi⟩
      simp [integer, hvalue]
  | _ => exact h.elim

/-- An item that passes its check has a product and a quantity from 1 to 100. -/
theorem readItem_of_input (h : OrderItemInput item) :
    ∃ productId quantity, readItem item = some (productId, quantity) ∧ 1 ≤ quantity ∧
      quantity ≤ 100 := by
  cases item with
  | obj fields =>
      obtain ⟨hnames, hproduct, hquantity⟩ := h
      obtain ⟨v, hv, hvmem⟩ := property_of_names (k := productIdName) hnames (by simp)
      obtain ⟨w, hw, hwmem⟩ := property_of_names (k := quantityName) hnames (by simp)
      obtain ⟨productId, hproductId, -, -⟩ := integer_of_in (hproduct v hvmem)
      obtain ⟨quantity, hquantity, hlo, hhi⟩ := integer_of_in (hquantity w hwmem)
      refine ⟨productId, quantity, ?_, hlo, hhi 100 rfl⟩
      simp [readItem, hv, hw, hproductId, hquantity]
  | _ => exact h.elim

/-- If every item passes its check, all of them are read, in their order. -/
theorem mapM_readItem {items : List Value} (h : ∀ item ∈ items, OrderItemInput item) :
    ∃ read, items.mapM readItem = some read ∧ read.length = items.length ∧
      ∀ p ∈ read, 1 ≤ p.2 ∧ p.2 ≤ 100 := by
  induction items with
  | nil => exact ⟨[], rfl, rfl, nofun⟩
  | cons item items ih =>
      obtain ⟨read, hread, hlen, hall⟩ := ih fun i hi => h i (List.mem_cons_of_mem item hi)
      obtain ⟨productId, quantity, hitem, hlo, hhi⟩ := readItem_of_input (h item List.mem_cons_self)
      refine ⟨(productId, quantity) :: read, ?_, by simp [hlen], ?_⟩
      · rw [List.mapM_cons, hitem, hread]
        rfl
      · intro p hp
        rcases List.mem_cons.mp hp with rfl | hp
        · exact ⟨hlo, hhi⟩
        · exact hall p hp

/-- The handler can read every body that the schema admits. -/
theorem readItems_of_request (h : CreateOrderRequest body) :
    ∃ items, readItems body = some items ∧ items ≠ [] ∧ items.length ≤ 100 ∧
      ∀ p ∈ items, 1 ≤ p.2 ∧ p.2 ≤ 100 := by
  cases body with
  | obj fields =>
      obtain ⟨hnames, hitems⟩ := h
      obtain ⟨v, hv, hvmem⟩ := property_of_names (k := itemsName) hnames (by simp)
      obtain ⟨items, rfl, hpos, hle, hall⟩ := hitems v hvmem
      obtain ⟨read, hread, hlen, hread'⟩ := mapM_readItem hall
      refine ⟨read, by rw [readItems, hv]; exact hread, ?_, by omega, hread'⟩
      rintro rfl
      simp at hlen
      omega
  | _ => exact h.elim

end

/-! ## Prices -/

/-- A line of a product at its price. -/
structure LinePriced (line : OrderItem) : Prop where
  product : ∃ p ∈ products, p.id = line.productId ∧ p.priceCents = line.unitPriceCents
  quantity : 1 ≤ line.quantity ∧ line.quantity ≤ 100
  total : line.lineTotalCents = line.unitPriceCents * line.quantity

structure Priced (o : Order) : Prop where
  lines : ∀ line ∈ o.items, LinePriced line
  few : o.items.length ≤ 100
  total : o.totalCents = (o.items.map OrderItem.lineTotalCents).sum

/-- What a line asks for. -/
def OrderItem.asked (line : OrderItem) : ℤ × ℤ := (line.productId, line.quantity)

section

variable {items : List (ℤ × ℤ)} {lines : List OrderItem} {productId : ℤ}

/-- The lines are those asked for, in their order and at the catalogue's prices. -/
theorem orderItems_ok (h : orderItems items = .ok lines) :
    lines.map OrderItem.asked = items ∧ ∀ line ∈ lines,
      (∃ p ∈ products, p.id = line.productId ∧ p.priceCents = line.unitPriceCents) ∧
      line.lineTotalCents = line.unitPriceCents * line.quantity := by
  induction items generalizing lines with
  | nil =>
      cases h
      exact ⟨rfl, nofun⟩
  | cons item items ih =>
      obtain ⟨productId, quantity⟩ := item
      rw [orderItems] at h
      cases hfind : products.find? fun p => p.id = productId with
      | none =>
          rw [hfind] at h
          cases h
      | some product =>
          rw [hfind] at h
          cases hrest : orderItems items with
          | error missing =>
              rw [hrest] at h
              cases h
          | ok rest =>
              rw [hrest] at h
              cases h
              obtain ⟨hasked, hall⟩ := ih hrest
              have hid : product.id = productId := by simpa using List.find?_some hfind
              refine ⟨by rw [List.map_cons, hasked, OrderItem.asked, hid], ?_⟩
              intro line hline
              rcases List.mem_cons.mp hline with rfl | hline
              · exact ⟨⟨product, List.mem_of_find?_eq_some hfind, rfl, rfl⟩, rfl⟩
              · exact hall line hline

/-- The product that is missing was asked for, and there is none. -/
theorem orderItems_error (h : orderItems items = .error productId) :
    (∃ item ∈ items, item.1 = productId) ∧ ∀ p ∈ products, p.id ≠ productId := by
  induction items with
  | nil => cases h
  | cons item items ih =>
      obtain ⟨asked, quantity⟩ := item
      rw [orderItems] at h
      cases hfind : products.find? fun p => p.id = asked with
      | none =>
          rw [hfind] at h
          cases h
          refine ⟨⟨(productId, quantity), List.mem_cons_self, rfl⟩, ?_⟩
          intro p hp
          simpa using List.find?_eq_none.mp hfind p hp
      | some product =>
          rw [hfind] at h
          cases hrest : orderItems items with
          | error missing =>
              rw [hrest] at h
              cases h
              obtain ⟨⟨item, hitem, heq⟩, hnone⟩ := ih hrest
              exact ⟨⟨item, List.mem_cons_of_mem _ hitem, heq⟩, hnone⟩
          | ok rest =>
              rw [hrest] at h
              cases h

/-- The running total is the start plus the sum of the lines. -/
theorem foldl_total (lines : List OrderItem) (total : ℤ) :
    lines.foldl (fun total line => total + line.lineTotalCents) total =
      total + (lines.map OrderItem.lineTotalCents).sum := by
  induction lines generalizing total with
  | nil => simp
  | cons line lines ih => rw [List.foldl_cons, ih, List.map_cons, List.sum_cons, add_assoc]

/-- A new order is priced by its lines: the total is their sum, and each line is quantity times
price. -/
theorem newOrder_priced {orders : List Order} {now : String} (h : orderItems items = .ok lines)
    (hfew : items.length ≤ 100) (hquantity : ∀ p ∈ items, 1 ≤ p.2 ∧ p.2 ≤ 100) :
    Priced (newOrder orders lines now) := by
  obtain ⟨hasked, hall⟩ := orderItems_ok h
  refine ⟨?_, ?_, by rw [newOrder, foldl_total, zero_add]⟩
  · intro line hline
    obtain ⟨hproduct, htotal⟩ := hall line hline
    exact ⟨hproduct, hquantity _ (hasked ▸ List.mem_map_of_mem hline), htotal⟩
  · rw [← hasked, List.length_map] at hfew
    exact hfew

/-- The catalogue's prices. -/
theorem price_range {p : Product} (hp : p ∈ products) :
    0 ≤ p.priceCents ∧ p.priceCents ≤ 12900 := by
  have hall : products.all (fun p => 0 ≤ p.priceCents ∧ p.priceCents ≤ 12900) = true := by decide
  exact of_decide_eq_true (List.all_eq_true.mp hall p hp)

/-- No total comes near 2⁵³, so no sum on the way is rounded. -/
theorem Priced.exact {o : Order} (h : Priced o) :
    0 ≤ o.totalCents ∧ o.totalCents ≤ 100 * 1290000 := by
  have hline : ∀ n ∈ o.items.map OrderItem.lineTotalCents, 0 ≤ n ∧ n ≤ 1290000 := by
    intro n hn
    obtain ⟨line, hmem, rfl⟩ := List.mem_map.mp hn
    obtain ⟨⟨p, hp, -, hprice⟩, ⟨hlo, hhi⟩, htotal⟩ := h.lines line hmem
    obtain ⟨hpos, hle⟩ := price_range hp
    rw [htotal, ← hprice]
    constructor
    · positivity
    · nlinarith
  rw [h.total]
  constructor
  · exact List.sum_nonneg fun n hn => (hline n hn).1
  · have hsum := List.sum_le_card_nsmul _ _ fun n hn => (hline n hn).2
    rw [List.length_map, nsmul_eq_mul] at hsum
    have hfew : (o.items.length : ℤ) ≤ 100 := by exact_mod_cast h.few
    linarith

end

/-! ## One request -/

/-- A key that is not there: a new order of the lines asked for, or nothing, as one of the
products asked for does not exist. -/
def New (dec : NumberTexts) (req : Request) (s : Store) : Prop :=
  ∃ items, readItems req.body = some items ∧
    ((∃ o, o.items.map OrderItem.asked = items ∧ Priced o ∧ o.id = s.orders.length + 1 ∧
        o.createdAt = req.now ∧ post dec req s = (created false o,
          ⟨s.orders ++ [o], s.idempotencyRecords.set req.key ⟨stableStringify dec req.body, o⟩⟩)) ∨
      ∃ productId, (∃ item ∈ items, item.1 = productId) ∧ (∀ p ∈ products, p.id ≠ productId) ∧
        post dec req s = (.problem (productNotFound dec productId), s))

section

variable {dec : NumberTexts} {req : Request} {s : Store} {previous : Record}

/-- A first request with its key makes an order, or a problem that leaves everything as it was. -/
theorem post_new (hreq : req.Admitted dec) (hget : s.idempotencyRecords.get req.key = none) :
    New dec req s := by
  obtain ⟨items, hitems, -, hfew, hquantity⟩ := readItems_of_request hreq.body
  refine ⟨items, hitems, ?_⟩
  cases hlines : orderItems items with
  | ok lines =>
      left
      refine ⟨newOrder s.orders lines req.now, (orderItems_ok hlines).1,
        newOrder_priced hlines hfew hquantity, rfl, rfl, ?_⟩
      simp only [post, hget, hitems, hlines]
  | error productId =>
      right
      obtain ⟨hasked, hnone⟩ := orderItems_error hlines
      refine ⟨productId, hasked, hnone, ?_⟩
      simp only [post, hget, hitems, hlines]

theorem post_replay (hget : s.idempotencyRecords.get req.key = some previous)
    (h : previous.requestFingerprint = stableStringify dec req.body) :
    post dec req s = (created true previous.order, s) := by
  simp only [post, hget]
  exact if_neg (not_not.mpr h)

theorem post_conflict (hget : s.idempotencyRecords.get req.key = some previous)
    (h : previous.requestFingerprint ≠ stableStringify dec req.body) :
    post dec req s = (.problem idempotencyConflict, s) := by
  simp only [post, hget]
  exact if_pos h

/-- What a request can do. -/
theorem post_cases (hreq : req.Admitted dec) :
    (∃ previous, s.idempotencyRecords.get req.key = some previous ∧
        previous.requestFingerprint = stableStringify dec req.body ∧
        post dec req s = (created true previous.order, s)) ∨
      (∃ previous, s.idempotencyRecords.get req.key = some previous ∧
        post dec req s = (.problem idempotencyConflict, s)) ∨
      s.idempotencyRecords.get req.key = none ∧ New dec req s := by
  cases hget : s.idempotencyRecords.get req.key with
  | none => exact .inr (.inr ⟨rfl, post_new hreq hget⟩)
  | some previous =>
      by_cases hprint : previous.requestFingerprint = stableStringify dec req.body
      · exact .inl ⟨previous, rfl, hprint, post_replay hget hprint⟩
      · exact .inr (.inl ⟨previous, rfl, post_conflict hget hprint⟩)

end

/-! ## Runs -/

/-- The order a request made: a replay makes none. -/
def made : Request × Answer → Option Order
  | (_, .created _ false o) => some o
  | _ => none

/-- The orders made under a key. -/
def madeUnder (log : List (Request × Answer)) (key : Units) : List Order :=
  (log.filter fun entry => entry.1.key = key).filterMap made

/-- The request was answered with an order. -/
def Succeeded (log : List (Request × Answer)) (r : Request) (o : Order) : Prop :=
  ∃ location replay, (r, Answer.created location replay o) ∈ log

structure Consistent (dec : NumberTexts) (s : Store) (log : List (Request × Answer)) : Prop where
  orders : s.orders = initialOrders ++ log.filterMap made
  numbered : s.orders.map Order.id = List.range' 1 s.orders.length
  priced : ∀ o ∈ s.orders, Priced o
  keys : ∀ key, madeUnder log key = ((s.idempotencyRecords.get key).map Record.order).toList
  succeeded : ∀ r o, Succeeded log r o → r.Admitted dec ∧
    s.idempotencyRecords.get r.key = some ⟨stableStringify dec r.body, o⟩

section

variable {dec : NumberTexts} {req r : Request} {s : Store} {log : List (Request × Answer)}
  {o o' : Order} {key : Units} {answer : Answer} {replay : Bool} {e : ApiError}

/-- The orders made so far, after one more answer, are those before and what that answer made. -/
theorem filterMap_made_append :
    (log ++ [(req, answer)]).filterMap made = log.filterMap made ++ (made (req, answer)).toList := by
  rw [List.filterMap_append]
  cases h : made (req, answer) with
  | none => simp [h]
  | some o => simp [h]

theorem madeUnder_append_self : madeUnder (log ++ [(req, answer)]) req.key =
    madeUnder log req.key ++ (made (req, answer)).toList := by
  rw [madeUnder, List.filter_append, List.filter_cons_of_pos (by simp), List.filter_nil,
    filterMap_made_append, madeUnder]

/-- An answer under another key makes nothing under this one. -/
theorem madeUnder_append_other (h : key ≠ req.key) :
    madeUnder (log ++ [(req, answer)]) key = madeUnder log key := by
  have hlast : [(req, answer)].filter (fun entry => entry.1.key = key) = [] := by
    simpa using Ne.symm h
  rw [madeUnder, List.filter_append, hlast, List.append_nil, madeUnder]

/-- An answer that made nothing. -/
theorem madeUnder_append_none (h : made (req, answer) = none) :
    madeUnder (log ++ [(req, answer)]) key = madeUnder log key := by
  by_cases hkey : key = req.key
  · rw [hkey, madeUnder_append_self, h, Option.toList_none, List.append_nil]
  · exact madeUnder_append_other hkey

/-- A success in the longer log is one of before, or the last answer. -/
theorem succeeded_append (h : Succeeded (log ++ [(req, answer)]) r o) :
    Succeeded log r o ∨ r = req ∧ ∃ location replay, answer = .created location replay o := by
  obtain ⟨location, replay, hmem⟩ := h
  rcases List.mem_append.mp hmem with hmem | hmem
  · exact .inl ⟨location, replay, hmem⟩
  · have heq := List.mem_singleton.mp hmem
    exact .inr ⟨congrArg Prod.fst heq, location, replay, (congrArg Prod.snd heq).symm⟩

/-- Behind every order made under a key stands a request with that key that succeeded. -/
theorem succeeded_of_made (h : o ∈ madeUnder log key) : ∃ r, r.key = key ∧ Succeeded log r o := by
  obtain ⟨⟨r, answer⟩, hentry, hmade⟩ := List.mem_filterMap.mp h
  obtain ⟨hmem, hkey⟩ := List.mem_filter.mp hentry
  refine ⟨r, of_decide_eq_true hkey, ?_⟩
  cases answer with
  | created location replay o' =>
      cases replay with
      | true => cases hmade
      | false =>
          cases hmade
          exact ⟨location, false, hmem⟩
  | problem e => cases hmade
  | failed => cases hmade

/-- The empty shop is consistent with the empty log. -/
theorem Consistent.init : Consistent dec createApp [] where
  orders := rfl
  numbered := rfl
  priced := by
    intro o ho
    obtain rfl := List.mem_singleton.mp ho
    refine ⟨?_, by decide, by decide⟩
    intro line hline
    obtain rfl := List.mem_singleton.mp hline
    exact ⟨⟨⟨2, "Wireless Mouse", 5900⟩, by decide, rfl, rfl⟩, by decide, by decide⟩
  keys _ := rfl
  succeeded r o h := by
    obtain ⟨location, replay, hmem⟩ := h
    cases hmem

/-- A request that leaves the store as it is. -/
theorem Consistent.stay (hc : Consistent dec s log) (hmade : made (req, answer) = none)
    (hanswer : ∀ location replay o, answer = .created location replay o → req.Admitted dec ∧
      s.idempotencyRecords.get req.key = some ⟨stableStringify dec req.body, o⟩) :
    Consistent dec s (log ++ [(req, answer)]) where
  orders := by rw [filterMap_made_append, hmade, Option.toList_none, List.append_nil, hc.orders]
  numbered := hc.numbered
  priced := hc.priced
  keys key := by rw [madeUnder_append_none hmade, hc.keys]
  succeeded r o h := by
    rcases succeeded_append h with h | ⟨rfl, location, replay, hcreated⟩
    · exact hc.succeeded r o h
    · exact hanswer location replay o hcreated

/-- A request that makes an order under a key that is not there. -/
theorem Consistent.push (hc : Consistent dec s log) (hreq : req.Admitted dec)
    (hget : s.idempotencyRecords.get req.key = none) (hpriced : Priced o)
    (hid : o.id = s.orders.length + 1) :
    Consistent dec
      ⟨s.orders ++ [o], s.idempotencyRecords.set req.key ⟨stableStringify dec req.body, o⟩⟩
      (log ++ [(req, created false o)]) where
  orders := by
    rw [filterMap_made_append, ← List.append_assoc, ← hc.orders]
    rfl
  numbered := by
    have hlen : (s.orders ++ [o]).length = s.orders.length + 1 := by simp
    rw [hlen, List.range'_1_concat, List.map_append, hc.numbered, List.map_singleton, hid,
      Nat.add_comm 1]
  priced := by
    intro o' ho'
    rcases List.mem_append.mp ho' with ho' | ho'
    · exact hc.priced o' ho'
    · rw [List.mem_singleton.mp ho']
      exact hpriced
  keys key := by
    by_cases hkey : key = req.key
    · rw [hkey, madeUnder_append_self, hc.keys, hget, JsMap.get_set_self]
      rfl
    · rw [madeUnder_append_other hkey, hc.keys, JsMap.get_set_of_ne hkey]
  succeeded r o' h := by
    rcases succeeded_append h with h | ⟨rfl, location, replay, hcreated⟩
    · obtain ⟨hr, hrget⟩ := hc.succeeded r o' h
      have hne : r.key ≠ req.key := by
        intro heq
        rw [heq, hget] at hrget
        cases hrget
      exact ⟨hr, by rw [JsMap.get_set_of_ne hne, hrget]⟩
    · cases hcreated
      exact ⟨hreq, JsMap.get_set_self⟩

/-- An answered request keeps the shop and the log in step: an order is made exactly where the log
says so, and recorded under its key. -/
theorem Consistent.post (hc : Consistent dec s log) (hreq : req.Admitted dec) :
    Consistent dec (post dec req s).2 (log ++ [(req, (post dec req s).1)]) := by
  rcases post_cases hreq with ⟨previous, hget, hprint, hpost⟩ | ⟨previous, hget, hpost⟩ |
    ⟨hget, items, -, ⟨o, -, hpriced, hid, -, hpost⟩ | ⟨productId, -, -, hpost⟩⟩
  · rw [hpost]
    refine hc.stay rfl ?_
    intro location replay o h
    cases h
    rw [← hprint]
    exact ⟨hreq, hget⟩
  · rw [hpost]
    exact hc.stay rfl nofun
  · rw [hpost]
    exact hc.push hreq hget hpriced hid
  · rw [hpost]
    exact hc.stay rfl nofun

/-- Any number of requests, one after the other, keep the shop and the log in step. -/
theorem Consistent.serve (reqs : List Request) (hreqs : ∀ r ∈ reqs, r.Admitted dec) :
    Consistent dec (serve dec reqs).1 (serve dec reqs).2 := by
  induction reqs using List.reverseRecOn with
  | nil => exact .init
  | append_singleton reqs req ih =>
      have hprev := ih fun r hr => hreqs r (List.mem_append_left [req] hr)
      rw [Contract.serve, List.foldl_append]
      exact hprev.post (hreqs req (by simp))

/-- An order that a request was answered with is in the shop, and is the only one made under its
key. -/
theorem Consistent.owns (hc : Consistent dec s log) (h : Succeeded log r o) :
    o ∈ s.orders ∧ madeUnder log r.key = [o] := by
  have hunder : madeUnder log r.key = [o] := by
    rw [hc.keys, (hc.succeeded r o h).2]
    rfl
  refine ⟨?_, hunder⟩
  obtain ⟨entry, hentry, hmade⟩ := List.mem_filterMap.mp (hunder ▸ List.mem_singleton_self o)
  rw [hc.orders]
  exact List.mem_append_right _
    (List.mem_filterMap.mpr ⟨entry, (List.mem_filter.mp hentry).1, hmade⟩)

/-- A request with a key that has succeeded gets the same order for the same body, and the
conflict for any other; nothing changes in either case. -/
theorem Consistent.again (hc : Consistent dec s log) (hreq : req.Admitted dec)
    (h : Succeeded log r o) (hkey : r.key = req.key) :
    (Same req.body r.body → Contract.post dec req s = (created true o, s)) ∧
      (¬ Same req.body r.body → Contract.post dec req s = (.problem idempotencyConflict, s)) := by
  obtain ⟨hr, hget⟩ := hc.succeeded r o h
  rw [hkey] at hget
  constructor
  · intro hsame
    have htext := text_eq_of_same hsame hreq.parsed hr.parsed
    rw [post_replay hget htext.symm]
  · intro hdiff
    have htext : stableStringify dec r.body ≠ stableStringify dec req.body := fun h =>
      hdiff (same_of_text_eq hreq.parsed hr.parsed h.symm)
    rw [post_conflict hget htext]

/-- A key under which nothing has succeeded makes a new order, or a problem. -/
theorem Consistent.new (hc : Consistent dec s log) (hreq : req.Admitted dec)
    (h : ∀ r o, Succeeded log r o → r.key ≠ req.key) : New dec req s := by
  apply post_new hreq
  cases hget : s.idempotencyRecords.get req.key with
  | none => rfl
  | some previous =>
      have hmade : previous.order ∈ madeUnder log req.key := by
        rw [hc.keys, hget]
        exact List.mem_singleton_self _
      obtain ⟨r, hkey, hsucceeded⟩ := succeeded_of_made hmade
      exact absurd hkey (h r _ hsucceeded)

/-- A request that is answered with a problem leaves the shop as it was. -/
theorem post_problem (hreq : req.Admitted dec) (he : (Contract.post dec req s).1 = .problem e) :
    (Contract.post dec req s).2 = s := by
  rcases post_cases hreq with ⟨previous, -, -, hpost⟩ | ⟨previous, -, hpost⟩ |
    ⟨-, items, -, ⟨o, -, -, -, -, hpost⟩ | ⟨productId, -, -, hpost⟩⟩
  · rw [hpost]
  · rw [hpost]
  · rw [hpost] at he
    cases he
  · rw [hpost]

end

/-- After any requests: what the store holds, and what the next one is answered. -/
theorem orders_idempotent (dec : NumberTexts) (reqs : List Request) (req : Request)
    (hreqs : ∀ r ∈ reqs, r.Admitted dec) (hreq : req.Admitted dec) :
    let s := (serve dec reqs).1
    let log := (serve dec reqs).2
    -- the orders
    (s.orders = initialOrders ++ log.filterMap made ∧
      s.orders.map Order.id = List.range' 1 s.orders.length ∧
      ∀ o ∈ s.orders, Priced o ∧ 0 ≤ o.totalCents ∧ o.totalCents ≤ 100 * 1290000) ∧
    -- a key that has succeeded owns one of them
    (∀ r o, Succeeded log r o → o ∈ s.orders ∧ madeUnder log r.key = [o]) ∧
    -- and answers with it, or with 422
    (∀ r o, Succeeded log r o → r.key = req.key →
      (Same req.body r.body → post dec req s = (created true o, s)) ∧
      (¬ Same req.body r.body → post dec req s = (.problem idempotencyConflict, s))) ∧
    -- a problem changes nothing
    (∀ e, (post dec req s).1 = .problem e → (post dec req s).2 = s) ∧
    -- a key that has not succeeded is new, whatever it was answered
    ((∀ r o, Succeeded log r o → r.key ≠ req.key) → New dec req s) := by
  intro s log
  have hc : Consistent dec s log := .serve reqs hreqs
  exact ⟨⟨hc.orders, hc.numbered, fun o ho => ⟨hc.priced o ho, (hc.priced o ho).exact⟩⟩,
    fun r o h => hc.owns h,
    fun r o h hkey => hc.again hreq h hkey, fun e he => post_problem hreq he,
    fun h => hc.new hreq h⟩

/-- One USB-C hub. -/
def hubFields : List (Units × Value) :=
  [(productIdName, .num (.ratio 3)), (quantityName, .num (.ratio 1))]

def hubRequest (fields : List (Units × Value)) : Request where
  key := units "replay-order".toList
  body := .obj [(itemsName, .arr [.obj fields])]
  now := "2026-09-01T10:00:00.000Z"

/-- The concrete request is well formed, in whatever order its two fields stand. -/
theorem hubRequest_admitted {fields : List (Units × Value)} (h : fields.Perm hubFields) :
    (hubRequest fields).Admitted .whole := by
  have hnames : (fields.map Prod.fst).Perm [productIdName, quantityName] := h.map Prod.fst
  have hmem : ∀ f ∈ fields, f = (productIdName, .num (.ratio 3)) ∨
      f = (quantityName, .num (.ratio 1)) := by
    intro f hf
    simpa [hubFields] using h.mem_iff.mp hf
  have hne : productIdName ≠ quantityName := by decide
  have hitem : OrderItemInput (.obj fields) := by
    refine ⟨fun k => hnames.mem_iff, ?_, ?_⟩
    · intro v hv
      rcases hmem _ hv with heq | heq
      · cases heq
        exact ⟨3, rfl, by decide, nofun⟩
      · exact absurd (congrArg Prod.fst heq) hne
    · intro v hv
      rcases hmem _ hv with heq | heq
      · exact absurd (congrArg Prod.fst heq).symm hne
      · cases heq
        refine ⟨1, rfl, by decide, ?_⟩
        rintro m ⟨⟩
        decide
  -- the body holds one whole number beside texts, and no name twice
  have hparsed : Parsed .whole (.obj fields) := by
    refine .obj (hnames.nodup_iff.mpr (by simpa using hne)) ?_
    intro f hf
    rcases hmem f hf with rfl | rfl
    · exact .num (Doubles.whole.finite_int (n := 3) (by decide))
    · exact .num (Doubles.whole.finite_int (n := 1) (by decide))
  constructor
  · show 1 ≤ (units "replay-order".toList).length ∧ (units "replay-order".toList).length ≤ 255
    decide
  · refine .obj (by simp) ?_
    intro f hf
    obtain rfl := List.mem_singleton.mp hf
    refine .arr ?_
    intro v hv
    rw [List.mem_singleton.mp hv]
    exact hparsed
  · refine ⟨fun k => Iff.rfl, ?_⟩
    intro v hv
    cases List.mem_singleton.mp hv
    refine ⟨_, rfl, by simp, by simp, ?_⟩
    intro item hitem'
    rw [List.mem_singleton.mp hitem']
    exact hitem

/-- Turning the fields round does not make another body of it. -/
theorem hubRequest_same : Same (hubRequest hubFields.reverse).body (hubRequest hubFields).body := by
  have hitem : Same (.obj hubFields.reverse) (.obj hubFields) := by
    refine .obj (by simp [hubFields, or_comm]) ?_
    intro k v w hv hw
    have hnodup : (hubFields.map Prod.fst).Nodup := by decide
    have heq := List.inj_on_of_nodup_map hnodup (List.mem_reverse.mp hv) hw rfl
    cases heq
    rcases List.mem_pair.mp hw with heq | heq
    · cases heq
      exact .num rfl
    · cases heq
      exact .num rfl
  refine .obj (fun k => Iff.rfl) ?_
  intro k v w hv hw
  cases List.mem_singleton.mp hv
  cases List.mem_singleton.mp hw
  refine .arr rfl ?_
  intro i v w hv hw
  obtain rfl := List.mem_singleton.mp (List.mem_of_getElem? hv)
  obtain rfl := List.mem_singleton.mp (List.mem_of_getElem? hw)
  exact hitem

def hubOrder : Order where
  id := 2
  items := [⟨3, 1, 7900, 7900⟩]
  totalCents := 7900
  createdAt := "2026-09-01T10:00:00.000Z"

/-- The same hub again, its names in another order. -/
theorem orders_idempotent_hub :
    post .whole (hubRequest hubFields.reverse) (serve .whole [hubRequest hubFields]).1 =
      (created true hubOrder, (serve .whole [hubRequest hubFields]).1) := by
  have hadmitted : ∀ r ∈ [hubRequest hubFields], r.Admitted .whole := by
    simpa using hubRequest_admitted (List.Perm.refl hubFields)
  have hsucceeded : Succeeded (serve .whole [hubRequest hubFields]).2 (hubRequest hubFields)
      hubOrder := ⟨"/orders/2".toList, false, List.mem_singleton.mpr rfl⟩
  exact ((orders_idempotent .whole [hubRequest hubFields] (hubRequest hubFields.reverse) hadmitted
    (hubRequest_admitted (List.reverse_perm hubFields))).2.2.1 _ _ hsucceeded rfl).1 hubRequest_same

end Marketplace.Contract

import Marketplace.Core.Procs
import Marketplace.Core.Sql
import Marketplace.Orders.Requests

/-!
# Orders.Service — placeOrder, checkout and updateStatus, statement by statement

`src/orders/place-order.ts`, `src/checkout/checkout.ts` and `OrdersService.updateStatus`.
Every query is one action, and so are COMMIT, ROLLBACK and a crash; the runs of
`machine` are all interleavings of any number of calls at READ COMMITTED.

* rows that several transactions write are in tables with row locks: `products`,
  `users`, `orders` (its status is updated later) and `idempotency_records`, where an
  INSERT waits for an uncommitted row with the same key;
* rows with a key of their own (`order_items`, `outbox`, `jobs`) are in the program point
  of the call until its COMMIT appends them to the rows the run has added;
* `ledger` is a ghost: the committed orders with the call that placed each. No statement
  reads it.
-/

namespace Marketplace.Orders

open Core Auth Outbox

/-- Which path placed an order, and what it wrote besides the order. -/
inductive Source where
  | placeOrder (inp : PlaceOrderInput) (row : OutboxInsert)
  | checkout (job : Job)
deriving DecidableEq, Repr

/-- A committed order. -/
structure Sale where
  call : ℕ
  order : PlacedOrder
  source : Source
deriving DecidableEq, Repr

structure Db (η : Type) where
  products : Table ℕ ProductId Product
  users : Table ℕ UserId User
  orders : Table ℕ OrderId Order
  records : Table ℕ String (IdempotencyRecord η)
  orderItems : List OrderItem
  outbox : List OutboxInsert
  jobs : List Job
  ledger : List Sale
  now : ℕ
  nextOrder : OrderId
  nextEvent : EventId
  nextJob : ℕ

variable {η : Type}

namespace Db

/-- Set the own version of a row. -/
def putProduct (i : ℕ) (p : ProductId) (v : Product) (d : Db η) : Db η :=
  { d with products := d.products.put i p (some v) }

def putUser (i : ℕ) (u : UserId) (v : User) (d : Db η) : Db η :=
  { d with users := d.users.put i u (some v) }

def putOrder (i : ℕ) (o : OrderId) (v : Order) (d : Db η) : Db η :=
  { d with orders := d.orders.put i o (some v) }

def putRecord (i : ℕ) (key : String) (v : IdempotencyRecord η) (d : Db η) : Db η :=
  { d with records := d.records.put i key (some v) }

def commit (i : ℕ) (d : Db η) : Db η :=
  { d with
    products := d.products.commit i
    users := d.users.commit i
    orders := d.orders.commit i
    records := d.records.commit i }

def rollback (i : ℕ) (d : Db η) : Db η :=
  { d with
    products := d.products.rollback i
    users := d.users.rollback i
    orders := d.orders.rollback i
    records := d.records.rollback i }

/-- COMMIT of a transaction that placed an order. -/
def commitSale (i : ℕ) (sale : Sale) (d : Db η) : Db η :=
  { d.commit i with
    orderItems := d.orderItems ++ Orders.orderItems sale.order
    outbox := d.outbox ++ match sale.source with
      | .placeOrder _ row => [row]
      | .checkout _ => []
    jobs := d.jobs ++ match sale.source with
      | .placeOrder _ _ => []
      | .checkout job => [job]
    ledger := d.ledger ++ [sale] }

end Db

/-- Where a call is: the statement it runs next. `at₀` is its transaction's `now()`. -/
inductive Pc where
  | idle
  | findReplay (inp : PlaceOrderInput)
  | stock (inp : PlaceOrderInput) (at₀ : ℕ) (rest : List Item) (lines : List Line)
  | productExists (inp : PlaceOrderInput) (item : Item) (lines : List Line)
  | insertOrder (inp : PlaceOrderInput) (at₀ : ℕ) (lines : List Line)
  | insertItems (inp : PlaceOrderInput) (at₀ : ℕ) (order : PlacedOrder)
      (inserted rest : List Line)
  | claim (inp : PlaceOrderInput) (at₀ : ℕ) (order : PlacedOrder)
  | insertOutbox (inp : PlaceOrderInput) (at₀ : ℕ) (order : PlacedOrder)
  | commit (inp : PlaceOrderInput) (at₀ : ℕ) (order : PlacedOrder) (row : OutboxInsert)
  /-- After a throw inside the transaction; `none` is the `IdempotentReplay`. -/
  | rollback (inp : PlaceOrderInput) (err : Option Thrown)
  | replay (inp : PlaceOrderInput)
  | placed (inp : PlaceOrderInput) (result : Except Thrown PlaceOrderResult)
  | coStock (inp : CheckoutInput) (at₀ : ℕ)
  | coBalance (inp : CheckoutInput) (at₀ : ℕ) (line : Line) (stockLeft : ℤ)
  | coOrder (inp : CheckoutInput) (at₀ : ℕ) (line : Line) (stockLeft : ℤ)
  | coItem (inp : CheckoutInput) (at₀ : ℕ) (order : PlacedOrder) (line : Line) (stockLeft : ℤ)
  | coJob (inp : CheckoutInput) (at₀ : ℕ) (order : PlacedOrder) (line : Line) (stockLeft : ℤ)
  | coCommit (inp : CheckoutInput) (at₀ : ℕ) (order : PlacedOrder) (line : Line)
      (job : Job) (stockLeft : ℤ)
  | coRollback (err : Thrown)
  | checkedOut (result : Except Thrown CheckoutResult)
  | statusFind (id : OrderId) (status : OrderStatus) (viewer : AccessClaims)
  | statusSave (id : OrderId) (status : OrderStatus)
  | statusUpdate (id : OrderId) (status : OrderStatus)
  | statusCommit (id : OrderId) (status : OrderStatus)
  | statusSet (result : Except Thrown OrderId)
  | aborted
deriving DecidableEq

/-- The call has begun and not ended. -/
def Pc.Open : Pc → Prop
  | .idle | .placed _ _ | .checkedOut _ | .statusSet _ | .aborted => False
  | _ => True

instance : DecidablePred Pc.Open := fun p => by
  cases p <;> first | exact isTrue trivial | exact isFalse id

/-- One action of a call: the request that starts it, its next statement, or a crash or
lost connection. -/
inductive Stmt where
  | placeOrder (inp : PlaceOrderInput)
  | checkout (inp : CheckoutInput)
  | updateStatus (id : OrderId) (status : OrderStatus) (viewer : AccessClaims)
  | run
  | abort
deriving DecidableEq, Repr

/-- A statement the database refuses: a value out of range, a violated constraint. -/
def dbError : Thrown := .error "QueryFailedError"

/-! ## Statements of both order paths -/

/-- What came back from the stock UPDATE. -/
inductive Taken where
  | refused
  | noRow
  | row (p : Product)

/-- `UPDATE products SET stock = stock - $1 WHERE id = $2 AND is_active AND stock >= $1
RETURNING …`. -/
def takeStock (i : ℕ) (d : Db η) (productId : ProductId) (quantity : ℤ) :
    Option (Db η × Taken) :=
  if Int8 productId ∧ Int4 quantity then
    match d.products.updateWhere i productId
        (fun p => p.isActive && decide (quantity ≤ p.stock))
        (fun p => { p with stock := p.stock - quantity }) with
    | none => none
    | some (_, none) => some (d, .noRow)
    | some (products, some p) =>
        if Int4 p.stock then some ({ d with products }, .row p) else some (d, .refused)
  else some (d, .refused)

/-- `INSERT INTO orders … RETURNING id, created_at`: NOT NULL, foreign key and CHECK
constraints, then the next id. -/
def insertOrder (i : ℕ) (d : Db η) (userId : UserId) (country : String) (at₀ : ℕ)
    (lines : List Line) : Option (Db η × PlacedOrder) :=
  let total := totalOf lines
  if ((d.users userId).base.isSome ∧ Int4 total ∧ 0 ≤ total) ∧ countryOk country then
    let order : PlacedOrder :=
      { orderId := d.nextOrder, userId, totalCents := total, shippingCountry := country,
        createdAt := toDate at₀, items := lines }
    some ({ d.putOrder i d.nextOrder (toOrderRow order at₀) with nextOrder := d.nextOrder + 1 },
      order)
  else none

/-- The constraints of `order_items` on a row, after those inserted for this order. -/
def itemOk (inserted : List Line) (l : Line) : Bool :=
  decide (1 ≤ l.quantity ∧ l.quantity ≤ 100 ∧ 0 ≤ l.unitPriceCents ∧
    Int4 l.lineTotalCents ∧ l.lineTotalCents = l.unitPriceCents * l.quantity) &&
  inserted.all fun l' => l'.productId != l.productId

/-! ## placeOrder -/

/-- `findReplay`: nothing under the key, or the stored answer, or a 422. -/
def findReplay [DecidableEq η] (hash : Request → η) (d : Db η) (key : String)
    (inp : PlaceOrderInput) : Option (Except Thrown PlaceOrderResult) :=
  (d.records key).base.map fun rec =>
    if rec.requestHash ≠ hash inp.request then
      .error (.http 422 "Idempotency-Key was already used with a different request")
    else .ok ⟨rec.responseStatus, rec.responseBody, true⟩

/-- BEGIN, and the first product. -/
def beginOrder (d : Db η) (inp : PlaceOrderInput) : Pc := .stock inp d.now inp.sortedItems []

/-- The transaction is through with its lines: claim the key if there is one. -/
def afterItems (inp : PlaceOrderInput) (at₀ : ℕ) (order : PlacedOrder) : Pc :=
  if inp.key.isSome then .claim inp at₀ order else .insertOutbox inp at₀ order

/-- The SELECT after a stock UPDATE that found no row: is the product there at all? -/
def missing (d : Db η) (i : ℕ) (item : Item) : Thrown :=
  if ((d.products item.productId).view i).any Product.isActive then
    .http 400 s!"Insufficient stock for product {item.productId}"
  else .http 404 s!"Product {item.productId} not found"

def claim (hash : Request → η) (i : ℕ) (d : Db η) (inp : PlaceOrderInput) (at₀ : ℕ)
    (order : PlacedOrder) (key : String) : Option (Db η × Pc) :=
  (d.records.insertNew i key (toRecord hash inp order)).map fun r =>
    if r.2 then ({ d with records := r.1 }, .insertOutbox inp at₀ order)
    else (d, .rollback inp none)

def placeSale (i : ℕ) (inp : PlaceOrderInput) (order : PlacedOrder) (row : OutboxInsert) :
    Sale :=
  { call := i, order, source := .placeOrder inp row }

/-! ## checkout -/

def checkoutSale (i : ℕ) (order : PlacedOrder) (job : Job) : Sale :=
  { call := i, order, source := .checkout job }

/-- `UPDATE users SET balance_cents = balance_cents - $1 WHERE id = $2 AND
balance_cents >= $1`. -/
def debit (i : ℕ) (d : Db η) (inp : CheckoutInput) (at₀ : ℕ) (line : Line) (stockLeft : ℤ) :
    Option (Db η × Pc) :=
  if Int4 line.lineTotalCents then
    (d.users.updateWhere i inp.userId (fun u => decide (line.lineTotalCents ≤ u.balanceCents))
      (fun u => { u with balanceCents := u.balanceCents - line.lineTotalCents })).map fun r =>
        match r.2 with
        | none => (d, .coRollback (.error "insufficient funds"))
        | some _ => ({ d with users := r.1 }, .coOrder inp at₀ line stockLeft)
  else some (d, .coRollback dbError)

/-! ## updateStatus -/

/-- `findEntity` and the checks of `updateStatus`. -/
def statusFind (d : Db η) (id : OrderId) (status : OrderStatus) (viewer : AccessClaims) : Pc :=
  match (d.orders id).base with
  | none => .statusSet (.error (.http 404 s!"Order {id} not found"))
  | some order =>
      if viewer.role ≠ .admin ∧ order.userId ≠ viewer.sub then
        .statusSet (.error (.http 403 "forbidden"))
      else if viewer.role ≠ .admin ∧ status ≠ .cancelled then
        .statusSet (.error (.http 403 "only cancellation is allowed"))
      else .statusSave id status

/-- `save` loads the row again and writes the status if it differs. -/
def statusSave (d : Db η) (id : OrderId) (status : OrderStatus) : Pc :=
  match (d.orders id).base with
  | none => .statusSet (.error dbError)
  | some order => if order.status = status then .statusSet (.ok id) else .statusUpdate id status

/-! ## All calls -/

section

variable [DecidableEq η] (hash : Request → η)

def stmt (i : ℕ) (d : Db η) : Pc → Stmt → Option (Db η × Pc)
  | .idle, .placeOrder inp =>
      some (d, if inp.key.isSome then .findReplay inp else beginOrder d inp)
  | .findReplay inp, .run =>
      match inp.key.bind fun key => findReplay hash d key inp with
      | some result => some (d, .placed inp result)
      | none => some (d, beginOrder d inp)
  | .stock inp at₀ (item :: rest) lines, .run =>
      (takeStock i d item.productId item.quantity).map fun r =>
        match r.2 with
        | .refused => (d, .rollback inp (some dbError))
        | .noRow => (d, .productExists inp item lines)
        | .row p => (r.1, .stock inp at₀ rest (lines ++ [toLine item p.priceCents]))
  | .stock inp at₀ [] lines, .run => some (d, .insertOrder inp at₀ lines)
  | .productExists inp item _, .run => some (d, .rollback inp (some (missing d i item)))
  | .insertOrder inp at₀ lines, .run =>
      match insertOrder i d inp.userId inp.country at₀ lines with
      | none => some (d, .rollback inp (some dbError))
      | some (d', order) => some (d', .insertItems inp at₀ order [] lines)
  | .insertItems inp at₀ order inserted (l :: rest), .run =>
      some (d, if itemOk inserted l then .insertItems inp at₀ order (inserted ++ [l]) rest
        else .rollback inp (some dbError))
  | .insertItems inp at₀ order _ [], .run => some (d, afterItems inp at₀ order)
  | .claim inp at₀ order, .run => inp.key.bind fun key => claim hash i d inp at₀ order key
  | .insertOutbox inp at₀ order, .run =>
      some ({ d with nextEvent := d.nextEvent + 1 },
        .commit inp at₀ order (toOutboxInsert d.nextEvent at₀ order))
  | .commit inp _ order row, .run =>
      some (d.commitSale i (placeSale i inp order row),
        .placed inp (.ok ⟨201, toResponseBody order, false⟩))
  | .rollback inp err, .run =>
      some (d.rollback i, match err with
        | none => .replay inp
        | some err => .placed inp (.error err))
  | .replay inp, .run =>
      match inp.key.bind fun key => findReplay hash d key inp with
      | some result => some (d, .placed inp result)
      | none => some (d, .placed inp (.error (.error "IdempotentReplay")))
  | .idle, .checkout inp =>
      some (d, if 1 ≤ inp.quantity then .coStock inp d.now
        else .checkedOut (.error (.error "quantity must be a positive integer")))
  | .coStock inp at₀, .run =>
      (takeStock i d inp.productId inp.quantity).map fun r =>
        match r.2 with
        | .refused => (d, .coRollback dbError)
        | .noRow => (d, .coRollback (.error "insufficient stock"))
        | .row p =>
            (r.1, .coBalance inp at₀ (toLine ⟨inp.productId, inp.quantity⟩ p.priceCents) p.stock)
  | .coBalance inp at₀ line stockLeft, .run => debit i d inp at₀ line stockLeft
  | .coOrder inp at₀ line stockLeft, .run =>
      match insertOrder i d inp.userId (inp.shippingCountry.getD "US") at₀ [line] with
      | none => some (d, .coRollback dbError)
      | some (d', order) => some (d', .coItem inp at₀ order line stockLeft)
  | .coItem inp at₀ order line stockLeft, .run =>
      some (d, if itemOk [] line then .coJob inp at₀ order line stockLeft else .coRollback dbError)
  | .coJob inp at₀ order line stockLeft, .run =>
      some ({ d with nextJob := d.nextJob + 1 },
        .coCommit inp at₀ order line ⟨d.nextJob, order.orderId, inp.userId⟩ stockLeft)
  | .coCommit _ _ order _ job stockLeft, .run =>
      some (d.commitSale i (checkoutSale i order job),
        .checkedOut (.ok ⟨order.orderId, job.id, order.totalCents, stockLeft⟩))
  | .coRollback err, .run => some (d.rollback i, .checkedOut (.error err))
  | .idle, .updateStatus id status viewer => some (d, .statusFind id status viewer)
  | .statusFind id status viewer, .run => some (d, statusFind d id status viewer)
  | .statusSave id status, .run => some (d, statusSave d id status)
  | .statusUpdate id status, .run =>
      (d.orders.updateWhere i id (fun _ => true) (fun o => { o with status })).map fun r =>
        -- without a row there is nothing to commit
        if r.2.isSome then ({ d with orders := r.1 }, .statusCommit id status)
        else (d, .statusSet (.ok id))
  | .statusCommit id _, .run => some (d.commit i, .statusSet (.ok id))
  | pc, .abort => if pc.Open then some (d.rollback i, .aborted) else none
  | _, _ => none

/-- Any committed products, users, orders and idempotency records; the lists and the
ledger hold what the run adds. -/
def Init (d : Db η) : Prop :=
  (∀ p, (d.products p).lock = none) ∧ (∀ u, (d.users u).lock = none) ∧
  (∀ o, (d.orders o).lock = none) ∧ (∀ k, (d.records k).lock = none) ∧
  (∀ p r, (d.products p).base = some r → 0 ≤ r.stock ∧ Int4 r.stock) ∧
  (∀ u r, (d.users u).base = some r → 0 ≤ r.balanceCents) ∧
  (∀ o, d.nextOrder ≤ o → (d.orders o).base = none) ∧
  d.orderItems = [] ∧ d.outbox = [] ∧ d.jobs = [] ∧ d.ledger = []

/-- Any number of placeOrder, checkout and updateStatus calls at once. -/
def procs : Procs ℕ (Db η) Pc Stmt ℕ where
  Init := Init
  idle := .idle
  stmt := stmt hash
  env d dt := some { d with now := d.now + dt }

abbrev St (η : Type) := World ℕ (Db η) Pc
abbrev Label := Act ℕ Stmt ℕ
abbrev machine : Machine (St η) Label := (procs hash).machine

end

end Marketplace.Orders

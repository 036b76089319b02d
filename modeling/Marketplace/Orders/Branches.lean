import Marketplace.Orders.Service

/-!
# Orders.Branches — the three paths read backwards

`Branch` has a constructor for each branch of `stmt`, with what the branch has checked and the
state it leaves. `stmt_branch` is the one case analysis over `placeOrder`, `checkout` and
`updateStatus`; what a statement does to the tables, to the event ids or to the result of its
call is read off the list.
-/

namespace Marketplace.Orders

open Core Auth Outbox

variable {η : Type}

/-! ## The stock UPDATE and the order row -/

/-- The UPDATE of the stock: refused by a column's range, no row, or the row with its stock less
the quantity. -/
theorem takeStock_cases {i : ℕ} {d d' : Db η} {productId : ProductId} {quantity : ℤ} {t : Taken}
    (h : takeStock i d productId quantity = some (d', t)) :
    (t = .refused ∧ d' = d) ∨
    (t = .noRow ∧ d' = d ∧ Int8 productId ∧ Int4 quantity ∧
      ∀ r, (d.products productId).view i = some r → r.isActive = true → r.stock < quantity) ∨
    ∃ r, (d.products productId).view i = some r ∧ (d.products productId).Free i ∧
      r.isActive = true ∧ quantity ≤ r.stock ∧
      t = .row { r with stock := r.stock - quantity } ∧
      d' = d.putProduct i productId { r with stock := r.stock - quantity } := by
  unfold takeStock at h
  split at h
  · next hrange =>
      cases hu : d.products.updateWhere i productId
          (fun p => p.isActive && decide (quantity ≤ p.stock))
          (fun p => { p with stock := p.stock - quantity }) with
      | none =>
          rw [hu] at h
          cases h
      | some x =>
          obtain ⟨T, o⟩ := x
          rw [hu] at h
          rcases Table.updateWhere_cases hu with ⟨rfl, rfl, hno⟩ | ⟨r, hv, hc, hf, rfl, rfl⟩
          · cases h
            refine Or.inr (Or.inl ⟨rfl, rfl, hrange.1, hrange.2, ?_⟩)
            intro r hv hact
            have hcond := hno r hv
            simp only [hact, Bool.true_and, decide_eq_false_iff_not] at hcond
            omega
          · simp only [Bool.and_eq_true, decide_eq_true_eq] at hc
            dsimp only at h
            split at h
            · cases h
              exact Or.inr (Or.inr ⟨r, hv, hf, hc.1, hc.2, rfl, rfl⟩)
            · cases h
              exact Or.inl ⟨rfl, rfl⟩
  · cases h
    exact Or.inl ⟨rfl, rfl⟩

/-- A stock UPDATE that the database accepts. -/
theorem takeStock_range {i : ℕ} {d d' : Db η} {productId : ProductId} {quantity : ℤ} {r : Product}
    (h : takeStock i d productId quantity = some (d', .row r)) :
    Int8 productId ∧ Int4 quantity := by
  unfold takeStock at h
  split at h
  · next hrange => exact hrange
  · cases h

/-- Why the database refuses a stock UPDATE. -/
theorem takeStock_refused {i : ℕ} {d d' : Db η} {productId : ProductId} {quantity : ℤ}
    (h : takeStock i d productId quantity = some (d', .refused)) :
    ¬ (Int8 productId ∧ Int4 quantity) ∨
    ∃ r, (d.products productId).view i = some r ∧ quantity ≤ r.stock ∧
      ¬ Int4 (r.stock - quantity) := by
  unfold takeStock at h
  split at h
  · next hrange =>
      cases hu : d.products.updateWhere i productId
          (fun p => p.isActive && decide (quantity ≤ p.stock))
          (fun p => { p with stock := p.stock - quantity }) with
      | none =>
          rw [hu] at h
          cases h
      | some x =>
          obtain ⟨T, o⟩ := x
          rw [hu] at h
          rcases Table.updateWhere_cases hu with ⟨rfl, rfl, -⟩ | ⟨r, hv, hc, -, rfl, rfl⟩
          · cases h
          · simp only [Bool.and_eq_true, decide_eq_true_eq] at hc
            dsimp only at h
            split at h
            · cases h
            · next hno => exact Or.inr ⟨r, hv, hc.2, hno⟩
  · next hrange => exact Or.inl hrange

/-- The INSERT of an order takes the next id and the totals of its lines. -/
theorem insertOrder_cases {i : ℕ} {d d' : Db η} {userId : UserId} {country : String} {at₀ : ℕ}
    {lines : List Line} {order : PlacedOrder}
    (h : insertOrder i d userId country at₀ lines = some (d', order)) :
    order = ⟨d.nextOrder, userId, totalOf lines, country, toDate at₀, lines⟩ ∧
    d' = { d.putOrder i d.nextOrder (toOrderRow order at₀) with nextOrder := d.nextOrder + 1 } := by
  unfold insertOrder at h
  dsimp only at h
  split at h
  · cases h
    exact ⟨rfl, rfl⟩
  · cases h

/-- What the constraints of `orders` ask of a row. -/
def Insertable (d : Db η) (userId : UserId) (country : String) (lines : List Line) : Prop :=
  ((d.users userId).base.isSome ∧ Int4 (totalOf lines) ∧ 0 ≤ totalOf lines) ∧
    countryOk country = true

/-- The INSERT of an order goes through exactly if its columns and references allow it. -/
theorem insertOrder_isSome (i : ℕ) {d : Db η} {userId : UserId} {country : String} (at₀ : ℕ)
    {lines : List Line} :
    (insertOrder i d userId country at₀ lines).isSome ↔ Insertable d userId country lines := by
  unfold insertOrder Insertable
  dsimp only
  split
  · next h => simp [h]
  · next h => simp [h]

/-- The SELECT has found no row of the product that has enough stock. -/
theorem takeStock_noRow {i : ℕ} {d d' : Db η} {productId : ProductId} {quantity : ℤ}
    (h : takeStock i d productId quantity = some (d', .noRow)) :
    Int8 productId ∧ Int4 quantity ∧
      ∀ r, (d.products productId).view i = some r → r.isActive = true → r.stock < quantity := by
  rcases takeStock_cases h with ⟨ht, -⟩ | ⟨-, -, hid, hquantity, hno⟩ | ⟨r, -, -, -, -, ht, -⟩
  · cases ht
  · exact ⟨hid, hquantity, hno⟩
  · cases ht

/-- The stock UPDATE of call `i` has found its row. -/
structure Takes (i : ℕ) (d : Db η) (productId : ProductId) (quantity : ℤ) (r : Product) :
    Prop where
  seen : (d.products productId).view i = some r
  free : (d.products productId).Free i
  active : r.isActive = true
  enough : quantity ≤ r.stock
  range : Int8 productId ∧ Int4 quantity

/-- The row of the order has gone in. -/
structure Inserts (d : Db η) (userId : UserId) (country : String) (at₀ : ℕ) (lines : List Line)
    (order : PlacedOrder) : Prop where
  insertable : Insertable d userId country lines
  order_eq : order = ⟨d.nextOrder, userId, totalOf lines, country, toDate at₀, lines⟩

/-- A row that the UPDATE returned was visible, free, active and had enough. -/
theorem takes_of_row {i : ℕ} {d d' : Db η} {productId : ProductId} {quantity : ℤ} {r : Product}
    (h : takeStock i d productId quantity = some (d', .row r)) :
    ∃ r₀, Takes i d productId quantity r₀ ∧ r = { r₀ with stock := r₀.stock - quantity } ∧
      d' = d.putProduct i productId { r₀ with stock := r₀.stock - quantity } := by
  have hrange := takeStock_range h
  rcases takeStock_cases h with ⟨ht, -⟩ | ⟨ht, -⟩ | ⟨r₀, hseen, hfree, hactive, henough, ht, rfl⟩
  · cases ht
  · cases ht
  · cases ht
    exact ⟨r₀, ⟨hseen, hfree, hactive, henough, hrange⟩, rfl, rfl⟩

/-- An UPDATE of the stock that returned no row has changed nothing. -/
theorem takeStock_same {i : ℕ} {d d' : Db η} {productId : ProductId} {quantity : ℤ} {t : Taken}
    (h : takeStock i d productId quantity = some (d', t)) (hno : ∀ r, t ≠ .row r) : d' = d := by
  rcases takeStock_cases h with ⟨-, rfl⟩ | ⟨-, rfl, -⟩ | ⟨r, -, -, -, -, ht, -⟩
  · rfl
  · rfl
  · exact absurd ht (hno _)

theorem insertOrder_none_iff {i : ℕ} {d : Db η} {userId : UserId} {country : String} {at₀ : ℕ}
    {lines : List Line} :
    insertOrder i d userId country at₀ lines = none ↔ ¬ Insertable d userId country lines := by
  rw [← insertOrder_isSome i at₀, Option.not_isSome_iff_eq_none]

/-- An INSERT that went through is as `Inserts` says. -/
theorem insertOrder_inserts {i : ℕ} {d d' : Db η} {userId : UserId} {country : String} {at₀ : ℕ}
    {lines : List Line} {order : PlacedOrder} (h : insertOrder i d userId country at₀ lines = some (d', order)) :
    Inserts d userId country at₀ lines order ∧
      d' = { d.putOrder i d.nextOrder (toOrderRow order at₀) with
        nextOrder := d.nextOrder + 1 } := by
  have hsome : (insertOrder i d userId country at₀ lines).isSome := by
    rw [h]
    rfl
  obtain ⟨horder, hd⟩ := insertOrder_cases h
  exact ⟨⟨(insertOrder_isSome i at₀).mp hsome, horder⟩, hd⟩

/-! ## The branches -/

section

variable [DecidableEq η] {hash : Request → η} {i : ℕ} {d d' : Db η} {pc pc' : Pc} {a : Stmt}

/-- The branches of `stmt`. -/
inductive Branch (hash : Request → η) (i : ℕ) (d : Db η) : Pc → Stmt → Db η → Pc → Prop
  -- placeOrder
  | keyed {inp : PlaceOrderInput} : inp.key.isSome →
      Branch hash i d .idle (.placeOrder inp) d (.findReplay inp)
  | unkeyed {inp : PlaceOrderInput} : inp.key = none →
      Branch hash i d .idle (.placeOrder inp) d (beginOrder d inp)
  | stored {inp : PlaceOrderInput} {result : Except Thrown PlaceOrderResult} :
      (inp.key.bind fun key => findReplay hash d key inp) = some result →
      Branch hash i d (.findReplay inp) .run d (.placed inp result)
  | unclaimed {inp : PlaceOrderInput} :
      (inp.key.bind fun key => findReplay hash d key inp) = none →
      Branch hash i d (.findReplay inp) .run d (beginOrder d inp)
  | refused {inp : PlaceOrderInput} {at₀ : ℕ} {item : Item} {rest : List Item}
      {lines : List Line} : takeStock i d item.productId item.quantity = some (d, .refused) →
      Branch hash i d (.stock inp at₀ (item :: rest) lines) .run d (.rollback inp (some dbError))
  | noRow {inp : PlaceOrderInput} {at₀ : ℕ} {item : Item} {rest : List Item}
      {lines : List Line} : takeStock i d item.productId item.quantity = some (d, .noRow) →
      Branch hash i d (.stock inp at₀ (item :: rest) lines) .run d (.productExists inp item lines)
  | take {inp : PlaceOrderInput} {at₀ : ℕ} {item : Item} {rest : List Item} {lines : List Line}
      {r : Product} : Takes i d item.productId item.quantity r →
      Branch hash i d (.stock inp at₀ (item :: rest) lines) .run
        (d.putProduct i item.productId { r with stock := r.stock - item.quantity })
        (.stock inp at₀ rest (lines ++ [toLine item r.priceCents]))
  | taken {inp : PlaceOrderInput} {at₀ : ℕ} {lines : List Line} :
      Branch hash i d (.stock inp at₀ [] lines) .run d (.insertOrder inp at₀ lines)
  | productExists {inp : PlaceOrderInput} {item : Item} {lines : List Line} :
      Branch hash i d (.productExists inp item lines) .run d
        (.rollback inp (some (missing d i item)))
  | orderRefused {inp : PlaceOrderInput} {at₀ : ℕ} {lines : List Line} :
      ¬ Insertable d inp.userId inp.country lines →
      Branch hash i d (.insertOrder inp at₀ lines) .run d (.rollback inp (some dbError))
  | order {inp : PlaceOrderInput} {at₀ : ℕ} {lines : List Line} {order : PlacedOrder} :
      Inserts d inp.userId inp.country at₀ lines order →
      Branch hash i d (.insertOrder inp at₀ lines) .run
        { d.putOrder i d.nextOrder (toOrderRow order at₀) with nextOrder := d.nextOrder + 1 }
        (.insertItems inp at₀ order [] lines)
  | item {inp : PlaceOrderInput} {at₀ : ℕ} {order : PlacedOrder} {inserted rest : List Line}
      {l : Line} : itemOk inserted l = true →
      Branch hash i d (.insertItems inp at₀ order inserted (l :: rest)) .run d
        (.insertItems inp at₀ order (inserted ++ [l]) rest)
  | itemRefused {inp : PlaceOrderInput} {at₀ : ℕ} {order : PlacedOrder}
      {inserted rest : List Line} {l : Line} : ¬ itemOk inserted l = true →
      Branch hash i d (.insertItems inp at₀ order inserted (l :: rest)) .run d
        (.rollback inp (some dbError))
  | toClaim {inp : PlaceOrderInput} {at₀ : ℕ} {order : PlacedOrder} {inserted : List Line} :
      inp.key.isSome →
      Branch hash i d (.insertItems inp at₀ order inserted []) .run d (.claim inp at₀ order)
  | toOutbox {inp : PlaceOrderInput} {at₀ : ℕ} {order : PlacedOrder} {inserted : List Line} :
      inp.key = none →
      Branch hash i d (.insertItems inp at₀ order inserted []) .run d (.insertOutbox inp at₀ order)
  | claim {inp : PlaceOrderInput} {at₀ : ℕ} {order : PlacedOrder} {key : String} :
      inp.key = some key → (d.records key).view i = none → (d.records key).Free i →
      Branch hash i d (.claim inp at₀ order) .run (d.putRecord i key (toRecord hash inp order))
        (.insertOutbox inp at₀ order)
  | conflict {inp : PlaceOrderInput} {at₀ : ℕ} {order : PlacedOrder} {key : String} :
      inp.key = some key → ((d.records key).view i).isSome →
      Branch hash i d (.claim inp at₀ order) .run d (.rollback inp none)
  | outbox {inp : PlaceOrderInput} {at₀ : ℕ} {order : PlacedOrder} :
      Branch hash i d (.insertOutbox inp at₀ order) .run { d with nextEvent := d.nextEvent + 1 }
        (.commit inp at₀ order (toOutboxInsert d.nextEvent at₀ order))
  | commit {inp : PlaceOrderInput} {at₀ : ℕ} {order : PlacedOrder} {row : OutboxInsert} :
      Branch hash i d (.commit inp at₀ order row) .run
        (d.commitSale i (placeSale i inp order row))
        (.placed inp (.ok ⟨201, toResponseBody order, false⟩))
  | replays {inp : PlaceOrderInput} :
      Branch hash i d (.rollback inp none) .run (d.rollback i) (.replay inp)
  | fails {inp : PlaceOrderInput} {err : Thrown} :
      Branch hash i d (.rollback inp (some err)) .run (d.rollback i) (.placed inp (.error err))
  | replayed {inp : PlaceOrderInput} {result : Except Thrown PlaceOrderResult} :
      (inp.key.bind fun key => findReplay hash d key inp) = some result →
      Branch hash i d (.replay inp) .run d (.placed inp result)
  | gone {inp : PlaceOrderInput} : (inp.key.bind fun key => findReplay hash d key inp) = none →
      Branch hash i d (.replay inp) .run d (.placed inp (.error (.error "IdempotentReplay")))
  -- checkout
  | checkout {inp : CheckoutInput} : 1 ≤ inp.quantity →
      Branch hash i d .idle (.checkout inp) d (.coStock inp d.now)
  | badQuantity {inp : CheckoutInput} : ¬ 1 ≤ inp.quantity →
      Branch hash i d .idle (.checkout inp) d
        (.checkedOut (.error (.error "quantity must be a positive integer")))
  | coRefused {inp : CheckoutInput} {at₀ : ℕ} :
      takeStock i d inp.productId inp.quantity = some (d, .refused) →
      Branch hash i d (.coStock inp at₀) .run d (.coRollback dbError)
  | coNoRow {inp : CheckoutInput} {at₀ : ℕ} :
      takeStock i d inp.productId inp.quantity = some (d, .noRow) →
      Branch hash i d (.coStock inp at₀) .run d (.coRollback (.error "insufficient stock"))
  | coTake {inp : CheckoutInput} {at₀ : ℕ} {r : Product} :
      Takes i d inp.productId inp.quantity r →
      Branch hash i d (.coStock inp at₀) .run
        (d.putProduct i inp.productId { r with stock := r.stock - inp.quantity })
        (.coBalance inp at₀ (toLine ⟨inp.productId, inp.quantity⟩ r.priceCents)
          (r.stock - inp.quantity))
  | coTooMuch {inp : CheckoutInput} {at₀ : ℕ} {line : Line} {stockLeft : ℤ} :
      ¬ Int4 line.lineTotalCents →
      Branch hash i d (.coBalance inp at₀ line stockLeft) .run d (.coRollback dbError)
  | coPoor {inp : CheckoutInput} {at₀ : ℕ} {line : Line} {stockLeft : ℤ} :
      Branch hash i d (.coBalance inp at₀ line stockLeft) .run d
        (.coRollback (.error "insufficient funds"))
  | coPay {inp : CheckoutInput} {at₀ : ℕ} {line : Line} {stockLeft : ℤ} {r : User} :
      (d.users inp.userId).view i = some r → (d.users inp.userId).Free i →
      line.lineTotalCents ≤ r.balanceCents →
      Branch hash i d (.coBalance inp at₀ line stockLeft) .run
        (d.putUser i inp.userId { r with balanceCents := r.balanceCents - line.lineTotalCents })
        (.coOrder inp at₀ line stockLeft)
  | coOrderRefused {inp : CheckoutInput} {at₀ : ℕ} {line : Line} {stockLeft : ℤ} :
      ¬ Insertable d inp.userId (inp.shippingCountry.getD "US") [line] →
      Branch hash i d (.coOrder inp at₀ line stockLeft) .run d (.coRollback dbError)
  | coOrder {inp : CheckoutInput} {at₀ : ℕ} {line : Line} {stockLeft : ℤ} {order : PlacedOrder} :
      Inserts d inp.userId (inp.shippingCountry.getD "US") at₀ [line] order →
      Branch hash i d (.coOrder inp at₀ line stockLeft) .run
        { d.putOrder i d.nextOrder (toOrderRow order at₀) with nextOrder := d.nextOrder + 1 }
        (.coItem inp at₀ order line stockLeft)
  | coItem {inp : CheckoutInput} {at₀ : ℕ} {order : PlacedOrder} {line : Line} {stockLeft : ℤ} :
      itemOk [] line = true →
      Branch hash i d (.coItem inp at₀ order line stockLeft) .run d
        (.coJob inp at₀ order line stockLeft)
  | coItemRefused {inp : CheckoutInput} {at₀ : ℕ} {order : PlacedOrder} {line : Line}
      {stockLeft : ℤ} : ¬ itemOk [] line = true →
      Branch hash i d (.coItem inp at₀ order line stockLeft) .run d (.coRollback dbError)
  | coJob {inp : CheckoutInput} {at₀ : ℕ} {order : PlacedOrder} {line : Line} {stockLeft : ℤ} :
      Branch hash i d (.coJob inp at₀ order line stockLeft) .run { d with nextJob := d.nextJob + 1 }
        (.coCommit inp at₀ order line ⟨d.nextJob, order.orderId, inp.userId⟩ stockLeft)
  | coCommit {inp : CheckoutInput} {at₀ : ℕ} {order : PlacedOrder} {line : Line} {job : Job}
      {stockLeft : ℤ} :
      Branch hash i d (.coCommit inp at₀ order line job stockLeft) .run
        (d.commitSale i (checkoutSale i order job))
        (.checkedOut (.ok ⟨order.orderId, job.id, order.totalCents, stockLeft⟩))
  | coRollback {err : Thrown} :
      Branch hash i d (.coRollback err) .run (d.rollback i) (.checkedOut (.error err))
  -- updateStatus
  | updateStatus {o : OrderId} {status : OrderStatus} {viewer : AccessClaims} :
      Branch hash i d .idle (.updateStatus o status viewer) d (.statusFind o status viewer)
  | statusDenied {o : OrderId} {status : OrderStatus} {viewer : AccessClaims} {err : Thrown} :
      Branch hash i d (.statusFind o status viewer) .run d (.statusSet (.error err))
  | statusFound {o : OrderId} {status : OrderStatus} {viewer : AccessClaims} :
      Branch hash i d (.statusFind o status viewer) .run d (.statusSave o status)
  | saveGone {o : OrderId} {status : OrderStatus} : (d.orders o).base = none →
      Branch hash i d (.statusSave o status) .run d (.statusSet (.error dbError))
  | saveSame {o : OrderId} {status : OrderStatus} {row : Order} :
      (d.orders o).base = some row → row.status = status →
      Branch hash i d (.statusSave o status) .run d (.statusSet (.ok o))
  | saveDiffers {o : OrderId} {status : OrderStatus} {row : Order} :
      (d.orders o).base = some row → row.status ≠ status →
      Branch hash i d (.statusSave o status) .run d (.statusUpdate o status)
  | updateGone {o : OrderId} {status : OrderStatus} : (d.orders o).view i = none →
      Branch hash i d (.statusUpdate o status) .run d (.statusSet (.ok o))
  | update {o : OrderId} {status : OrderStatus} {r : Order} : (d.orders o).view i = some r →
      (d.orders o).Free i →
      Branch hash i d (.statusUpdate o status) .run (d.putOrder i o { r with status })
        (.statusCommit o status)
  | statusCommit {o : OrderId} {status : OrderStatus} :
      Branch hash i d (.statusCommit o status) .run (d.commit i) (.statusSet (.ok o))
  /-- A crash, or the connection is lost. -/
  | abort {pc : Pc} : pc.Open → Branch hash i d pc .abort (d.rollback i) .aborted

/-- The read of a PATCH: the order is not the viewer's, or it was found. -/
theorem statusFind_branch {o : OrderId} {status : OrderStatus} {viewer : AccessClaims} :
    Branch hash i d (.statusFind o status viewer) .run d (statusFind d o status viewer) := by
  unfold statusFind
  split
  · exact .statusDenied
  · split
    · exact .statusDenied
    · split
      · exact .statusDenied
      · exact .statusFound

/-- The compare of a PATCH: gone, the same status, or one to write. -/
theorem statusSave_branch {o : OrderId} {status : OrderStatus} :
    Branch hash i d (.statusSave o status) .run d (statusSave d o status) := by
  unfold statusSave
  split
  · next hnone => exact .saveGone hnone
  · next row hrow =>
      split
      · next hsame => exact .saveSame hrow hsame
      · next hdiffers => exact .saveDiffers hrow hdiffers

/-- The UPDATE of the balance: refused, poor, or the row with its balance less the price. -/
theorem debit_branch {inp : CheckoutInput} {at₀ : ℕ} {line : Line} {stockLeft : ℤ}
    (h : debit i d inp at₀ line stockLeft = some (d', pc')) :
    Branch hash i d (.coBalance inp at₀ line stockLeft) .run d' pc' := by
  unfold debit at h
  split at h
  · rw [Option.map_eq_some_iff] at h
    obtain ⟨⟨T, r⟩, hupdate, h⟩ := h
    rcases Table.updateWhere_cases hupdate with ⟨rfl, rfl, -⟩ | ⟨r, hseen, hle, hfree, rfl, rfl⟩
    · cases h
      exact .coPoor
    · cases h
      exact .coPay hseen hfree (by simpa using hle)
  · next hrange =>
      cases h
      exact .coTooMuch hrange

/-- The claim of a key: taken already, or recorded now. -/
theorem claim_branch {inp : PlaceOrderInput} {at₀ : ℕ} {order : PlacedOrder} {key : String}
    (hkey : inp.key = some key) (h : claim hash i d inp at₀ order key = some (d', pc')) :
    Branch hash i d (.claim inp at₀ order) .run d' pc' := by
  unfold claim at h
  rw [Option.map_eq_some_iff] at h
  obtain ⟨⟨T, b⟩, hinsert, h⟩ := h
  obtain ⟨hfree, ⟨rfl, rfl, hsome⟩ | ⟨hnone, rfl, rfl⟩⟩ := Table.insertNew_cases hinsert
  · cases h
    exact .conflict hkey hsome
  · cases h
    exact .claim hkey hnone hfree

theorem stmt_abort (h : stmt hash i d pc .abort = some (d', pc')) :
    d' = d.rollback i ∧ pc' = .aborted := by
  cases pc <;> simp [stmt, Pc.Open] at h <;> exact ⟨h.1.symm, h.2.symm⟩

theorem stmt_abort_open (h : stmt hash i d pc .abort = some (d', pc')) : pc.Open := by
  by_contra hopen
  cases pc <;> first | exact hopen trivial | simp [stmt, Pc.Open] at h

/-- Every statement of the three paths is one of their branches. -/
theorem stmt_branch (h : stmt hash i d pc a = some (d', pc')) : Branch hash i d pc a d' pc' := by
  -- a crash is the same at every program point
  by_cases hab : a = .abort
  · subst hab
    have hopen := stmt_abort_open h
    obtain ⟨rfl, rfl⟩ := stmt_abort h
    exact .abort hopen
  -- at each program point the statement that stands there, and the crash; all other labels are no
  -- step
  cases pc with
  | idle =>
      cases a with
      | placeOrder inp =>
          cases h
          split
          · next hkey => exact .keyed hkey
          · next hkey => exact .unkeyed (Option.not_isSome_iff_eq_none.mp hkey)
      | checkout inp =>
          cases h
          split
          · next hone => exact .checkout hone
          · next hone => exact .badQuantity hone
      | updateStatus o status viewer =>
          cases h
          exact .updateStatus
      | abort => exact absurd rfl hab
      | run => simp [stmt] at h
  | findReplay inp =>
      cases a with
      | run =>
          simp only [stmt] at h
          split at h
          · next result hr =>
              cases h
              exact .stored hr
          · next hr =>
              cases h
              exact .unclaimed hr
      | abort => exact absurd rfl hab
      | _ => simp [stmt] at h
  | stock inp at₀ rest lines =>
      cases a with
      | run =>
          cases rest with
          | nil =>
              cases h
              exact .taken
          | cons item rest =>
              simp only [stmt, Option.map_eq_some_iff] at h
              obtain ⟨⟨d₁, t⟩, ht, h⟩ := h
              cases t with
              | refused =>
                  obtain rfl := takeStock_same ht fun r => by simp
                  cases h
                  exact .refused ht
              | noRow =>
                  obtain rfl := takeStock_same ht fun r => by simp
                  cases h
                  exact .noRow ht
              | row r =>
                  obtain ⟨r₀, htakes, rfl, rfl⟩ := takes_of_row ht
                  cases h
                  exact .take htakes
      | abort => exact absurd rfl hab
      | _ => simp [stmt] at h
  | productExists inp item lines =>
      cases a with
      | run =>
          cases h
          exact .productExists
      | abort => exact absurd rfl hab
      | _ => simp [stmt] at h
  | insertOrder inp at₀ lines =>
      cases a with
      | run =>
          simp only [stmt] at h
          split at h
          · next hnone =>
              cases h
              exact .orderRefused (insertOrder_none_iff.mp hnone)
          · next d₁ order hsome =>
              obtain ⟨hinserts, rfl⟩ := insertOrder_inserts hsome
              cases h
              exact .order hinserts
      | abort => exact absurd rfl hab
      | _ => simp [stmt] at h
  | insertItems inp at₀ order inserted rest =>
      cases a with
      | run =>
          cases rest with
          | nil =>
              cases h
              unfold afterItems
              split
              · next hkey => exact .toClaim hkey
              · next hkey => exact .toOutbox (Option.not_isSome_iff_eq_none.mp hkey)
          | cons l rest =>
              cases h
              split
              · next hok => exact .item hok
              · next hbad => exact .itemRefused hbad
      | abort => exact absurd rfl hab
      | _ => simp [stmt] at h
  | claim inp at₀ order =>
      cases a with
      | run =>
          simp only [stmt, Option.bind_eq_some_iff] at h
          obtain ⟨key, hkey, h⟩ := h
          exact claim_branch hkey h
      | abort => exact absurd rfl hab
      | _ => simp [stmt] at h
  | insertOutbox inp at₀ order =>
      cases a with
      | run =>
          cases h
          exact .outbox
      | abort => exact absurd rfl hab
      | _ => simp [stmt] at h
  | commit inp at₀ order row =>
      cases a with
      | run =>
          cases h
          exact .commit
      | abort => exact absurd rfl hab
      | _ => simp [stmt] at h
  | rollback inp err =>
      cases a with
      | run =>
          cases err with
          | none =>
              cases h
              exact .replays
          | some err =>
              cases h
              exact .fails
      | abort => exact absurd rfl hab
      | _ => simp [stmt] at h
  | replay inp =>
      cases a with
      | run =>
          simp only [stmt] at h
          split at h
          · next result hr =>
              cases h
              exact .replayed hr
          · next hr =>
              cases h
              exact .gone hr
      | abort => exact absurd rfl hab
      | _ => simp [stmt] at h
  | coStock inp at₀ =>
      cases a with
      | run =>
          simp only [stmt, Option.map_eq_some_iff] at h
          obtain ⟨⟨d₁, t⟩, ht, h⟩ := h
          cases t with
          | refused =>
              obtain rfl := takeStock_same ht fun r => by simp
              cases h
              exact .coRefused ht
          | noRow =>
              obtain rfl := takeStock_same ht fun r => by simp
              cases h
              exact .coNoRow ht
          | row r =>
              obtain ⟨r₀, htakes, rfl, rfl⟩ := takes_of_row ht
              cases h
              exact .coTake htakes
      | abort => exact absurd rfl hab
      | _ => simp [stmt] at h
  | coBalance inp at₀ line stockLeft =>
      cases a with
      | run => exact debit_branch h
      | abort => exact absurd rfl hab
      | _ => simp [stmt] at h
  | coOrder inp at₀ line stockLeft =>
      cases a with
      | run =>
          simp only [stmt] at h
          split at h
          · next hnone =>
              cases h
              exact .coOrderRefused (insertOrder_none_iff.mp hnone)
          · next d₁ order hsome =>
              obtain ⟨hinserts, rfl⟩ := insertOrder_inserts hsome
              cases h
              exact .coOrder hinserts
      | abort => exact absurd rfl hab
      | _ => simp [stmt] at h
  | coItem inp at₀ order line stockLeft =>
      cases a with
      | run =>
          cases h
          split
          · next hok => exact .coItem hok
          · next hbad => exact .coItemRefused hbad
      | abort => exact absurd rfl hab
      | _ => simp [stmt] at h
  | coJob inp at₀ order line stockLeft =>
      cases a with
      | run =>
          cases h
          exact .coJob
      | abort => exact absurd rfl hab
      | _ => simp [stmt] at h
  | coCommit inp at₀ order line job stockLeft =>
      cases a with
      | run =>
          cases h
          exact .coCommit
      | abort => exact absurd rfl hab
      | _ => simp [stmt] at h
  | coRollback err =>
      cases a with
      | run =>
          cases h
          exact .coRollback
      | abort => exact absurd rfl hab
      | _ => simp [stmt] at h
  | statusFind o status viewer =>
      cases a with
      | run =>
          cases h
          exact statusFind_branch
      | abort => exact absurd rfl hab
      | _ => simp [stmt] at h
  | statusSave o status =>
      cases a with
      | run =>
          cases h
          exact statusSave_branch
      | abort => exact absurd rfl hab
      | _ => simp [stmt] at h
  | statusUpdate o status =>
      cases a with
      | run =>
          simp only [stmt, Option.map_eq_some_iff] at h
          obtain ⟨⟨T, r⟩, hupdate, h⟩ := h
          rcases Table.updateWhere_cases hupdate with ⟨rfl, rfl, hno⟩ | ⟨r, hseen, -, hfree, rfl, rfl⟩
          · cases h
            refine .updateGone ?_
            cases hseen : (d.orders o).view i with
            | none => rfl
            | some r => cases hno r hseen
          · cases h
            exact .update hseen hfree
      | abort => exact absurd rfl hab
      | _ => simp [stmt] at h
  | statusCommit o status =>
      cases a with
      | run =>
          cases h
          exact .statusCommit
      | abort => exact absurd rfl hab
      | _ => simp [stmt] at h
  | placed _ _ | checkedOut _ | statusSet _ | aborted =>
      cases a <;> first | exact absurd rfl hab | simp [stmt] at h

end

end Marketplace.Orders

import Marketplace.Core.Groups
import Marketplace.Core.JsNumber
import Marketplace.Orders.Conservation
import Marketplace.Orders.Rows
import Marketplace.Outbox.Codec

/-!
# Sales.Card — the product card

`ProductCardRepository.load` of `src/products/product-card.ts`. Its query is one statement, so it
sees the committed rows of one moment: here those of a run of the order paths, after the rows
of `order_items` there were before it.

An order that is cancelled or refunded leaves the figures of the card, but what it took stays
out of the stock. So the stock, the units sold and the units of such orders add up to the
stock at the start and the units ordered before (`card_accounts`).
-/

namespace Marketplace.Sales

open Core Auth Outbox Orders

variable {η : Type} [DecidableEq η] {hash : Request → η} {dbl : Doubles}

/-! ## The query -/

/-- The committed rows. -/
structure Tables where
  products : ProductId → Option Product
  /-- The names, which no order path reads or writes. -/
  names : ProductId → String
  orders : OrderId → Option Order
  orderItems : List OrderItem

/-- The rows of a run, where `order_items` had the rows `items₀` before it. -/
def tablesOf (names : ProductId → String) (items₀ : List OrderItem) (d : Db η) : Tables where
  products p := (d.products p).base
  names := names
  orders o := (d.orders o).base
  orderItems := items₀ ++ d.orderItems

structure ProductCard where
  id : ProductId
  name : String
  priceCents : ℤ
  stock : ℤ
  isActive : Bool
  unitsSold : ℤ
  ordersCount : ℤ
  revenueCents : WithTop ℚ
  lastOrderedAt : Option String

abbrev JoinedRow := Option OrderItem × Option Order

/-- `LEFT JOIN order_items oi ON oi.product_id = p.id LEFT JOIN orders o ON o.id = oi.order_id`. -/
def joined (t : Tables) (p : ProductId) : List JoinedRow :=
  match t.orderItems.filter fun it => it.line.productId = p with
  | [] => [(none, none)]
  | it :: items => (it :: items).map fun it => (some it, t.orders it.orderId)

/-- The orders a card counts. -/
def IsSale (o : Order) : Prop := o.status = .pending ∨ o.status = .completed

instance : DecidablePred IsSale := fun o =>
  inferInstanceAs (Decidable (o.status = .pending ∨ o.status = .completed))

/-- `o.status IN ('pending', 'completed')`. -/
def counted (row : JoinedRow) : Bool := row.2.any fun o => IsSale o

/-- `::int`. -/
def toInt (n : ℤ) : Except Thrown ℤ :=
  if -2147483648 ≤ n ∧ n ≤ 2147483647 then .ok n else .error dbError

def load (dbl : Doubles) (t : Tables) (p : ProductId) : Except Thrown (Option ProductCard) :=
  match t.products p with
  | none => .ok none
  | some r => do
      let rows := (joined t p).filter counted
      let unitsSold ← toInt ((Groups.sum (·.1.map (·.line.quantity)) rows).getD 0)
      let ordersCount ← toInt (Groups.countDistinct (·.1.map (·.orderId)) rows)
      let revenueCents := (Groups.sum (·.1.map (·.line.lineTotalCents)) rows).getD 0
      let lastOrderedAt := Groups.max (·.2.map (·.createdAt)) rows
      .ok (some
        { id := p
          name := t.names p
          priceCents := r.priceCents
          stock := r.stock
          isActive := r.isActive
          unitsSold
          ordersCount
          revenueCents := dbl.round revenueCents
          lastOrderedAt := lastOrderedAt.map fun at₀ => toISOString (toDate at₀) })

/-! ## The lines of a product -/

def linesOf (items : List OrderItem) (p : ProductId) : List OrderItem :=
  items.filter fun it => it.line.productId = p

def units (items : List OrderItem) : ℤ := (items.map fun it => it.line.quantity).sum

def revenue (items : List OrderItem) : ℤ := (items.map fun it => it.line.lineTotalCents).sum

/-- The order of the line is one that counts. -/
def InSale (t : Tables) (it : OrderItem) : Bool := (t.orders it.orderId).any fun o => IsSale o

/-- The lines a card counts, and those of cancelled and refunded orders. -/
def sold (t : Tables) (p : ProductId) : List OrderItem := (linesOf t.orderItems p).filter (InSale t)

def unsold (t : Tables) (p : ProductId) : List OrderItem :=
  (linesOf t.orderItems p).filter fun it => !InSale t it

section

variable {t : Tables} {p : ProductId} {r : Product}

/-- The rows of the join that count are the sold lines with their orders. -/
theorem joined_counted : (joined t p).filter counted =
    (sold t p).map fun it => (some it, t.orders it.orderId) := by
  unfold joined sold linesOf
  cases t.orderItems.filter fun it => it.line.productId = p with
  | nil => rfl
  | cons it items =>
      rw [List.filter_map]
      rfl

/-- The columns of `order_items` in the rows that count. -/
theorem counted_column {α : Type} (f : OrderItem → α) (items : List OrderItem) :
    (items.map fun it => ((some it, t.orders it.orderId) : JoinedRow)).filterMap (·.1.map f) =
      items.map f := by
  rw [List.filterMap_map, ← List.filterMap_eq_map]
  rfl

/-- The units and the revenue of a product, by whether the order counts. -/
theorem sum_sold (f : OrderItem → ℤ) : ((sold t p).map f).sum + ((unsold t p).map f).sum =
    ((linesOf t.orderItems p).map f).sum := by
  have hkeys : ∀ it ∈ linesOf t.orderItems p, InSale t it ∈ [true, false] := by
    intro it _
    cases InSale t it <;> decide
  have hparts := Groups.sum_parts f (by decide) hkeys
  have hsold : Groups.group (InSale t) (linesOf t.orderItems p) true = sold t p := by
    apply List.filter_congr
    intro it _
    cases InSale t it <;> rfl
  have hunsold : Groups.group (InSale t) (linesOf t.orderItems p) false = unsold t p := by
    apply List.filter_congr
    intro it _
    cases InSale t it <;> rfl
  rw [← hparts, List.map_cons, List.map_cons, List.map_nil, List.sum_cons, List.sum_cons,
    List.sum_nil, add_zero, hsold, hunsold]

/-- What a load reads of a product that is there: the row, and its lines counted and added up. -/
theorem load_eq (hp : t.products p = some r) : load dbl t p = (do
    let unitsSold ← toInt (units (sold t p))
    let ordersCount ← toInt ((sold t p).map OrderItem.orderId).dedup.length
    .ok (some
      { id := p, name := t.names p, priceCents := r.priceCents, stock := r.stock
        isActive := r.isActive, unitsSold, ordersCount
        revenueCents := dbl.round (revenue (sold t p))
        lastOrderedAt := ((sold t p).filterMap fun it =>
          (t.orders it.orderId).map Order.createdAt).max?.map fun at₀ =>
            toISOString (toDate at₀) })) := by
  unfold load
  rw [hp]
  simp only [joined_counted, Groups.sum_getD, Groups.countDistinct, counted_column, Groups.max]
  rw [List.filterMap_map]
  rfl

end

/-! ## The lines of a run -/

/-- What `UQ_order_items_order_product` keeps apart. -/
def lineKey (it : OrderItem) : OrderId × ProductId := (it.orderId, it.line.productId)

/-- What the constraints of `order_items` promise of the rows before a run. -/
structure Before (d₀ : Db η) (items₀ : List OrderItem) : Prop where
  orders : ∀ it ∈ items₀, (d₀.orders it.orderId).base.isSome
  lines : ∀ it ∈ items₀, LineOk it.line
  unique : (items₀.map lineKey).Nodup

omit [DecidableEq η] in
theorem before_nil {d₀ : Db η} : Before d₀ [] where
  orders := fun _ hit => nomatch hit
  lines := fun _ hit => nomatch hit
  unique := List.nodup_nil

section

variable {d₀ d : Db η} {items₀ : List OrderItem} {names : ProductId → String} {p : ProductId}
  {it : OrderItem} {r₀ r : Product} {card : ProductCard}

section

omit [DecidableEq η]

/-- A line of the run: of a new order, and at the price of the list. -/
theorem run_line (hinv : Inv hash d₀ d) (hb : AllBooked d₀ d) (hit : it ∈ d.orderItems) :
    (d₀.orders it.orderId).base = none ∧ LineOk it.line ∧
      ∃ r, (d₀.products it.line.productId).base = some r ∧
        it.line.unitPriceCents = r.priceCents := by
  rw [hinv.orderItems] at hit
  obtain ⟨sale, hsale, hit⟩ := List.mem_flatMap.mp hit
  obtain ⟨l, hl, rfl⟩ := List.mem_map.mp hit
  obtain ⟨hfresh, -, hpriced⟩ := hb sale hsale
  obtain ⟨r, hr, -, hline⟩ := hpriced l hl
  refine ⟨hfresh, (hinv.book.proper sale hsale).lines l hl, r, hr, ?_⟩
  show l.unitPriceCents = r.priceCents
  rw [hline]
  rfl

/-- No line of an order is there twice. -/
theorem run_unique (hinv : Inv hash d₀ d) : (d.orderItems.map lineKey).Nodup := by
  rw [hinv.orderItems]
  apply List.pairwise_map.mpr
  apply List.pairwise_flatMap.mpr
  constructor
  · -- within an order: no product twice
    intro sale hsale
    apply List.pairwise_map.mpr
    apply (hinv.book.proper sale hsale).distinct.imp
    intro a b hne heq
    exact hne (Prod.mk.inj heq).2
  · apply hinv.book.orders.imp
    intro a b hne x hx y hy heq
    obtain ⟨l, -, rfl⟩ := List.mem_map.mp hx
    obtain ⟨l', -, rfl⟩ := List.mem_map.mp hy
    exact hne (Prod.mk.inj heq).1

/-- Not even together with the lines of before is a line there twice. -/
theorem lines_unique (hinv : Inv hash d₀ d) (hb : AllBooked d₀ d) (h₀ : Before d₀ items₀) :
    ((items₀ ++ d.orderItems).map lineKey).Nodup := by
  rw [List.map_append]
  apply h₀.unique.append (run_unique hinv)
  intro k hk hk'
  obtain ⟨a, ha, rfl⟩ := List.mem_map.mp hk
  obtain ⟨b, hb', heq⟩ := List.mem_map.mp hk'
  obtain ⟨hnone, -⟩ := run_line hinv hb hb'
  have hsome := h₀.orders a ha
  rw [← (Prod.mk.inj heq).1, hnone] at hsome
  cases hsome

end

/-- An order has at most one line of a product. -/
theorem sold_unique {t : Tables} (h : (t.orderItems.map lineKey).Nodup) :
    ((sold t p).map OrderItem.orderId).Nodup := by
  have hsub : (sold t p).Sublist t.orderItems := List.filter_sublist.trans List.filter_sublist
  have hkeys : ((sold t p).map lineKey).Nodup := (hsub.map lineKey).nodup h
  apply List.pairwise_map.mpr
  apply (List.pairwise_map.mp hkeys).imp_of_mem
  intro a b ha hb hne heq
  apply hne
  have hproduct : ∀ c ∈ sold t p, c.line.productId = p := by
    intro c hc
    have hc' := (List.mem_filter.mp (List.mem_filter.mp hc).1).2
    exact of_decide_eq_true hc'
  show (a.orderId, a.line.productId) = (b.orderId, b.line.productId)
  rw [heq, hproduct a ha, hproduct b hb]

/-- A line is of 1 to 100 units. -/
theorem units_bounds {items : List OrderItem} (h : ∀ it ∈ items, LineOk it.line) :
    (items.length : ℤ) ≤ units items ∧ units items ≤ 100 * items.length := by
  induction items with
  | nil => exact ⟨Int.le_refl 0, Int.le_refl 0⟩
  | cons it items ih =>
      have hrest := ih fun a ha => h a (List.mem_cons_of_mem _ ha)
      have hhead := (h it List.mem_cons_self).quantity
      have hunits : units (it :: items) = it.line.quantity + units items := List.sum_cons
      have hlength : ((it :: items).length : ℤ) = items.length + 1 := rfl
      omega

/-- At one price, the revenue is the units at that price. -/
theorem revenue_at {items : List OrderItem} {cents : ℤ} (h : ∀ it ∈ items, LineOk it.line)
    (hprice : ∀ it ∈ items, it.line.unitPriceCents = cents) :
    revenue items = cents * units items := by
  induction items with
  | nil => exact (Int.mul_zero cents).symm
  | cons it items ih =>
      have hrest := ih (fun a ha => h a (List.mem_cons_of_mem _ ha))
        fun a ha => hprice a (List.mem_cons_of_mem _ ha)
      calc revenue (it :: items) = it.line.lineTotalCents + revenue items := List.sum_cons
        _ = cents * it.line.quantity + cents * units items := by
            rw [(h it List.mem_cons_self).total, hprice it List.mem_cons_self, hrest]
        _ = cents * (it.line.quantity + units items) := (Int.mul_add _ _ _).symm
        _ = cents * units (it :: items) := rfl

/-! ## The card over a run -/

/-- What a card says of a product that had the row `r₀` when the run began. -/
structure Accounts (dbl : Doubles) (items₀ : List OrderItem) (r₀ : Product) (t : Tables)
    (p : ProductId) (card : ProductCard) : Prop where
  row : t.products p = some ⟨card.priceCents, card.stock, card.isActive⟩
  price : card.priceCents = r₀.priceCents ∧ card.isActive = r₀.isActive
  stock : 0 ≤ card.stock
  units : card.stock + card.unitsSold + units (unsold t p) =
    r₀.stock + units (linesOf items₀ p)
  revenue : ∃ cents : ℤ, card.revenueCents = dbl.round cents ∧
    cents + revenue (unsold t p) =
      revenue (linesOf items₀ p) + r₀.priceCents * (r₀.stock - card.stock)
  orders : card.ordersCount = (sold t p).length ∧ card.ordersCount ≤ card.unitsSold ∧
    card.unitsSold ≤ 100 * card.ordersCount
  never : card.lastOrderedAt = none ↔ card.ordersCount = 0
  last : ∀ text, card.lastOrderedAt = some text → ∃ it ∈ sold t p, ∃ o,
    t.orders it.orderId = some o ∧ text = toISOString (toDate o.createdAt) ∧
      ∀ it' ∈ sold t p, ∀ o', t.orders it'.orderId = some o' → o'.createdAt ≤ o.createdAt

/-- A sum that fits is handed on as it is. -/
theorem toInt_ok {m n : ℤ} (h : toInt m = .ok n) : m = n := by
  unfold toInt at h
  split at h
  · exact Except.ok.inj h
  · cases h

theorem toInt_of_bounds {n : ℤ} (h₀ : 0 ≤ n) (h : n ≤ 2147483647) : toInt n = .ok n :=
  if_pos ⟨by omega, h⟩

/-- A card with figures that fit is what the lines say. -/
theorem load_ok {t : Tables} (hp : t.products p = some r)
    (hunique : (t.orderItems.map lineKey).Nodup) (h : load dbl t p = .ok (some card)) :
    card.priceCents = r.priceCents ∧ card.isActive = r.isActive ∧ card.stock = r.stock ∧
      card.unitsSold = units (sold t p) ∧ card.ordersCount = (sold t p).length ∧
      card.revenueCents = dbl.round (revenue (sold t p) : ℤ) ∧
      card.lastOrderedAt = ((sold t p).filterMap fun it =>
        (t.orders it.orderId).map Order.createdAt).max?.map fun at₀ =>
          toISOString (toDate at₀) := by
  rw [load_eq hp, (List.dedup_eq_self.mpr (sold_unique hunique)), List.length_map] at h
  cases hunits : toInt (units (sold t p)) with
  | error e =>
      rw [hunits] at h
      cases h
  | ok u =>
      cases hcount : toInt ((sold t p).length : ℤ) with
      | error e =>
          rw [hunits, hcount] at h
          cases h
      | ok n =>
          rw [hunits, hcount] at h
          obtain rfl := Option.some.inj (Except.ok.inj h)
          exact ⟨rfl, rfl, rfl, (toInt_ok hunits).symm, (toInt_ok hcount).symm, rfl, rfl⟩

/-- The time of the last order is that of a line that counts. -/
theorem last_created {t : Tables} :
    (((sold t p).filterMap fun it => (t.orders it.orderId).map Order.createdAt).max? = none ↔
      (sold t p).length = 0) ∧
    ∀ at₀, ((sold t p).filterMap fun it => (t.orders it.orderId).map Order.createdAt).max? =
        some at₀ →
      ∃ it ∈ sold t p, ∃ o, t.orders it.orderId = some o ∧ at₀ = o.createdAt ∧
        ∀ it' ∈ sold t p, ∀ o', t.orders it'.orderId = some o' → o'.createdAt ≤ o.createdAt := by
  constructor
  · rw [List.max?_eq_none_iff, List.length_eq_zero_iff, List.filterMap_eq_nil_iff]
    constructor
    · intro hnone
      apply List.eq_nil_iff_forall_not_mem.mpr
      intro it hit
      -- a line that counts has its order
      have hsale : InSale t it = true := (List.mem_filter.mp hit).2
      have hmissing := hnone it hit
      unfold InSale at hsale
      rw [Option.map_eq_none_iff.mp hmissing] at hsale
      cases hsale
    · intro hnil it hit
      rw [hnil] at hit
      cases hit
  · intro at₀ hmax
    obtain ⟨hmem, hall⟩ := List.max?_eq_some_iff.mp hmax
    obtain ⟨it, hit, hat⟩ := List.mem_filterMap.mp hmem
    obtain ⟨o, ho, rfl⟩ := Option.map_eq_some_iff.mp hat
    refine ⟨it, hit, o, ho, rfl, ?_⟩
    intro it' hit' o' ho'
    apply hall
    exact List.mem_filterMap.mpr ⟨it', hit', by rw [ho']; rfl⟩

section

omit [DecidableEq η]

theorem linesOf_tables (names : ProductId → String) (items₀ : List OrderItem) (d : Db η)
    (p : ProductId) : linesOf (tablesOf names items₀ d).orderItems p =
    linesOf items₀ p ++ linesOf d.orderItems p := List.filter_append ..

/-- Every line is within the bounds that the checks and the columns set. -/
theorem lines_ok (hinv : Inv hash d₀ d) (hb : AllBooked d₀ d) (h₀ : Before d₀ items₀) :
    ∀ it ∈ (tablesOf names items₀ d).orderItems, LineOk it.line := by
  intro it hit
  rcases List.mem_append.mp hit with hold | hnew
  · exact h₀.lines it hold
  · exact (run_line hinv hb hnew).2.1

/-- What the order paths sold of a product is what its stock lost. -/
theorem run_units (hinv : Inv hash d₀ d) (hp : (d.products p).base = some r)
    (hp₀ : (d₀.products p).base = some r₀) :
    units (linesOf d.orderItems p) = r₀.stock - r.stock := by
  obtain ⟨r₁, hr₁, hstock, -⟩ := hinv.conserved.stock p r hp
  rw [hp₀] at hr₁
  obtain rfl := Option.some.inj hr₁
  exact hstock.symm

/-- What was sold in the run brought in the price for every unit that left the stock. -/
theorem run_revenue (hinv : Inv hash d₀ d) (hb : AllBooked d₀ d)
    (hp : (d.products p).base = some r) (hp₀ : (d₀.products p).base = some r₀) :
    revenue (linesOf d.orderItems p) = r₀.priceCents * (r₀.stock - r.stock) := by
  rw [← run_units hinv hp hp₀]
  apply revenue_at
  · intro it hit
    exact (run_line hinv hb (List.mem_filter.mp hit).1).2.1
  · intro it hit
    obtain ⟨hmem, hproduct⟩ := List.mem_filter.mp hit
    obtain ⟨-, -, r', hr', hprice⟩ := run_line hinv hb hmem
    rw [of_decide_eq_true hproduct, hp₀] at hr'
    obtain rfl := Option.some.inj hr'
    exact hprice

/-- A card that was loaded accounts for the product: price and stock of the row, units, orders and
revenue of its lines, and the time of the last order. -/
theorem accounts (hinv : Inv hash d₀ d) (hb : AllBooked d₀ d) (h₀ : Before d₀ items₀)
    (hp : (d.products p).base = some r) (hp₀ : (d₀.products p).base = some r₀)
    (h : load dbl (tablesOf names items₀ d) p = .ok (some card)) :
    Accounts dbl items₀ r₀ (tablesOf names items₀ d) p card := by
  obtain ⟨hprice, hactive, hstock, hunits, horders, hrevenue, hlast⟩ :=
    load_ok (t := tablesOf names items₀ d) hp (lines_unique hinv hb h₀) h
  obtain ⟨r₁, hr₁, -, hnonneg⟩ := hinv.conserved.stock p r hp
  have hrow := hinv.products p
  rw [hp, hp₀] at hrow
  obtain rfl := Option.some.inj hrow
  have hsplit := linesOf_tables names items₀ d p
  have hlines : ∀ it ∈ sold (tablesOf names items₀ d) p, LineOk it.line :=
    fun it hit => lines_ok hinv hb h₀ it (List.mem_filter.mp (List.mem_filter.mp hit).1).1
  obtain ⟨hmany, hfew⟩ := units_bounds hlines
  obtain ⟨hnever, hlatest⟩ := last_created (t := tablesOf names items₀ d) (p := p)
  constructor
  · rw [hprice, hactive, hstock]
    exact hp
  · exact ⟨hprice, hactive⟩
  · rw [hstock]
    exact hnonneg
  -- earlier lines and those of the run, added up apart
  · have hsum := sum_sold (t := tablesOf names items₀ d) (p := p) fun it => it.line.quantity
    rw [hsplit, List.map_append, List.sum_append] at hsum
    have hrun := run_units hinv hp hp₀
    unfold units at hrun hunits ⊢
    rw [hstock, hunits]
    omega
  · refine ⟨_, hrevenue, ?_⟩
    have hsum := sum_sold (t := tablesOf names items₀ d) (p := p) fun it => it.line.lineTotalCents
    rw [hsplit, List.map_append, List.sum_append] at hsum
    rw [hstock, ← run_revenue hinv hb hp hp₀]
    exact hsum
  · rw [hunits, horders]
    exact ⟨rfl, hmany, hfew⟩
  · rw [hlast, Option.map_eq_none_iff, hnever, horders]
    exact Int.natCast_eq_zero.symm
  · intro text htext
    rw [hlast] at htext
    obtain ⟨at₀, hat, rfl⟩ := Option.map_eq_some_iff.mp htext
    obtain ⟨it, hit, o, ho, rfl, hall⟩ := hlatest at₀ hat
    exact ⟨it, hit, o, ho, rfl, hall⟩

/-- The lines that count are not more than were ever taken from stock. -/
theorem figures_fit (hinv : Inv hash d₀ d) (hb : AllBooked d₀ d) (h₀ : Before d₀ items₀)
    (hp : (d.products p).base = some r) (hp₀ : (d₀.products p).base = some r₀)
    (hfits : r₀.stock + units (linesOf items₀ p) ≤ 2147483647) :
    toInt (units (sold (tablesOf names items₀ d) p)) =
        .ok (units (sold (tablesOf names items₀ d) p)) ∧
      toInt ((sold (tablesOf names items₀ d) p).length : ℤ) =
        .ok ((sold (tablesOf names items₀ d) p).length : ℤ) := by
  have hsplit := linesOf_tables names items₀ d p
  have hlines : ∀ it ∈ linesOf (tablesOf names items₀ d).orderItems p, LineOk it.line :=
    fun it hit => lines_ok hinv hb h₀ it (List.mem_filter.mp hit).1
  obtain ⟨hmany, -⟩ := units_bounds
    fun it (hit : it ∈ sold (tablesOf names items₀ d) p) => hlines it (List.mem_filter.mp hit).1
  obtain ⟨hunsold, -⟩ := units_bounds
    fun it (hit : it ∈ unsold (tablesOf names items₀ d) p) => hlines it (List.mem_filter.mp hit).1
  have hsum := sum_sold (t := tablesOf names items₀ d) (p := p) fun it => it.line.quantity
  rw [hsplit, List.map_append, List.sum_append] at hsum
  have hrun := run_units hinv hp hp₀
  obtain ⟨r₁, -, -, hnonneg⟩ := hinv.conserved.stock p r hp
  have hle : units (sold (tablesOf names items₀ d) p) ≤ 2147483647 := by
    unfold units at *
    omega
  constructor
  · apply toInt_of_bounds _ hle
    omega
  · apply toInt_of_bounds
    · omega
    · omega

end

/-- Whatever placeOrder, checkout and updateStatus calls have done, and wherever they stand, a
product of the price list has a card unless its units pass the `integer` of the query, and
what the card says adds up. -/
theorem card_accounts {s t : St η} {as : List Orders.Label} (hs : (machine hash).Init s)
    (hr : (machine hash).Run Machine.Always s as t) (h₀ : Before s.shared items₀) :
    ((s.shared.products p).base = none →
      load dbl (tablesOf names items₀ t.shared) p = .ok none) ∧
    ∀ r₀, (s.shared.products p).base = some r₀ →
      (r₀.stock + units (linesOf items₀ p) ≤ 2147483647 →
        ∃ card, load dbl (tablesOf names items₀ t.shared) p = .ok (some card)) ∧
      ∀ card, load dbl (tablesOf names items₀ t.shared) p = .ok (some card) →
        Accounts dbl items₀ r₀ (tablesOf names items₀ t.shared) p card := by
  have hinv := (holds hs hr).1
  have hb := booked hs hr
  constructor
  · intro hnone
    have hrow := hinv.products p
    rw [hnone] at hrow
    unfold load
    rw [show (tablesOf names items₀ t.shared).products p = none from hrow]
  · intro r₀ hp₀
    have hrow := hinv.products p
    rw [hp₀] at hrow
    refine ⟨?_, fun card h => accounts hinv hb h₀ hrow hp₀ h⟩
    intro hfits
    obtain ⟨hunits, hcount⟩ := figures_fit hinv hb h₀ hrow hp₀ hfits
    rw [load_eq (show (tablesOf names items₀ t.shared).products p = some _ from hrow), hunits,
      List.dedup_eq_self.mpr (sold_unique (lines_unique hinv hb h₀)), List.length_map, hcount]
    exact ⟨_, rfl⟩

end

/-- The cancelled order took two units, the checkout three. -/
theorem card_accounts_fourCalls : ∃ (t : St Request) (card : ProductCard),
    (machine id).Run Machine.Always shop fourCalls t ∧
    load .unrounded (tablesOf (fun _ => "Desk Lamp") [] t.shared) 1 = .ok (some card) ∧
    card.stock = 0 ∧ card.unitsSold = 3 ∧ card.lastOrderedAt ≠ none := by
  have hrun : ∃ t, (machine (id : Request → Request)).exec (fun _ _ => true) shop fourCalls =
      some t ∧ (t.shared.products 1).base = some ⟨500, 0, true⟩ ∧
      units (unsold (tablesOf (fun _ => "Desk Lamp") [] t.shared) 1) = 2 := ⟨_, rfl, rfl, rfl⟩
  obtain ⟨t, ht, hrow, hunsold⟩ := hrun
  have hr := Machine.exec_always ht
  obtain ⟨hanswers, haccounts⟩ := (@card_accounts Request _ id .unrounded []
    (fun _ => "Desk Lamp") 1 shop t _ (shop_init id) hr before_nil).2 ⟨500, 5, true⟩ rfl
  obtain ⟨card, hload⟩ := hanswers (by decide)
  have h := haccounts card hload
  have hstock : card.stock = 0 :=
    congrArg Product.stock (Option.some.inj (h.row.symm.trans hrow))
  have hunits : card.stock + card.unitsSold + _ = 5 + units (linesOf [] 1) := h.units
  rw [hunsold, hstock, show units (linesOf [] 1) = 0 from rfl] at hunits
  refine ⟨t, card, hr, hload, hstock, by omega, ?_⟩
  rw [ne_eq, h.never]
  have hfew := h.orders.2.2
  omega

end Marketplace.Sales

import Marketplace.Orders.Create
import Marketplace.Orders.Deadlock
import Marketplace.Orders.Tenants

/-!
# Orders.Answered — which valid requests the API answers itself

A request that has the shop to itself ends after finitely many statements (`Solo.ends`). It is
answered by the rules of the API unless it gets as far as a product id that is no `bigint`, a
product that is in the order twice, or a total that is no `integer`; then the database refuses
a statement.
-/

namespace Marketplace.Orders

open Core Auth Outbox

variable {η : Type} [DecidableEq η] {hash : Request → η} {i : ℕ} {d₀ d d' : Db η}
  {pc pc' : Pc} {inp : PlaceOrderInput} {s₀ s t : St η} {err : Thrown} {p : ProductId}

/-! ## What is asked for -/

def asked (item : Item) (p : ProductId) : ℤ := if item.productId = p then item.quantity else 0

/-- How much of a product the items ask for, all together. -/
def askedOf (items : List Item) (p : ProductId) : ℤ := Ledger.debited asked items p

/-- The product is there, active, and has what the request asks of it. -/
def Available (d : Db η) (inp : PlaceOrderInput) (p : ProductId) : Prop :=
  ∃ r, (d.products p).base.filter Product.isActive = some r ∧ askedOf inp.items p ≤ r.stock

def priceOf (d : Db η) (p : ProductId) : ℤ := ((d.products p).base.map Product.priceCents).getD 0

/-- The sum of price times quantity. -/
def exactTotal (d : Db η) (inp : PlaceOrderInput) : ℤ :=
  (inp.items.map fun item => priceOf d item.productId * item.quantity).sum

/-- The columns can take the order: no id and no total is out of range, no product in it twice. -/
structure Fits (d : Db η) (inp : PlaceOrderInput) : Prop where
  ids : ∀ item ∈ inp.items, Int8 item.productId
  distinct : (inp.items.map Item.productId).Nodup
  total : exactTotal d inp ≤ 2147483647

/-- When a request is answered by the rules of the API: its key has a record, or one of its
products is not available, or the columns can take it. -/
def Answerable (d : Db η) (inp : PlaceOrderInput) : Prop :=
  (∃ key, inp.key = some key ∧ (d.records key).base.isSome) ∨
  (∃ item ∈ inp.items, Int8 item.productId ∧ ¬ Available d inp item.productId) ∨ Fits d inp

/-- The answers that the rules of the API give. -/
inductive Answered (hash : Request → η) (d d' : Db η) (inp : PlaceOrderInput) :
    Except Thrown PlaceOrderResult → Prop
  | created {body : ResponseBody} {row : Order} : body.totalCents = exactTotal d inp →
      (d'.orders body.id).base = some row → row.userId = inp.userId →
      row.totalCents = body.totalCents → Answered hash d d' inp (.ok ⟨201, body, false⟩)
  | stored {key : String} {rec : IdempotencyRecord η} : inp.key = some key →
      (d.records key).base = some rec → rec.requestHash = hash inp.request → Uncommitted d d' →
      Answered hash d d' inp (.ok ⟨rec.responseStatus, rec.responseBody, true⟩)
  | reused {key : String} {rec : IdempotencyRecord η} : inp.key = some key →
      (d.records key).base = some rec → rec.requestHash ≠ hash inp.request → Uncommitted d d' →
      Answered hash d d' inp
        (.error (.http 422 "Idempotency-Key was already used with a different request"))
  | notFound {item : Item} : item ∈ inp.items →
      (d.products item.productId).base.filter Product.isActive = none → Uncommitted d d' →
      Answered hash d d' inp (.error (productNotFound item.productId))
  | short {item : Item} {r : Product} : item ∈ inp.items →
      (d.products item.productId).base.filter Product.isActive = some r →
      r.stock < askedOf inp.items item.productId → Uncommitted d d' →
      Answered hash d d' inp (.error (shortOfStock item.productId))

theorem askedOf_append (A B : List Item) (p : ProductId) :
    askedOf (A ++ B) p = askedOf A p + askedOf B p := by
  unfold askedOf Ledger.debited
  rw [List.map_append, List.sum_append]

theorem askedOf_perm {A B : List Item} (h : A.Perm B) (p : ProductId) :
    askedOf A p = askedOf B p := (h.map _).sum_eq

/-- Quantities from 1 on ask for nothing negative of a product. -/
theorem askedOf_nonneg {items : List Item} (h : ∀ item ∈ items, 1 ≤ item.quantity)
    (p : ProductId) : 0 ≤ askedOf items p := by
  refine Ledger.debited_nonneg _ _ _ ?_
  intro item hitem
  have hq := h item hitem
  unfold asked
  split <;> omega

/-- What the lines of an order take of a product is what its items asked for. -/
theorem askedOf_lines (lines : List Line) (p : ProductId) :
    askedOf (lines.map fun l => ⟨l.productId, l.quantity⟩) p = takenOf lines p := by
  unfold askedOf takenOf Ledger.debited
  rw [List.map_map]
  rfl

/-- What `CreateOrderDto`, `OrdersService.create` and the schema say of a request. -/
structure Valid (d : Db η) (inp : PlaceOrderInput) : Prop where
  ids : ∀ item ∈ inp.items, 1 ≤ item.productId
  quantity : ∀ item ∈ inp.items, 1 ≤ item.quantity ∧ item.quantity ≤ 100
  prices : ∀ p r, (d.products p).base = some r → 0 ≤ r.priceCents
  user : (d.users inp.userId).base.isSome
  country : countryOk inp.country = true

/-! ## The lines of the request -/

theorem sortedItems_perm (inp : PlaceOrderInput) : inp.sortedItems.Perm inp.items :=
  List.perm_insertionSort _ _

theorem askedOf_split {lines : List Line} {rest : List Item}
    (h : lines.map (fun l => (⟨l.productId, l.quantity⟩ : Item)) ++ rest = inp.sortedItems)
    (p : ProductId) : askedOf inp.items p = takenOf lines p + askedOf rest p := by
  rw [← askedOf_perm (sortedItems_perm inp), ← h, askedOf_append, askedOf_lines]

omit [DecidableEq η] in
/-- The items that come after one that is out of range are out of range. -/
theorem unfit_rest (hv : Valid d₀ inp) {front rest : List Item} {item : Item}
    (h : front ++ item :: rest = inp.sortedItems) (hno : ¬ Int8 item.productId) :
    ∀ x ∈ item :: rest, ¬ Int8 x.productId := by
  have hsorted : (item :: rest).Pairwise fun a b : Item => a.productId ≤ b.productId := by
    have hall : (front ++ item :: rest).Pairwise fun a b : Item => a.productId ≤ b.productId := by
      rw [h]
      exact List.pairwise_insertionSort _ _
    exact (List.pairwise_append.mp hall).2.1
  have hitem : item ∈ inp.items := by
    rw [← (sortedItems_perm inp).mem_iff, ← h]
    exact List.mem_append_right _ List.mem_cons_self
  have hpos := hv.ids item hitem
  intro x hx hin
  have hle : item.productId ≤ x.productId := by
    rcases List.mem_cons.mp hx with rfl | hx
    · exact le_refl _
    · exact (List.pairwise_cons.mp hsorted).1 x hx
  exact hno ⟨le_trans (by decide) hpos, hle.trans hin.2⟩

theorem askedOf_eq_zero {items : List Item} (h : ∀ item ∈ items, item.productId ≠ p) :
    askedOf items p = 0 :=
  Ledger.debited_eq_zero _ _ _ fun item hitem => if_neg (h item hitem)

omit [DecidableEq η] in
/-- A product whose stock has been taken. -/
theorem line_available (hinv : Inv hash d₀ d) (hl : Loc hash d₀ i d pc) (hroll : ¬ pc.Rolling)
    (hledger : d.ledger = []) {l : Line} (hin : l ∈ pc.draft.lines) :
    ∃ r, (d₀.products l.productId).base.filter Product.isActive = some r ∧
      l = toLine ⟨l.productId, l.quantity⟩ r.priceCents ∧
      takenOf pc.draft.lines l.productId ≤ r.stock := by
  obtain ⟨r, hr, hact, heq⟩ := hl.priced l hin
  refine ⟨r, Option.filter_eq_some_iff.mpr ⟨hr, hact⟩, heq, ?_⟩
  have hview := view_product hinv hl hroll (p := l.productId)
  rw [hr, hledger] at hview
  have hleft : 0 ≤ r.stock - (soldOf [] l.productId + takenOf pc.draft.lines l.productId) :=
    hinv.stock.view hview
  have hsold : soldOf [] l.productId = 0 := rfl
  omega

omit [DecidableEq η] in
/-- Lines priced by the shop, for the items asked for, have the exact total. -/
theorem totalOf_lines {lines : List Line} (hp : Priced d₀ lines)
    (h : lines.map (fun l => (⟨l.productId, l.quantity⟩ : Item)) = inp.sortedItems) :
    totalOf lines = exactTotal d₀ inp := by
  have hline : ∀ l ∈ lines, l.lineTotalCents = priceOf d₀ l.productId * l.quantity := by
    intro l hl
    obtain ⟨r, hr, -, heq⟩ := hp l hl
    have hprice : priceOf d₀ l.productId = r.priceCents := by
      unfold priceOf
      rw [hr]
      rfl
    rw [hprice]
    exact congrArg Line.lineTotalCents heq
  unfold totalOf exactTotal
  rw [List.map_congr_left hline, ← ((sortedItems_perm inp).map _).sum_eq, ← h, List.map_map]
  rfl

theorem lines_nodup {lines : List Line}
    (h : lines.map (fun l => (⟨l.productId, l.quantity⟩ : Item)) = inp.sortedItems) :
    (lines.map Line.productId).Nodup ↔ (inp.items.map Item.productId).Nodup := by
  rw [← ((sortedItems_perm inp).map Item.productId).nodup_iff, ← h, List.map_map]
  rfl

section

omit [DecidableEq η]

/-- A line of the request is one that `order_items` can take, as long as the order fits. -/
theorem line_fits (hv : Valid d₀ inp) {lines : List Line} (hp : Priced d₀ lines)
    (h : lines.map (fun l => (⟨l.productId, l.quantity⟩ : Item)) = inp.sortedItems) {l : Line}
    (hl : l ∈ lines) : (1 ≤ l.quantity ∧ l.quantity ≤ 100 ∧ 0 ≤ l.unitPriceCents ∧
      l.lineTotalCents = l.unitPriceCents * l.quantity) ∧ 0 ≤ l.lineTotalCents := by
  have hmem := (mem_items (by rw [List.append_nil]; exact h)).1
  obtain ⟨r, hr, -, heq⟩ := hp l hl
  obtain ⟨hlow, hhigh⟩ := hv.quantity _ (hmem l hl)
  have hprice : 0 ≤ l.unitPriceCents := by
    rw [heq]
    exact hv.prices _ r hr
  have htotal : l.lineTotalCents = l.unitPriceCents * l.quantity := by
    rw [heq]
    rfl
  refine ⟨⟨hlow, hhigh, hprice, htotal⟩, ?_⟩
  rw [htotal]
  exact mul_nonneg hprice (le_trans (by decide) hlow)

/-- No line costs more than the exact total, so no column overflows before it. -/
theorem lineTotal_le (hv : Valid d₀ inp) {lines : List Line} (hp : Priced d₀ lines)
    (h : lines.map (fun l => (⟨l.productId, l.quantity⟩ : Item)) = inp.sortedItems) {l : Line}
    (hl : l ∈ lines) : l.lineTotalCents ≤ exactTotal d₀ inp := by
  rw [← totalOf_lines hp h]
  refine List.single_le_sum ?_ _ (List.mem_map_of_mem hl)
  intro n hn
  obtain ⟨l', hl', rfl⟩ := List.mem_map.mp hn
  exact (line_fits hv hp h hl').2

/-- With prices that are not negative the exact total is not either. -/
theorem exactTotal_nonneg (hv : Valid d₀ inp) : 0 ≤ exactTotal d₀ inp := by
  refine List.sum_nonneg ?_
  intro n hn
  obtain ⟨item, hitem, rfl⟩ := List.mem_map.mp hn
  have hq := (hv.quantity item hitem).1
  refine mul_nonneg ?_ (le_trans (by decide) hq)
  unfold priceOf
  cases hb : (d₀.products item.productId).base with
  | none => exact le_refl _
  | some r => exact hv.prices _ r hb

end

/-! ## A request on its own -/

def AllAvailable (d : Db η) (inp : PlaceOrderInput) : Prop :=
  ∀ item ∈ inp.items, Int8 item.productId ∧ Available d inp item.productId

/-- The errors of a request with nothing under its key. -/
inductive Blames (d : Db η) (inp : PlaceOrderInput) : Thrown → Prop
  | unfit : (∀ item ∈ inp.items, Int8 item.productId → Available d inp item.productId) →
      ¬ Fits d inp → Blames d inp dbError
  | notFound {item : Item} : item ∈ inp.items → Int8 item.productId →
      (d.products item.productId).base.filter Product.isActive = none →
      Blames d inp (productNotFound item.productId)
  | short {item : Item} {r : Product} : item ∈ inp.items → Int8 item.productId →
      (d.products item.productId).base.filter Product.isActive = some r →
      r.stock < askedOf inp.items item.productId → Blames d inp (shortOfStock item.productId)

/-- The order that call `i` has committed. -/
inductive Bought (i : ℕ) (d₀ d : Db η) (inp : PlaceOrderInput) : PlaceOrderResult → Prop
  | mk {order : PlacedOrder} {row : OutboxInsert} : Fits d₀ inp →
      d.ledger = [placeSale i inp order row] → order.userId = inp.userId →
      order.totalCents = exactTotal d₀ inp →
      Bought i d₀ d inp ⟨201, toResponseBody order, false⟩

/-- What a call that has the shop to itself knows where it is. -/
def Course (hash : Request → η) (i : ℕ) (d₀ d : Db η) : Pc → Prop
  | .stock inp _ _ lines => NoRecord inp d₀ ∧ ∀ l ∈ lines, Int8 l.productId
  | .productExists inp item _ => NoRecord inp d₀ ∧ item ∈ inp.items ∧ Int8 item.productId ∧
      ¬ Available d₀ inp item.productId
  | .insertOrder inp _ _ => NoRecord inp d₀ ∧ AllAvailable d₀ inp
  | .insertItems inp _ _ _ _ | .claim inp _ _ | .insertOutbox inp _ _ | .commit inp _ _ _ =>
      NoRecord inp d₀ ∧ AllAvailable d₀ inp ∧ exactTotal d₀ inp ≤ 2147483647
  | .rollback inp (some err) => NoRecord inp d₀ ∧ Blames d₀ inp err
  | .rollback _ none | .replay _ => False
  | .placed inp result =>
      (inp.key.bind fun key => findReplay hash d₀ key inp) = some result ∨
      NoRecord inp d₀ ∧
        match result with
        | .error err => Blames d₀ inp err
        | .ok res => Bought i d₀ d inp res
  | _ => True

/-- How far a call has come depends on the ledger only. -/
theorem Course.ledger (h : Course hash i d₀ d pc) (heq : d'.ledger = d.ledger) :
    Course hash i d₀ d' pc := by
  cases pc with
  | placed inp result =>
      rcases h with hr | ⟨hnew, h⟩
      · exact Or.inl hr
      · refine Or.inr ⟨hnew, ?_⟩
        cases result with
        | error err => exact h
        | ok res =>
            obtain ⟨hfits, hsold, huser, htotal⟩ := h
            exact .mk hfits (heq.trans hsold) huser htotal
  | rollback inp err => cases err <;> exact h
  | _ => exact h

theorem findReplay_same (hu : Uncommitted d d') :
    (inp.key.bind fun key => findReplay hash d' key inp) =
      inp.key.bind fun key => findReplay hash d key inp := by
  unfold findReplay
  simp only [hu.records]

/-- A key under which nothing was found has no record. -/
theorem noRecord_of_findReplay (h : (inp.key.bind fun key => findReplay hash d key inp) = none) :
    NoRecord inp d := by
  intro key hkey
  rw [hkey, Option.bind_some, findReplay, Option.map_eq_none_iff] at h
  exact h

section

omit [DecidableEq η]

/-- A stock UPDATE without a row is about a product that is not available. -/
theorem noRow_unavailable (hinv : Inv hash d₀ d) {at₀ : ℕ} {item : Item} {rest : List Item}
    {lines : List Line} (hv : Valid d₀ inp) (hledger : d.ledger = [])
    (hl : Loc hash d₀ i d (.stock inp at₀ (item :: rest) lines))
    (hno : ∀ r, (d.products item.productId).view i = some r → r.isActive = true →
      r.stock < item.quantity) : ¬ Available d₀ inp item.productId := by
  rintro ⟨r, hr, hle⟩
  obtain ⟨hbase, hact⟩ := Option.filter_eq_some_iff.mp hr
  have hview := view_product hinv hl id (p := item.productId)
  rw [hbase, hledger] at hview
  have hshort := hno _ hview hact
  have hsplit := askedOf_split hl.facts item.productId
  have hhead : askedOf (item :: rest) item.productId =
      item.quantity + askedOf rest item.productId := by
    change asked item item.productId + _ = _
    rw [asked, if_pos rfl]
    rfl
  have hrest : 0 ≤ askedOf rest item.productId :=
    askedOf_nonneg (fun x hx => (hv.quantity x ((mem_items hl.facts).2 x
      (List.mem_cons_of_mem _ hx))).1) _
  have hsold : soldOf [] item.productId = 0 := rfl
  have hdraft : (Pc.stock inp at₀ (item :: rest) lines).draft.lines = lines := rfl
  rw [hdraft] at hshort
  dsimp only at hshort
  omega

/-- A product id that is no `bigint` is reached after all those that are. -/
theorem refused_unfit (h₀ : Init d₀) (hinv : Inv hash d₀ d) {at₀ : ℕ} {item : Item}
    {rest : List Item} {lines : List Line} (hv : Valid d₀ inp) (hledger : d.ledger = [])
    (hl : Loc hash d₀ i d (.stock inp at₀ (item :: rest) lines))
    (h : takeStock i d item.productId item.quantity = some (d', .refused)) :
    Blames d₀ inp dbError := by
  obtain ⟨hlines, hrest⟩ := mem_items hl.facts
  have hmem : item ∈ inp.items := hrest item List.mem_cons_self
  obtain ⟨hlow, hhigh⟩ := hv.quantity item hmem
  have hid : ¬ Int8 item.productId := by
    intro hin
    refine takeStock_unfit h₀ hinv hl ?_ h ⟨hin, ?_⟩
    · intro x hx
      exact le_trans (by decide) (hv.quantity x hx).1
    · exact ⟨le_trans (by decide) hlow, le_trans hhigh (by decide)⟩
  refine .unfit ?_ fun hfits => hid (hfits.ids item hmem)
  intro x hx hin
  have hafter := unfit_rest hv hl.facts hid
  have hsorted : x ∈ lines.map (fun l => (⟨l.productId, l.quantity⟩ : Item)) ++ item :: rest := by
    have hfacts : _ = inp.sortedItems := hl.facts
    rw [hfacts]
    exact (sortedItems_perm inp).mem_iff.mpr hx
  rcases List.mem_append.mp hsorted with hline | hlate
  · obtain ⟨l, hlin, rfl⟩ := List.mem_map.mp hline
    obtain ⟨r, hr, -, hle⟩ := line_available hinv hl id hledger hlin
    refine ⟨r, hr, ?_⟩
    have hnone : askedOf (item :: rest) l.productId = 0 := by
      refine askedOf_eq_zero ?_
      intro y hy heq
      exact hafter y hy (heq ▸ hin)
    rw [askedOf_split hl.facts, hnone, add_zero]
    exact hle
  · exact absurd hin (hafter x hlate)

/-- All stock has been taken. -/
theorem all_available (hinv : Inv hash d₀ d) {at₀ : ℕ} {lines : List Line}
    (hledger : d.ledger = []) (hl : Loc hash d₀ i d (.stock inp at₀ [] lines))
    (hids : ∀ l ∈ lines, Int8 l.productId) : AllAvailable d₀ inp := by
  have hfacts : lines.map (fun l => (⟨l.productId, l.quantity⟩ : Item)) ++ [] =
      inp.sortedItems := hl.facts
  intro item hitem
  rw [← (sortedItems_perm inp).mem_iff, ← hfacts, List.append_nil] at hitem
  obtain ⟨l, hlin, rfl⟩ := List.mem_map.mp hitem
  obtain ⟨r, hr, -, hle⟩ := line_available hinv hl id hledger hlin
  refine ⟨hids l hlin, r, hr, ?_⟩
  rw [askedOf_split hfacts]
  exact (add_zero _).trans_le hle

end

section

omit [DecidableEq η]

/-- What the SELECT says of a product that is not available. -/
theorem missing_blames (hinv : Inv hash d₀ d) (hgoods : SameGoods d.products) {item : Item}
    (hledger : d.ledger = []) (hmem : item ∈ inp.items) (hid : Int8 item.productId)
    (hno : ¬ Available d₀ inp item.productId) : Blames d₀ inp (missing d i item) := by
  have hview := hgoods.view (i := i) item.productId
  rw [hinv.products, hledger, lessStock, Option.map_map] at hview
  cases hf : (d₀.products item.productId).base.filter Product.isActive with
  | some r =>
      obtain ⟨hbase, hact⟩ := Option.filter_eq_some_iff.mp hf
      rw [hbase] at hview
      obtain ⟨r', hr', hact'⟩ := Option.map_eq_some_iff.mp hview
      have hmissing : missing d i item = shortOfStock item.productId := by
        unfold missing
        rw [hr', Option.any_some, if_pos (hact'.trans hact)]
        rfl
      rw [hmissing]
      refine .short hmem hid hf ?_
      by_contra hle
      exact hno ⟨r, hf, by omega⟩
  | none =>
      have hmissing : missing d i item = productNotFound item.productId := by
        unfold missing
        rw [if_neg]
        · rfl
        · intro hany
          obtain ⟨r, hr, hact⟩ := (Option.any_eq_true _ _).mp hany
          rw [hr] at hview
          obtain ⟨r₀, hr₀, hact₀⟩ := Option.map_eq_some_iff.mp hview.symm
          rw [Option.filter_eq_none_iff] at hf
          exact hf r₀ hr₀ (hact₀.trans hact)
      rw [hmissing]
      exact .notFound hmem hid hf

/-- A request that the columns cannot take, with all of its products available. -/
theorem Blames.of_all (h : AllAvailable d₀ inp) (hno : ¬ Fits d₀ inp) : Blames d₀ inp dbError :=
  .unfit (fun item hitem _ => (h item hitem).2) hno

end

omit [DecidableEq η] in
/-- The database refuses the row of the order for its total only. -/
theorem not_insertable (hinv : Inv hash d₀ d) {at₀ : ℕ} {lines : List Line} (hv : Valid d₀ inp)
    (hl : Loc hash d₀ i d (.insertOrder inp at₀ lines))
    (h : ¬ Insertable d inp.userId inp.country lines) : ¬ Fits d₀ inp := by
  intro hfits
  have htotal : totalOf lines = _ := totalOf_lines hl.priced hl.facts
  have hzero := exactTotal_nonneg hv
  refine h ?_
  rw [hinv.insertable]
  refine ⟨⟨hv.user, ?_, ?_⟩, hv.country⟩
  · rw [htotal]
    exact ⟨le_trans (by decide) hzero, hfits.total⟩
  · rw [htotal]
    exact hzero

omit [DecidableEq η] in
/-- The database refuses a row of `order_items` only if the product is there already. -/
theorem itemOk_false {at₀ : ℕ} {order : PlacedOrder} {inserted rest : List Line} {l : Line}
    (hv : Valid d₀ inp) (hl : Loc hash d₀ i d (.insertItems inp at₀ order inserted (l :: rest)))
    (htotal : exactTotal d₀ inp ≤ 2147483647) (h : ¬ itemOk inserted l = true) :
    ¬ Fits d₀ inp := by
  intro hfits
  obtain ⟨⟨-, hitems⟩, hsplit, -⟩ := hl.facts
  have hpriced : Priced d₀ order.items := hl.priced
  have hmem : l ∈ order.items := by
    rw [hsplit]
    exact List.mem_append_right _ List.mem_cons_self
  obtain ⟨⟨hlow, hhigh, hprice, hline⟩, hzero⟩ := line_fits hv hpriced hitems hmem
  have hle := lineTotal_le hv hpriced hitems hmem
  have hdistinct := (lines_nodup hitems).mpr hfits.distinct
  rw [hsplit, List.map_append, List.nodup_append] at hdistinct
  refine h ?_
  unfold itemOk
  rw [Bool.and_eq_true, decide_eq_true_eq, List.all_eq_true]
  refine ⟨⟨hlow, hhigh, hprice, ⟨le_trans (by decide) hzero, hle.trans htotal⟩, hline⟩, ?_⟩
  intro l' hl'
  rw [bne_iff_ne]
  exact hdistinct.2.2 _ (List.mem_map_of_mem hl') _ (List.mem_map_of_mem List.mem_cons_self)

theorem beginOrder_course (hnew : NoRecord inp d₀) : Course hash i d₀ d' (beginOrder d inp) :=
  ⟨hnew, fun _ hl => by cases hl⟩

/-- One statement. -/
theorem stmt_course (hv : Valid d₀ inp) (h₀ : Init d₀) (hinv : Inv hash d₀ d)
    (hgoods : SameGoods d.products) (hl : Loc hash d₀ i d pc) (hu : Uncommitted d₀ d)
    (hin : pc.input = some inp) (hc : Course hash i d₀ d pc)
    (h : stmt hash i d pc .run = some (d', pc')) : Course hash i d₀ d' pc' := by
  have hledger : d.ledger = [] := by
    obtain ⟨-, -, -, -, -, -, -, -, -, -, hnil⟩ := h₀
    rw [hu.added.2.2.2, hnil]
  -- nobody else has committed, so what the checks read is the shop at the start
  cases stmt_branch h with
  | stored hr =>
      obtain rfl := Option.some.inj hin
      exact Or.inl ((findReplay_same hu).symm.trans hr)
  | unclaimed hr =>
      obtain rfl := Option.some.inj hin
      exact beginOrder_course (noRecord_of_findReplay ((findReplay_same hu).symm.trans hr))
  | refused ht =>
      obtain rfl := Option.some.inj hin
      exact ⟨hc.1, refused_unfit h₀ hinv hv hledger hl ht⟩
  | noRow ht =>
      obtain rfl := Option.some.inj hin
      obtain ⟨hid, -, hno⟩ := takeStock_noRow ht
      exact ⟨hc.1, (mem_items hl.facts).2 _ List.mem_cons_self, hid,
        noRow_unavailable hinv hv hledger hl hno⟩
  | take ht =>
      refine ⟨hc.1, ?_⟩
      intro l hlines
      rcases List.mem_append.mp hlines with hlines | hlines
      · exact hc.2 l hlines
      · rw [List.mem_singleton.mp hlines]
        exact ht.range.1
  | taken =>
      obtain rfl := Option.some.inj hin
      exact ⟨hc.1, all_available hinv hledger hl hc.2⟩
  | productExists =>
      obtain rfl := Option.some.inj hin
      obtain ⟨hnew, hmem, hid, hno⟩ := hc
      exact ⟨hnew, missing_blames hinv hgoods hledger hmem hid hno⟩
  | orderRefused hbad =>
      obtain rfl := Option.some.inj hin
      exact ⟨hc.1, .of_all hc.2 (not_insertable hinv hv hl hbad)⟩
  | @order _ _ lines _ hi =>
      obtain rfl := Option.some.inj hin
      have htotal : totalOf lines = _ := totalOf_lines hl.priced hl.facts
      exact ⟨hc.1, hc.2, htotal ▸ hi.insertable.1.2.1.2⟩
  | item _ => exact hc
  | itemRefused hbad =>
      obtain rfl := Option.some.inj hin
      obtain ⟨hnew, hall, htotal⟩ := hc
      exact ⟨hnew, .of_all hall (itemOk_false hv hl htotal hbad)⟩
  | toClaim _ => exact hc
  | toOutbox _ => exact hc
  | claim _ _ _ => exact hc
  | @conflict _ _ _ key hkey hsome =>
      -- nothing was recorded under the key, and nobody else has committed anything
      obtain rfl := Option.some.inj hin
      have hview := (hl.drafted id).records.view key
      change (d.records key).view i = (d.records key).base at hview
      rw [hview, hu.records, hc.1 key hkey] at hsome
      cases hsome
  | outbox => exact hc
  -- bought: the sale is the order that was asked for, at the exact total
  | @commit inp' _ order row =>
      obtain rfl := Option.some.inj hin
      obtain ⟨hnew, hall, htotal⟩ := hc
      obtain ⟨⟨horder, hitems⟩, hok, -⟩ := hl.facts
      have hsum : order.totalCents = exactTotal d₀ inp' :=
        (congrArg PlacedOrder.totalCents horder).trans (totalOf_lines hl.priced hitems)
      have hdistinct : (order.items.map Line.productId).Nodup :=
        List.pairwise_map.mpr hok.2
      have hsold : (Db.commitSale i (placeSale i inp' order row) d).ledger =
          [placeSale i inp' order row] := by
        change d.ledger ++ _ = _
        rw [hledger]
        rfl
      refine Or.inr ⟨hnew, .mk ?_ hsold (congrArg PlacedOrder.userId horder) hsum⟩
      exact ⟨fun item hitem => (hall item hitem).1, (lines_nodup hitems).mp hdistinct, htotal⟩
  | replays => exact hc.elim
  | fails => exact Or.inr hc
  | replayed _ => exact hc.elim
  | gone _ => exact hc.elim
  | _ => cases hin

/-! ## Runs of one call -/

/-- Only call `i` acts, and it answers `inp`. -/
def Mine (i : ℕ) (inp : PlaceOrderInput) (_s : St η) (l : Label) : Prop :=
  l = .call i (.placeOrder inp) ∨ l = .call i .run ∨ ∃ dt, l = .env dt

/-- Call `i` has the shop to itself. -/
structure Solo (hash : Request → η) (d₀ : Db η) (i : ℕ) (inp : PlaceOrderInput) (s : St η) :
    Prop where
  known : Procs.Holds (Inv hash d₀) (Loc hash d₀) s
  goods : SameGoods s.shared.products
  others : ∀ j, j ≠ i → s.proc j = .idle
  input : s.proc i = .idle ∨ (s.proc i).input = some inp
  keyed : (s.proc i).Keyed
  unsold : (∀ res, s.proc i = .placed inp (.ok res) → res.replayed = true) → Uncommitted d₀ s.shared
  course : Course hash i d₀ s.shared (s.proc i)

omit [DecidableEq η] in
/-- What two steps leave uncommitted, both together leave. -/
theorem Uncommitted.trans {d'' : Db η} (h : Uncommitted d d') (h' : Uncommitted d' d'') :
    Uncommitted d d'' := by
  obtain ⟨hitems, houtbox, hjobs, hledger⟩ := h.added
  obtain ⟨hitems', houtbox', hjobs', hledger'⟩ := h'.added
  exact
    { products := fun p => (h'.products p).trans (h.products p)
      users := fun u => (h'.users u).trans (h.users u)
      orders := fun o => (h'.orders o).trans (h.orders o)
      records := fun k => (h'.records k).trans (h.records k)
      added := ⟨hitems'.trans hitems, houtbox'.trans houtbox, hjobs'.trans hjobs,
        hledger'.trans hledger⟩
      nextOrder := h.nextOrder.trans h'.nextOrder }

/-- At the start the shop is as it was and nobody has begun. -/
theorem Solo.init (h : (machine hash).Init s) : Solo hash s.shared i inp s := by
  have hidle : s.proc i = .idle := h.2 i
  have hjudged : Judged hash s.shared s := Judged.init h
  refine ⟨hjudged.known, hjudged.goods, fun j _ => h.2 j, Or.inl hidle, ?_,
    fun _ => Uncommitted.refl _, ?_⟩
  · rw [hidle]
    trivial
  · rw [hidle]
    trivial

/-- A step of the one call keeps it on its course. -/
theorem Solo.call {a : Stmt} {p : Pc} (hv : Valid d₀ inp) (h₀ : Init d₀)
    (h : Solo hash d₀ i inp s) (ha : a = .placeOrder inp ∨ a = .run)
    (hst : stmt hash i s.shared (s.proc i) a = some (d, p)) :
    Solo hash d₀ i inp ⟨d, Function.update s.proc i p⟩ := by
  have hn := Procs.next_of_stmt (P := procs hash) hst
  have hproc : Function.update s.proc i p i = p := Function.update_self _ _ _
  have hknown := run_holds h₀ (Machine.Run.once hn) h.known
  have hbefore : Uncommitted d₀ s.shared := by
    refine h.unsold ?_
    intro res hpc
    rw [hpc] at hst
    rcases ha with rfl | rfl <;> simp [stmt] at hst
  -- it has just begun, or goes on with the input it began with
  have hnext : p.input = some inp ∧ Course hash i d₀ d p ∧
      ((∀ res, p = .placed inp (.ok res) → res.replayed = true) → Uncommitted s.shared d) := by
    rcases ha with rfl | rfl
    · obtain ⟨hidle, rfl, rfl⟩ : s.proc i = .idle ∧ d = s.shared ∧
          p = if inp.key.isSome then .findReplay inp else beginOrder s.shared inp := by
        generalize s.proc i = pc at hst
        cases pc <;> simp [stmt] at hst
        exact ⟨rfl, hst.1.symm, hst.2.symm⟩
      refine ⟨?_, ?_, fun _ => Uncommitted.refl _⟩
      · split <;> rfl
      · split
        · trivial
        · next hkey =>
            refine beginOrder_course ?_
            intro key hk
            rw [hk] at hkey
            exact absurd rfl hkey
    · have hin : (s.proc i).input = some inp := by
        rcases h.input with hidle | hin
        · rw [hidle] at hst
          simp [stmt] at hst
        · exact hin
      refine ⟨?_, stmt_course hv h₀ h.known.1 h.goods (h.known.2 i) hbefore hin h.course hst, ?_⟩
      · have hidle : s.proc i ≠ .idle := by
          intro hidle
          rw [hidle] at hin
          cases hin
        rcases stmt_input hst hidle with heq | ⟨habort, -⟩
        · exact heq.trans hin
        · cases habort
      · intro hnot
        rcases (stmt_effect hst).cases_commit with hu | ⟨sale, hc, -⟩ | ⟨o, status, hpc, -⟩
        · exact hu
        · generalize hpc : s.proc i = pc at hc
          rw [hpc] at hin
          cases hc with
          | place =>
              obtain rfl := Option.some.inj hin
              cases hnot _ rfl
          | checkout => cases hin
        · rw [hpc] at hin
          cases hin
  obtain ⟨hin, hcourse, hunsold⟩ := hnext
  refine ⟨hknown, (stmt_effect hst).sameGoods h.goods, ?_, Or.inr ?_, ?_, ?_, ?_⟩
  · intro j hj
    exact (Function.update_of_ne hj _ _).trans (h.others j hj)
  · exact (congrArg Pc.input hproc).trans hin
  · change (Function.update s.proc i p i).Keyed
    rw [hproc]
    exact stmt_keyed hst
  · intro hnot
    refine hbefore.trans (hunsold ?_)
    intro res hp
    exact hnot res (hproc.trans hp)
  · change Course hash i d₀ d (Function.update s.proc i p i)
    rw [hproc]
    exact hcourse

/-- Every step of a run with one call keeps that call on its course. -/
theorem Solo.next (hv : Valid d₀ inp) (h₀ : Init d₀) {l : Label} (h : Solo hash d₀ i inp s)
    (hok : Mine i inp s l) (hn : (machine hash).next s l = some t) : Solo hash d₀ i inp t := by
  have hcall : ∀ a, a = .placeOrder inp ∨ a = .run → l = .call i a → Solo hash d₀ i inp t := by
    rintro a ha rfl
    obtain ⟨d, p, hst, rfl⟩ := Procs.next_call hn
    exact h.call hv h₀ ha hst
  rcases hok with hl | hl | ⟨dt, rfl⟩
  · exact hcall _ (Or.inl rfl) hl
  · exact hcall _ (Or.inr rfl) hl
  · have hknown := run_holds h₀ (Machine.Run.once hn) h.known
    obtain ⟨d, hd, rfl⟩ := Procs.next_env hn
    cases hd
    refine ⟨hknown, h.goods, h.others, h.input, h.keyed, ?_, h.course.ledger rfl⟩
    intro hnot
    exact (h.unsold hnot).trans (.of_same ⟨rfl, rfl, rfl, rfl, ⟨rfl, rfl, rfl, rfl⟩, rfl⟩)

/-! ### The call ends -/

/-- How many statements a call has before it at most. -/
def Pc.left : Pc → ℕ
  | .findReplay inp => 2 * inp.items.length + 20
  | .stock _ _ rest lines => 2 * rest.length + lines.length + 12
  | .insertOrder _ _ lines => lines.length + 11
  | .insertItems _ _ _ _ rest => rest.length + 10
  | .claim _ _ _ => 9
  | .insertOutbox _ _ _ => 8
  | .commit _ _ _ _ => 7
  | .productExists _ _ _ => 6
  | .rollback _ _ => 5
  | .replay _ => 4
  | _ => 0

omit [DecidableEq η] in
/-- At its beginning a call has two statements an item left, and twelve more. -/
theorem left_beginOrder (d : Db η) (inp : PlaceOrderInput) :
    (beginOrder d inp).left = 2 * inp.items.length + 12 := by
  have hlen : inp.sortedItems.length = inp.items.length := (sortedItems_perm inp).length_eq
  change 2 * inp.sortedItems.length + 0 + 12 = _
  omega

/-- Every statement leaves fewer to go, so a call ends. -/
theorem stmt_left (hin : pc.input = some inp) (h : stmt hash i d pc .run = some (d', pc')) :
    pc'.left < pc.left := by
  cases stmt_branch h with
  | stored _ => exact Nat.succ_pos _
  | @unclaimed inp _ =>
      rw [left_beginOrder]
      change _ < 2 * inp.items.length + 20
      omega
  | refused _ =>
      simp only [Pc.left]
      omega
  | noRow _ =>
      simp only [Pc.left]
      omega
  | take _ =>
      simp only [Pc.left, List.length_cons, List.length_append, List.length_nil]
      omega
  | taken =>
      simp only [Pc.left, List.length_nil]
      omega
  | orderRefused _ =>
      simp only [Pc.left]
      omega
  | order _ =>
      simp only [Pc.left]
      omega
  | item _ => exact Nat.lt_succ_self _
  | itemRefused _ =>
      simp only [Pc.left]
      omega
  | toClaim _ => exact Nat.lt_succ_self _
  | toOutbox _ => exact (by decide : (8 : ℕ) < 10)
  | productExists => exact Nat.lt_succ_self _
  | claim _ _ _ => exact Nat.lt_succ_self _
  | conflict _ _ => exact (by decide : (5 : ℕ) < 9)
  | outbox => exact Nat.lt_succ_self _
  | commit => exact Nat.succ_pos _
  | replays => exact Nat.lt_succ_self _
  | fails => exact Nat.succ_pos _
  | replayed _ => exact Nat.succ_pos _
  | gone _ => exact Nat.succ_pos _
  | _ => cases hin

/-- A call that has the shop to itself can take its next statement. -/
theorem Solo.ready (h : Solo hash d₀ i inp s) (hopen : (s.proc i).Open) :
    ∃ d p, stmt hash i s.shared (s.proc i) .run = some (d, p) := by
  cases hst : stmt hash i s.shared (s.proc i) .run with
  | some r => exact ⟨r.1, r.2, rfl⟩
  | none =>
      obtain ⟨r, -, hfree⟩ := stmt_none hopen h.keyed hst
      obtain ⟨j, hij, hheld⟩ := Row.exists_holder hfree
      have hopen' := open_of_held (h.known.2 j) hheld
      rw [h.others j hij.symm] at hopen'
      exact hopen'.elim

/-- A call that has the shop to itself ends. -/
theorem Solo.ends (hv : Valid d₀ inp) (h₀ : Init d₀) (h : Solo hash d₀ i inp s)
    (hin : (s.proc i).input = some inp) : ∃ n t result,
      (machine hash).Run (Mine i inp) s (runs i n) t ∧ t.proc i = .placed inp result := by
  generalize hm : (s.proc i).left = m
  induction m using Nat.strong_induction_on generalizing s with
  | _ m ih =>
      by_cases hopen : (s.proc i).Open
      · obtain ⟨d, p, hst⟩ := h.ready hopen
        have hn := Procs.next_of_stmt (P := procs hash) hst
        have hok : Mine i inp s (.call i .run) := Or.inr (Or.inl rfl)
        have hnext := h.next hv h₀ hok hn
        have hproc : Function.update s.proc i p i = p := Function.update_self _ _ _
        have hinput : p.input = some inp := by
          have hidle : s.proc i ≠ .idle := by
            intro hidle
            rw [hidle] at hin
            cases hin
          rcases stmt_input hst hidle with heq | ⟨habort, -⟩
          · exact heq.trans hin
          · cases habort
        have hleft : p.left < m := hm ▸ stmt_left hin hst
        obtain ⟨n, t, result, hr, hpc⟩ := ih _ hleft hnext ((congrArg Pc.input hproc).trans hinput)
          (congrArg Pc.left hproc)
        exact ⟨n + 1, t, result, Machine.Run.cons hok hn hr, hpc⟩
      · generalize hpc : s.proc i = pc at hin hopen
        cases pc with
        | placed inp' result =>
            obtain rfl := Option.some.inj hin
            exact ⟨0, s, result, Machine.Run.refl, hpc⟩
        | _ => first | exact absurd trivial hopen | cases hin

/-! ## The answers -/

/-- What is found under the key of a request. -/
theorem findReplay_answered {result : Except Thrown PlaceOrderResult} (hu : Uncommitted d d')
    (h : (inp.key.bind fun key => findReplay hash d key inp) = some result) :
    Answered hash d d' inp result ∧ Answerable d inp := by
  obtain ⟨key, hkey, h⟩ := Option.bind_eq_some_iff.mp h
  unfold findReplay at h
  obtain ⟨rec, hrec, rfl⟩ := Option.map_eq_some_iff.mp h
  refine ⟨?_, Or.inl ⟨key, hkey, Option.isSome_iff_exists.mpr ⟨rec, hrec⟩⟩⟩
  split
  · next hne => exact .reused hkey hrec hne hu
  · next heq => exact .stored hkey hrec (by_contra heq) hu

section

omit [DecidableEq η]

theorem Answered.ne_dbError {result : Except Thrown PlaceOrderResult}
    (h : Answered hash d d' inp result) : result ≠ .error dbError := by
  intro heq
  cases h <;> cases heq

/-- An error that blames the order is the right answer exactly where the order cannot be met. -/
theorem Blames.answered_iff (hu : Uncommitted d d') (hnew : NoRecord inp d)
    (h : Blames d inp err) : Answered hash d d' inp (.error err) ↔ Answerable d inp := by
  cases h with
  | unfit havail hno =>
      constructor
      · intro hans
        exact absurd rfl hans.ne_dbError
      · rintro (⟨key, hkey, hsome⟩ | ⟨item, hitem, hid, hmiss⟩ | hfits)
        · rw [hnew key hkey] at hsome
          cases hsome
        · exact absurd (havail item hitem hid) hmiss
        · exact absurd hfits hno
  | notFound hmem hid hnone =>
      refine iff_of_true (.notFound hmem hnone hu) (Or.inr (Or.inl ⟨_, hmem, hid, ?_⟩))
      rintro ⟨r, hr, -⟩
      rw [hnone] at hr
      cases hr
  | short hmem hid hsome hlt =>
      refine iff_of_true (.short hmem hsome hlt hu) (Or.inr (Or.inl ⟨_, hmem, hid, ?_⟩))
      rintro ⟨r, hr, hle⟩
      rw [hsome] at hr
      cases hr
      omega

/-- A call that bought was answered rightly, and the order could be met. -/
theorem Bought.answered {res : PlaceOrderResult} (hinv : Inv hash d₀ d)
    (h : Bought i d₀ d inp res) : Answered hash d₀ d inp (.ok res) ∧ Answerable d₀ inp := by
  obtain @⟨order, row, hfits, hledger, huser, htotal⟩ := h
  have hsale : placeSale i inp order row ∈ d.ledger := by
    rw [hledger]
    exact List.mem_singleton_self _
  obtain ⟨-, r, hr, hruser, hrtotal⟩ := hinv.placed _ hsale
  exact ⟨.created htotal hr (hruser.trans huser) hrtotal, Or.inr (Or.inr hfits)⟩

end

/-- The one call is answered rightly exactly if the order can be answered at all. -/
theorem Solo.answered_iff {result : Except Thrown PlaceOrderResult} (h : Solo hash d₀ i inp s)
    (hpc : s.proc i = .placed inp result) :
    Answered hash d₀ s.shared inp result ↔ Answerable d₀ inp := by
  have hcourse := h.course
  have hunsold := h.unsold
  rw [hpc] at hcourse hunsold
  rcases hcourse with hr | ⟨hnew, hcourse⟩
  · have hu : Uncommitted d₀ s.shared := by
      refine hunsold ?_
      rintro res heq
      cases heq
      obtain ⟨key, -, hr⟩ := Option.bind_eq_some_iff.mp hr
      unfold findReplay at hr
      obtain ⟨rec, -, hrec⟩ := Option.map_eq_some_iff.mp hr
      split at hrec <;> cases hrec
      rfl
    exact iff_of_true (findReplay_answered hu hr).1 (findReplay_answered hu hr).2
  · cases result with
    | error err =>
        refine Blames.answered_iff (hunsold ?_) hnew hcourse
        intro res heq
        cases heq
    | ok res =>
        obtain ⟨hans, hable⟩ := Bought.answered h.known.1 hcourse
        exact iff_of_true hans hable

/-- The text of an integer from 1 on is that integer. -/
theorem text_pos (num : Numerals) {n : ℤ} (hint : num.IsInteger n) (hn : 1 ≤ n) :
    1 ≤ num.text n := by
  by_contra hlt
  have hle : num.round (num.text n) ≤ num.round (0 : ℕ) := by
    refine num.mono ?_
    exact_mod_cast (by omega : num.text n ≤ 0)
  rw [num.number_text n hint, num.exact 0 (Nat.zero_le _), WithTop.coe_le_coe] at hle
  have hzero : n ≤ 0 := by exact_mod_cast hle
  omega

omit [DecidableEq η] in
/-- An order from items that passed the checks is valid. -/
theorem create_valid (num : Numerals) {items : List OrderItemDto} {userId : UserId}
    {key : Option String} (hprices : ∀ p r, (d.products p).base = some r → 0 ≤ r.priceCents)
    (huser : (d.users userId).base.isSome) (hvalid : ValidItems num.toDoubles items) :
    Valid d (create num items userId key none) := by
  obtain ⟨-, -, hitems⟩ := hvalid
  refine ⟨?_, ?_, hprices, huser, (by decide : countryOk "US" = true)⟩
  · intro item hitem
    obtain ⟨dto, hdto, rfl⟩ := List.mem_map.mp hitem
    obtain ⟨hint, hpos, -⟩ := hitems dto hdto
    exact text_pos num hint hpos
  · intro item hitem
    obtain ⟨dto, hdto, rfl⟩ := List.mem_map.mp hitem
    exact (hitems dto hdto).2.2

/-- A valid request of an existing user, with nobody else about, is answered after finitely many
statements. In every such run it is answered by the rules of the API if and only if its key
has a record, or one of its products is not available, or the columns can take it. -/
theorem valid_orders_answered (hash : Request → η) (num : Numerals) (s : St η) (i : ℕ)
    (items : List OrderItemDto) (userId : UserId) (key : Option String)
    (hinit : (machine hash).Init s)
    (hprices : ∀ p r, (s.shared.products p).base = some r → 0 ≤ r.priceCents)
    (huser : (s.shared.users userId).base.isSome) (hvalid : ValidItems num.toDoubles items) :
    let inp := create num items userId key none
    (∀ as t result, (machine hash).Run (Mine i inp) s as t → t.proc i = .placed inp result →
      (Answered hash s.shared t.shared inp result ↔ Answerable s.shared inp)) ∧
    ∃ n t result, (machine hash).Run (Mine i inp) s (.call i (.placeOrder inp) :: runs i n) t ∧
      t.proc i = .placed inp result := by
  intro inp
  have hv : Valid s.shared inp := create_valid num hprices huser hvalid
  have hstart : Solo hash s.shared i inp s := Solo.init hinit
  refine ⟨?_, ?_⟩
  · intro as t result hr hpc
    have hsolo : Solo hash s.shared i inp t :=
      hr.invariant (P := Solo hash s.shared i inp)
        (fun _ _ _ hok hn h => h.next hv hinit.1 hok hn) hstart
    exact hsolo.answered_iff hpc
  · have hst : stmt hash i s.shared (s.proc i) (.placeOrder inp) =
        some (s.shared, if inp.key.isSome then .findReplay inp else beginOrder s.shared inp) := by
      rw [hinit.2 i]
      rfl
    have hok : Mine i inp s (.call i (.placeOrder inp)) := Or.inl rfl
    have hn := Procs.next_of_stmt (P := procs hash) hst
    have hnext := hstart.next hv hinit.1 hok hn
    obtain ⟨n, t, result, hr, hpc⟩ := hnext.ends hv hinit.1 (by
      refine (congrArg Pc.input (Function.update_self _ _ _)).trans ?_
      split <;> rfl)
    exact ⟨n, t, result, Machine.Run.cons hok hn hr, hpc⟩

/-- One product twice, and enough of it. -/
def onePieceTwice : List OrderItemDto := [⟨1, 1⟩, ⟨1, 1⟩]

/-- Two lines for one product at a stock that covers each: the answer is a database error, which
is none the order deserves. -/
theorem valid_orders_answered_repeated : ∃ t : St Request,
    ValidItems Doubles.unrounded onePieceTwice ∧
    (machine id).exec (fun _ _ => true) shop
      (.call 0 (.placeOrder (create Numerals.unrounded onePieceTwice 7 none none)) :: runs 0 7) =
        some t ∧
    t.proc 0 = .placed (create Numerals.unrounded onePieceTwice 7 none none) (.error dbError) ∧
    ¬ Answered id shop.shared t.shared (create Numerals.unrounded onePieceTwice 7 none none)
      (.error dbError) := by
  refine ⟨_, ⟨by decide, by decide, ?_⟩, rfl, rfl, fun h => h.ne_dbError rfl⟩
  intro item hitem
  obtain rfl : item = ⟨1, 1⟩ := by simpa [onePieceTwice] using hitem
  exact ⟨rfl, by decide⟩

/-- One line with a key: bought, and answered rightly. -/
theorem valid_orders_answered_once : ∃ (as : List Label) (t : St Request)
    (result : Except Thrown PlaceOrderResult),
    (machine id).Run (Mine 0 (create Numerals.unrounded [⟨1, 2⟩] 7 (some "k-1") none)) shop as t ∧
    t.proc 0 = .placed (create Numerals.unrounded [⟨1, 2⟩] 7 (some "k-1") none) result ∧
    Answered id shop.shared t.shared (create Numerals.unrounded [⟨1, 2⟩] 7 (some "k-1") none)
      result := by
  have hprices : ∀ p r, (shop.shared.products p).base = some r → 0 ≤ r.priceCents := by
    intro p r hr
    change (if p = 1 then _ else none) = some r at hr
    split at hr
    · cases hr
      decide
    · cases hr
  have hvalid : ValidItems Numerals.unrounded.toDoubles [⟨1, 2⟩] := by
    refine ⟨by decide, by decide, ?_⟩
    intro item hitem
    obtain rfl := List.mem_singleton.mp hitem
    exact ⟨rfl, by decide⟩
  obtain ⟨hanswered, n, t, result, hr, hpc⟩ := valid_orders_answered id Numerals.unrounded shop 0
    [⟨1, 2⟩] 7 (some "k-1") (shop_init id) hprices rfl hvalid
  refine ⟨_, t, result, hr, hpc, (hanswered _ t result hr hpc).mpr (Or.inr (Or.inr ⟨?_, ?_, ?_⟩))⟩
  · intro item hitem
    obtain rfl := List.mem_singleton.mp hitem
    decide
  · decide
  · decide

end Marketplace.Orders

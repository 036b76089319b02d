import Marketplace.Orders.Preservation

/-!
# Orders.Verdict — what an order request is answered, stock and keys apart

`verdict` is what placeOrder makes of a request over the products and users of the start: it
prices the lines in the order of the locks and checks them against the tables. In every run the
request is answered so, unless its answer is about the stock (`shortOfStock`) or about its key
(`OfKey`).
-/

namespace Marketplace.Orders

open Core Auth Outbox

variable {η : Type} [DecidableEq η] {hash : Request → η} {i : ℕ} {d₀ d d' : Db η}
  {pc pc' : Pc} {a : Stmt} {inp : PlaceOrderInput} {err : Thrown}

/-! ## The verdict -/

def productNotFound (p : ProductId) : Thrown := .http 404 s!"Product {p} not found"

def shortOfStock (p : ProductId) : Thrown := .http 400 s!"Insufficient stock for product {p}"

/-- The lines of the items after `lines`, or the error of the first item that has none. -/
def priceLines (d : Db η) (lines : List Line) : List Item → Except Thrown (List Line)
  | [] => .ok lines
  | item :: rest =>
      if Int8 item.productId ∧ Int4 item.quantity then
        match (d.products item.productId).base.filter Product.isActive with
        | none => .error (productNotFound item.productId)
        | some r => priceLines d (lines ++ [toLine item r.priceCents]) rest
      else .error dbError

instance (d : Db η) (userId : UserId) (country : String) (lines : List Line) :
    Decidable (Insertable d userId country lines) :=
  inferInstanceAs (Decidable (_ ∧ _))

/-- What `orders` and `order_items` make of the priced lines. -/
def enterLines (d : Db η) (inp : PlaceOrderInput) (lines : List Line) :
    Except Thrown (List Line) :=
  if Insertable d inp.userId inp.country lines ∧ itemsTaken [] lines = true then .ok lines
  else .error dbError

def verdict (d : Db η) (inp : PlaceOrderInput) : Except Thrown (List Line) :=
  (priceLines d [] inp.sortedItems).bind (enterLines d inp)

/-- The answers to a request whose key has been used. -/
def OfKey : Thrown → Prop
  | .http 422 _ | .error "IdempotentReplay" => True
  | _ => False

/-- An error that placeOrder may throw, keys apart. -/
def Fails (d₀ : Db η) (inp : PlaceOrderInput) (err : Thrown) : Prop :=
  (∃ p, err = shortOfStock p) ∨ verdict d₀ inp = .error err ∨
    err = dbError ∧ ∃ item ∈ inp.items, item.quantity < 0

section

omit [DecidableEq η]

/-- An order that cannot be priced deserves that error. -/
theorem Fails.of_price (h : priceLines d₀ [] inp.sortedItems = .error err) : Fails d₀ inp err := by
  refine Or.inr (Or.inl ?_)
  rw [verdict, h]
  rfl

/-- An order whose lines do not fit the tables deserves the database error. -/
theorem Fails.of_enter {lines : List Line} (h : priceLines d₀ [] inp.sortedItems = .ok lines)
    (hno : ¬ (Insertable d₀ inp.userId inp.country lines ∧ itemsTaken [] lines = true)) :
    Fails d₀ inp dbError := by
  refine Or.inr (Or.inl ?_)
  rw [verdict, h]
  exact if_neg hno

end

/-- The lines are those of the request, in the order of the locks. -/
def PricedAs (d₀ : Db η) (inp : PlaceOrderInput) (lines : List Line) : Prop :=
  priceLines d₀ [] inp.sortedItems = .ok lines ∧ Insertable d₀ inp.userId inp.country lines

omit [DecidableEq η] in
theorem verdict_ok {lines : List Line} (h : PricedAs d₀ inp lines)
    (hitems : itemsTaken [] lines = true) : verdict d₀ inp = .ok lines := by
  rw [verdict, h.1]
  exact if_pos ⟨h.2, hitems⟩

/-- The program point leads to the verdict. -/
def Fair (d₀ : Db η) : Pc → Prop
  | .stock inp _ rest lines => priceLines d₀ [] inp.sortedItems = priceLines d₀ lines rest
  | .productExists inp item lines => ∃ rest,
      priceLines d₀ [] inp.sortedItems = priceLines d₀ lines (item :: rest) ∧
      Int8 item.productId ∧ Int4 item.quantity
  | .insertOrder inp _ lines => priceLines d₀ [] inp.sortedItems = .ok lines
  | .insertItems inp _ order inserted rest =>
      PricedAs d₀ inp order.items ∧ itemsTaken [] order.items = itemsTaken inserted rest
  | .claim inp _ order | .insertOutbox inp _ order | .commit inp _ order _ =>
      verdict d₀ inp = .ok order.items
  | .rollback inp (some err) => Fails d₀ inp err
  | .placed inp (.error err) => Fails d₀ inp err ∨ OfKey err
  | .placed inp (.ok res) => res.replayed = false →
      res.status = 201 ∧ verdict d₀ inp = .ok res.body.items ∧
      res.body.totalCents = totalOf res.body.items
  | _ => True

/-! ## One statement -/

omit [DecidableEq η] in
/-- A product as call `i` sees it: that of the start, with some of its stock gone. -/
theorem view_product (hinv : Inv hash d₀ d) (hl : Loc hash d₀ i d pc) (hroll : ¬ pc.Rolling)
    {p : ProductId} :
    (d.products p).view i =
      lessStock (soldOf d.ledger p + takenOf pc.draft.lines p) (d₀.products p).base := by
  rw [(hl.drafted hroll).products.view p, Draft.products_apply, hinv.products, lessStock_add]

/-- Activity and price of a product stay as they were. -/
theorem view_active {n : ℤ} {r : Product} {o : Option Product} (h : lessStock n o = some r)
    (hact : r.isActive = true) : ∃ r₀, o.filter Product.isActive = some r₀ ∧
      r₀.priceCents = r.priceCents := by
  rw [lessStock, Option.map_eq_some_iff] at h
  obtain ⟨r₀, rfl, rfl⟩ := h
  exact ⟨r₀, Option.filter_eq_some_iff.mpr ⟨rfl, hact⟩, rfl⟩

/-- A stored answer is fair. -/
theorem findReplay_placed {key : String} {result : Except Thrown PlaceOrderResult}
    (h : findReplay hash d key inp = some result) : Fair d₀ (.placed inp result) := by
  unfold findReplay at h
  rw [Option.map_eq_some_iff] at h
  obtain ⟨rec, -, rfl⟩ := h
  split
  · exact Or.inr trivial
  · intro hreplayed
    cases hreplayed

/-- An item of the request is in a line or still to come. -/
theorem mem_items {rest : List Item} {lines : List Line}
    (h : lines.map (fun l => (⟨l.productId, l.quantity⟩ : Item)) ++ rest = inp.sortedItems) :
    (∀ l ∈ lines, (⟨l.productId, l.quantity⟩ : Item) ∈ inp.items) ∧ ∀ x ∈ rest, x ∈ inp.items := by
  have hmem : ∀ x ∈ lines.map (fun l => (⟨l.productId, l.quantity⟩ : Item)) ++ rest,
      x ∈ inp.items := by
    intro x hx
    rw [h, PlaceOrderInput.sortedItems] at hx
    exact (List.mem_insertionSort _).mp hx
  constructor
  · intro l hl
    exact hmem _ (List.mem_append_left _ (List.mem_map_of_mem hl))
  · intro x hx
    exact hmem _ (List.mem_append_right _ hx)

section

omit [DecidableEq η]

/-- The database refuses a stock UPDATE for its parameters only, unless a quantity is negative. -/
theorem takeStock_unfit (h₀ : Init d₀) (hinv : Inv hash d₀ d) {at₀ : ℕ} {item : Item}
    {rest : List Item} {lines : List Line}
    (hl : Loc hash d₀ i d (.stock inp at₀ (item :: rest) lines))
    (hnonneg : ∀ x ∈ inp.items, 0 ≤ x.quantity)
    (h : takeStock i d item.productId item.quantity = some (d', .refused)) :
    ¬ (Int8 item.productId ∧ Int4 item.quantity) := by
  rcases takeStock_refused h with hrange | ⟨r, hview, hle, hno⟩
  · exact hrange
  · -- the stock is at most that of the start, so what is left of it is in range
    exfalso
    obtain ⟨hlines, hrest⟩ := mem_items hl.facts
    rw [view_product hinv hl id, lessStock, Option.map_eq_some_iff] at hview
    obtain ⟨r₀, hr₀, rfl⟩ := hview
    have hsold := soldOf_nonneg hinv.book.proper item.productId
    have htaken : 0 ≤ takenOf lines item.productId :=
      takenOf_nonneg (fun l hin => hnonneg _ (hlines l hin)) _
    have hitem : 0 ≤ item.quantity := hnonneg item (hrest item List.mem_cons_self)
    obtain ⟨-, -, -, -, hstock, -⟩ := h₀
    obtain ⟨hzero, -, hmax⟩ := hstock item.productId r₀ hr₀
    have hdraft : (Pc.stock inp at₀ (item :: rest) lines).draft.lines = lines := rfl
    rw [hdraft] at hle hno
    refine hno ⟨?_, ?_⟩
    · dsimp only at hle ⊢
      omega
    · dsimp only at hle ⊢
      omega

/-- A quantity or product out of its column's range deserves the database error. -/
theorem refused_fails (h₀ : Init d₀) (hinv : Inv hash d₀ d) {at₀ : ℕ} {item : Item}
    {rest : List Item} {lines : List Line}
    (hl : Loc hash d₀ i d (.stock inp at₀ (item :: rest) lines))
    (hfair : Fair d₀ (.stock inp at₀ (item :: rest) lines))
    (h : takeStock i d item.productId item.quantity = some (d', .refused)) :
    Fails d₀ inp dbError := by
  by_cases hneg : ∃ x ∈ inp.items, x.quantity < 0
  · exact Or.inr (Or.inr ⟨rfl, hneg⟩)
  · have hnonneg : ∀ x ∈ inp.items, 0 ≤ x.quantity := by
      intro x hx
      by_contra hlt
      exact hneg ⟨x, hx, by omega⟩
    refine Fails.of_price (hfair.trans ?_)
    rw [priceLines, if_neg (takeStock_unfit h₀ hinv hl hnonneg h)]

end

/-! ### The SELECT after a stock UPDATE without a row -/

/-- Every version of a product is as active as the committed one. -/
def SameGoods (T : Table ℕ ProductId Product) : Prop :=
  ∀ p j v, (T p).lock = some (j, v) → v.map Product.isActive = (T p).base.map Product.isActive

namespace SameGoods

variable {T : Table ℕ ProductId Product}

/-- Every version of a product is active or not like the committed one. -/
theorem view (h : SameGoods T) (p : ProductId) :
    ((T p).view i).map Product.isActive = (T p).base.map Product.isActive := by
  by_cases hh : (T p).Held i
  · exact h p i _ hh.lock_eq
  · rw [Slot.view_of_not_held hh]

/-- A write that leaves `isActive` alone keeps the versions alike. -/
theorem put {p : ProductId} {r r' : Product} (h : SameGoods T) (hview : (T p).view i = some r)
    (hact : r'.isActive = r.isActive) : SameGoods (T.put i p (some r')) := by
  intro q j v hl
  rw [Table.put_base]
  by_cases hq : q = p
  · subst hq
    rw [Table.put_self, Slot.put_lock] at hl
    cases hl
    rw [← h.view (i := i) q, hview, Option.map_some, Option.map_some, hact]
  · rw [Table.put_ne hq] at hl
    exact h q j v hl

/-- A COMMIT keeps the versions alike. -/
theorem commit (h : SameGoods T) : SameGoods (T.commit i) := by
  intro p j v hl
  by_cases hh : (T p).Held i
  · rw [Table.commit_apply, Slot.commit_of_held hh] at hl
    cases hl
  · rw [Table.commit_apply, Slot.commit_of_not_held hh] at hl ⊢
    exact h p j v hl

/-- A ROLLBACK keeps the versions alike. -/
theorem rollback (h : SameGoods T) : SameGoods (T.rollback i) := by
  intro p j v hl
  by_cases hh : (T p).Held i
  · rw [Table.rollback_apply, Slot.rollback_of_held hh] at hl
    cases hl
  · rw [Table.rollback_apply, Slot.rollback_of_not_held hh] at hl ⊢
    exact h p j v hl

end SameGoods

/-- No statement touches `isActive`. -/
theorem Effect.sameGoods (he : Effect hash i d pc d' pc') (h : SameGoods d.products) :
    SameGoods d'.products := by
  cases he with
  | quiet hs =>
      rw [hs.products]
      exact h
  | replays | throws | pay | insert | status | claim => exact h
  | take hview => exact h.put hview rfl
  | rollback => exact h.rollback
  | commitSale | commitStatus => exact h.commit

omit [DecidableEq η] in
/-- What the SELECT makes of the request. -/
theorem missing_fails (hinv : Inv hash d₀ d) (hgoods : SameGoods d.products) {item : Item}
    {lines : List Line} (hfair : Fair d₀ (.productExists inp item lines)) :
    Fails d₀ inp (missing d i item) := by
  obtain ⟨rest, hprice, hrange⟩ := hfair
  unfold missing
  split
  · exact Or.inl ⟨item.productId, rfl⟩
  · next hno =>
      refine Fails.of_price (hprice.trans ?_)
      have hnone : (d₀.products item.productId).base.filter Product.isActive = none := by
        rw [Option.filter_eq_none_iff]
        intro r₀ hr₀ hact
        have hview := hgoods.view (i := i) item.productId
        rw [hinv.products, hr₀] at hview
        obtain ⟨r, hr, hract⟩ := Option.map_eq_some_iff.mp hview
        rw [hr, Option.any_some, hract] at hno
        exact hno hact
      rw [priceLines, if_pos hrange, hnone]
      rfl

/-! ### All statements -/

/-- The request that the call answers. -/
def Pc.input : Pc → Option PlaceOrderInput
  | .findReplay inp | .stock inp _ _ _ | .productExists inp _ _ | .insertOrder inp _ _
  | .insertItems inp _ _ _ _ | .claim inp _ _ | .insertOutbox inp _ _ | .commit inp _ _ _
  | .rollback inp _ | .replay inp | .placed inp _ => some inp
  | _ => none

/-- A call answers the request it was made for. -/
theorem stmt_input (h : stmt hash i d pc a = some (d', pc')) (hidle : pc ≠ .idle) :
    pc'.input = pc.input ∨ a = .abort ∧ pc' = .aborted := by
  cases stmt_branch h with
  | keyed _ => exact absurd rfl hidle
  | unkeyed _ => exact absurd rfl hidle
  | checkout _ => exact absurd rfl hidle
  | badQuantity _ => exact absurd rfl hidle
  | updateStatus => exact absurd rfl hidle
  | abort _ => exact Or.inr ⟨rfl, rfl⟩
  | _ => exact Or.inl rfl

section

omit [DecidableEq η]

theorem Fair.begin (d : Db η) : Fair d₀ (beginOrder d inp) := rfl

end

/-- Every statement keeps its call fair: an error it is thrown is one the order has earned, or one
of its key or of stock. -/
theorem stmt_fair (h₀ : Init d₀) (hinv : Inv hash d₀ d) (hgoods : SameGoods d.products)
    (hl : Loc hash d₀ i d pc) (hfair : Fair d₀ pc)
    (h : stmt hash i d pc a = some (d', pc')) : Fair d₀ pc' := by
  -- the branches of `placeOrder` in their order
  cases stmt_branch h with
  | unkeyed _ => exact Fair.begin d
  | stored hr =>
      obtain ⟨key, -, hr⟩ := Option.bind_eq_some_iff.mp hr
      exact findReplay_placed hr
  | unclaimed _ => exact Fair.begin d
  | refused ht => exact refused_fails h₀ hinv hl hfair ht
  | noRow ht =>
      obtain ⟨hid, hquantity, -⟩ := takeStock_noRow ht
      exact ⟨_, hfair, hid, hquantity⟩
  | take ht =>
      have hseen := ht.seen
      rw [view_product hinv hl id] at hseen
      obtain ⟨r₀, hr₀, hprice⟩ := view_active hseen ht.active
      refine hfair.trans ?_
      rw [priceLines, if_pos ht.range, hr₀]
      dsimp only
      rw [hprice]
  | taken => exact hfair
  | productExists => exact missing_fails hinv hgoods hfair
  | orderRefused hbad =>
      refine Fails.of_enter hfair ?_
      rintro ⟨hins, -⟩
      exact hbad (hinv.insertable.mpr hins)
  | order hi =>
      refine ⟨⟨?_, ?_⟩, ?_⟩
      · rw [hi.items_eq]
        exact hfair
      · rw [hi.items_eq]
        exact hinv.insertable.mp hi.insertable
      · rw [hi.items_eq]
  | item hok =>
      obtain ⟨hpriced, hitems⟩ := hfair
      rw [itemsTaken, hok, Bool.true_and] at hitems
      exact ⟨hpriced, hitems⟩
  | itemRefused hbad =>
      obtain ⟨hpriced, hitems⟩ := hfair
      rw [itemsTaken] at hitems
      refine Fails.of_enter hpriced.1 ?_
      rintro ⟨-, hall⟩
      rw [hitems, Bool.and_eq_true] at hall
      exact hbad hall.1
  | toClaim _ => exact verdict_ok hfair.1 hfair.2
  | toOutbox _ => exact verdict_ok hfair.1 hfair.2
  | claim _ _ _ => exact hfair
  | outbox => exact hfair
  | @commit inp at₀ order row =>
      intro _
      obtain ⟨⟨horder, -⟩, -, -⟩ := hl.facts
      refine ⟨rfl, hfair, ?_⟩
      change order.totalCents = totalOf order.items
      rw [horder]
  | fails => exact Or.inl hfair
  | replayed hr =>
      obtain ⟨key, -, hr⟩ := Option.bind_eq_some_iff.mp hr
      exact findReplay_placed hr
  | gone _ => exact Or.inr trivial
  -- a call of another path, or one that has found its key taken
  | _ => trivial

/-! ## Runs -/

/-- What holds in every run: the tables and the drafts, and every call on its way to its
verdict. -/
structure Judged (hash : Request → η) (d₀ : Db η) (s : St η) : Prop where
  known : Procs.Holds (Inv hash d₀) (Loc hash d₀) s
  goods : SameGoods s.shared.products
  fair : ∀ i, Fair d₀ (s.proc i)

/-- Every step keeps every call fair. -/
theorem Judged.next {s t : St η} {l : Label} (h₀ : Init d₀) (h : Judged hash d₀ s)
    (hn : (machine hash).next s l = some t) : Judged hash d₀ t := by
  have hknown := run_holds h₀ (Machine.Run.once hn) h.known
  cases l with
  | call i a =>
      obtain ⟨d, p, hst, rfl⟩ := Procs.next_call hn
      refine ⟨hknown, (stmt_effect hst).sameGoods h.goods, ?_⟩
      have hp := stmt_fair h₀ h.known.1 h.goods (h.known.2 i) (h.fair i) hst
      exact Procs.forall_update (Q := fun _ => Fair d₀) hp fun j _ => h.fair j
  | env dt =>
      obtain ⟨d, hd, rfl⟩ := Procs.next_env hn
      cases hd
      exact ⟨hknown, h.goods, h.fair⟩

/-- At the start nobody has been judged. -/
theorem Judged.init {s : St η} (h : (machine hash).Init s) : Judged hash s.shared s := by
  refine ⟨init_holds h, ?_, ?_⟩
  · intro p j v hl
    rw [h.1.1 p] at hl
    cases hl
  · intro i
    rw [h.2 i]
    trivial

end Marketplace.Orders

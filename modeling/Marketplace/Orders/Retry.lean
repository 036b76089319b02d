import Marketplace.Orders.Keys

/-!
# Orders.Retry — what a retry of a committed request is answered

The stock of every line is taken before the key is claimed. A call that passed the first
read before another call with its key committed competes with it for the stock; if too
little is left it throws, although the answer is stored. With enough stock left it loses
the claim and replays the answer.

* `Fine`: the database has nothing against the request, stock aside. Prices, users and
  constraints do not change, so a committed request stays fine;
* `Hopeless`: a call with this request can not commit any more. Committed stock only falls,
  so a request that is out of stock stays so, and no other call can commit it either.
-/

namespace Marketplace.Orders

open Core Auth Outbox

variable {η : Type} [DecidableEq η] {hash : Request → η} {i j : ℕ} {d₀ d d' : Db η}
  {pc pc' : Pc} {a : Stmt} {inp inp' : PlaceOrderInput}

/-! ## The statement -/

/-- The sale was placed under the key and the canonical request of `inp`. -/
def SameRequest (sale : Sale) (inp : PlaceOrderInput) : Prop :=
  ∃ inp' row k, sale.source = .placeOrder inp' row ∧ inp'.key = some k ∧ inp.key = some k ∧
    inp'.request = inp.request

/-- No database or connection failure: no call is cut off. -/
def NoAbort (_ : St η) (l : Label) : Prop := ∀ i, l ≠ .call i .abort

/-- A stock UPDATE that runs when the request is already committed under the key of the call
finds enough stock. -/
def EnoughAt (d : Db η) : Pc → Prop
  | .stock inp _ (item :: _) _ => (∃ sale ∈ d.ledger, SameRequest sale inp) →
      item.quantity ≤ stockOf d item.productId
  | _ => True

def Enough (s : St η) : Label → Prop
  | .call i .run => EnoughAt s.shared (s.proc i)
  | _ => True

/-- In every run whose steps meet `ok`: a call that ends after its request was committed by
another call is answered with the stored response. -/
def RetriesAnswered (hash : Request → η) (ok : St η → Label → Prop) (s : St η) : Prop :=
  ∀ as u bs t, (machine hash).Run ok s as u → (machine hash).Run ok u bs t →
    ∀ sale ∈ u.shared.ledger, ∀ j inp result, j ≠ sale.call → SameRequest sale inp →
      (∀ result', u.proc j ≠ .placed inp result') → t.proc j = .placed inp result →
      result = .ok ⟨201, toResponseBody sale.order, true⟩

/-! ## Requests the database accepts -/

/-- The line that the price list makes of an item. -/
def quote (d : Db η) (item : Item) : Line :=
  toLine item (((d.products item.productId).base.map Product.priceCents).getD 0)

def quotes (d : Db η) (inp : PlaceOrderInput) : List Line := inp.sortedItems.map (quote d)

/-- The database has nothing against the request, stock aside. -/
structure Fine (d : Db η) (inp : PlaceOrderInput) : Prop where
  range : ∀ it ∈ inp.sortedItems, Int8 it.productId
  active : ∀ it ∈ inp.sortedItems,
    ∃ r, (d.products it.productId).base = some r ∧ r.isActive = true
  order : Insertable d inp.userId inp.country (quotes d inp)
  items : itemsTaken [] (quotes d inp) = true

/-- There is enough of everything in stock. -/
def Stocked (d : Db η) (inp : PlaceOrderInput) : Prop :=
  ∀ it ∈ inp.sortedItems, it.quantity ≤ stockOf d it.productId

section

omit [DecidableEq η]

theorem Fine.itemsOk (h : Fine d inp) : ItemsOk (quotes d inp) := itemsTaken_itemsOk h.items ItemsOk.nil

/-- Whether an order is in itself fine depends on its request only. -/
theorem Fine.congr (h : Fine d inp) (heq : inp.request = inp'.request) : Fine d inp' := by
  have huser : inp.userId = inp'.userId := congrArg Request.userId heq
  have hcountry : inp.country = inp'.country := congrArg Request.shippingCountry heq
  have hitems : inp.items = inp'.items := congrArg Request.items heq
  have hsorted : inp.sortedItems = inp'.sortedItems := by
    unfold PlaceOrderInput.sortedItems
    rw [hitems]
  have hquotes : quotes d inp = quotes d inp' := by
    unfold quotes
    rw [hsorted]
  refine ⟨hsorted ▸ h.range, hsorted ▸ h.active, ?_, hquotes ▸ h.items⟩
  rw [← huser, ← hcountry, ← hquotes]
  exact h.order

/-- Whether the stock covers an order depends on its request only. -/
theorem Stocked.congr (h : Stocked d inp) (heq : inp.request = inp'.request) :
    Stocked d inp' := by
  have hitems : inp.items = inp'.items := congrArg Request.items heq
  unfold Stocked PlaceOrderInput.sortedItems at h ⊢
  rw [← hitems]
  exact h

/-- Priced lines are the quotes of their items. -/
theorem Priced.eq_quotes {lines : List Line} (h : Priced d₀ lines) :
    lines = (lines.map fun l => (⟨l.productId, l.quantity⟩ : Item)).map (quote d₀) := by
  rw [List.map_map]
  refine List.ext_getElem (by simp) ?_
  intro n h₁ h₂
  obtain ⟨r, hr, -, hl⟩ := h (lines[n]) (List.getElem_mem h₁)
  rw [List.getElem_map]
  refine hl.trans ?_
  change _ = quote d₀ ⟨(lines[n]).productId, (lines[n]).quantity⟩
  unfold quote
  rw [hr]
  rfl

end

/-! ## Stock only falls -/

/-- A line takes no more than all lines of its product. -/
theorem quantity_le_taken {lines : List Line} (h : ∀ l ∈ lines, 0 ≤ l.quantity) {l : Line}
    (hl : l ∈ lines) : l.quantity ≤ takenOf lines l.productId := by
  induction lines with
  | nil => cases hl
  | cons l' lines ih =>
      have hrest : ∀ l ∈ lines, 0 ≤ l.quantity := fun x hx => h x (List.mem_cons_of_mem _ hx)
      change l.quantity ≤ taken l' l.productId + takenOf lines l.productId
      rcases List.mem_cons.mp hl with rfl | hl
      · have hnonneg := takenOf_nonneg hrest l.productId
        simp only [taken, if_true]
        omega
      · have hle := ih hrest hl
        have hhead := h l' List.mem_cons_self
        unfold taken
        split <;> omega

omit [DecidableEq η] in
/-- Taking from the stock does not make it more. -/
theorem stockOf_lessStock {n : ℤ} {p : ProductId}
    (h : (d'.products p).base = lessStock n (d.products p).base) (hn : 0 ≤ n) :
    stockOf d' p ≤ stockOf d p := by
  unfold stockOf
  rw [h]
  cases (d.products p).base with
  | none => exact le_refl _
  | some r =>
      change r.stock - n ≤ r.stock
      omega

/-- No statement puts stock back that was committed as sold. -/
theorem Effect.stockOf_le (hl : Loc hash d₀ i d pc) (he : Effect hash i d pc d' pc')
    (p : ProductId) : stockOf d' p ≤ stockOf d p := by
  rcases he.cases_commit with h | ⟨sale, hc, rfl⟩ | ⟨o, status, rfl, rfl, rfl⟩
  · unfold stockOf
    rw [h.products p]
  · have hs := hc.saleOf hl.facts
    obtain ⟨hbp, -⟩ := (hl.drafted hc.not_rolling.1).commit_base
    refine stockOf_lessStock (hbp p) ?_
    rw [← hs.lines]
    exact (hc.proper hl.facts).takes_nonneg p
  · obtain ⟨hbp, -⟩ := hl.commit_status
    unfold stockOf
    rw [show ((d.commit i).products p).base = (d.products p).base from hbp p]

/-! ## Local facts -/

/-- What `insertOrder` has checked. -/
def Inserted (d₀ : Db η) (inp : PlaceOrderInput) (order : PlacedOrder) : Prop :=
  (∀ l ∈ order.items, Int8 l.productId) ∧ Insertable d₀ inp.userId inp.country order.items

/-- What the statements so far have found fine. -/
def Checked (d₀ : Db η) : Pc → Prop
  | .stock _ _ _ lines | .insertOrder _ _ lines => ∀ l ∈ lines, Int8 l.productId
  | .insertItems inp _ order inserted rest =>
      Inserted d₀ inp order ∧ itemsTaken [] order.items = itemsTaken inserted rest
  | .claim inp _ order | .insertOutbox inp _ order | .commit inp _ order _ =>
      Inserted d₀ inp order ∧ itemsTaken [] order.items = true
  | _ => True

/-- No call can commit this request under its key any more. -/
def Hopeless (hash : Request → η) (d₀ d : Db η) (inp : PlaceOrderInput) : Prop :=
  ¬ Fine d₀ inp ∨ ¬ Stocked d inp ∨
    ∃ k r, inp.key = some k ∧ (d.records k).base = some r ∧ r.requestHash ≠ hash inp.request

/-- A call that is throwing: nobody has committed its request, and nobody will. -/
structure Lost (hash : Request → η) (d₀ d : Db η) (inp : PlaceOrderInput) : Prop where
  hopeless : Hopeless hash d₀ d inp
  unsold : ∀ sale ∈ d.ledger, ¬ SameRequest sale inp

def Outcome (hash : Request → η) (d₀ d : Db η) : Pc → Prop
  | .productExists inp _ _ | .rollback inp (some _) | .placed inp (.error _) =>
      Lost hash d₀ d inp
  | .rollback inp none | .replay inp => ∃ k, inp.key = some k ∧ (d.records k).base.isSome
  | _ => True

/-- What was sold is fine. -/
def Sold (d₀ d : Db η) : Prop := ∀ sale ∈ d.ledger, ∀ inp, SameRequest sale inp → Fine d₀ inp

/-- What the local facts of the other calls have to survive. -/
structure Sells (hash : Request → η) (d₀ d d' : Db η) : Prop where
  stock : ∀ p, stockOf d' p ≤ stockOf d p
  records : ∀ k r, (d.records k).base = some r → (d'.records k).base = some r
  sold : ∀ sale ∈ d'.ledger, sale ∈ d.ledger ∨ ∀ inp, SameRequest sale inp →
    Fine d₀ inp ∧ Stocked d inp ∧ ∀ k, inp.key = some k → (d.records k).base = none

section

omit [DecidableEq η]

/-- What is hopeless stays so while the shop sells. -/
theorem Hopeless.sells (h : Sells hash d₀ d d') (hl : Hopeless hash d₀ d inp) :
    Hopeless hash d₀ d' inp := by
  rcases hl with hfine | hstock | ⟨k, r, hk, hr, hne⟩
  · exact Or.inl hfine
  · refine Or.inr (Or.inl ?_)
    intro hstocked
    exact hstock fun it hit => le_trans (hstocked it hit) (h.stock _)
  · exact Or.inr (Or.inr ⟨k, r, hk, h.records k r hr, hne⟩)

/-- What is lost stays so while the shop sells. -/
theorem Lost.sells (h : Sells hash d₀ d d') (hl : Lost hash d₀ d inp) :
    Lost hash d₀ d' inp where
  hopeless := hl.hopeless.sells h
  unsold := by
    intro sale hs hsame
    rcases h.sold sale hs with hold | hnew
    · exact hl.unsold sale hold hsame
    · obtain ⟨hfine, hstocked, hnone⟩ := hnew inp hsame
      rcases hl.hopeless with hno | hno | ⟨k, r, hk, hr, -⟩
      · exact hno hfine
      · exact hno hstocked
      · rw [hnone k hk] at hr
        cases hr

/-- How a call has fared is not changed by what others sell. -/
theorem Outcome.sells (h : Sells hash d₀ d d') (ho : Outcome hash d₀ d pc) :
    Outcome hash d₀ d' pc := by
  have claimed : ∀ {inp : PlaceOrderInput},
      (∃ k, inp.key = some k ∧ (d.records k).base.isSome) →
      ∃ k, inp.key = some k ∧ (d'.records k).base.isSome := by
    rintro inp ⟨k, hk, hsome⟩
    obtain ⟨r, hr⟩ := Option.isSome_iff_exists.mp hsome
    exact ⟨k, hk, by rw [h.records k r hr]; rfl⟩
  cases pc with
  | productExists inp item lines => exact Lost.sells h ho
  | rollback inp err =>
      cases err with
      | none => exact claimed ho
      | some err => exact Lost.sells h ho
  | replay inp => exact claimed ho
  | placed inp result =>
      cases result with
      | error err => exact Lost.sells h ho
      | ok res => trivial
  | _ => trivial

theorem Lost.of_not_fine (hsold : Sold d₀ d) (h : ¬ Fine d₀ inp) : Lost hash d₀ d inp :=
  ⟨Or.inl h, fun sale hs hsame => h (hsold sale hs inp hsame)⟩

/-- A sale under the request's key has a record with its answer. -/
theorem Inv.recorded_same (hinv : Inv hash d₀ d) {sale : Sale} (hs : sale ∈ d.ledger)
    (hsame : SameRequest sale inp) : ∃ k, inp.key = some k ∧
    (d.records k).base = some ⟨sale.order.orderId, hash inp.request, 201,
      toResponseBody sale.order⟩ := by
  obtain ⟨inp', row, k, hsrc, hk', hk, hreq⟩ := hsame
  refine ⟨k, hk, ?_⟩
  rw [hinv.recorded sale hs inp' row hsrc k hk', toRecord, hreq]

end

/-- The 422: the record of the key belongs to another request. -/
theorem findReplay_lost (hinv : Inv hash d₀ d) {err : Thrown}
    (h : (inp.key.bind fun key => findReplay hash d key inp) = some (.error err)) :
    Lost hash d₀ d inp := by
  rw [Option.bind_eq_some_iff] at h
  obtain ⟨k, hk, h⟩ := h
  unfold findReplay at h
  rw [Option.map_eq_some_iff] at h
  obtain ⟨r, hr, h⟩ := h
  split at h
  · next hne =>
      refine ⟨Or.inr (Or.inr ⟨k, r, hk, hr, hne⟩), ?_⟩
      intro sale hs hsame
      obtain ⟨k', hk', hrec⟩ := hinv.recorded_same hs hsame
      rw [hk] at hk'
      cases hk'
      rw [hr] at hrec
      cases hrec
      exact hne rfl
  · cases h

/-! ## The stock UPDATE of a fine request -/

section

omit [DecidableEq η]

/-- The product of the next item, as a call with a fine request sees it: nothing of it is
in the draft yet. -/
theorem Loc.next_product {at₀ : ℕ} {item : Item} {rest : List Item} {lines : List Line}
    (h₀ : Init d₀) (hinv : Inv hash d₀ d)
    (hl : Loc hash d₀ i d (.stock inp at₀ (item :: rest) lines)) (hfine : Fine d₀ inp) :
    1 ≤ item.quantity ∧ item.quantity ≤ 100 ∧ Int8 item.productId ∧
    ∃ r, (d.products item.productId).view i = some r ∧ r.isActive = true ∧
      r.stock = stockOf d item.productId ∧ r.stock ≤ 2147483647 := by
  have hsorted : lines.map (fun l => (⟨l.productId, l.quantity⟩ : Item)) ++ item :: rest =
      inp.sortedItems := hl.facts
  have hmem : item ∈ inp.sortedItems := by
    rw [← hsorted]
    exact List.mem_append_right _ List.mem_cons_self
  have hok := hfine.itemsOk
  have hquantity := (hok.1 (quote d₀ item) (List.mem_map_of_mem hmem)).quantity
  refine ⟨hquantity.1, hquantity.2, hfine.range item hmem, ?_⟩
  -- no line is of this product yet: items are sorted and none is there twice
  have hfresh : item.productId ∉ lines.map Line.productId := by
    intro hin
    obtain ⟨l, hlin, heq⟩ := List.mem_map.mp hin
    have hdistinct := hok.2
    rw [quotes, ← hsorted, List.map_append, List.pairwise_append] at hdistinct
    have hne := hdistinct.2.2 (quote d₀ ⟨l.productId, l.quantity⟩)
      (List.mem_map_of_mem (List.mem_map_of_mem (f := fun l => (⟨l.productId, l.quantity⟩ : Item))
        hlin)) (quote d₀ item) (List.mem_map_of_mem List.mem_cons_self)
    exact hne heq
  obtain ⟨r₀, hr₀, hactive⟩ := hfine.active item hmem
  have hview := (hl.drafted id).products.view item.productId
  rw [Draft.products_apply] at hview
  change _ = lessStock (takenOf lines item.productId) _ at hview
  rw [takenOf_eq_zero hfresh, lessStock_zero] at hview
  have hbase := hinv.products item.productId
  rw [hr₀] at hbase
  refine ⟨_, hview.trans hbase, hactive, ?_, ?_⟩
  · unfold stockOf
    rw [hbase]
    rfl
  · have hmax := (h₀.2.2.2.2.1 _ r₀ hr₀).2.2
    have hsold := soldOf_nonneg hinv.book.proper item.productId
    change r₀.stock - soldOf d.ledger item.productId ≤ _
    omega

/-- For a fine request the stock UPDATE fails only for want of stock. -/
theorem Loc.stock_fails {at₀ : ℕ} {item : Item} {rest : List Item} {lines : List Line}
    {t : Taken} (h₀ : Init d₀) (hinv : Inv hash d₀ d)
    (hl : Loc hash d₀ i d (.stock inp at₀ (item :: rest) lines)) (hfine : Fine d₀ inp)
    (ht : takeStock i d item.productId item.quantity = some (d', t)) (hno : ∀ r, t ≠ .row r) :
    stockOf d item.productId < item.quantity := by
  obtain ⟨hlo, hhi, hrange, r, hview, hactive, hstock, hmax⟩ := hl.next_product h₀ hinv hfine
  cases t with
  | row r => exact absurd rfl (hno r)
  | noRow =>
      obtain ⟨-, -, hlt⟩ := takeStock_noRow ht
      exact hstock ▸ hlt r hview hactive
  | refused =>
      have hint : Int4 item.quantity := ⟨by omega, by omega⟩
      rcases takeStock_refused ht with hbad | ⟨r', hview', hle, hbad⟩
      · exact absurd ⟨hrange, hint⟩ hbad
      · rw [hview] at hview'
        cases hview'
        exact absurd ⟨by omega, by omega⟩ hbad

/-- A fine order that is refused its stock has lost it to others. -/
theorem Loc.stock_lost {at₀ : ℕ} {item : Item} {rest : List Item} {lines : List Line}
    {t : Taken} (h₀ : Init d₀) (hinv : Inv hash d₀ d) (hsold : Sold d₀ d)
    (hl : Loc hash d₀ i d (.stock inp at₀ (item :: rest) lines))
    (hok : EnoughAt d (.stock inp at₀ (item :: rest) lines))
    (ht : takeStock i d item.productId item.quantity = some (d', t)) (hno : ∀ r, t ≠ .row r) :
    Lost hash d₀ d inp := by
  by_cases hfine : Fine d₀ inp
  · have hshort := hl.stock_fails h₀ hinv hfine ht hno
    have hsorted : lines.map (fun l => (⟨l.productId, l.quantity⟩ : Item)) ++ item :: rest =
        inp.sortedItems := hl.facts
    refine ⟨Or.inr (Or.inl ?_), ?_⟩
    · intro hstocked
      have hle := hstocked item (hsorted ▸ List.mem_append_right _ List.mem_cons_self)
      omega
    · intro sale hs hsame
      have hle : item.quantity ≤ stockOf d item.productId := hok ⟨sale, hs, hsame⟩
      omega
  · exact Lost.of_not_fine hsold hfine

end

omit [DecidableEq η] in
/-- A rollback changes nothing that is committed. -/
theorem Sells.rollback (i : ℕ) : Sells hash d₀ d (d.rollback i) where
  stock p := by
    apply le_of_eq
    unfold stockOf
    rw [show ((d.rollback i).products p).base = (d.products p).base from Slot.rollback_base]
  records k r hr := (show ((d.rollback i).records k).base = _ from Slot.rollback_base).trans hr
  sold sale hs := Or.inl hs

/-! ## One statement -/

/-- What the checks of a call have established stays so. -/
theorem stmt_checked (hinv : Inv hash d₀ d) (h : stmt hash i d pc a = some (d', pc'))
    (hc : Checked d₀ pc) : Checked d₀ pc' := by
  have none : ∀ l ∈ ([] : List Line), Int8 l.productId := fun l hl => by cases hl
  cases stmt_branch h with
  | unkeyed _ => exact none
  | unclaimed _ => exact none
  | take ht =>
      intro l hl
      rcases List.mem_append.mp hl with hl | hl
      · exact hc l hl
      · rw [List.mem_singleton.mp hl]
        exact ht.range.1
  | taken => exact hc
  | order hi =>
      refine ⟨⟨?_, ?_⟩, ?_⟩
      · rw [hi.items_eq]
        exact hc
      · rw [hi.items_eq]
        exact hinv.insertable.mp hi.insertable
      · rw [hi.items_eq]
  | item hok =>
      obtain ⟨hins, hacc⟩ := hc
      refine ⟨hins, hacc.trans ?_⟩
      rw [itemsTaken, hok, Bool.true_and]
  | toClaim _ => exact hc
  | toOutbox _ => exact hc
  | claim _ _ _ => exact hc
  | outbox => exact hc
  | _ => trivial

section

omit [DecidableEq η]

/-- The lines in hand are those the shop would quote. -/
theorem Loc.quotes {at₀ : ℕ} {lines : List Line}
    (hl : Loc hash d₀ i d (.insertOrder inp at₀ lines)) : lines = quotes d₀ inp := by
  have hpriced : Priced d₀ lines := hl.priced
  have hsorted : lines.map (fun l => (⟨l.productId, l.quantity⟩ : Item)) = inp.sortedItems :=
    hl.facts
  rw [hpriced.eq_quotes, hsorted]
  rfl

theorem Built.quotes {at₀ : ℕ} {order : PlacedOrder} (h : Built inp at₀ order)
    (hp : Priced d₀ order.items) : order.items = quotes d₀ inp := by
  rw [hp.eq_quotes, h.2]
  rfl

end

/-- What can go wrong on the way to a COMMIT makes the request hopeless. -/
theorem stmt_outcome (h₀ : Init d₀) (hinv : Inv hash d₀ d) (hsold : Sold d₀ d)
    (hl : Loc hash d₀ i d pc) (hc : Checked d₀ pc) (ho : Outcome hash d₀ d pc)
    (hok : a = .run → EnoughAt d pc) (h : stmt hash i d pc a = some (d', pc')) :
    Outcome hash d₀ d' pc' := by
  -- the branches that end in an error, each with the reason; all others go on
  cases stmt_branch h with
  | @stored inp result hr =>
      cases result with
      | error err => exact findReplay_lost hinv hr
      | ok res => trivial
  | refused ht => exact hl.stock_lost h₀ hinv hsold (hok rfl) ht fun _ heq => by cases heq
  | noRow ht => exact hl.stock_lost h₀ hinv hsold (hok rfl) ht fun _ heq => by cases heq
  | productExists => exact ho
  | orderRefused hbad =>
      refine Lost.of_not_fine hsold ?_
      intro hfine
      exact hbad (hinv.insertable.mpr (hl.quotes ▸ hfine.order))
  | itemRefused hbad =>
      refine Lost.of_not_fine hsold ?_
      intro hfine
      have hacc := hc.2
      rw [hl.facts.1.quotes hl.priced, hfine.items, itemsTaken] at hacc
      rw [Bool.not_eq_true] at hbad
      rw [hbad, Bool.false_and] at hacc
      cases hacc
  | @conflict _ _ _ key hkey hsome =>
      refine ⟨key, hkey, ?_⟩
      rw [(hl.drafted id).records.view key] at hsome
      exact hsome
  | @replays inp =>
      have hclaimed : Outcome hash d₀ d (.replay inp) := ho
      exact hclaimed.sells (Sells.rollback i)
  | fails => exact Lost.sells (Sells.rollback i) ho
  | @replayed inp result hr =>
      cases result with
      | error err => exact findReplay_lost hinv hr
      | ok res => trivial
  | gone hnone =>
      obtain ⟨k, hk, hsome⟩ := ho
      rw [hk] at hnone
      simp [findReplay] at hnone
      rw [hnone] at hsome
      cases hsome
  | _ => trivial

/-! ## COMMIT -/

omit [DecidableEq η] in
/-- What a call commits was fine, in stock and unclaimed when it did. -/
theorem Commits.sells {sale : Sale} (hinv : Inv hash d₀ d) (hl : Loc hash d₀ i d pc)
    (hc : Checked d₀ pc) (hcommit : Commits i pc sale pc') (hsame : SameRequest sale inp) :
    Fine d₀ inp ∧ Stocked d inp ∧ ∀ k, inp.key = some k → (d.records k).base = none := by
  obtain ⟨inp', row', k, hsrc, hk', hk, hreq⟩ := hsame
  obtain ⟨hown, -⟩ := hl.commit_records hcommit
  have hnone := (hown inp' row' k hsrc hk').1
  cases hcommit with
  | @place inp₀ at₀ order row =>
      cases hsrc
      obtain ⟨hbuilt, hitems, -⟩ := hl.facts
      obtain ⟨⟨hrange, hins⟩, hacc⟩ := hc
      have hpriced : Priced d₀ order.items := hl.priced
      have hquotes := hbuilt.quotes hpriced
      have hmem : ∀ it ∈ inp'.sortedItems, ∃ l ∈ order.items,
          l.productId = it.productId ∧ l.quantity = it.quantity := by
        intro it hit
        rw [← hbuilt.2] at hit
        obtain ⟨l, hlin, rfl⟩ := List.mem_map.mp hit
        exact ⟨l, hlin, rfl, rfl⟩
      have hfine : Fine d₀ inp' := by
        refine ⟨?_, ?_, hquotes ▸ hins, hquotes ▸ hacc⟩
        · intro it hit
          obtain ⟨l, hlin, hp, -⟩ := hmem it hit
          exact hp ▸ hrange l hlin
        · intro it hit
          obtain ⟨l, hlin, hp, -⟩ := hmem it hit
          obtain ⟨r, hr, hactive, -⟩ := hpriced l hlin
          exact ⟨r, hp ▸ hr, hactive⟩
      -- the stock before this COMMIT covered the sale, by the column's check after it
      have hstocked : Stocked d inp' := by
        intro it hit
        obtain ⟨l, hlin, hp, hq⟩ := hmem it hit
        obtain ⟨r₀, hr₀, -⟩ := hpriced l hlin
        have hbase := hinv.products l.productId
        rw [hr₀] at hbase
        have hcommit := (hl.drafted id).commit_base.1 l.productId
        rw [hbase] at hcommit
        have hnonneg := ((hinv.stock.commit (i := i)) l.productId).1 _ hcommit
        have hle := quantity_le_taken (fun l' hl' => by
          have hq' := (hitems.1 l' hl').quantity.1
          omega) hlin
        rw [← hp, ← hq]
        unfold stockOf
        rw [hbase]
        change l.quantity ≤ r₀.stock - soldOf d.ledger l.productId
        have htaken : 0 ≤ r₀.stock - soldOf d.ledger l.productId -
            takenOf order.items l.productId := hnonneg
        omega
      refine ⟨hfine.congr hreq, hstocked.congr hreq, ?_⟩
      intro k₁ hk₁
      rw [hk] at hk₁
      cases hk₁
      exact hnone
  | checkout => cases hsrc

/-- Every statement does to the shop what `Sells` allows. -/
theorem Effect.sells (hinv : Inv hash d₀ d) (hl : Loc hash d₀ i d pc) (hc : Checked d₀ pc)
    (he : Effect hash i d pc d' pc') : Sells hash d₀ d d' where
  stock := he.stockOf_le hl
  records := he.recorded hinv hl
  sold := by
    intro sale hs
    rcases he.cases_commit with h | ⟨sale', hcommit, rfl⟩ | ⟨o, status, rfl, rfl, rfl⟩
    · exact Or.inl (h.added.2.2.2 ▸ hs)
    · rcases List.mem_append.mp hs with hs | hs
      · exact Or.inl hs
      · rw [List.mem_singleton.mp hs]
        exact Or.inr fun inp hsame => hcommit.sells hinv hl hc hsame
    · exact Or.inl hs

omit [DecidableEq η] in
/-- What is sold stays sold. -/
theorem Sold.sells (h : Sells hash d₀ d d') (hsold : Sold d₀ d) : Sold d₀ d' := by
  intro sale hs inp hsame
  rcases h.sold sale hs with hold | hnew
  · exact hsold sale hold inp hsame
  · exact (hnew inp hsame).1

/-! ## Whole runs -/

/-- The invariant and the local fact of retries, on top of those of the book. -/
def RInv (hash : Request → η) (d₀ d : Db η) : Prop := Inv hash d₀ d ∧ Sold d₀ d

def RLoc (hash : Request → η) (d₀ : Db η) (i : ℕ) (d : Db η) (pc : Pc) : Prop :=
  Loc hash d₀ i d pc ∧ Checked d₀ pc ∧ Outcome hash d₀ d pc

/-- Along a run with enough stock the invariant holds and every call fares as it should. -/
theorem run_retry {s t : St η} {as : List Label} (h₀ : Init d₀)
    (hr : (machine hash).Run Enough s as t)
    (h : Procs.Holds (RInv hash d₀) (RLoc hash d₀) s) :
    Procs.Holds (RInv hash d₀) (RLoc hash d₀) t := by
  refine Procs.rely_guarantee Enough (RInv hash d₀) (RLoc hash d₀)
    (fun j d d' => Rely j d d' ∧ Sells hash d₀ d d') ?_ ?_ ?_ hr h
  · rintro s i a d pc hok ⟨⟨hinv, hsold⟩, hloc⟩ hst
    obtain ⟨hl, hc, ho⟩ := hloc i
    have he := stmt_effect hst
    have hsells := he.sells hinv hl hc
    have henough : a = .run → EnoughAt s.shared (s.proc i) := by
      rintro rfl
      exact hok
    refine ⟨⟨he.inv h₀ hinv hl, hsold.sells hsells⟩, ?_, ?_⟩
    · exact ⟨stmt_loc hinv hl hst, stmt_checked hinv hst hc,
        stmt_outcome h₀ hinv hsold hl hc ho henough hst⟩
    · intro j hj
      exact ⟨he.rely hj hinv hl, hsells⟩
  · rintro s dt d - ⟨⟨hinv, hsold⟩, -⟩ hd
    cases hd
    exact ⟨⟨hinv.tick dt, hsold⟩, fun j =>
      ⟨Rely.tick dt, fun p => le_refl _, fun k r hr => hr, fun sale hs => Or.inl hs⟩⟩
  · rintro j d d' pc - - ⟨hrely, hsells⟩ ⟨hl, hc, ho⟩
    exact ⟨hl.rely hrely, hc, ho.sells hsells⟩

/-- At the start nobody has fared anyhow. -/
theorem init_retry {s : St η} (h : (machine hash).Init s) :
    Procs.Holds (RInv hash s.shared) (RLoc hash s.shared) s := by
  obtain ⟨hinv, hloc⟩ := init_holds h
  refine ⟨⟨hinv, ?_⟩, ?_⟩
  · intro sale hs
    rw [h.1.2.2.2.2.2.2.2.2.2.2] at hs
    cases hs
  · intro i
    refine ⟨hloc i, ?_, ?_⟩
    · rw [h.2 i]
      trivial
    · rw [h.2 i]
      trivial

/-- The book only grows. -/
theorem run_ledger {ok : St η → Label → Prop} {s t : St η} {as : List Label}
    (hr : (machine hash).Run ok s as t) :
    ∀ sale ∈ s.shared.ledger, sale ∈ t.shared.ledger := by
  intro sale hs
  refine hr.invariant (P := fun u => sale ∈ u.shared.ledger) ?_ hs
  intro u act v _ hn hu
  cases act with
  | call i a =>
      obtain ⟨d, pc, hst, rfl⟩ := Procs.next_call hn
      rcases (stmt_effect hst).cases_commit with h | ⟨sale', -, rfl⟩ | ⟨o, status, -, -, rfl⟩
      · rw [← h.added.2.2.2] at hu
        exact hu
      · exact List.mem_append_left _ hu
      · exact hu
  | env dt =>
      obtain ⟨d, hd, rfl⟩ := Procs.next_env hn
      cases hd
      exact hu

omit [DecidableEq η] in
/-- A finished call of a committed request has the stored answer. -/
theorem answered_of_holds {s : St η} (h : Procs.Holds (RInv hash d₀) (RLoc hash d₀) s)
    {sale : Sale} (hs : sale ∈ s.shared.ledger) {j : ℕ} {result : Except Thrown PlaceOrderResult}
    (hj : j ≠ sale.call) (hsame : SameRequest sale inp) (hpc : s.proc j = .placed inp result) :
    result = .ok ⟨201, toResponseBody sale.order, true⟩ := by
  obtain ⟨⟨hinv, -⟩, hloc⟩ := h
  obtain ⟨hl, -, ho⟩ := hloc j
  rw [hpc] at hl ho
  cases result with
  | error err => exact absurd hsame (Lost.unsold ho sale hs)
  | ok res =>
      obtain ⟨k, hk, hrec⟩ := hinv.recorded_same hs hsame
      obtain ⟨r, hr, -, hstatus, hbody⟩ := hl.answer hk
      rw [hrec] at hr
      cases hr
      have hreplayed : res.replayed = true := by
        by_contra hno
        obtain ⟨sale', hs', hcall, hkey⟩ := hl.first (Bool.eq_false_of_not_eq_true hno)
        obtain ⟨inp', row, k', hsrc, hk', hk'', -⟩ := hsame
        have heq := hinv.book.key_unique hs hs' ((Sale.key_of_source hsrc).trans hk')
          (hkey.trans hk'')
        exact hj (heq ▸ hcall.symm)
      cases res
      cases hstatus
      cases hbody
      cases hreplayed
      rfl

/-- As long as a stock UPDATE that comes after the COMMIT of its own request finds enough
stock, every retry of a committed request is answered with the stored response. -/
theorem retries_answered (hash : Request → η) (s : St η) (hs : (machine hash).Init s) :
    RetriesAnswered hash Enough s := by
  intro as u bs t hu ht sale hsale j inp result hj hsame _ hpc
  have hholds := run_retry hs.1 (hu.trans ht) (init_retry hs)
  exact answered_of_holds hholds (run_ledger ht sale hsale) hj hsame hpc

/-! ## The shop runs out of stock -/

/-- Four of the five pieces in stock. -/
def fourPieces : PlaceOrderInput := ⟨7, [⟨1, 4⟩], some "PL", some "k-1"⟩

/-- Both calls find nothing under the key; call 0 places the order. -/
def firstWins : List Label :=
  .call 0 (.placeOrder fourPieces) :: .call 1 (.placeOrder fourPieces) ::
  runs 0 1 ++ runs 1 1 ++ runs 0 8

def noAbort (_ : St Request) : Label → Bool
  | .call _ .abort => false
  | _ => true

theorem noAbort_spec (s : St Request) (l : Label) (h : noAbort s l = true) : NoAbort s l := by
  rintro i rfl
  cases h

/-- Without the condition a retry is not answered with the stored response: the first sale takes
the stock, and the retry is refused before it comes to the key. -/
theorem retries_not_answered : ¬ ∀ s : St Request, (machine id).Init s →
    RetriesAnswered (id : Request → Request) NoAbort s := by
  intro hall
  have hrun : ∃ u t sale message, (machine (id : Request → Request)).exec noAbort shop firstWins =
        some u ∧
      (machine id).exec noAbort u (runs 1 3) = some t ∧ u.shared.ledger = [sale] ∧
      (∃ row, sale.source = .placeOrder fourPieces row) ∧ sale.call = 0 ∧
      (∃ rest lines, u.proc 1 = .stock fourPieces 1000000 rest lines) ∧
      t.proc 1 = .placed fourPieces (.error (.http 400 message)) :=
    ⟨_, _, _, _, rfl, rfl, rfl, ⟨_, rfl⟩, rfl, ⟨_, _, rfl⟩, rfl⟩
  obtain ⟨u, t, sale, message, hu, ht, hledger, ⟨row, hsrc⟩, hcall, ⟨rest, lines, hopen⟩, hpc⟩ :=
    hrun
  have hbad := hall shop (shop_init id) _ u _ t (Machine.exec_run noAbort_spec hu)
    (Machine.exec_run noAbort_spec ht) sale (by rw [hledger]; exact List.mem_singleton.mpr rfl) 1
    fourPieces _ (by rw [hcall]; decide) ⟨fourPieces, row, "k-1", hsrc, rfl, rfl, rfl⟩
    (fun result' heq => by rw [hopen] at heq; cases heq) hpc
  cases hbad

/-- Every stock UPDATE finds enough stock. -/
def enough (s : St Request) : Label → Bool
  | .call i .run =>
      match s.proc i with
      | .stock _ _ (item :: _) _ => decide (item.quantity ≤ stockOf s.shared item.productId)
      | _ => true
  | _ => true

/-- What the concrete run checks is the condition of the theorem. -/
theorem enough_spec (s : St Request) (l : Label) (h : enough s l = true) : Enough s l := by
  cases l with
  | call i a =>
      cases a with
      | run =>
          change EnoughAt s.shared (s.proc i)
          unfold enough at h
          unfold EnoughAt
          dsimp only at h
          split at h
          · exact fun _ => of_decide_eq_true h
          · trivial
      | _ => trivial
  | env dt => trivial

/-- Call 0 wins the race for two pieces, and there are three left for call 1. -/
theorem retries_answered_race : ∃ (t : St Request) (sale : Sale),
    sale ∈ t.shared.ledger ∧ sale.call = 0 ∧
    t.proc 1 = .placed twoPieces (.ok ⟨201, toResponseBody sale.order, true⟩) := by
  have hrun : ∃ u t sale result, (machine (id : Request → Request)).exec enough shop
        (.call 0 (.placeOrder twoPieces) :: .call 1 (.placeOrder twoPieces) ::
          runs 0 1 ++ runs 1 1 ++ runs 0 8) = some u ∧
      (machine id).exec enough u (runs 1 8) = some t ∧ u.shared.ledger = [sale] ∧
      (∃ row, sale.source = .placeOrder twoPieces row) ∧ sale.call = 0 ∧
      (∃ rest lines, u.proc 1 = .stock twoPieces 1000000 rest lines) ∧
      t.proc 1 = .placed twoPieces result :=
    ⟨_, _, _, _, rfl, rfl, rfl, ⟨_, rfl⟩, rfl, ⟨_, _, rfl⟩, rfl⟩
  obtain ⟨u, t, sale, result, hu, ht, hledger, ⟨row, hsrc⟩, hcall, ⟨rest, lines, hopen⟩, hpc⟩ :=
    hrun
  have hrun₁ := Machine.exec_run enough_spec hu
  have hrun₂ := Machine.exec_run enough_spec ht
  have hs : sale ∈ u.shared.ledger := by rw [hledger]; exact List.mem_singleton.mpr rfl
  have hanswer := retries_answered id shop (shop_init id) _ u _ t hrun₁ hrun₂ sale hs 1
    twoPieces result (by rw [hcall]; decide) ⟨twoPieces, row, "k-1", hsrc, rfl, rfl, rfl⟩
    (fun result' heq => by rw [hopen] at heq; cases heq) hpc
  exact ⟨t, sale, run_ledger hrun₂ sale hs, hcall, hanswer ▸ hpc⟩

end Marketplace.Orders

import Marketplace.Orders.Book

/-!
# Orders.Invariant — the tables are the book

In every reachable state the committed rows are what the book of sales says (`Inv`), and
every open transaction holds exactly its draft (`Loc`). So COMMIT enters one proper sale
into the book, and every other statement leaves the book alone.
-/

namespace Marketplace.Orders

open Core Auth Outbox

variable {η : Type} [DecidableEq η] {hash : Request → η} {i j : ℕ} {d₀ d d' : Db η}
  {pc pc' : Pc}

/-! ## The invariant -/

/-- The committed rows of a shop that began as `d₀` are those of its book. -/
structure Inv (hash : Request → η) (d₀ d : Db η) : Prop where
  book : Book d₀ d.ledger
  products : ∀ p, (d.products p).base = lessStock (soldOf d.ledger p) (d₀.products p).base
  users : ∀ u, (d.users u).base = lessBalance (paidOf d.ledger u) (d₀.users u).base
  stock : Table.All (fun _ r => 0 ≤ r.stock) d.products
  balance : Table.All (fun _ r => 0 ≤ r.balanceCents) d.users
  fresh : ∀ o, d.nextOrder ≤ o → d.orders o = Slot.settled none
  placed : ∀ s ∈ d.ledger, s.order.orderId < d.nextOrder ∧
    ∃ r, (d.orders s.order.orderId).base = some r ∧ r.userId = s.order.userId ∧
      r.totalCents = s.order.totalCents
  orders : ∀ o r, (d.orders o).base = some r →
    (d₀.orders o).base.isSome ∨ ∃ s ∈ d.ledger, s.order.orderId = o
  initial : ∀ o r, (d₀.orders o).base = some r →
    ∃ status, (d.orders o).base = some { r with status }
  kept : ∀ k r, (d₀.records k).base = some r → (d.records k).base = some r
  recorded : ∀ s ∈ d.ledger, ∀ inp row, s.source = .placeOrder inp row → ∀ k, inp.key = some k →
    (d.records k).base = some (toRecord hash inp s.order)
  records : ∀ k r, (d.records k).base = some r →
    (d₀.records k).base = some r ∨ ∃ s ∈ d.ledger, s.key = some k
  orderItems : d.orderItems = d.ledger.flatMap fun s => orderItems s.order
  outbox : d.outbox = d.ledger.filterMap Sale.outboxRow
  jobs : d.jobs = d.ledger.filterMap Sale.job

/-- The lines carry the price list, which nothing changes. -/
def Priced (d₀ : Db η) (lines : List Line) : Prop :=
  ∀ l ∈ lines, ∃ r, (d₀.products l.productId).base = some r ∧ r.isActive = true ∧
    l = toLine ⟨l.productId, l.quantity⟩ r.priceCents

/-- Rows that `order_items` has accepted. -/
def ItemsOk (lines : List Line) : Prop :=
  (∀ l ∈ lines, LineOk l) ∧ lines.Pairwise fun a b => a.productId ≠ b.productId

/-- `order_items` takes the rows one after the other, those of `inserted` first. -/
def itemsTaken (inserted : List Line) : List Line → Bool
  | [] => true
  | l :: rest => itemOk inserted l && itemsTaken (inserted ++ [l]) rest

/-- The order that `insertOrder` makes of a request. -/
def Built (inp : PlaceOrderInput) (at₀ : ℕ) (order : PlacedOrder) : Prop :=
  order = ⟨order.orderId, inp.userId, totalOf order.items, inp.country, toDate at₀, order.items⟩ ∧
    order.items.map (fun l => ⟨l.productId, l.quantity⟩) = inp.sortedItems

/-- What the program point carries from one statement to the next. -/
def Facts : Pc → Prop
  | .stock inp _ rest lines =>
      lines.map (fun l => (⟨l.productId, l.quantity⟩ : Item)) ++ rest = inp.sortedItems
  | .insertOrder inp _ lines =>
      lines.map (fun l => (⟨l.productId, l.quantity⟩ : Item)) = inp.sortedItems
  | .insertItems inp at₀ order inserted rest =>
      Built inp at₀ order ∧ order.items = inserted ++ rest ∧ ItemsOk inserted
  | .claim inp at₀ order | .insertOutbox inp at₀ order =>
      Built inp at₀ order ∧ ItemsOk order.items
  | .commit inp at₀ order row =>
      Built inp at₀ order ∧ ItemsOk order.items ∧ row.aggregateId = order.orderId
  | .coItem inp _ order line _ =>
      order.items = [line] ∧ order.totalCents = line.lineTotalCents ∧ order.userId = inp.userId
  | .coJob inp _ order line _ =>
      order.items = [line] ∧ order.totalCents = line.lineTotalCents ∧
        order.userId = inp.userId ∧ ItemsOk [line]
  | .coCommit inp _ order line job _ =>
      order.items = [line] ∧ order.totalCents = line.lineTotalCents ∧
        order.userId = inp.userId ∧ ItemsOk [line] ∧ job.orderId = order.orderId
  | _ => True

/-- What is true once the call has returned; a call that has not has sold nothing. -/
def Ended (hash : Request → η) (i : ℕ) (d : Db η) : Pc → Prop
  | .placed inp (.ok res) =>
      (∀ k, inp.key = some k → ∃ r, (d.records k).base = some r ∧
        r.requestHash = hash inp.request ∧ r.responseStatus = res.status ∧
        r.responseBody = res.body) ∧
      if res.replayed then ∀ s ∈ d.ledger, s.call ≠ i
      else ∃ s ∈ d.ledger, s.call = i ∧ (∃ row, s.source = .placeOrder inp row) ∧
        res.body = toResponseBody s.order
  | .checkedOut (.ok res) => ∃ s ∈ d.ledger, s.call = i ∧ s.IsCheckout ∧
      s.order.orderId = res.orderId
  | _ => ∀ s ∈ d.ledger, s.call ≠ i

/-- The local fact of a call. -/
structure Loc (hash : Request → η) (d₀ : Db η) (i : ℕ) (d : Db η) (pc : Pc) : Prop where
  drafted : ¬ pc.Rolling → Drafted hash i d pc.draft
  priced : Priced d₀ pc.draft.lines
  pays : ∀ u c, pc.draft.pays = some (u, c) → (d₀.users u).base.isSome
  order : ∀ o row, pc.draft.order = some (o, row) →
    o < d.nextOrder ∧ (d.orders o).base = none
  status : ∀ o st, pc.draft.status = some (o, st) → (d.orders o).base.isSome
  record : ∀ k inp order, pc.draft.record = some (k, inp, order) → (d.records k).base = none
  facts : Facts pc
  ended : Ended hash i d pc

/-! ## What everybody else sees of a statement -/

/-- What call `j` has to put up with. -/
structure Rely (j : ℕ) (d d' : Db η) : Prop where
  products : Table.Kept j d.products d'.products
  users : Table.Kept j d.users d'.users
  orders : Table.Kept j d.orders d'.orders
  records : Table.Kept j d.records d'.records
  nextOrder : d.nextOrder ≤ d'.nextOrder
  ordered : ∀ o, (d.orders o).base.isSome → (d'.orders o).base.isSome
  recorded : ∀ k r, (d.records k).base = some r → (d'.records k).base = some r
  ledger : d'.ledger = d.ledger ∨ ∃ s : Sale, s.call ≠ j ∧ d'.ledger = d.ledger ++ [s]

section

omit [DecidableEq η]

/-- The columns that the constraints of `orders` look at do not change. -/
theorem Inv.insertable (hinv : Inv hash d₀ d) {u : UserId} {country : String}
    {lines : List Line} : Insertable d u country lines ↔ Insertable d₀ u country lines := by
  unfold Insertable
  rw [hinv.users u, lessBalance, Option.isSome_map]

/-- A statement that leaves the tables alone does to the others what they rely on. -/
theorem Rely.of_same (h : SameTables d d') : Rely j d d' where
  products := h.products ▸ Table.Kept.refl j _
  users := h.users ▸ Table.Kept.refl j _
  orders := h.orders ▸ Table.Kept.refl j _
  records := h.records ▸ Table.Kept.refl j _
  nextOrder := Nat.le_of_eq h.nextOrder.symm
  ordered o ho := by rw [h.orders]; exact ho
  recorded k r hr := by rw [h.records]; exact hr
  ledger := Or.inl h.added.2.2.2

/-- What has been answered stays answered while others sell. -/
theorem Ended.rely (h : Rely i d d') (hpc : Ended hash i d pc) : Ended hash i d' pc := by
  have hsub : ∀ s ∈ d.ledger, s ∈ d'.ledger := by
    intro s hs
    rcases h.ledger with heq | ⟨s', -, heq⟩
    · rw [heq]
      exact hs
    · rw [heq]
      exact List.mem_append_left _ hs
  have hno : (∀ s ∈ d.ledger, s.call ≠ i) → ∀ s ∈ d'.ledger, s.call ≠ i := by
    intro hn s hs
    rcases h.ledger with heq | ⟨s', hs', heq⟩
    · exact hn s (heq ▸ hs)
    · rw [heq] at hs
      rcases List.mem_append.mp hs with hs | hs
      · exact hn s hs
      · rw [List.mem_singleton.mp hs]
        exact hs'
  -- a call that has succeeded is in the ledger, which only grows; any other is not in it
  cases pc with
  | placed inp result =>
      cases result with
      | error err => exact hno hpc
      | ok res =>
          refine ⟨?_, ?_⟩
          · intro k hk
            obtain ⟨r, hr, hrest⟩ := hpc.1 k hk
            exact ⟨r, h.recorded k r hr, hrest⟩
          · have h2 := hpc.2
            by_cases hr : res.replayed = true
            · rw [if_pos hr] at h2 ⊢
              exact hno h2
            · rw [if_neg hr] at h2 ⊢
              obtain ⟨s, hs, hrest⟩ := h2
              exact ⟨s, hsub s hs, hrest⟩
  | checkedOut result =>
      cases result with
      | error err => exact hno hpc
      | ok res =>
          obtain ⟨s, hs, hrest⟩ := hpc
          exact ⟨s, hsub s hs, hrest⟩
  | _ => exact hno hpc

/-- The local fact of a call survives what the others do. -/
theorem Loc.rely (h : Rely i d d') (hl : Loc hash d₀ i d pc) : Loc hash d₀ i d' pc where
  drafted hr :=
    { products := (hl.drafted hr).products.kept h.products
      users := (hl.drafted hr).users.kept h.users
      orders := (hl.drafted hr).orders.kept h.orders
      records := (hl.drafted hr).records.kept h.records }
  priced := hl.priced
  pays := hl.pays
  order o row ho := by
    obtain ⟨hlt, hb⟩ := hl.order o row ho
    refine ⟨Nat.lt_of_lt_of_le hlt h.nextOrder, ?_⟩
    have hroll : ¬ pc.Rolling := by
      intro hr
      cases pc <;> first | exact hr.elim | cases ho
    have hheld : (d.orders o).Held i := by
      rw [((hl.drafted hroll).orders o).1]
      simp [Draft.orders, ho]
    rw [h.orders.held o hheld]
    exact hb
  status o st ho := h.ordered o (hl.status o st ho)
  record k inp order hk := by
    have hroll : ¬ pc.Rolling := by
      intro hr
      cases pc <;> first | exact hr.elim | cases hk
    have hheld : (d.records k).Held i := by
      rw [((hl.drafted hroll).records k).1]
      simp [Draft.records, hk]
    rw [h.records.held k hheld]
    exact hl.record k inp order hk
  facts := hl.facts
  ended := hl.ended.rely h

end

/-! ## The draft of the call itself -/

theorem Pc.Answers.draft_empty (h : pc.Answers) : pc.draft = Draft.empty := by
  cases pc <;> first | rfl | exact h.elim

theorem Pc.Rolling.draft_empty (h : pc.Rolling) : pc.draft = Draft.empty := by
  cases pc <;> first | rfl | exact h.elim

section

omit [DecidableEq η]

/-- After a COMMIT a call has no draft. -/
theorem Drafted.empty_commit (d : Db η) (i : ℕ) : Drafted hash i (d.commit i) Draft.empty where
  products := Table.draft_commit
  users := Table.draft_commit
  orders := Table.draft_commit
  records := Table.draft_commit

/-- After a ROLLBACK a call has no draft. -/
theorem Drafted.empty_rollback (d : Db η) (i : ℕ) :
    Drafted hash i (d.rollback i) Draft.empty where
  products := Table.draft_rollback
  users := Table.draft_rollback
  orders := Table.draft_rollback
  records := Table.draft_rollback

end

/-- A call at its COMMIT is not rolling back, and after it has no draft. -/
theorem Commits.not_rolling {sale : Sale} (h : Commits i pc sale pc') :
    ¬ pc.Rolling ∧ ¬ pc'.Rolling ∧ pc'.draft = Draft.empty := by
  cases h with
  | place => exact ⟨id, id, rfl⟩
  | checkout => exact ⟨id, id, rfl⟩

/-- After a statement the call holds exactly its new draft. -/
theorem Effect.drafted (he : Effect hash i d pc d' pc')
    (hd : ¬ pc.Rolling → Drafted hash i d pc.draft) (hroll : ¬ pc'.Rolling) :
    Drafted hash i d' pc'.draft := by
  -- one case a kind of effect: each writes one table and adds that write to the draft
  cases he with
  | quiet hs hr _ hdraft =>
      rw [hdraft]
      have hδ := hd hr
      exact
        { products := hs.products ▸ hδ.products
          users := hs.users ▸ hδ.users
          orders := hs.orders ▸ hδ.orders
          records := hs.records ▸ hδ.records }
  | replays _ _ hr _ hdraft =>
      have hδ := hd hr
      rw [hdraft] at hδ
      exact hδ
  | throws hr => exact absurd hr hroll
  | @take _ item r hv _ _ _ hr hdraft =>
      have hδ := hd hr
      have hview := hδ.products.view item.productId
      rw [hv, Draft.products_apply] at hview
      rw [hdraft]
      refine ⟨?_, hδ.users, hδ.orders, hδ.records⟩
      rw [Draft.products_concat (l := toLine item r.priceCents) rfl]
      refine hδ.products.put ?_
      rw [← lessStock_add]
      change _ = lessStock item.quantity
        (lessStock (takenOf pc.draft.lines item.productId) (d.products item.productId).base)
      rw [← hview]
      rfl
  | @pay _ u r cents hv _ _ hr hnone hdraft =>
      have hδ := hd hr
      rw [hdraft]
      refine ⟨hδ.products, ?_, hδ.orders, hδ.records⟩
      have hown : pc.draft.users = fun _ => none := by
        unfold Draft.users
        rw [hnone]
      have hu := hδ.users
      have hview := hu.view u
      rw [hown] at hu hview
      exact hu.put (f := lessBalance cents) (by rw [← show _ = (d.users u).base from hview, hv]; rfl)
  | @insert _ row hr ho hs hdraft =>
      have hδ := hd hr
      rw [hdraft]
      refine ⟨hδ.products, hδ.users, ?_, hδ.records⟩
      have hown : pc.draft.orders = fun _ => none := by
        unfold Draft.orders
        rw [ho, hs]
      have hu := hδ.orders
      rw [hown] at hu
      exact hu.put rfl
  | @status _ o r st hv _ hr hempty hdraft =>
      have hδ := hd hr
      rw [hempty] at hδ
      rw [hdraft]
      refine ⟨hδ.products, hδ.users, ?_, hδ.records⟩
      have hview := hδ.orders.view o
      refine hδ.orders.put ?_
      rw [← show _ = (d.orders o).base from hview, hv]
      rfl
  | @claim _ key inp order hv _ hr hnone hdraft =>
      have hδ := hd hr
      rw [hdraft]
      refine ⟨hδ.products, hδ.users, hδ.orders, ?_⟩
      have hown : pc.draft.records hash = fun _ => none := by
        unfold Draft.records
        rw [hnone]
      have hu := hδ.records
      rw [hown] at hu
      exact hu.put rfl
  | rollback _ _ hdraft =>
      rw [hdraft]
      exact Drafted.empty_rollback d i
  | @commitSale _ sale hc =>
      rw [hc.not_rolling.2.2]
      obtain ⟨hp, hu, ho, hr⟩ := Drafted.empty_commit d i
      exact ⟨hp, hu, ho, hr⟩
  | commitStatus _ => exact Drafted.empty_commit d i

/-! ## COMMIT -/

/-- The sale that a COMMIT enters into the book is the draft. -/
structure SaleOf (i : ℕ) (δ : Draft) (s : Sale) : Prop where
  call : s.call = i
  lines : s.order.items = δ.lines
  pays : δ.pays = if s.IsCheckout then some (s.order.userId, s.order.totalCents) else none
  order : ∃ at₀, δ.order = some (s.order.orderId, toOrderRow s.order at₀)
  status : δ.status = none
  record : ∀ k inp o, δ.record = some (k, inp, o) ↔
    o = s.order ∧ inp.key = some k ∧ ∃ row, s.source = .placeOrder inp row

/-- What a call commits is the sale its draft makes. -/
theorem Commits.saleOf {sale : Sale} (h : Commits i pc sale pc') (hf : Facts pc) :
    SaleOf i pc.draft sale := by
  cases h with
  | @place inp at₀ order row =>
      refine ⟨rfl, rfl, rfl, ⟨at₀, rfl⟩, rfl, ?_⟩
      intro k inp' order'
      constructor
      · intro hr
        have hr' : inp.key.map (·, inp, order) = some (k, inp', order') := hr
        rw [Option.map_eq_some_iff] at hr'
        obtain ⟨k', hk, heq⟩ := hr'
        cases heq
        exact ⟨rfl, hk, row, rfl⟩
      · rintro ⟨ho, hk, row', hsrc⟩
        cases hsrc
        change inp.key.map (·, inp, order) = some (k, inp, order')
        rw [hk, ho]
        rfl
  | @checkout inp at₀ order line job stockLeft =>
      obtain ⟨hitems, htotal, huser, -, -⟩ := hf
      refine ⟨rfl, hitems, ?_, ⟨at₀, rfl⟩, rfl, ?_⟩
      · change some (inp.userId, line.lineTotalCents) = if True then _ else none
        rw [if_pos trivial]
        change _ = some (order.userId, order.totalCents)
        rw [huser, htotal]
      · intro k inp' order'
        constructor
        · intro hr
          cases hr
        · rintro ⟨-, -, row, hsrc⟩
          cases hsrc

/-- What a call commits is a proper sale. -/
theorem Commits.proper {sale : Sale} (h : Commits i pc sale pc') (hf : Facts pc) :
    Proper sale := by
  cases h with
  | @place inp at₀ order row =>
      obtain ⟨⟨hb, -⟩, hok, hrow⟩ := hf
      refine ⟨hok.1, hok.2, ?_, ?_, ?_⟩
      · change order.totalCents = totalOf order.items
        rw [hb]
      · intro row' hr
        cases hr
        exact hrow
      · intro j hj
        cases hj
  | @checkout inp at₀ order line job stockLeft =>
      obtain ⟨hitems, htotal, huser, hok, hjob⟩ := hf
      refine ⟨?_, ?_, ?_, ?_, ?_⟩
      · intro l hl
        exact hok.1 l (hitems ▸ hl)
      · change order.items.Pairwise _
        rw [hitems]
        exact hok.2
      · change order.totalCents = totalOf order.items
        rw [hitems, htotal]
        simp [totalOf]
      · intro row hr
        cases hr
      · intro j hj
        cases hj
        exact hjob

/-- A draft takes its payment off the payer's balance and leaves all others. -/
theorem Draft.users_apply (δ : Draft) (u : UserId) :
    (δ.users u).getD id = lessBalance (match δ.pays with
      | some (u', c) => if u' = u then c else 0
      | none => 0) := by
  unfold Draft.users
  cases hp : δ.pays with
  | none => exact lessBalance_zero.symm
  | some x =>
      obtain ⟨u', c⟩ := x
      by_cases hu : u = u'
      · subst hu
        simp
      · have hu' : u' ≠ u := fun heq => hu heq.symm
        simp only [Function.update_of_ne hu, if_neg hu']
        exact lessBalance_zero.symm

/-- The draft of a sale takes what the sale pays. -/
theorem SaleOf.users {s : Sale} {δ : Draft} (h : SaleOf i δ s) (u : UserId) :
    (δ.users u).getD id = lessBalance (s.pays u) := by
  rw [Draft.users_apply, h.pays]
  unfold Sale.pays
  by_cases hc : s.IsCheckout
  · rw [if_pos hc]
    by_cases hu : s.order.userId = u
    · simp [hc, hu]
    · simp [hu]
  · rw [if_neg hc]
    simp [hc]

/-- The draft of a sale writes its one order. -/
theorem SaleOf.orders {s : Sale} {δ : Draft} (h : SaleOf i δ s) :
    ∃ at₀, δ.orders = Function.update (fun _ => none) s.order.orderId
      (some fun _ => some (toOrderRow s.order at₀)) := by
  obtain ⟨at₀, ho⟩ := h.order
  refine ⟨at₀, ?_⟩
  unfold Draft.orders
  rw [ho]

section

omit [DecidableEq η]

/-- The draft of a sale records its key, and no other. -/
theorem SaleOf.records {s : Sale} {δ : Draft} (h : SaleOf i δ s) (hash : Request → η)
    (k : String) :
    (δ.records hash k = none ∧ ∀ inp row, s.source = .placeOrder inp row → inp.key ≠ some k) ∨
    ∃ inp row, s.source = .placeOrder inp row ∧ inp.key = some k ∧
      δ.record = some (k, inp, s.order) ∧
      δ.records hash k = some fun _ => some (toRecord hash inp s.order) := by
  cases hr : δ.record with
  | none =>
      left
      refine ⟨by unfold Draft.records; rw [hr], ?_⟩
      intro inp row hsrc hk
      have hrec := (h.record k inp s.order).mpr ⟨rfl, hk, row, hsrc⟩
      rw [hr] at hrec
      cases hrec
  | some x =>
      obtain ⟨k', inp, order⟩ := x
      obtain ⟨rfl, hk', row, hsrc⟩ := (h.record k' inp order).mp hr
      by_cases hk : k = k'
      · subst hk
        refine Or.inr ⟨inp, row, hsrc, hk', rfl, ?_⟩
        unfold Draft.records
        rw [hr]
        simp
      · left
        refine ⟨?_, ?_⟩
        · unfold Draft.records
          rw [hr]
          simp [hk]
        · intro inp' row' hsrc' hkey
          rw [hsrc] at hsrc'
          cases hsrc'
          rw [hk'] at hkey
          cases hkey
          exact hk rfl

/-- The rows after a COMMIT, through the draft. -/
theorem Drafted.commit_base {δ : Draft} (h : Drafted hash i d δ) :
    (∀ p, (d.products.commit i p).base = lessStock (takenOf δ.lines p) (d.products p).base) ∧
    (∀ u, (d.users.commit i u).base = ((δ.users u).getD id) (d.users u).base) ∧
    (∀ o, (d.orders.commit i o).base = ((δ.orders o).getD id) (d.orders o).base) ∧
    ∀ k, (d.records.commit i k).base = ((δ.records hash k).getD id) (d.records k).base := by
  refine ⟨?_, h.users.commit_base, h.orders.commit_base, h.records.commit_base⟩
  intro p
  rw [h.products.commit_base p, Draft.products_apply]

/-- A COMMIT makes no order with an id that is still to come. -/
theorem fresh_commit (h : ∀ o, d.nextOrder ≤ o → d.orders o = Slot.settled none) :
    ∀ o, d.nextOrder ≤ o → d.orders.commit i o = Slot.settled none := by
  intro o ho
  rw [Table.commit_apply, h o ho]
  rfl

/-- The initial funds are no debts. -/
theorem Init.funds (h : Init d₀) :
    (∀ p, 0 ≤ stockOf d₀ p) ∧ ∀ u, 0 ≤ balanceOf d₀ u := by
  obtain ⟨-, -, -, -, hp, hu, -⟩ := h
  constructor
  · intro p
    unfold stockOf
    cases hb : (d₀.products p).base with
    | none => exact le_refl _
    | some r => exact (hp p r hb).1
  · intro u
    unfold balanceOf
    cases hb : (d₀.users u).base with
    | none => exact le_refl _
    | some r => exact hu u r hb

/-- What a COMMIT sells was in stock: the column's check holds of the row it commits. -/
theorem sold_le_stock {sale : Sale} (h₀ : Init d₀) (hinv : Inv hash d₀ d)
    (hl : Loc hash d₀ i d pc) (hc : Commits i pc sale pc') (p : ProductId) :
    soldOf d.ledger p + sale.takes p ≤ stockOf d₀ p := by
  obtain ⟨hbp, -⟩ := (hl.drafted hc.not_rolling.1).commit_base
  have htakes : sale.takes p = takenOf pc.draft.lines p := by
    rw [Sale.takes, (hc.saleOf hl.facts).lines]
  rw [htakes]
  cases hb : (d₀.products p).base with
  | none =>
      have hnot : p ∉ pc.draft.lines.map Line.productId := by
        intro hin
        obtain ⟨l, hlin, rfl⟩ := List.mem_map.mp hin
        obtain ⟨r, hr, -⟩ := hl.priced l hlin
        rw [hb] at hr
        cases hr
      have hle := hinv.book.stock h₀.funds.1 p
      rw [takenOf_eq_zero hnot]
      omega
  | some r =>
      have hcommit := hbp p
      rw [hinv.products p, lessStock_add, hb] at hcommit
      have hcheck := ((hinv.stock.commit (i := i)) p).1 _ hcommit
      have hge : 0 ≤ r.stock - (soldOf d.ledger p + takenOf pc.draft.lines p) := hcheck
      unfold stockOf
      rw [hb]
      change soldOf d.ledger p + takenOf pc.draft.lines p ≤ r.stock
      omega

/-- What a COMMIT takes from a balance was on it. -/
theorem paid_le_balance {sale : Sale} (h₀ : Init d₀) (hinv : Inv hash d₀ d)
    (hl : Loc hash d₀ i d pc) (hc : Commits i pc sale pc') (u : UserId) :
    paidOf d.ledger u + sale.pays u ≤ balanceOf d₀ u := by
  have hs := hc.saleOf hl.facts
  obtain ⟨-, hbu, -⟩ := (hl.drafted hc.not_rolling.1).commit_base
  cases hb : (d₀.users u).base with
  | none =>
      have hnot : sale.pays u = 0 := by
        unfold Sale.pays
        refine if_neg ?_
        rintro ⟨hchk, rfl⟩
        have hp := hs.pays
        rw [if_pos hchk] at hp
        have hsome := hl.pays _ _ hp
        rw [hb] at hsome
        cases hsome
      have hle := hinv.book.balance h₀.funds.2 u
      rw [hnot]
      omega
  | some r =>
      have hcommit := hbu u
      rw [hs.users, hinv.users u, lessBalance_add, hb] at hcommit
      have hcheck := ((hinv.balance.commit (i := i)) u).1 _ hcommit
      have hge : 0 ≤ r.balanceCents - (paidOf d.ledger u + sale.pays u) := hcheck
      unfold balanceOf
      rw [hb]
      change paidOf d.ledger u + sale.pays u ≤ r.balanceCents
      omega

/-- The sale of a COMMIT may be entered. -/
theorem may_commit {sale : Sale} (h₀ : Init d₀) (hinv : Inv hash d₀ d)
    (hl : Loc hash d₀ i d pc) (hc : Commits i pc sale pc') : May d₀ d.ledger sale := by
  have hs := hc.saleOf hl.facts
  have hrecord : ∀ k, sale.key = some k → (d.records k).base = none := by
    intro k hk
    rcases hs.records hash k with ⟨-, hno⟩ | ⟨inp, row, -, -, hrec, -⟩
    · unfold Sale.key at hk
      cases hsrc : sale.source with
      | placeOrder inp row =>
          rw [hsrc] at hk
          exact absurd hk (hno inp row hsrc)
      | checkout job =>
          rw [hsrc] at hk
          cases hk
    · exact hl.record k inp sale.order hrec
  -- proper, new, of a call that has not sold, under a free key, and covered by stock and balance
  refine ⟨hc.proper hl.facts, ?_, ?_, ?_, ?_, ?_, ?_⟩
  · intro s' hs' heq
    obtain ⟨at₀, ho⟩ := hs.order
    obtain ⟨-, r, hr, -⟩ := hinv.placed s' hs'
    rw [heq, (hl.order _ _ ho).2] at hr
    cases hr
  · rw [hs.call]
    have hended := hl.ended
    cases hc with
    | place => exact hended
    | checkout => exact hended
  · intro k hk s' hs' hk'
    have hrec := hrecord k hk
    unfold Sale.key at hk'
    cases hsrc : s'.source with
    | placeOrder inp row =>
        rw [hsrc] at hk'
        rw [hinv.recorded s' hs' inp row hsrc k hk'] at hrec
        cases hrec
    | checkout job =>
        rw [hsrc] at hk'
        cases hk'
  · intro k hk
    cases hb : (d₀.records k).base with
    | none => rfl
    | some r =>
        have hrec := hrecord k hk
        rw [hinv.kept k r hb] at hrec
        cases hrec
  · intro p
    have hsold : soldOf (d.ledger ++ [sale]) p = soldOf d.ledger p + sale.takes p :=
      Ledger.debited_concat Sale.takes _ sale p
    rw [hsold]
    exact sold_le_stock h₀ hinv hl hc p
  · intro u
    have hpaid : paidOf (d.ledger ++ [sale]) u = paidOf d.ledger u + sale.pays u :=
      Ledger.debited_concat Sale.pays _ sale u
    rw [hpaid]
    exact paid_le_balance h₀ hinv hl hc u

end

end Marketplace.Orders

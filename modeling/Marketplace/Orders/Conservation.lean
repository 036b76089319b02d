import Marketplace.Orders.Preservation

/-!
# Orders.Conservation — stock and money

Counted over committed rows only: what left the stock is in `order_items`, what left a
balance was charged by a checkout, and every order placed during the run has its own lines
and its own outbox row or job. Only a call that returns successfully changes any of it.
-/

namespace Marketplace.Orders

open Core Auth Outbox

variable {η : Type} [DecidableEq η] {hash : Request → η} {i : ℕ} {d₀ d d' : Db η}
  {pc pc' : Pc} {a : Stmt}

/-! ## What the rows add up to -/

/-- Quantity of `p` in the order_items that were committed. -/
def soldItems (d : Db η) (p : ProductId) : ℤ :=
  ((d.orderItems.filter fun it => it.line.productId = p).map fun it => it.line.quantity).sum

/-- The lines of order `o`. -/
def itemsOf (d : Db η) (o : OrderId) : List OrderItem :=
  d.orderItems.filter fun it => it.orderId = o

/-- The rows of the orders committed by checkout. -/
def checkoutOrders (d : Db η) : List Order :=
  (d.ledger.filter fun s => s.IsCheckout).filterMap fun s => (d.orders s.order.orderId).base

/-- What the checkouts of user `u` cost. -/
def checkoutTotal (d : Db η) (u : UserId) : ℤ :=
  (((checkoutOrders d).filter fun r => r.userId = u).map Order.totalCents).sum

def outboxOf (d : Db η) (o : OrderId) : List OutboxInsert :=
  d.outbox.filter fun row => row.aggregateId = o

def jobsOf (d : Db η) (o : OrderId) : List Job := d.jobs.filter fun job => job.orderId = o

/-- An order row of the run: its total is that of its lines, and it has one outbox row or
one job, depending on the path that placed it. -/
structure WellPlaced (d : Db η) (s : Sale) (r : Order) : Prop where
  user : r.userId = s.order.userId
  total : r.totalCents = ((itemsOf d s.order.orderId).map fun it => it.line.lineTotalCents).sum
  lines : ∀ it ∈ itemsOf d s.order.orderId,
    it.line.lineTotalCents = it.line.unitPriceCents * it.line.quantity
  placeOrder : ¬ s.IsCheckout →
    (∃ row, outboxOf d s.order.orderId = [row]) ∧ jobsOf d s.order.orderId = []
  checkout : s.IsCheckout →
    (∃ job, jobsOf d s.order.orderId = [job]) ∧ outboxOf d s.order.orderId = []

/-- Stock and money since the shop was `d₀`. -/
structure Conserved (d₀ d : Db η) : Prop where
  stock : ∀ p r, (d.products p).base = some r → ∃ r₀, (d₀.products p).base = some r₀ ∧
    r₀.stock - r.stock = soldItems d p ∧ 0 ≤ r.stock
  products : ∀ p, (d₀.products p).base.isSome → (d.products p).base.isSome
  balance : ∀ u r, (d.users u).base = some r → ∃ r₀, (d₀.users u).base = some r₀ ∧
    r₀.balanceCents - r.balanceCents = checkoutTotal d u ∧ 0 ≤ r.balanceCents
  users : ∀ u, (d₀.users u).base.isSome → (d.users u).base.isSome
  /-- An order is an initial one, with at most its status changed, or it was placed by
  exactly one call. -/
  orders : ∀ o r, (d.orders o).base = some r →
    (∃ r₀ status, (d₀.orders o).base = some r₀ ∧ r = { r₀ with status }) ∨
    ∃ s ∈ d.ledger, s.order.orderId = o ∧ (∀ s' ∈ d.ledger, s'.order.orderId = o → s' = s) ∧
      WellPlaced d s r
  placed : ∀ s ∈ d.ledger, ∃ r, (d.orders s.order.orderId).base = some r ∧ WellPlaced d s r

/-- Of one order the items of a product add up to what its lines took. -/
theorem sold_lines (lines : List Line) (o : OrderId) (p : ProductId) :
    (((lines.map (OrderItem.mk o)).filter fun it => it.line.productId = p).map
      fun it => it.line.quantity).sum = takenOf lines p := by
  rw [Ledger.sum_filter, List.map_map]
  refine congrArg List.sum (List.map_congr_left ?_)
  intro l _
  simp [taken]

/-- Of all orders in a ledger the items of a product add up to what was sold. -/
theorem sold_flatMap (L : List Sale) (p : ProductId) :
    (((L.flatMap fun s => orderItems s.order).filter fun it => it.line.productId = p).map
      fun it => it.line.quantity).sum = soldOf L p := by
  induction L with
  | nil => rfl
  | cons s L ih =>
      rw [List.flatMap_cons, List.filter_append, List.map_append, List.sum_append, ih]
      change _ = (Sale.takes s p) + soldOf L p
      rw [orderItems, sold_lines]
      rfl

section

omit [DecidableEq η]

/-- The item rows account for all that was sold of a product. -/
theorem Inv.soldItems (hinv : Inv hash d₀ d) (p : ProductId) :
    soldItems d p = soldOf d.ledger p := by
  unfold Orders.soldItems
  rw [hinv.orderItems]
  exact sold_flatMap d.ledger p

/-- The checkouts of a user, by their order rows. -/
theorem paid_rows {L : List Sale} (u : UserId)
    (h : ∀ s ∈ L, ∃ r, (d.orders s.order.orderId).base = some r ∧ r.userId = s.order.userId ∧
      r.totalCents = s.order.totalCents) :
    ((((L.filter fun s => s.IsCheckout).filterMap fun s => (d.orders s.order.orderId).base).filter
      fun r => r.userId = u).map Order.totalCents).sum = paidOf L u := by
  induction L with
  | nil => rfl
  | cons s L ih =>
      obtain ⟨r, hr, huser, htotal⟩ := h s List.mem_cons_self
      have hrest := ih fun s' hs' => h s' (List.mem_cons_of_mem _ hs')
      change _ = Sale.pays s u + paidOf L u
      rw [← hrest]
      unfold Sale.pays
      by_cases hc : s.IsCheckout
      · by_cases hu : s.order.userId = u
        · simp [hc, hr, huser, hu, htotal]
        · simp [hc, hr, huser, hu]
      · simp [hc]

theorem Inv.checkoutTotal (hinv : Inv hash d₀ d) (u : UserId) :
    checkoutTotal d u = paidOf d.ledger u :=
  paid_rows u fun s hs => (hinv.placed s hs).2

end

/-! ## The rows of one order -/

section

variable {s : Sale}

section

omit [DecidableEq η]

/-- The item rows of a sale are the lines of its order. -/
theorem Inv.itemsOf (hinv : Inv hash d₀ d) (hs : s ∈ d.ledger) :
    itemsOf d s.order.orderId = Orders.orderItems s.order := by
  unfold Orders.itemsOf
  rw [hinv.orderItems]
  refine Ledger.filter_rows (fun s : Sale => s.order.orderId) OrderItem.orderId
    hinv.book.orders ?_ hs
  intro s' _ it hit
  obtain ⟨l, -, rfl⟩ := List.mem_map.mp hit
  rfl

/-- The outbox rows of a sale are its own one, or none. -/
theorem Inv.outboxOf (hinv : Inv hash d₀ d) (hs : s ∈ d.ledger) :
    outboxOf d s.order.orderId = s.outboxRow.toList := by
  unfold Orders.outboxOf
  rw [hinv.outbox, List.filterMap_eq_flatMap_toList]
  refine Ledger.filter_rows (fun s : Sale => s.order.orderId) OutboxInsert.aggregateId
    hinv.book.orders ?_ hs
  intro s' hs' row hrow
  exact (hinv.book.proper s' hs').outbox row (by simpa using hrow)

/-- The jobs of a sale are its own one, or none. -/
theorem Inv.jobsOf (hinv : Inv hash d₀ d) (hs : s ∈ d.ledger) :
    jobsOf d s.order.orderId = s.job.toList := by
  unfold Orders.jobsOf
  rw [hinv.jobs, List.filterMap_eq_flatMap_toList]
  refine Ledger.filter_rows (fun s : Sale => s.order.orderId) Job.orderId
    hinv.book.orders ?_ hs
  intro s' hs' job hjob
  exact (hinv.book.proper s' hs').job job (by simpa using hjob)

/-- Every sale has an order row, and everything that belongs to it is there once. -/
theorem Inv.wellPlaced (hinv : Inv hash d₀ d) (hs : s ∈ d.ledger) :
    ∃ r, (d.orders s.order.orderId).base = some r ∧ WellPlaced d s r := by
  obtain ⟨-, r, hr, huser, htotal⟩ := hinv.placed s hs
  have hproper := hinv.book.proper s hs
  refine ⟨r, hr, huser, ?_, ?_, ?_, ?_⟩
  · rw [htotal, hproper.total, hinv.itemsOf hs, Orders.orderItems, List.map_map]
    rfl
  · rw [hinv.itemsOf hs]
    intro it hit
    obtain ⟨l, hl, rfl⟩ := List.mem_map.mp hit
    exact (hproper.lines l hl).total
  · intro hc
    rw [hinv.outboxOf hs, hinv.jobsOf hs]
    unfold Sale.IsCheckout at hc
    unfold Sale.outboxRow Sale.job
    cases hsrc : s.source with
    | placeOrder inp row => exact ⟨⟨row, rfl⟩, rfl⟩
    | checkout job =>
        rw [hsrc] at hc
        exact absurd trivial hc
  · intro hc
    rw [hinv.outboxOf hs, hinv.jobsOf hs]
    unfold Sale.IsCheckout at hc
    unfold Sale.outboxRow Sale.job
    cases hsrc : s.source with
    | placeOrder inp row =>
        rw [hsrc] at hc
        exact hc.elim
    | checkout job => exact ⟨⟨job, rfl⟩, rfl⟩

end

end

omit [DecidableEq η] in
/-- The tables are the book, so the book's conservation is that of the rows. -/
theorem Inv.conserved (hinv : Inv hash d₀ d) : Conserved d₀ d where
  stock := by
    intro p r hr
    have hbase := hinv.products p
    rw [hr, lessStock] at hbase
    obtain ⟨r₀, hr₀, rfl⟩ := Option.map_eq_some_iff.mp hbase.symm
    refine ⟨r₀, hr₀, ?_, (hinv.stock p).1 _ hr⟩
    rw [hinv.soldItems]
    exact Int.sub_sub_self _ _
  products := by
    intro p hp
    rw [hinv.products p, lessStock, Option.isSome_map]
    exact hp
  balance := by
    intro u r hr
    have hbase := hinv.users u
    rw [hr, lessBalance] at hbase
    obtain ⟨r₀, hr₀, rfl⟩ := Option.map_eq_some_iff.mp hbase.symm
    refine ⟨r₀, hr₀, ?_, (hinv.balance u).1 _ hr⟩
    rw [hinv.checkoutTotal]
    exact Int.sub_sub_self _ _
  users := by
    intro u hu
    rw [hinv.users u, lessBalance, Option.isSome_map]
    exact hu
  orders := by
    intro o r hr
    -- an order of before the run, untouched, or one that was sold in it
    rcases hinv.orders o r hr with hold | ⟨s, hs, rfl⟩
    · obtain ⟨r₀, hr₀⟩ := Option.isSome_iff_exists.mp hold
      obtain ⟨status, hbase⟩ := hinv.initial o r₀ hr₀
      rw [hr] at hbase
      cases hbase
      exact Or.inl ⟨r₀, status, hr₀, rfl⟩
    · obtain ⟨r', hr', hplaced⟩ := hinv.wellPlaced hs
      rw [hr] at hr'
      cases hr'
      refine Or.inr ⟨s, hs, rfl, ?_, hplaced⟩
      intro s' hs' heq
      exact hinv.book.order_unique hs' hs heq
  placed := fun s hs => hinv.wellPlaced hs

/-! ## Calls that do not succeed -/

/-- The call has returned without an error. -/
def Pc.Succeeded : Pc → Prop
  | .placed _ (.ok _) | .checkedOut (.ok _) | .statusSet (.ok _) => True
  | _ => False

theorem Pc.Succeeded.final (h : pc.Succeeded) (d : Db η) (a : Stmt) :
    stmt hash i d pc a = none := by
  cases pc <;> first | exact h.elim | cases a <;> simp [stmt, Pc.Open]

/-- A statement that does not make its call succeed commits nothing. -/
theorem Effect.uncommitted (he : Effect hash i d pc d' pc') (h : ¬ pc'.Succeeded) :
    Uncommitted d d' := by
  rcases he.cases_commit with hu | ⟨sale, hc, -⟩ | ⟨o, status, -, rfl, -⟩
  · exact hu
  · refine absurd ?_ h
    cases hc <;> trivial
  · exact absurd trivial h

/-- A call that has not succeeded has changed no committed row: not when it threw, not when
it was aborted, and not while it is open. -/
theorem unsuccessful_uncommitted {ok : St η → Label → Prop} {s t u : St η} {as : List Label}
    (h : (machine hash).next s (.call i a) = some t) (hr : (machine hash).Run ok t as u)
    (hu : ¬ (u.proc i).Succeeded) : Uncommitted s.shared t.shared := by
  obtain ⟨d, pc, hst, rfl⟩ := Procs.next_call h
  refine (stmt_effect hst).uncommitted ?_
  intro hsucc
  have hproc : u.proc i = pc := by
    have hfinal := Procs.Run.proc_final (j := i) hr
    rw [show (World.proc ⟨d, Function.update s.proc i pc⟩ i) = pc from Function.update_self ..]
      at hfinal
    exact hfinal fun d a => hsucc.final d a
  rw [hproc] at hu
  exact hu hsucc

/-- A call that placed an order is in the book with it, under its path. -/
structure Returned (s : St η) : Prop where
  placeOrder : ∀ i inp res, s.proc i = .placed inp (.ok res) → res.replayed = false →
    ∃ sale ∈ s.shared.ledger, sale.call = i ∧ ¬ sale.IsCheckout ∧
      sale.order.orderId = res.body.id
  checkout : ∀ i res, s.proc i = .checkedOut (.ok res) →
    ∃ sale ∈ s.shared.ledger, sale.call = i ∧ sale.IsCheckout ∧ sale.order.orderId = res.orderId

/-- A sale by `placeOrder` is none by checkout. -/
theorem Sale.not_checkout {s : Sale} {inp : PlaceOrderInput} {row : OutboxInsert}
    (h : s.source = .placeOrder inp row) : ¬ s.IsCheckout := by
  unfold Sale.IsCheckout
  rw [h]
  exact id

omit [DecidableEq η] in
/-- A call that has returned is answered with what is in the ledger. -/
theorem returned_of_holds {s : St η} (h : Procs.Holds (Inv hash d₀) (Loc hash d₀) s) :
    Returned s where
  placeOrder := by
    intro i inp res hpc hres
    have hended := (h.2 i).ended
    rw [hpc] at hended
    obtain ⟨-, hsale⟩ := hended
    rw [if_neg (by simp [hres])] at hsale
    obtain ⟨sale, hin, hcall, ⟨row, hsrc⟩, hbody⟩ := hsale
    refine ⟨sale, hin, hcall, Sale.not_checkout hsrc, ?_⟩
    rw [hbody]
    rfl
  checkout := by
    intro i res hpc
    have hended := (h.2 i).ended
    rw [hpc] at hended
    exact hended

/-- In every interleaving of placeOrder, checkout and updateStatus calls, with aborts
anywhere, stock and money are conserved; and a statement of a call that ends without
success, at its abort or anywhere before, changes no committed row. -/
theorem conservation (hash : Request → η) (s t : St η) (as : List Label)
    (hs : (machine hash).Init s) (hr : (machine hash).Run Machine.Always s as t) :
    Conserved s.shared t.shared ∧ Returned t ∧
    ∀ i a bs cs u v, as = bs ++ .call i a :: cs → (machine hash).Run Machine.Always s bs u →
      (machine hash).next u (.call i a) = some v → (machine hash).Run Machine.Always v cs t →
      ¬ (t.proc i).Succeeded → Uncommitted u.shared v.shared := by
  have hholds := holds hs hr
  refine ⟨hholds.1.conserved, returned_of_holds hholds, ?_⟩
  intro i a bs cs u v _ _ hn hrest hfail
  exact unsuccessful_uncommitted hn hrest hfail

/-! ## A shop -/

/-- One product, one user and no orders yet; a hash that keeps the whole request. -/
def shop : St Request where
  shared :=
    { products := Table.ofBase fun p => if p = 1 then some ⟨500, 5, true⟩ else none
      users := Table.ofBase fun u => if u = 7 then some ⟨2000⟩ else none
      orders := Table.ofBase fun _ => none
      records := Table.ofBase fun _ => none
      orderItems := [], outbox := [], jobs := [], ledger := []
      now := 1000000, nextOrder := 1, nextEvent := 1, nextJob := 1 }
  proc _ := .idle

/-- The concrete start is a proper one: one product, one user, and nobody there. -/
theorem shop_init (hash : Request → Request) : (machine hash).Init shop := by
  refine ⟨?_, fun _ => rfl⟩
  refine ⟨fun _ => rfl, fun _ => rfl, fun _ => rfl, fun _ => rfl, ?_, ?_, fun _ _ => rfl,
    rfl, rfl, rfl, rfl⟩
  · intro p r hr
    change (if p = 1 then _ else none) = some r at hr
    split at hr
    · cases hr
      decide
    · cases hr
  · intro u r hr
    change (if u = 7 then _ else none) = some r at hr
    split at hr
    · cases hr
      decide
    · cases hr

/-- The next `n` statements of call `i`. -/
def runs (i n : ℕ) : List Label := List.replicate n (.call i .run)

def twoPieces : PlaceOrderInput := ⟨7, [⟨1, 2⟩], some "PL", some "k-1"⟩

/-- Call 0 is aborted after its stock update, call 1 places an order, call 2 checks out, and
call 3 cancels the order of call 1. -/
def fourCalls : List Label :=
  .call 0 (.placeOrder twoPieces) :: runs 0 2 ++ [.call 0 .abort] ++
  .call 1 (.placeOrder twoPieces) :: runs 1 9 ++
  .call 2 (.checkout ⟨7, 1, 3, none⟩) :: runs 2 6 ++
  .call 3 (.updateStatus 1 .cancelled ⟨7, .buyer, 1, 1, 0⟩) :: runs 3 4

/-- Four calls, of which two succeed, and the books balance. -/
theorem conservation_fourCalls : ∃ t : St Request,
    (machine id).Run Machine.Always shop fourCalls t ∧
    (t.shared.products 1).base = some ⟨500, 0, true⟩ ∧
    (t.shared.users 7).base = some ⟨500⟩ ∧
    Conserved shop.shared t.shared := by
  have hrun : ∃ t, (machine (id : Request → Request)).exec (fun _ _ => true) shop fourCalls = some t ∧
      (t.shared.products 1).base = some ⟨500, 0, true⟩ ∧
      (t.shared.users 7).base = some ⟨500⟩ := ⟨_, rfl, rfl, rfl⟩
  obtain ⟨t, ht, hstock, hbalance⟩ := hrun
  have hr := Machine.exec_always ht
  exact ⟨t, hr, hstock, hbalance, (conservation id shop t fourCalls (shop_init id) hr).1⟩

end Marketplace.Orders

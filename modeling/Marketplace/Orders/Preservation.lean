import Marketplace.Orders.Invariant

/-!
# Orders.Preservation — every statement keeps the book

One statement of a call keeps the invariant of the tables, gives the call its next local
fact, and stays within what the other calls rely on. `holds` is the sum over whole runs:
all interleavings of any number of calls, with aborts anywhere.
-/

namespace Marketplace.Orders

open Core Auth Outbox

variable {η : Type} [DecidableEq η] {hash : Request → η} {i j : ℕ} {d₀ d d' : Db η}
  {pc pc' : Pc} {a : Stmt}

/-- No committed row is another one, and none is added. -/
structure Uncommitted (d d' : Db η) : Prop where
  products : ∀ p, (d'.products p).base = (d.products p).base
  users : ∀ u, (d'.users u).base = (d.users u).base
  orders : ∀ o, (d'.orders o).base = (d.orders o).base
  records : ∀ k, (d'.records k).base = (d.records k).base
  added : d'.orderItems = d.orderItems ∧ d'.outbox = d.outbox ∧ d'.jobs = d.jobs ∧
    d'.ledger = d.ledger
  nextOrder : d.nextOrder ≤ d'.nextOrder

section

omit [DecidableEq η]

theorem Uncommitted.refl (d : Db η) : Uncommitted d d :=
  ⟨fun _ => rfl, fun _ => rfl, fun _ => rfl, fun _ => rfl, ⟨rfl, rfl, rfl, rfl⟩, Nat.le_refl _⟩

/-- A statement that leaves the tables alone commits nothing. -/
theorem Uncommitted.of_same (h : SameTables d d') : Uncommitted d d' where
  products _ := by rw [h.products]
  users _ := by rw [h.users]
  orders _ := by rw [h.orders]
  records _ := by rw [h.records]
  added := h.added
  nextOrder := Nat.le_of_eq h.nextOrder.symm

end

/-- Only a COMMIT changes committed rows, and then the call returns a result. -/
theorem Effect.cases_commit (h : Effect hash i d pc d' pc') :
    Uncommitted d d' ∨ (∃ sale, Commits i pc sale pc' ∧ d' = d.commitSale i sale) ∨
    ∃ o status, pc = .statusCommit o status ∧ pc' = .statusSet (.ok o) ∧ d' = d.commit i := by
  cases h with
  | quiet hs => exact Or.inl (Uncommitted.of_same hs)
  | replays => exact Or.inl (Uncommitted.refl d)
  | throws => exact Or.inl (Uncommitted.refl d)
  | take =>
      exact Or.inl { Uncommitted.refl d with products := fun _ => Table.put_base }
  | pay => exact Or.inl { Uncommitted.refl d with users := fun _ => Table.put_base }
  | insert =>
      exact Or.inl
        { Uncommitted.refl d with
          orders := fun _ => Table.put_base
          nextOrder := Nat.le_succ _ }
  | status => exact Or.inl { Uncommitted.refl d with orders := fun _ => Table.put_base }
  | claim => exact Or.inl { Uncommitted.refl d with records := fun _ => Table.put_base }
  | rollback =>
      left
      exact
        { Uncommitted.refl d with
          products := fun _ => Slot.rollback_base
          users := fun _ => Slot.rollback_base
          orders := fun _ => Slot.rollback_base
          records := fun _ => Slot.rollback_base }
  | commitSale hc => exact Or.inr (Or.inl ⟨_, hc, rfl⟩)
  | commitStatus hpc => exact Or.inr (Or.inr ⟨_, _, hpc, rfl, rfl⟩)

/-! ## The checks of the tables -/

/-- No statement makes a stock negative, in any version. -/
theorem Effect.stock (h : Effect hash i d pc d' pc')
    (hd : Table.All (fun _ r => 0 ≤ r.stock) d.products) :
    Table.All (fun _ r => 0 ≤ r.stock) d'.products := by
  cases h with
  | quiet hs => exact hs.products ▸ hd
  | take _ _ _ hle _ _ =>
      refine hd.put ?_
      intro v hv
      cases hv
      exact Int.sub_nonneg_of_le hle
  | rollback => exact hd.rollback
  | commitSale => exact hd.commit
  | commitStatus => exact hd.commit
  | _ => exact hd

/-- No statement makes a balance negative, in any version. -/
theorem Effect.balance (h : Effect hash i d pc d' pc')
    (hd : Table.All (fun _ r => 0 ≤ r.balanceCents) d.users) :
    Table.All (fun _ r => 0 ≤ r.balanceCents) d'.users := by
  cases h with
  | quiet hs => exact hs.users ▸ hd
  | pay _ _ hle _ _ =>
      refine hd.put ?_
      intro v hv
      cases hv
      exact Int.sub_nonneg_of_le hle
  | rollback => exact hd.rollback
  | commitSale => exact hd.commit
  | commitStatus => exact hd.commit
  | _ => exact hd

/-- No statement makes an order with an id that is still to come. -/
theorem Effect.fresh (h : Effect hash i d pc d' pc')
    (hd : ∀ o, d.nextOrder ≤ o → d.orders o = Slot.settled none) :
    ∀ o, d'.nextOrder ≤ o → d'.orders o = Slot.settled none := by
  cases h with
  | quiet hs =>
      rw [hs.nextOrder, hs.orders]
      exact hd
  | insert =>
      intro o ho
      have hlt : d.nextOrder < o := ho
      have hne : o ≠ d.nextOrder := Nat.ne_of_gt hlt
      exact (Table.put_ne hne).trans (hd o (Nat.le_of_lt hlt))
  | @status _ o' r st hv =>
      intro o ho
      have hne : o ≠ o' := by
        rintro rfl
        rw [hd o ho] at hv
        cases hv
      exact (Table.put_ne hne).trans (hd o ho)
  | rollback =>
      intro o ho
      change (d.orders o).rollback i = _
      rw [hd o ho]
      rfl
  | commitSale => exact fresh_commit hd
  | commitStatus => exact fresh_commit hd
  | _ => exact hd

/-! ## The invariant -/

/-- A step that commits nothing keeps the invariant, which is about committed rows. -/
theorem Inv.uncommitted (hinv : Inv hash d₀ d) (he : Effect hash i d pc d' pc')
    (h : Uncommitted d d') : Inv hash d₀ d' := by
  obtain ⟨hitems, hout, hjobs, hledger⟩ := h.added
  refine
    { book := by rw [hledger]; exact hinv.book
      products := by
        intro p
        rw [hledger, h.products p]
        exact hinv.products p
      users := by
        intro u
        rw [hledger, h.users u]
        exact hinv.users u
      stock := he.stock hinv.stock
      balance := he.balance hinv.balance
      fresh := he.fresh hinv.fresh
      placed := ?_
      orders := by
        intro o r hr
        rw [hledger]
        exact hinv.orders o r (h.orders o ▸ hr)
      initial := by
        intro o r hr
        rw [h.orders o]
        exact hinv.initial o r hr
      kept := by
        intro k r hr
        rw [h.records k]
        exact hinv.kept k r hr
      recorded := by
        rw [hledger]
        intro s hs inp row hsrc k hk
        rw [h.records k]
        exact hinv.recorded s hs inp row hsrc k hk
      records := by
        intro k r hr
        rw [hledger]
        exact hinv.records k r (h.records k ▸ hr)
      orderItems := by rw [hitems, hledger]; exact hinv.orderItems
      outbox := by rw [hout, hledger]; exact hinv.outbox
      jobs := by rw [hjobs, hledger]; exact hinv.jobs }
  intro s hs
  rw [hledger] at hs
  -- a sale's order row may have a new status, and nothing else
  obtain ⟨hlt, hr⟩ := hinv.placed s hs
  refine ⟨Nat.lt_of_lt_of_le hlt h.nextOrder, ?_⟩
  rw [h.orders]
  exact hr

section

omit [DecidableEq η]

/-- What a COMMIT makes of the orders: the new row, and the others as they were. -/
theorem Loc.commit_orders {sale : Sale} (hl : Loc hash d₀ i d pc) (hc : Commits i pc sale pc') :
    (d.orders sale.order.orderId).base = none ∧ sale.order.orderId < d.nextOrder ∧
    (∃ at₀, (d.orders.commit i sale.order.orderId).base = some (toOrderRow sale.order at₀)) ∧
    ∀ o, o ≠ sale.order.orderId → (d.orders.commit i o).base = (d.orders o).base := by
  have hs := hc.saleOf hl.facts
  obtain ⟨-, -, hbo, -⟩ := (hl.drafted hc.not_rolling.1).commit_base
  obtain ⟨at₀, hord⟩ := hs.order
  obtain ⟨hlt, hb⟩ := hl.order _ _ hord
  obtain ⟨at₁, hδ⟩ := hs.orders
  refine ⟨hb, hlt, ⟨at₁, ?_⟩, ?_⟩
  · rw [hbo, hδ, Function.update_self]
    rfl
  · intro o ho
    rw [hbo, hδ, Function.update_of_ne ho]
    rfl

/-- What a COMMIT makes of the records: the one of its key, and the others as they were. -/
theorem Loc.commit_records {sale : Sale} (hl : Loc hash d₀ i d pc) (hc : Commits i pc sale pc') :
    (∀ inp row k, sale.source = .placeOrder inp row → inp.key = some k →
      (d.records k).base = none ∧
      (d.records.commit i k).base = some (toRecord hash inp sale.order)) ∧
    ∀ k, sale.key ≠ some k → (d.records.commit i k).base = (d.records k).base := by
  have hs := hc.saleOf hl.facts
  obtain ⟨-, -, -, hbr⟩ := (hl.drafted hc.not_rolling.1).commit_base
  constructor
  · intro inp row k hsrc hk
    rcases hs.records hash k with ⟨-, hno⟩ | ⟨inp', row', hsrc', -, hrec, hown⟩
    · exact absurd hk (hno inp row hsrc)
    · rw [hsrc] at hsrc'
      cases hsrc'
      refine ⟨hl.record k inp sale.order hrec, ?_⟩
      rw [hbr, hown]
      rfl
  · intro k hk
    rcases hs.records hash k with ⟨hown, -⟩ | ⟨inp', row', hsrc', hk', -⟩
    · rw [hbr, hown]
      rfl
    · refine absurd ?_ hk
      unfold Sale.key
      rw [hsrc']
      exact hk'

end

theorem Sale.key_of_source {s : Sale} {inp : PlaceOrderInput} {row : OutboxInsert}
    (h : s.source = .placeOrder inp row) : s.key = inp.key := by
  unfold Sale.key
  rw [h]

/-- A sale with a key is one of `placeOrder`. -/
theorem Sale.source_of_key {s : Sale} {k : String} (h : s.key = some k) :
    ∃ inp row, s.source = .placeOrder inp row ∧ inp.key = some k := by
  unfold Sale.key at h
  cases hsrc : s.source with
  | placeOrder inp row =>
      rw [hsrc] at h
      exact ⟨inp, row, rfl, h⟩
  | checkout job =>
      rw [hsrc] at h
      cases h

section

omit [DecidableEq η]

/-- COMMIT of a sale enters it into the book. -/
theorem Inv.commitSale {sale : Sale} (h₀ : Init d₀) (hinv : Inv hash d₀ d)
    (hl : Loc hash d₀ i d pc) (hc : Commits i pc sale pc') :
    Inv hash d₀ (d.commitSale i sale) := by
  have hs := hc.saleOf hl.facts
  obtain ⟨hbp, hbu, -, -⟩ := (hl.drafted hc.not_rolling.1).commit_base
  obtain ⟨hnone, hlt, ⟨at₀, hrow⟩, horders⟩ := hl.commit_orders hc
  obtain ⟨hown, hrecords⟩ := hl.commit_records hc
  refine
    { book := Ledger.Legal.concat hinv.book (may_commit h₀ hinv hl hc)
      products := ?_
      users := ?_
      stock := hinv.stock.commit
      balance := hinv.balance.commit
      fresh := fresh_commit hinv.fresh
      placed := ?_
      orders := ?_
      initial := ?_
      kept := ?_
      recorded := ?_
      records := ?_
      orderItems := ?_
      outbox := ?_
      jobs := ?_ }
  · intro p
    have hsold : soldOf (d.ledger ++ [sale]) p = soldOf d.ledger p + sale.takes p :=
      Ledger.debited_concat Sale.takes _ sale p
    change (d.products.commit i p).base = lessStock (soldOf (d.ledger ++ [sale]) p) _
    rw [hbp, hinv.products p, lessStock_add, hsold, Sale.takes, hs.lines]
  · intro u
    have hpaid : paidOf (d.ledger ++ [sale]) u = paidOf d.ledger u + sale.pays u :=
      Ledger.debited_concat Sale.pays _ sale u
    change (d.users.commit i u).base = lessBalance (paidOf (d.ledger ++ [sale]) u) _
    rw [hbu, hs.users, hinv.users u, lessBalance_add, hpaid]
  · intro s hin
    rcases List.mem_append.mp hin with hin | hin
    · obtain ⟨hlt', r, hr, hrest⟩ := hinv.placed s hin
      refine ⟨hlt', r, ?_, hrest⟩
      have hne : s.order.orderId ≠ sale.order.orderId := by
        intro heq
        rw [heq, hnone] at hr
        cases hr
      exact (horders _ hne).trans hr
    · rw [List.mem_singleton.mp hin]
      exact ⟨hlt, _, hrow, rfl, rfl⟩
  · intro o r hr
    by_cases ho : o = sale.order.orderId
    · exact Or.inr ⟨sale, List.mem_append_right _ (List.mem_singleton.mpr rfl), ho.symm⟩
    · rcases hinv.orders o r ((horders o ho).symm.trans hr) with hold | ⟨s, hin, heq⟩
      · exact Or.inl hold
      · exact Or.inr ⟨s, List.mem_append_left _ hin, heq⟩
  · intro o r hr
    obtain ⟨status, hbase⟩ := hinv.initial o r hr
    have hne : o ≠ sale.order.orderId := by
      rintro rfl
      rw [hnone] at hbase
      cases hbase
    exact ⟨status, (horders o hne).trans hbase⟩
  · intro k r hr
    have hbase := hinv.kept k r hr
    -- the key of this sale was free, so no record of before is overwritten
    by_cases hk : sale.key = some k
    · obtain ⟨inp, row, hsrc, hkey⟩ := Sale.source_of_key hk
      rw [(hown inp row k hsrc hkey).1] at hbase
      cases hbase
    · exact (hrecords k hk).trans hbase
  · intro s hin inp row hsrc k hkey
    rcases List.mem_append.mp hin with hin | hin
    · have hbase := hinv.recorded s hin inp row hsrc k hkey
      by_cases hk : sale.key = some k
      · obtain ⟨inp', row', hsrc', hkey'⟩ := Sale.source_of_key hk
        rw [(hown inp' row' k hsrc' hkey').1] at hbase
        cases hbase
      · exact (hrecords k hk).trans hbase
    · rw [List.mem_singleton.mp hin] at hsrc ⊢
      exact (hown inp row k hsrc hkey).2
  · intro k r hr
    by_cases hk : sale.key = some k
    · exact Or.inr ⟨sale, List.mem_append_right _ (List.mem_singleton.mpr rfl), hk⟩
    · rcases hinv.records k r ((hrecords k hk).symm.trans hr) with hold | ⟨s, hin, heq⟩
      · exact Or.inl hold
      · exact Or.inr ⟨s, List.mem_append_left _ hin, heq⟩
  · change d.orderItems ++ Orders.orderItems sale.order = (d.ledger ++ [sale]).flatMap _
    rw [hinv.orderItems]
    simp
  · change d.outbox ++ _ = (d.ledger ++ [sale]).filterMap _
    rw [hinv.outbox, List.filterMap_append]
    congr 1
    unfold Sale.outboxRow
    cases hsrc : sale.source <;> simp [hsrc]
  · change d.jobs ++ _ = (d.ledger ++ [sale]).filterMap _
    rw [hinv.jobs, List.filterMap_append]
    congr 1
    unfold Sale.job
    cases hsrc : sale.source <;> simp [hsrc]

/-- COMMIT of a status changes the status of one order and nothing else. -/
theorem Loc.commit_status {o : OrderId} {status : OrderStatus}
    (hl : Loc hash d₀ i d (.statusCommit o status)) :
    (∀ p, (d.products.commit i p).base = (d.products p).base) ∧
    (∀ u, (d.users.commit i u).base = (d.users u).base) ∧
    (∀ o', (d.orders.commit i o').base = (d.orders o').base.map fun r =>
      if o' = o then { r with status } else r) ∧
    ∀ k, (d.records.commit i k).base = (d.records k).base := by
  obtain ⟨hbp, hbu, hbo, hbr⟩ := (hl.drafted id).commit_base
  refine ⟨?_, hbu, ?_, hbr⟩
  · intro p
    rw [hbp]
    exact congrFun lessStock_zero _
  · intro o'
    rw [hbo]
    change ((Function.update (fun _ => none) o (some _) : OrderId → Option _) o').getD id _ = _
    by_cases ho : o' = o
    · subst ho
      simp
    · simp [ho]

/-- The COMMIT of a status keeps the invariant: no amount is touched. -/
theorem Inv.commitStatus {o : OrderId} {status : OrderStatus} (hinv : Inv hash d₀ d)
    (hl : Loc hash d₀ i d (.statusCommit o status)) : Inv hash d₀ (d.commit i) := by
  obtain ⟨hbp, hbu, hbo, hbr⟩ := hl.commit_status
  refine
    { book := hinv.book
      products := fun p => (hbp p).trans (hinv.products p)
      users := fun u => (hbu u).trans (hinv.users u)
      stock := hinv.stock.commit
      balance := hinv.balance.commit
      fresh := fresh_commit hinv.fresh
      placed := ?_
      orders := ?_
      initial := ?_
      kept := fun k r hr => (hbr k).trans (hinv.kept k r hr)
      recorded := fun s hs inp row hsrc k hk =>
        (hbr k).trans (hinv.recorded s hs inp row hsrc k hk)
      records := fun k r hr => hinv.records k r ((hbr k).symm.trans hr)
      orderItems := hinv.orderItems
      outbox := hinv.outbox
      jobs := hinv.jobs }
  · intro s hs
    obtain ⟨hlt, r, hr, huser, htotal⟩ := hinv.placed s hs
    refine ⟨hlt, _, (hbo s.order.orderId).trans (by rw [hr]; rfl), ?_⟩
    dsimp only
    split
    · exact ⟨huser, htotal⟩
    · exact ⟨huser, htotal⟩
  · intro o' r hr
    have hmap := (hbo o').symm.trans hr
    rw [Option.map_eq_some_iff] at hmap
    obtain ⟨r', hr', -⟩ := hmap
    exact hinv.orders o' r' hr'
  · intro o' r hr
    obtain ⟨status', hbase⟩ := hinv.initial o' r hr
    by_cases ho : o' = o
    · subst ho
      exact ⟨status, (hbo o').trans (by simp [hbase])⟩
    · exact ⟨status', (hbo o').trans (by simp [hbase, ho])⟩

end

/-- Every statement keeps the invariant. -/
theorem Effect.inv (h₀ : Init d₀) (hinv : Inv hash d₀ d) (hl : Loc hash d₀ i d pc)
    (he : Effect hash i d pc d' pc') : Inv hash d₀ d' := by
  rcases he.cases_commit with h | ⟨sale, hc, rfl⟩ | ⟨o, status, rfl, rfl, rfl⟩
  · exact hinv.uncommitted he h
  · exact hinv.commitSale h₀ hl hc
  · exact hinv.commitStatus hl

/-! ## What the others rely on -/

/-- A write to one table that others have not locked. -/
theorem Effect.kept (hne : j ≠ i) (hfresh : ∀ o, d.nextOrder ≤ o → d.orders o = Slot.settled none)
    (he : Effect hash i d pc d' pc') :
    Table.Kept j d.products d'.products ∧ Table.Kept j d.users d'.users ∧
    Table.Kept j d.orders d'.orders ∧ Table.Kept j d.records d'.records := by
  have hp := Table.Kept.refl j d.products
  have hu := Table.Kept.refl j d.users
  have ho := Table.Kept.refl j d.orders
  have hr := Table.Kept.refl j d.records
  cases he with
  | quiet hs => exact ⟨hs.products ▸ hp, hs.users ▸ hu, hs.orders ▸ ho, hs.records ▸ hr⟩
  | replays => exact ⟨hp, hu, ho, hr⟩
  | throws => exact ⟨hp, hu, ho, hr⟩
  | take _ hfree => exact ⟨Table.Kept.put hne.symm hfree, hu, ho, hr⟩
  | pay _ hfree => exact ⟨hp, Table.Kept.put hne.symm hfree, ho, hr⟩
  | insert =>
      refine ⟨hp, hu, Table.Kept.put hne.symm ?_, hr⟩
      rw [hfresh _ (Nat.le_refl _)]
      intro _ _ hl
      cases hl
  | status _ hfree => exact ⟨hp, hu, Table.Kept.put hne.symm hfree, hr⟩
  | claim _ hfree => exact ⟨hp, hu, ho, Table.Kept.put hne.symm hfree⟩
  | rollback =>
      exact ⟨Table.Kept.rollback hne.symm, Table.Kept.rollback hne.symm,
        Table.Kept.rollback hne.symm, Table.Kept.rollback hne.symm⟩
  | commitSale =>
      exact ⟨Table.Kept.commit hne.symm, Table.Kept.commit hne.symm,
        Table.Kept.commit hne.symm, Table.Kept.commit hne.symm⟩
  | commitStatus =>
      exact ⟨Table.Kept.commit hne.symm, Table.Kept.commit hne.symm,
        Table.Kept.commit hne.symm, Table.Kept.commit hne.symm⟩

/-- Every statement does to the others what they rely on. -/
theorem Effect.rely (hne : j ≠ i) (hinv : Inv hash d₀ d) (hl : Loc hash d₀ i d pc)
    (he : Effect hash i d pc d' pc') : Rely j d d' := by
  obtain ⟨hp, hu, ho, hr⟩ := he.kept hne hinv.fresh
  rcases he.cases_commit with h | ⟨sale, hc, rfl⟩ | ⟨o, status, rfl, rfl, rfl⟩
  · exact
      { products := hp, users := hu, orders := ho, records := hr
        nextOrder := h.nextOrder
        ordered := fun o hs => by rw [h.orders o]; exact hs
        recorded := fun k r hr => (h.records k).trans hr
        ledger := Or.inl h.added.2.2.2 }
  · obtain ⟨hnone, -, ⟨at₀, hrow⟩, horders⟩ := hl.commit_orders hc
    obtain ⟨hown, hrecords⟩ := hl.commit_records hc
    refine
      { products := hp, users := hu, orders := ho, records := hr
        nextOrder := Nat.le_refl _
        ordered := ?_
        recorded := ?_
        ledger := Or.inr ⟨sale, ?_, rfl⟩ }
    · intro o hs
      have hne' : o ≠ sale.order.orderId := by
        rintro rfl
        rw [hnone] at hs
        cases hs
      change (d.orders.commit i o).base.isSome = true
      rw [horders o hne']
      exact hs
    · intro k r hr
      by_cases hk : sale.key = some k
      · obtain ⟨inp, row, hsrc, hkey⟩ := Sale.source_of_key hk
        rw [(hown inp row k hsrc hkey).1] at hr
        cases hr
      · exact (hrecords k hk).trans hr
    · rw [(hc.saleOf hl.facts).call]
      exact hne.symm
  · obtain ⟨-, -, hbo, hbr⟩ := hl.commit_status
    refine
      { products := hp, users := hu, orders := ho, records := hr
        nextOrder := Nat.le_refl _
        ordered := ?_
        recorded := fun k r hr => (hbr k).trans hr
        ledger := Or.inl rfl }
    intro o' hs
    change (d.orders.commit i o').base.isSome = true
    rw [hbo o', Option.isSome_map]
    exact hs

/-! ## The next local fact -/

/-- A call that has answered takes no further step. -/
theorem stmt_open (h : stmt hash i d pc a = some (d', pc')) : ¬ pc.Answers := by
  cases pc with
  | placed inp result => cases a <;> simp [stmt, Pc.Open] at h
  | checkedOut result => cases a <;> simp [stmt, Pc.Open] at h
  | _ => exact id

omit [DecidableEq η] in
/-- A call that has not answered has sold nothing. -/
theorem Ended.of_not_answers (h : ¬ pc.Answers) :
    Ended hash i d pc ↔ ∀ s ∈ d.ledger, s.call ≠ i := by
  cases pc with
  | placed inp result =>
      cases result with
      | error err => exact Iff.rfl
      | ok res => exact absurd trivial h
  | checkedOut result =>
      cases result with
      | error err => exact Iff.rfl
      | ok res => exact absurd trivial h
  | _ => exact Iff.rfl

/-- A stored answer is that of a record with the same request. -/
theorem findReplay_ok {key : String} {inp : PlaceOrderInput} {res : PlaceOrderResult}
    (h : findReplay hash d key inp = some (.ok res)) :
    ∃ r, (d.records key).base = some r ∧ r.requestHash = hash inp.request ∧
      res = ⟨r.responseStatus, r.responseBody, true⟩ := by
  unfold findReplay at h
  rw [Option.map_eq_some_iff] at h
  obtain ⟨r, hr, h⟩ := h
  split at h
  · cases h
  · next hh =>
      cases h
      exact ⟨r, hr, not_not.mp hh, rfl⟩

/-- Every statement keeps ledger and answers in step: whoever answers with a sale has sold, and
nobody else. -/
theorem Effect.ended (hn : ∀ s ∈ d.ledger, s.call ≠ i) (hl : Loc hash d₀ i d pc)
    (he : Effect hash i d pc d' pc') : Ended hash i d' pc' := by
  have quiet : ∀ {q}, ¬ q.Answers → d'.ledger = d.ledger → Ended hash i d' q := by
    intro q hq hledger
    rw [Ended.of_not_answers hq, hledger]
    exact hn
  have drafts : pc'.draft ≠ Draft.empty → ¬ pc'.Answers := fun h ha => h ha.draft_empty
  cases he with
  | quiet hs _ ha => exact quiet ha hs.added.2.2.2
  | replays hkey hr =>
      obtain ⟨r, hbase, hhash, rfl⟩ := findReplay_ok hr
      refine ⟨?_, ?_⟩
      · intro k hk
        rw [hkey] at hk
        cases hk
        exact ⟨r, hbase, hhash, rfl, rfl⟩
      · rw [if_pos rfl]
        exact hn
  | throws hr =>
      refine quiet ?_ rfl
      cases pc' <;> first | exact id | exact hr.elim
  | take _ _ _ _ _ hdraft =>
      refine quiet (drafts ?_) rfl
      intro hempty
      rw [hdraft] at hempty
      have hlines := congrArg Draft.lines hempty
      simp [Draft.empty] at hlines
  | pay _ _ _ _ _ hdraft =>
      refine quiet (drafts ?_) rfl
      intro hempty
      rw [hdraft] at hempty
      cases congrArg Draft.pays hempty
  | insert _ _ _ hdraft =>
      refine quiet (drafts ?_) rfl
      intro hempty
      rw [hdraft] at hempty
      cases congrArg Draft.order hempty
  | status _ _ _ _ hdraft =>
      refine quiet (drafts ?_) rfl
      intro hempty
      rw [hdraft] at hempty
      cases congrArg Draft.status hempty
  | claim _ _ _ _ hdraft =>
      refine quiet (drafts ?_) rfl
      intro hempty
      rw [hdraft] at hempty
      cases congrArg Draft.record hempty
  | rollback _ ha => exact quiet ha rfl
  -- the sale this COMMIT brings is the last of the ledger
  | @commitSale _ sale hc =>
      obtain ⟨hown, -⟩ := hl.commit_records hc
      have hlast : ∀ s, s ∈ d.ledger ++ [s] :=
        fun s => List.mem_append_right _ (List.mem_singleton.mpr rfl)
      cases hc with
      | @place inp at₀ order row =>
          refine ⟨?_, ?_⟩
          · intro k hk
            exact ⟨_, (hown inp row k rfl hk).2, rfl, rfl, rfl⟩
          · rw [if_neg (by simp)]
            exact ⟨_, hlast _, rfl, ⟨row, rfl⟩, rfl⟩
      | checkout => exact ⟨_, hlast _, rfl, trivial, rfl⟩
  | commitStatus => exact quiet id rfl

omit [DecidableEq η] in
theorem Priced.nil : Priced d₀ [] := fun _ hl => by cases hl

/-- Every statement keeps the lines in hand priced by the shop. -/
theorem Effect.priced (hinv : Inv hash d₀ d) (hl : Loc hash d₀ i d pc)
    (he : Effect hash i d pc d' pc') : Priced d₀ pc'.draft.lines := by
  cases he with
  | quiet _ _ _ hdraft => rw [hdraft]; exact hl.priced
  | replays => exact Priced.nil
  | throws hr => rw [hr.draft_empty]; exact Priced.nil
  | @take _ item r hv _ hact _ hroll hdraft =>
      rw [hdraft]
      intro l hin
      rcases List.mem_append.mp hin with hin | hin
      · exact hl.priced l hin
      · rw [List.mem_singleton.mp hin]
        have hview := (hl.drafted hroll).products.view item.productId
        rw [hv, Draft.products_apply, hinv.products, lessStock_add] at hview
        have hsome := hview.symm
        rw [lessStock, Option.map_eq_some_iff] at hsome
        obtain ⟨r₀, hr₀, rfl⟩ := hsome
        exact ⟨r₀, hr₀, hact, rfl⟩
  | pay _ _ _ _ _ hdraft => rw [hdraft]; exact hl.priced
  | insert _ _ _ hdraft => rw [hdraft]; exact hl.priced
  | status _ _ _ _ hdraft => rw [hdraft]; exact Priced.nil
  | claim _ _ _ _ hdraft => rw [hdraft]; exact hl.priced
  | rollback _ _ hdraft => rw [hdraft]; exact Priced.nil
  | commitSale hc => rw [hc.not_rolling.2.2]; exact Priced.nil
  | commitStatus => exact Priced.nil

/-- Whoever is to pay is a user of the shop. -/
theorem Effect.pays (hinv : Inv hash d₀ d) (hl : Loc hash d₀ i d pc)
    (he : Effect hash i d pc d' pc') :
    ∀ u c, pc'.draft.pays = some (u, c) → (d₀.users u).base.isSome := by
  intro u c hp
  cases he with
  | quiet _ _ _ hdraft => exact hl.pays u c (hdraft ▸ hp)
  | replays => cases hp
  | throws hr => rw [hr.draft_empty] at hp; cases hp
  | take _ _ _ _ _ hdraft => rw [hdraft] at hp; exact hl.pays u c hp
  | @pay _ u' r cents hv _ _ hroll hnone hdraft =>
      rw [hdraft] at hp
      cases hp
      have hview := (hl.drafted hroll).users.view u
      rw [hv, Draft.users_apply, hinv.users, lessBalance_add] at hview
      have hsome := congrArg Option.isSome hview
      rw [lessBalance, Option.isSome_map] at hsome
      exact hsome.symm
  | insert _ _ _ hdraft => rw [hdraft] at hp; exact hl.pays u c hp
  | status _ _ _ _ hdraft => rw [hdraft] at hp; cases hp
  | claim _ _ _ _ hdraft => rw [hdraft] at hp; exact hl.pays u c hp
  | rollback _ _ hdraft => rw [hdraft] at hp; cases hp
  | commitSale hc => rw [hc.not_rolling.2.2] at hp; cases hp
  | commitStatus => cases hp

/-- The order in hand has an id that was drawn, and no committed row. -/
theorem Effect.order (hinv : Inv hash d₀ d) (hl : Loc hash d₀ i d pc)
    (he : Effect hash i d pc d' pc') :
    ∀ o row, pc'.draft.order = some (o, row) →
      o < d'.nextOrder ∧ (d'.orders o).base = none := by
  intro o row ho
  cases he with
  | quiet hs _ _ hdraft =>
      rw [hs.nextOrder, hs.orders]
      exact hl.order o row (hdraft ▸ ho)
  | replays => cases ho
  | throws hr => rw [hr.draft_empty] at ho; cases ho
  | take _ _ _ _ _ hdraft => rw [hdraft] at ho; exact hl.order o row ho
  | pay _ _ _ _ _ hdraft => rw [hdraft] at ho; exact hl.order o row ho
  | insert _ _ _ hdraft =>
      rw [hdraft] at ho
      cases ho
      refine ⟨Nat.lt_succ_self _, Table.put_base.trans ?_⟩
      rw [hinv.fresh _ (Nat.le_refl _)]
      rfl
  | status _ _ _ _ hdraft => rw [hdraft] at ho; cases ho
  | claim _ _ _ _ hdraft => rw [hdraft] at ho; exact hl.order o row ho
  | rollback _ _ hdraft => rw [hdraft] at ho; cases ho
  | commitSale hc => rw [hc.not_rolling.2.2] at ho; cases ho
  | commitStatus => cases ho

/-- The order whose status is in hand is there. -/
theorem Effect.statusOf (hl : Loc hash d₀ i d pc) (he : Effect hash i d pc d' pc') :
    ∀ o st, pc'.draft.status = some (o, st) → (d'.orders o).base.isSome := by
  intro o st ho
  cases he with
  | quiet hs _ _ hdraft => rw [hs.orders]; exact hl.status o st (hdraft ▸ ho)
  | replays => cases ho
  | throws hr => rw [hr.draft_empty] at ho; cases ho
  | take _ _ _ _ _ hdraft => rw [hdraft] at ho; exact hl.status o st ho
  | pay _ _ _ _ _ hdraft => rw [hdraft] at ho; exact hl.status o st ho
  | insert _ _ hnone hdraft => rw [hdraft] at ho; rw [hnone] at ho; cases ho
  | @status _ o' r st' hv _ hroll hempty hdraft =>
      rw [hdraft] at ho
      cases ho
      have hview := (hl.drafted hroll).orders.view o
      rw [hempty] at hview
      rw [show (d.putOrder i o { r with status := st }).orders o = _ from Table.put_self,
        Slot.put_base, ← show _ = (d.orders o).base from hview, hv]
      rfl
  | claim _ _ _ _ hdraft => rw [hdraft] at ho; exact hl.status o st ho
  | rollback _ _ hdraft => rw [hdraft] at ho; cases ho
  | commitSale hc => rw [hc.not_rolling.2.2] at ho; cases ho
  | commitStatus => cases ho

/-- The key in hand has no committed record. -/
theorem Effect.record (hl : Loc hash d₀ i d pc) (he : Effect hash i d pc d' pc') :
    ∀ k inp order, pc'.draft.record = some (k, inp, order) → (d'.records k).base = none := by
  intro k inp order hk
  cases he with
  | quiet hs _ _ hdraft => rw [hs.records]; exact hl.record k inp order (hdraft ▸ hk)
  | replays => cases hk
  | throws hr => rw [hr.draft_empty] at hk; cases hk
  | take _ _ _ _ _ hdraft => rw [hdraft] at hk; exact hl.record k inp order hk
  | pay _ _ _ _ _ hdraft => rw [hdraft] at hk; exact hl.record k inp order hk
  | insert _ _ _ hdraft => rw [hdraft] at hk; exact hl.record k inp order hk
  | status _ _ _ _ hdraft => rw [hdraft] at hk; cases hk
  | @claim _ key inp' order' hv _ hroll hnone hdraft =>
      rw [hdraft] at hk
      cases hk
      have hview := (hl.drafted hroll).records.view k
      unfold Draft.records at hview
      rw [hnone, hv] at hview
      exact Table.put_base.trans hview.symm
  | rollback _ _ hdraft => rw [hdraft] at hk; cases hk
  | commitSale hc => rw [hc.not_rolling.2.2] at hk; cases hk
  | commitStatus => cases hk

/-- An item that was inserted fits its columns, and is none of a product that was inserted before.
-/
theorem itemOk_cases {inserted : List Line} {l : Line} (h : itemOk inserted l = true)
    (hok : ItemsOk inserted) : ItemsOk (inserted ++ [l]) := by
  unfold itemOk at h
  rw [Bool.and_eq_true, decide_eq_true_eq, List.all_eq_true] at h
  obtain ⟨⟨hlo, hhi, -, -, htotal⟩, hdistinct⟩ := h
  refine ⟨?_, ?_⟩
  · intro l' hl'
    rcases List.mem_append.mp hl' with hl' | hl'
    · exact hok.1 l' hl'
    · rw [List.mem_singleton.mp hl']
      exact ⟨⟨hlo, hhi⟩, htotal⟩
  · rw [List.pairwise_append]
    refine ⟨hok.2, List.pairwise_singleton _ _, ?_⟩
    intro l' hl' l'' hl''
    rw [List.mem_singleton.mp hl'']
    simpa using hdistinct l' hl'

theorem ItemsOk.nil : ItemsOk [] := ⟨fun l hl => (by cases hl), List.Pairwise.nil⟩

/-- If all items can be inserted, all of them fit. -/
theorem itemsTaken_itemsOk {inserted rest : List Line} (h : itemsTaken inserted rest = true)
    (hok : ItemsOk inserted) : ItemsOk (inserted ++ rest) := by
  induction rest generalizing inserted with
  | nil => rwa [List.append_nil]
  | cons l rest ih =>
      rw [itemsTaken, Bool.and_eq_true] at h
      have hnext := ih h.2 (itemOk_cases h.1 hok)
      rwa [List.append_assoc] at hnext

omit [DecidableEq η] in
theorem Inserts.items_eq {userId : UserId} {country : String} {at₀ : ℕ} {lines : List Line}
    {order : PlacedOrder} (h : Inserts d userId country at₀ lines order) :
    order.items = lines := by
  rw [h.order_eq]

/-- What a call's program point says of the data in hand stays true from point to point. -/
theorem stmt_facts (h : stmt hash i d pc a = some (d', pc')) (hf : Facts pc) : Facts pc' := by
  cases stmt_branch h with
  | unkeyed _ => rfl
  | unclaimed _ => rfl
  | @take inp _ item rest lines r _ =>
      have hmap : lines.map _ ++ item :: rest = inp.sortedItems := hf
      change (lines ++ [toLine item r.priceCents]).map _ ++ rest = _
      rw [List.map_append, List.append_assoc]
      exact hmap
  | @taken inp _ lines =>
      have hmap : lines.map _ ++ [] = inp.sortedItems := hf
      rwa [List.append_nil] at hmap
  | order hi =>
      refine ⟨⟨?_, ?_⟩, ?_, ItemsOk.nil⟩
      · rw [hi.items_eq]
        rw [hi.order_eq]
      · rw [hi.items_eq]
        exact hf
      · rw [hi.items_eq]
        rfl
  -- one more line has gone into the table, and it was the next one
  | item hok =>
      obtain ⟨hb, hitems, hinserted⟩ := hf
      refine ⟨hb, ?_, itemOk_cases hok hinserted⟩
      rw [hitems, List.append_assoc]
      rfl
  | toClaim _ =>
      obtain ⟨hb, hitems, hinserted⟩ := hf
      rw [List.append_nil] at hitems
      exact ⟨hb, hitems ▸ hinserted⟩
  | toOutbox _ =>
      obtain ⟨hb, hitems, hinserted⟩ := hf
      rw [List.append_nil] at hitems
      exact ⟨hb, hitems ▸ hinserted⟩
  | claim _ _ _ => exact hf
  | outbox => exact ⟨hf.1, hf.2, rfl⟩
  | coOrder hi =>
      rw [hi.order_eq]
      exact ⟨rfl, by simp [totalOf], rfl⟩
  | coItem hok =>
      obtain ⟨hitems, htotal, huser⟩ := hf
      exact ⟨hitems, htotal, huser, itemOk_cases hok ItemsOk.nil⟩
  | coJob =>
      obtain ⟨hitems, htotal, huser, hok⟩ := hf
      exact ⟨hitems, htotal, huser, hok, rfl⟩
  -- nothing is known there
  | _ => trivial

/-- One statement gives its call the next local fact. -/
theorem stmt_loc (hinv : Inv hash d₀ d) (hl : Loc hash d₀ i d pc)
    (h : stmt hash i d pc a = some (d', pc')) : Loc hash d₀ i d' pc' := by
  have he := stmt_effect h
  exact
    { drafted := he.drafted hl.drafted
      priced := he.priced hinv hl
      pays := he.pays hinv hl
      order := he.order hinv hl
      status := he.statusOf hl
      record := he.record hl
      facts := stmt_facts h hl.facts
      ended := he.ended ((Ended.of_not_answers (stmt_open h)).mp hl.ended) hl }

/-! ## Whole runs -/

section

omit [DecidableEq η]

/-- At the start the invariant holds: nothing is sold. -/
theorem Inv.init (h : Init d₀) : Inv hash d₀ d₀ := by
  obtain ⟨hp, hu, ho, hk, hstock, hbalance, hfresh, hitems, hout, hjobs, hledger⟩ := h
  -- without locks every version is the committed one
  have hall : ∀ {V K : Type} {Q : V → Prop} {T : Table ℕ K V}, (∀ k, (T k).lock = none) →
      (∀ k v, (T k).base = some v → Q v) → Table.All (fun _ v => Q v) T := by
    intro V K Q T hlock hbase k
    refine ⟨hbase k, ?_⟩
    intro j v hl
    rw [hlock k] at hl
    cases hl
  refine
    { book := by rw [hledger]; exact Ledger.Legal.nil
      products := ?_
      users := ?_
      stock := hall hp fun p r hr => (hstock p r hr).1
      balance := hall hu hbalance
      fresh := ?_
      placed := by rw [hledger]; intro s hs; cases hs
      orders := fun o r hr => Or.inl (by rw [hr]; rfl)
      initial := fun o r hr => ⟨r.status, hr⟩
      kept := fun k r hr => hr
      recorded := by rw [hledger]; intro s hs; cases hs
      records := fun k r hr => Or.inl hr
      orderItems := by rw [hitems, hledger]; rfl
      outbox := by rw [hout, hledger]; rfl
      jobs := by rw [hjobs, hledger]; rfl }
  · intro p
    rw [hledger]
    exact (congrFun lessStock_zero _).symm
  · intro u
    rw [hledger]
    exact (congrFun lessBalance_zero _).symm
  · intro o hle
    exact congrArg₂ Slot.mk (hfresh o hle) (ho o)

/-- At the start no call knows or holds anything. -/
theorem Loc.init (h : Init d₀) (i : ℕ) : Loc hash d₀ i d₀ .idle := by
  obtain ⟨hp, hu, ho, hk, -, -, -, -, -, -, hledger⟩ := h
  have hfree : ∀ {V K : Type} {T : Table ℕ K V}, (∀ k, (T k).lock = none) →
      ∀ k, ¬ (T k).Held i := by
    intro V K T hlock k hheld
    obtain ⟨v, hv⟩ := hheld
    rw [hlock k] at hv
    cases hv
  exact
    { drafted := fun _ =>
        { products := Table.Draft.of_free (hfree hp)
          users := Table.Draft.of_free (hfree hu)
          orders := Table.Draft.of_free (hfree ho)
          records := Table.Draft.of_free (hfree hk) }
      priced := Priced.nil
      pays := fun _ _ h => by cases h
      order := fun _ _ h => by cases h
      status := fun _ _ h => by cases h
      record := fun _ _ _ h => by cases h
      facts := trivial
      ended := by
        change ∀ s ∈ d₀.ledger, _
        rw [hledger]
        intro s hs
        cases hs }

end

omit [DecidableEq η] in
theorem Rely.tick (dt : ℕ) : Rely j d { d with now := d.now + dt } :=
  Rely.of_same ⟨rfl, rfl, rfl, rfl, ⟨rfl, rfl, rfl, rfl⟩, rfl⟩

omit [DecidableEq η] in
/-- Time keeps the invariant. -/
theorem Inv.tick (hinv : Inv hash d₀ d) (dt : ℕ) :
    Inv hash d₀ { d with now := d.now + dt } := by
  obtain ⟨book, products, users, stock, balance, fresh, placed, orders, initial, kept, recorded,
    records, items, outbox, jobs⟩ := hinv
  exact ⟨book, products, users, stock, balance, fresh, placed, orders, initial, kept, recorded,
    records, items, outbox, jobs⟩

/-- Every run keeps the tables, the book and the drafts in step. -/
theorem run_holds {ok : St η → Label → Prop} {s t : St η} {as : List Label} (h₀ : Init d₀)
    (hr : (machine hash).Run ok s as t) (h : Procs.Holds (Inv hash d₀) (Loc hash d₀) s) :
    Procs.Holds (Inv hash d₀) (Loc hash d₀) t := by
  refine Procs.rely_guarantee ok (Inv hash d₀) (Loc hash d₀) Rely ?_ ?_ ?_ hr h
  · intro s i a d pc _ hs hst
    have he := stmt_effect hst
    refine ⟨he.inv h₀ hs.1 (hs.2 i), stmt_loc hs.1 (hs.2 i) hst, ?_⟩
    intro j hj
    exact he.rely hj hs.1 (hs.2 i)
  · intro s dt d _ hs hd
    cases hd
    exact ⟨hs.1.tick dt, fun j => Rely.tick dt⟩
  · intro j d d' pc _ _ hrely hl
    exact hl.rely hrely

/-- At the start the invariant holds, and nobody has begun. -/
theorem init_holds {s : St η} (h : (machine hash).Init s) :
    Procs.Holds (Inv hash s.shared) (Loc hash s.shared) s := by
  obtain ⟨h₀, hidle⟩ := h
  refine ⟨Inv.init h₀, ?_⟩
  intro i
  rw [hidle i]
  exact Loc.init h₀ i

/-- From an initial state, in every interleaving. -/
theorem holds {s t : St η} {as : List Label} (hs : (machine hash).Init s)
    (hr : (machine hash).Run Machine.Always s as t) :
    Procs.Holds (Inv hash s.shared) (Loc hash s.shared) t :=
  run_holds hs.1 hr (init_holds hs)

end Marketplace.Orders

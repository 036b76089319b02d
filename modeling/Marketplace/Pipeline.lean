import Marketplace.Orders.Conservation
import Marketplace.Orders.Events
import Marketplace.Outbox.Handover
import Marketplace.Outbox.Marks

/-!
# Pipeline — from placeOrder to the confirmation

`Orders.machine` and `Outbox.Delivery` as one system over one database and one clock: the
COMMIT of `placeOrder` is what inserts a row into the outbox.

* `Spec`: what the pipeline is for, without rows, messages or statements: an order is placed
  once, and confirmed at most once, with its own data;
* `Joint`: the parts keep their invariants together;
* `order_pipeline`: the system refines `Spec`, and no order is forgotten on the way.
-/

namespace Marketplace.Pipeline

open Core Auth Orders Outbox

/-! ## The specification -/

namespace Spec

/-- The orders that were placed, and the user and the total of each confirmation. -/
structure St where
  placed : List PlacedOrder
  confirmed : ℤ → Option (ℤ × ℤ)

inductive Label where
  | place (order : PlacedOrder)
  | confirm (order : PlacedOrder)

def next (s : St) : Label → Option St
  | .place order =>
      if order.orderId ∈ s.placed.map PlacedOrder.orderId then none
      else some { s with placed := s.placed ++ [order] }
  | .confirm order =>
      if order ∈ s.placed ∧ s.confirmed order.orderId = none then
        some { s with
          confirmed := Function.update s.confirmed order.orderId
            (some (order.userId, order.totalCents)) }
      else none

def machine : Machine St Label where
  Init s := s.placed = [] ∧ ∀ o, s.confirmed o = none
  next := next

def confirms (o : ℤ) : Label → Bool
  | .place _ => false
  | .confirm order => decide ((order.orderId : ℤ) = o)

variable {s t : St} {as : List Label} {o : ℤ}

/-- No order is confirmed twice. -/
theorem confirmed_once (h : s.confirmed o = none) (hr : machine.Run Machine.Always s as t) :
    as.countP (confirms o) ≤ 1 := by
  have hcount : as.countP (confirms o) ≤ 1 ∧
      (t.confirmed o = none → as.countP (confirms o) = 0) := by
    -- on the run: a confirmation sets the entry, and the guard of the next asks for an empty one
    induction hr with
    | refl => exact ⟨Nat.zero_le 1, fun _ => rfl⟩
    | @step as t u l hr _ hn ih =>
        rw [List.countP_append, List.countP_singleton]
        cases l with
        | place order =>
            simp only [machine, next] at hn
            split at hn
            · cases hn
            · cases hn
              exact ih
        | confirm order =>
            simp only [machine, next] at hn
            split at hn
            · next hguard =>
                cases hn
                by_cases ho : (order.orderId : ℤ) = o
                · subst ho
                  have hzero := ih.2 hguard.2
                  refine ⟨by simp [hzero, confirms], ?_⟩
                  intro hnone
                  simp at hnone
                · have hne : confirms o (.confirm order) = false := decide_eq_false ho
                  rw [if_neg (by rw [hne]; exact Bool.false_ne_true)]
                  refine ⟨ih.1, ?_⟩
                  intro hnone
                  have hsame : t.confirmed o = none := by
                    simpa [Function.update_of_ne (Ne.symm ho)] using hnone
                  exact ih.2 hsame
            · cases hn
  exact hcount.1

end Spec

/-! ## The system -/

structure St (η : Type) where
  orders : Orders.St η
  delivery : Delivery.St

/-- `purgeOutbox` may be called with any retention of the outbox. -/
inductive Label where
  | order (i : ℕ) (a : Orders.Stmt)
  | delivery (l : Delivery.Label)
  | purgeOutbox (cutoff : ℕ) (ids : List EventId)
  | tick (dt : ℕ)

/-- The row that a statement of an order path puts into the outbox. -/
def inserts : Orders.Pc → Orders.Stmt → Option OutboxInsert
  | .commit _ _ _ row, .run => some row
  | _, _ => none

/-- What the delivery does by itself. -/
def Internal : Delivery.Label → Prop
  | .insert _ | .purgeOutbox _ _ | .tick _ => False
  | _ => True

instance : DecidablePred Internal := fun l => by
  cases l <;> first | exact isTrue trivial | exact isFalse id

section

variable {η : Type} [DecidableEq η] (hash : Request → η)

def next (s : St η) : Label → Option (St η)
  | .order i a =>
      ((Orders.machine hash).next s.orders (.call i a)).bind fun orders =>
        match inserts (s.orders.proc i) a with
        | none => some { s with orders }
        | some row =>
            (Delivery.machine.next s.delivery (.insert row)).map fun delivery =>
              { orders, delivery }
  | .delivery l =>
      if Internal l then
        (Delivery.machine.next s.delivery l).map fun delivery => { s with delivery }
      else none
  | .purgeOutbox cutoff ids =>
      (s.delivery.onRelay (.env (.purge cutoff ids))).map fun delivery => { s with delivery }
  | .tick dt =>
      ((Orders.machine hash).next s.orders (.env dt)).bind fun orders =>
        (Delivery.machine.next s.delivery (.tick dt)).map fun delivery => { orders, delivery }

def machine : Machine (St η) Label where
  Init s := (Orders.machine hash).Init s.orders ∧ Delivery.machine.Init s.delivery ∧
    s.delivery.now = s.orders.shared.now
  next := next hash

end

variable {η : Type} [DecidableEq η] {hash : Request → η} {d₀ : Orders.Db η} {s t : St η}
  {l : Label} {i : ℕ} {as bs : List Label} {row : OutboxInsert}

/-- A step of the system, by its parts. -/
inductive Steps (hash : Request → η) (s : St η) : Label → St η → Prop
  | order {i : ℕ} {a : Orders.Stmt} {o : Orders.St η} :
      (Orders.machine hash).next s.orders (.call i a) = some o →
      inserts (s.orders.proc i) a = none → Steps hash s (.order i a) { s with orders := o }
  | commit {i : ℕ} {a : Orders.Stmt} {o : Orders.St η} {row : OutboxInsert} {d : Delivery.St} :
      (Orders.machine hash).next s.orders (.call i a) = some o →
      inserts (s.orders.proc i) a = some row →
      Delivery.machine.next s.delivery (.insert row) = some d → Steps hash s (.order i a) ⟨o, d⟩
  | delivery {dl : Delivery.Label} {d : Delivery.St} : Internal dl →
      Delivery.machine.next s.delivery dl = some d →
      Steps hash s (.delivery dl) { s with delivery := d }
  | purgeOutbox {cutoff : ℕ} {ids : List EventId} {d : Delivery.St} :
      s.delivery.onRelay (.env (.purge cutoff ids)) = some d →
      Steps hash s (.purgeOutbox cutoff ids) { s with delivery := d }
  | tick {dt : ℕ} {o : Orders.St η} {d : Delivery.St} :
      (Orders.machine hash).next s.orders (.env dt) = some o →
      Delivery.machine.next s.delivery (.tick dt) = some d → Steps hash s (.tick dt) ⟨o, d⟩

/-- Every step of the pipeline is one of the ways of `Steps`. -/
theorem next_steps (h : (machine hash).next s l = some t) : Steps hash s l t := by
  cases l with
  | order i a =>
      simp only [machine, next, Option.bind_eq_some_iff] at h
      rcases h with ⟨o, ho, h⟩
      cases hins : inserts (s.orders.proc i) a with
      | none =>
          rw [hins] at h
          cases h
          exact .order ho hins
      | some row =>
          rw [hins] at h
          rcases Option.map_eq_some_iff.mp h with ⟨d, hd, rfl⟩
          exact .commit ho hins hd
  | delivery dl =>
      simp only [machine, next] at h
      split at h
      · next hint =>
          rcases Option.map_eq_some_iff.mp h with ⟨d, hd, rfl⟩
          exact .delivery hint hd
      · cases h
  | purgeOutbox cutoff ids =>
      rcases Option.map_eq_some_iff.mp h with ⟨d, hd, rfl⟩
      exact .purgeOutbox hd
  | tick dt =>
      simp only [machine, next, Option.bind_eq_some_iff] at h
      rcases h with ⟨o, ho, h⟩
      rcases Option.map_eq_some_iff.mp h with ⟨d, hd, rfl⟩
      exact .tick ho hd

/-! ## The parts together -/

structure Joint (hash : Request → η) (d₀ : Orders.Db η) (s : St η) : Prop where
  orders : Procs.Holds (Orders.Inv hash d₀) (Orders.Loc hash d₀) s.orders
  numbered : Numbered s.orders
  linked : Delivery.Linked s.delivery
  rows : s.delivery.rows = s.orders.shared.outbox

/-- A statement adds to the outbox what it inserts. -/
theorem stmt_inserts {d d' : Orders.Db η} {pc pc' : Orders.Pc} {a : Orders.Stmt}
    (h : Orders.stmt hash i d pc a = some (d', pc')) :
    d'.outbox = d.outbox ++ (inserts pc a).toList := by
  unfold inserts
  split
  · cases h
    rfl
  · next hno =>
      rw [Option.toList_none, List.append_nil]
      cases stmt_onEvents h with
      | draws => rfl
      | @places inp at₀ order row _ hpc =>
          subst hpc
          cases a with
          | run => exact absurd rfl (hno inp at₀ order row rfl)
          | abort => cases (stmt_abort h).2
          | _ => simp [Orders.stmt] at h
      | other houtbox => exact houtbox

/-- A step of the shop keeps what is known about the shop. -/
theorem Joint.orderStep {ol : Orders.Label} {o : Orders.St η} (h₀ : Orders.Init d₀)
    (h : Joint hash d₀ s) (ho : (Orders.machine hash).next s.orders ol = some o) :
    Procs.Holds (Orders.Inv hash d₀) (Orders.Loc hash d₀) o ∧ Numbered o := by
  have hr : (Orders.machine hash).Run Machine.Always s.orders [ol] o :=
    Machine.Run.single trivial ho
  exact ⟨Orders.run_holds h₀ hr h.orders, h.numbered.next ho⟩

/-- Every step keeps the parts in step with each other: what the shop has put into the outbox is
what the delivery was handed. -/
theorem Joint.next (h₀ : Orders.Init d₀) (h : Joint hash d₀ s)
    (hn : (machine hash).next s l = some t) : Joint hash d₀ t := by
  cases next_steps hn with
  | @order i a o ho hins =>
      rcases h.orderStep h₀ ho with ⟨horders, hnumbered⟩
      refine ⟨horders, hnumbered, h.linked, ?_⟩
      rcases Procs.next_call ho with ⟨d, p, hst, rfl⟩
      change s.delivery.rows = d.outbox
      rw [stmt_inserts hst, hins, h.rows]
      exact (List.append_nil _).symm
  -- the COMMIT that makes the row visible hands it over
  | @commit i a o row d ho hins hd =>
      rcases h.orderStep h₀ ho with ⟨horders, hnumbered⟩
      refine ⟨horders, hnumbered, h.linked.next hd, ?_⟩
      rcases Procs.next_call ho with ⟨d', p, hst, rfl⟩
      change d.rows = d'.outbox
      rw [stmt_inserts hst, hins, ← h.rows]
      exact Delivery.next_rows hd
  | @delivery dl d hint hd =>
      refine ⟨h.orders, h.numbered, h.linked.next hd, ?_⟩
      change d.rows = s.orders.shared.outbox
      rw [Delivery.next_rows hd, ← h.rows]
      cases dl with
      | insert row => exact hint.elim
      | _ => exact List.append_nil _
  | purgeOutbox hd =>
      rcases Delivery.onRelay_spec hd with ⟨w, hw, rfl⟩
      exact ⟨h.orders, h.numbered, h.linked.relay_purge hw, h.rows⟩
  | @tick dt o d ho hd =>
      rcases h.orderStep h₀ ho with ⟨horders, hnumbered⟩
      refine ⟨horders, hnumbered, h.linked.next hd, ?_⟩
      rcases Procs.next_env ho with ⟨d', hd', rfl⟩
      cases hd'
      change d.rows = s.orders.shared.outbox
      rw [Delivery.next_rows hd, ← h.rows]
      exact List.append_nil _

/-- At the start the two outboxes are empty. -/
theorem Joint.init (h : (machine hash).Init s) : Joint hash s.orders.shared s := by
  rcases h with ⟨horders, hdelivery, -⟩
  refine ⟨Orders.init_holds horders, Numbered.init horders, Delivery.Linked.init hdelivery, ?_⟩
  have houtbox : s.orders.shared.outbox = [] := horders.1.2.2.2.2.2.2.2.2.1
  rw [houtbox]
  exact hdelivery.2.2.2.1

/-- The parts keep their invariants in every run. -/
theorem joint (hinit : (machine hash).Init s) (hr : (machine hash).Run Machine.Always s as t) :
    Joint hash s.orders.shared t :=
  hr.invariant (P := Joint hash s.orders.shared)
    (fun _ _ _ _ hn hp => hp.next hinit.1.1 hn) (Joint.init hinit)

/-- The order was placed through the outbox, with this row. -/
structure Sold (s : St η) (sale : Sale) (row : OutboxInsert) : Prop where
  committed : sale ∈ s.orders.shared.ledger
  inserted : sale.outboxRow = some row
  event : row.payload = toOrderPlacedEvent row.id sale.order

section

omit [DecidableEq η]

/-- A row that was inserted is that of a committed order. -/
theorem Joint.sold (h : Joint hash d₀ s) (hrow : row ∈ s.delivery.rows) :
    ∃ sale, Sold s sale row := by
  rw [h.rows, h.orders.1.outbox] at hrow
  rcases List.mem_filterMap.mp hrow with ⟨sale, hsale, hout⟩
  rcases h.numbered.sold sale hsale row hout with ⟨at₀, heq⟩
  exact ⟨sale, hsale, hout, congrArg OutboxInsert.payload heq⟩

theorem Joint.row_of_sale {sale : Sale} (h : Joint hash d₀ s)
    (hsale : sale ∈ s.orders.shared.ledger) (hrow : sale.outboxRow = some row) :
    row ∈ s.delivery.rows := by
  rw [h.rows, h.orders.1.outbox]
  exact List.mem_filterMap.mpr ⟨sale, hsale, hrow⟩

/-- Behind every event stands a sale, and the event is what its outbox row says. -/
theorem Joint.event_sold {e : OrderPlacedEvent} (h : Joint hash d₀ s)
    (he : e ∈ s.delivery.consumer.shared.published) :
    ∃ sale row, Sold s sale row ∧ e = row.payload := by
  rcases List.mem_map.mp (h.linked.published e he) with ⟨row, hrow, rfl⟩
  rcases h.sold hrow with ⟨sale, hsold⟩
  exact ⟨sale, row, hsold, rfl⟩

end

/-! ## The hand-overs never wait -/

section

omit [DecidableEq η]

/-- No order row of an open transaction is that of a committed order. -/
theorem Joint.order_fresh {inp : PlaceOrderInput} {at₀ : ℕ} {order : PlacedOrder}
    (h : Joint hash d₀ s) (hpc : s.orders.proc i = .commit inp at₀ order row) {sale : Sale}
    (hsale : sale ∈ s.orders.shared.ledger) : sale.order.orderId ≠ order.orderId := by
  intro heq
  have hloc := h.orders.2 i
  rw [hpc] at hloc
  have hnone := (hloc.order order.orderId (toOrderRow order at₀) rfl).2
  rcases h.orders.1.placed sale hsale with ⟨-, r, hr, -⟩
  rw [heq, hnone] at hr
  cases hr

/-- The row of an open transaction is new in every respect. -/
theorem Joint.fresh {inp : PlaceOrderInput} {at₀ : ℕ} {order : PlacedOrder}
    (h : Joint hash d₀ s) (hpc : s.orders.proc i = .commit inp at₀ order row) :
    row.id ∉ s.delivery.rows.map OutboxInsert.id ∧ Delivery.Fresh row s.delivery.rows := by
  have hevent : row = toOutboxInsert row.id at₀ order := h.numbered.event i inp at₀ order row hpc
  have hpayload : row.payload = toOrderPlacedEvent row.id order :=
    congrArg OutboxInsert.payload hevent
  have hnew : row.id ∉ s.delivery.rows.map OutboxInsert.id := by
    rw [h.rows]
    exact (h.numbered.drawn i row (Orders.Pc.Carries.of_commit hpc)).2
  refine ⟨hnew, congrArg OrderPlacedEvent.eventId hpayload, ?_⟩
  intro e he hsame
  rcases List.mem_map.mp he with ⟨row', hrow', rfl⟩
  rcases hsame with hid | horder
  · refine absurd ?_ hnew
    rw [hpayload, h.linked.ids row' hrow'] at hid
    exact List.mem_map.mpr ⟨row', hrow', hid⟩
  · rcases h.sold hrow' with ⟨sale, hsold⟩
    rw [hpayload, hsold.event] at horder
    exact absurd horder (h.order_fresh hpc hsold.committed)

end

/-- The other tables do not keep an order path from its next statement. -/
theorem Joint.order_enabled {a : Orders.Stmt} {o : Orders.St η} (h : Joint hash d₀ s)
    (ho : (Orders.machine hash).next s.orders (.call i a) = some o) :
    ∃ t, (machine hash).next s (.order i a) = some t ∧ t.orders = o := by
  cases hins : inserts (s.orders.proc i) a with
  | none =>
      refine ⟨{ s with orders := o }, ?_, rfl⟩
      simp only [machine, Pipeline.next, ho, Option.bind_some, hins]
  -- the row's number is new to the delivery, so the insert goes through
  | some row =>
      have hpc : ∃ inp at₀ order, s.orders.proc i = .commit inp at₀ order row := by
        revert hins
        generalize s.orders.proc i = pc
        intro hins
        unfold inserts at hins
        split at hins
        · cases hins
          exact ⟨_, _, _, rfl⟩
        · cases hins
      rcases hpc with ⟨inp, at₀, order, hpc⟩
      rcases h.fresh hpc with ⟨hnew, hfresh⟩
      have hrelay : Relay.env s.delivery.relay.shared (.insert (Delivery.toOutboxRow row)) =
          some { s.delivery.relay.shared with
            outbox := Function.update s.delivery.relay.shared.outbox row.id
              (Slot.settled (some (Delivery.toOutboxRow row)))
            inserted := s.delivery.relay.shared.inserted ++ [row.id] } := by
        refine if_neg ?_
        rintro (hin | hpub | hatt)
        · rw [h.linked.inserted] at hin
          exact hnew hin
        · exact hpub rfl
        · exact hatt rfl
      have hinsert : ∃ d, Delivery.machine.next s.delivery (.insert row) = some d := by
        simp only [Delivery.machine, Delivery.next, if_pos hfresh, Delivery.St.onRelay,
          Relay.machine, Procs.machine, Procs.next, Relay.procs, hrelay, Option.map_some]
        exact ⟨_, rfl⟩
      rcases hinsert with ⟨d, hd⟩
      refine ⟨⟨o, d⟩, ?_, rfl⟩
      simp only [machine, Pipeline.next, ho, Option.bind_some, hins, hd, Option.map_some]

/-- Whatever the broker accepts arrives in the queue. -/
theorem Joint.accept_enabled {n : ℕ} {w : Relay.St} (h : Joint hash d₀ s)
    (hw : Relay.machine.next s.delivery.relay (.env (.accept n)) = some w) :
    ∃ t, (machine hash).next s (.delivery (.accept n)) = some t ∧ t.delivery.relay = w := by
  have hrow : ∃ row, s.delivery.rowOf n = some row ∧ row ∈ s.delivery.rows := by
    rcases Procs.next_env hw with ⟨d, hd, -⟩
    simp only [Relay.procs, Relay.env, Option.bind_eq_some_iff] at hd
    rcases hd with ⟨send, hsend, -⟩
    rcases h.linked.carried.1.sends n send hsend with ⟨row, hrow, hr⟩
    have hfind : (s.delivery.rows.find? fun row => row.id == send.row.id).isSome := by
      rw [List.find?_isSome]
      exact ⟨row, hrow, by rw [hr.id]; exact beq_self_eq_true _⟩
    rcases Option.isSome_iff_exists.mp hfind with ⟨row', hrow'⟩
    refine ⟨row', ?_, List.mem_of_find?_eq_some hrow'⟩
    unfold Delivery.St.rowOf
    rw [hsend]
    exact hrow'
  rcases hrow with ⟨row, hrow, hmem⟩
  have hdistinct : Consumer.Distinct row.payload s.delivery.consumer.shared.published := by
    intro e he hsame
    exact h.linked.distinct row.payload (List.mem_map_of_mem hmem) e (h.linked.published e he) hsame
  have haccept : ∃ d, Delivery.machine.next s.delivery (.accept n) = some d ∧ d.relay = w := by
    simp only [Delivery.machine, Delivery.next, hrow, Option.bind_some, Delivery.St.onRelay, hw,
      Option.map_some]
    simp only [Delivery.St.onConsumer, Delivery.St.arrive, Consumer.machine, Procs.machine,
      Procs.next, Consumer.procs, Consumer.env, if_pos hdistinct, Option.map_some]
    exact ⟨_, rfl, rfl⟩
  rcases haccept with ⟨d, hd, hdw⟩
  refine ⟨{ s with delivery := d }, ?_, hdw⟩
  simp only [machine, Pipeline.next, hd, Option.map_some]
  exact if_pos trivial

/-! ## Refinement -/

/-- The order that placeOrder has committed. -/
def placedOrder (sale : Sale) : Option PlacedOrder := sale.outboxRow.map fun _ => sale.order

def abs (s : St η) : Spec.St where
  placed := s.orders.shared.ledger.filterMap placedOrder
  confirmed o := (s.delivery.consumer.shared.confirmations o).base.map fun c =>
    (c.userId, c.totalCents)

omit [DecidableEq η] in
theorem Sold.placed {sale : Sale} (h : Sold s sale row) : sale.order ∈ (abs s).placed :=
  List.mem_filterMap.mpr ⟨sale, h.committed, by unfold placedOrder; rw [h.inserted]; rfl⟩

/-- An order path places one order at its COMMIT, and none before. -/
theorem Joint.order_refines {a : Orders.Stmt} {o : Orders.St η} {d : Delivery.St}
    (h : Joint hash d₀ ⟨o, d⟩)
    (ho : (Orders.machine hash).next s.orders (.call i a) = some o)
    (hd : Consumer.SameRows s.delivery.consumer.shared d.consumer.shared) :
    ∃ cs, Spec.machine.Run Machine.Always (abs s) cs (abs ⟨o, d⟩) := by
  have hconfirmed : (abs (⟨o, d⟩ : St η)).confirmed = (abs s).confirmed := by
    funext k
    change (d.consumer.shared.confirmations k).base.map _ = _
    rw [hd k]
    rfl
  -- a step without a sale is no step of the specification
  have stutter : o.shared.ledger.filterMap placedOrder =
      s.orders.shared.ledger.filterMap placedOrder →
      ∃ cs, Spec.machine.Run Machine.Always (abs s) cs (abs (⟨o, d⟩ : St η)) := by
    intro hplaced
    have heq : abs (⟨o, d⟩ : St η) = abs s := by
      change Spec.St.mk (o.shared.ledger.filterMap placedOrder) _ = _
      rw [hplaced]
      exact congrArg (Spec.St.mk _) hconfirmed
    rw [heq]
    exact ⟨[], Machine.Run.refl⟩
  rcases Procs.next_call ho with ⟨d', p, hst, rfl⟩
  rcases (stmt_effect hst).cases_commit with hu | ⟨sale, hcommits, rfl⟩ | ⟨k, status, -, -, rfl⟩
  · exact stutter (by rw [hu.added.2.2.2])
  · cases hplaced : placedOrder sale with
    | none =>
        refine stutter ?_
        change (s.orders.shared.ledger ++ [sale]).filterMap placedOrder = _
        rw [List.filterMap_append, List.filterMap_cons_none hplaced]
        exact List.append_nil _
    | some order =>
        have hledger : (s.orders.shared.ledger ++ [sale]).filterMap placedOrder =
            s.orders.shared.ledger.filterMap placedOrder ++ [order] := by
          rw [List.filterMap_append, List.filterMap_cons_some hplaced]
          rfl
        have horder : sale.order = order := by
          unfold placedOrder at hplaced
          rcases Option.map_eq_some_iff.mp hplaced with ⟨_, -, heq⟩
          exact heq
        have hnew : order.orderId ∉ (abs s).placed.map PlacedOrder.orderId := by
          intro hmem
          rcases List.mem_map.mp hmem with ⟨order', hin, hid⟩
          rcases List.mem_filterMap.mp hin with ⟨sale', hsale', hplaced'⟩
          unfold placedOrder at hplaced'
          rcases Option.map_eq_some_iff.mp hplaced' with ⟨_, -, rfl⟩
          have hpair : (s.orders.shared.ledger ++ [sale]).Pairwise fun a b =>
              a.order.orderId ≠ b.order.orderId := h.orders.1.book.orders
          rw [List.pairwise_append] at hpair
          refine hpair.2.2 sale' hsale' sale (List.mem_singleton.mpr rfl) ?_
          rw [hid, horder]
        refine ⟨[.place order], Machine.Run.single trivial ?_⟩
        change (if order.orderId ∈ (abs s).placed.map PlacedOrder.orderId then none else _) = _
        rw [if_neg hnew]
        change some (Spec.St.mk (s.orders.shared.ledger.filterMap placedOrder ++ [order]) _) =
          some (Spec.St.mk ((s.orders.shared.ledger ++ [sale]).filterMap placedOrder) _)
        rw [hledger]
        exact congrArg (fun c => some (Spec.St.mk _ c)) hconfirmed.symm
  · exact stutter rfl

omit [DecidableEq η] in
/-- A handler confirms one order at its COMMIT, and none before. -/
theorem Joint.delivery_refines {l : Delivery.Label} {d : Delivery.St} (h : Joint hash d₀ s)
    (hd : Delivery.machine.next s.delivery l = some d) :
    ∃ cs, Spec.machine.Run Machine.Always (abs s) cs (abs { s with delivery := d }) := by
  rcases h.linked.confirms hd with hsame | ⟨e, he, hnone, hupdate⟩
  · have heq : abs { s with delivery := d } = abs s := by
      refine congrArg (Spec.St.mk _) ?_
      funext k
      rw [hsame k]
    rw [heq]
    exact ⟨[], Machine.Run.refl⟩
  -- the confirmation is the one of the sale behind the event
  · rcases h.event_sold he with ⟨sale, row, hsold, rfl⟩
    have hid : row.payload.orderId = sale.order.orderId :=
      congrArg OrderPlacedEvent.orderId hsold.event
    have hguard : sale.order ∈ (abs s).placed ∧ (abs s).confirmed sale.order.orderId = none := by
      refine ⟨hsold.placed, ?_⟩
      change Option.map _ (s.delivery.consumer.shared.confirmations sale.order.orderId).base = none
      rw [← hid, hnone]
      rfl
    refine ⟨[.confirm sale.order], Machine.Run.single trivial ?_⟩
    change (if sale.order ∈ (abs s).placed ∧ (abs s).confirmed sale.order.orderId = none
      then _ else none) = _
    rw [if_pos hguard]
    refine congrArg (fun c => some (Spec.St.mk _ c)) ?_
    funext k
    change _ = Option.map _ (d.consumer.shared.confirmations k).base
    rw [hupdate k, hid]
    by_cases hk : k = sale.order.orderId
    · subst hk
      rw [Function.update_self, Function.update_self]
      have huser : row.payload.userId = sale.order.userId :=
        congrArg OrderPlacedEvent.userId hsold.event
      have htotal : row.payload.totalCents = sale.order.totalCents :=
        congrArg OrderPlacedEvent.totalCents hsold.event
      change some ((sale.order.userId : ℤ), sale.order.totalCents) =
        some ((row.payload.userId : ℤ), row.payload.totalCents)
      rw [huser, htotal]
    · rw [Function.update_of_ne hk, Function.update_of_ne hk]
      rfl

/-- Every step of the pipeline is a step of the specification, or none. -/
theorem Joint.refines (h : Joint hash d₀ s) (h' : Joint hash d₀ t)
    (hn : (machine hash).next s l = some t) :
    ∃ cs, Spec.machine.Run Machine.Always (abs s) cs (abs t) := by
  cases next_steps hn with
  | order ho => exact h'.order_refines ho fun _ => rfl
  | commit ho _ hd =>
      refine h'.order_refines ho ?_
      simp only [Delivery.machine, Delivery.next] at hd
      split at hd
      · rcases Delivery.onRelay_spec hd with ⟨w, -, rfl⟩
        exact fun _ => rfl
      · cases hd
  | delivery _ hd => exact h.delivery_refines hd
  | purgeOutbox hd =>
      rcases Delivery.onRelay_spec hd with ⟨w, -, rfl⟩
      exact ⟨[], Machine.Run.refl⟩
  | tick ho hd =>
      have hrun := h.delivery_refines hd
      rcases Procs.next_env ho with ⟨d', hd', rfl⟩
      cases hd'
      exact hrun

/-! ## Whole runs -/

/-- What is committed, sent and queued belongs to committed orders, and none of them is lost. -/
structure Accounted (d₀ : Orders.Db η) (s : St η) : Prop where
  orders : ∀ o r, (s.orders.shared.orders o).base = some r →
    (d₀.orders o).base.isSome ∨ ∃ sale ∈ s.orders.shared.ledger, sale.order.orderId = o
  confirmed : ∀ k c, (s.delivery.consumer.shared.confirmations k).base = some c →
    ∃ sale row r, Sold s sale row ∧ k = sale.order.orderId ∧
      (s.orders.shared.orders sale.order.orderId).base = some r ∧
      c.userId = r.userId ∧ c.totalCents = r.totalCents
  sent : ∀ n send, s.delivery.relay.shared.sends n = some send →
    ∃ sale row, Sold s sale row ∧ Delivery.IsRow row send.row
  queued : ∀ it ∈ s.delivery.consumer.shared.broker.items,
    (∃ sale row, Sold s sale row ∧ it.content = some row.payload.toJson) ∨
      parseOrderPlacedEvent it.content = none
  /-- Unpublished, in the broker, or confirmed. -/
  kept : ∀ sale ∈ s.orders.shared.ledger, ∀ row, sale.outboxRow = some row →
    Sold s sale row ∧ (Delivery.Unpublished s.delivery row ∨
      Consumer.Underway s.delivery.consumer.shared row.payload ∨
      Consumer.Confirmed s.delivery.consumer.shared row.payload)

omit [DecidableEq η] in
/-- In every reachable state each sale is confirmed, under way or parked, and nothing is confirmed
that was not sold. -/
theorem Joint.accounted (h : Joint hash d₀ s) : Accounted d₀ s where
  orders := h.orders.1.orders
  confirmed k c hc := by
    have hconsumer := (Consumer.holds h.linked.consumer).1
    rcases hconsumer.rows k c hc with ⟨e, he, rfl, rfl⟩
    rcases h.event_sold he with ⟨sale, row, hsold, rfl⟩
    rcases h.orders.1.placed sale hsold.committed with ⟨-, r, hr, huser, htotal⟩
    refine ⟨sale, row, r, hsold, ?_, hr, ?_, ?_⟩
    · exact congrArg (fun e => (OrderPlacedEvent.orderId e : ℤ)) hsold.event
    · rw [huser]
      exact congrArg (fun e => (OrderPlacedEvent.userId e : ℤ)) hsold.event
    · rw [htotal]
      exact congrArg OrderPlacedEvent.totalCents hsold.event
  sent n send hsend := by
    rcases h.linked.carried.1.sends n send hsend with ⟨row, hrow, hr⟩
    rcases h.sold hrow with ⟨sale, hsold⟩
    exact ⟨sale, row, hsold, hr⟩
  queued it hit := by
    rcases (Consumer.holds h.linked.consumer).1.content it hit with ⟨e, he, hcontent⟩ | hnone
    · rcases h.event_sold he with ⟨sale, row, hsold, rfl⟩
      exact Or.inl ⟨sale, row, hsold, hcontent⟩
    · exact Or.inr hnone
  kept sale hsale row hrow := by
    rcases h.numbered.sold sale hsale row hrow with ⟨at₀, heq⟩
    exact ⟨⟨hsale, hrow, congrArg OutboxInsert.payload heq⟩,
      h.linked.kept (h.row_of_sale hsale hrow)⟩

/-- Orders and confirmations stay. -/
structure Stays (s t : St η) : Prop where
  ledger : ∀ sale ∈ s.orders.shared.ledger, sale ∈ t.orders.shared.ledger
  confirmed : ∀ k c, (s.delivery.consumer.shared.confirmations k).base = some c →
    (t.delivery.consumer.shared.confirmations k).base = some c

/-- A sale is never taken out of the ledger. -/
theorem orders_stay {o : Orders.St η} {a : Orders.Stmt}
    (ho : (Orders.machine hash).next s.orders (.call i a) = some o) :
    ∀ sale ∈ s.orders.shared.ledger, sale ∈ o.shared.ledger := by
  intro sale hsale
  rcases Procs.next_call ho with ⟨d, p, hst, rfl⟩
  rcases (stmt_effect hst).cases_commit with hu | ⟨sale', -, rfl⟩ | ⟨k, status, -, -, rfl⟩
  · change sale ∈ d.ledger
    rw [hu.added.2.2.2]
    exact hsale
  · exact List.mem_append_left _ hsale
  · exact hsale

omit [DecidableEq η] in
/-- A confirmation stays as it is. -/
theorem Joint.confirmations_stay {dl : Delivery.Label} {d : Delivery.St} (h : Joint hash d₀ s)
    (hd : Delivery.machine.next s.delivery dl = some d) {k : ℤ} {c : Confirmation}
    (hc : (s.delivery.consumer.shared.confirmations k).base = some c) :
    (d.consumer.shared.confirmations k).base = some c := by
  rcases h.linked.confirms hd with hsame | ⟨e, -, hnone, hupdate⟩
  · rw [hsame k, hc]
  · have hk : k ≠ e.orderId := by
      rintro rfl
      rw [hc] at hnone
      cases hnone
    rw [hupdate k, Function.update_of_ne hk, hc]

/-- Sales and confirmations stay. -/
theorem Joint.stays (h : Joint hash d₀ s) (hn : (machine hash).next s l = some t) :
    Stays s t := by
  cases next_steps hn with
  | order ho _ => exact ⟨orders_stay ho, fun _ _ hc => hc⟩
  | commit ho _ hd => exact ⟨orders_stay ho, fun _ _ hc => h.confirmations_stay hd hc⟩
  | delivery _ hd => exact ⟨fun _ hs => hs, fun _ _ hc => h.confirmations_stay hd hc⟩
  | purgeOutbox hd =>
      rcases Delivery.onRelay_spec hd with ⟨w, -, rfl⟩
      exact ⟨fun _ hs => hs, fun _ _ hc => hc⟩
  | tick ho hd =>
      rcases Procs.next_env ho with ⟨d', hd', rfl⟩
      cases hd'
      exact ⟨fun _ hs => hs, fun _ _ hc => h.confirmations_stay hd hc⟩

/-- Along a run the parts stay in step, and sales and confirmations stay. -/
theorem Joint.run (h₀ : Orders.Init d₀) (h : Joint hash d₀ s)
    (hr : (machine hash).Run Machine.Always s as t) : Joint hash d₀ t ∧ Stays s t := by
  induction hr with
  | refl => exact ⟨h, fun _ hs => hs, fun _ _ hc => hc⟩
  | step _ _ hn ih =>
      have hstays := ih.1.stays hn
      exact ⟨ih.1.next h₀ hn, fun sale hs => hstays.ledger sale (ih.2.ledger sale hs),
        fun k c hc => hstays.confirmed k c (ih.2.confirmed k c hc)⟩

/-- The start of the pipeline is the start of the specification. -/
theorem abs_init (h : (machine hash).Init s) : Spec.machine.Init (abs s) := by
  rcases h with ⟨⟨⟨-, -, -, -, -, -, -, -, -, -, hledger⟩, -⟩, ⟨-, ⟨⟨-, hconf, -⟩, -⟩, -⟩, -⟩
  constructor
  · change s.orders.shared.ledger.filterMap placedOrder = []
    rw [hledger]
    rfl
  · intro k
    change Option.map _ (s.delivery.consumer.shared.confirmations k).base = none
    rw [hconf k]
    rfl

/-- Every run of the pipeline, with aborts and crashes anywhere, is a run of `Spec`, so every
order is confirmed at most once; and an order that was committed at `s` is at every later
moment `t` unpublished, in the broker, or confirmed, and once confirmed it stays so. -/
theorem order_pipeline (hash : Request → η) (s₀ s t : St η) (as bs : List Label)
    (hinit : (machine hash).Init s₀) (hr : (machine hash).Run Machine.Always s₀ as s)
    (hrest : (machine hash).Run Machine.Always s bs t) :
    (∃ cs, Spec.machine.Init (abs s₀) ∧ Spec.machine.Run Machine.Always (abs s₀) cs (abs t) ∧
      ∀ k, cs.countP (Spec.confirms k) ≤ 1) ∧
    Accounted s₀.orders.shared t ∧
    (∀ sale ∈ s.orders.shared.ledger, ∀ row, sale.outboxRow = some row →
      Delivery.Unpublished t.delivery row ∨
      Consumer.Underway t.delivery.consumer.shared row.payload ∨
      Consumer.Confirmed t.delivery.consumer.shared row.payload) ∧
    ∀ k c, (s.delivery.consumer.shared.confirmations k).base = some c →
      (t.delivery.consumer.shared.confirmations k).base = some c := by
  have hs := joint hinit hr
  rcases hs.run hinit.1.1 hrest with ⟨ht, hstays⟩
  have hspec := abs_init hinit
  have hnext : ∀ u l v, Machine.Always u l → (machine hash).next u l = some v →
      Joint hash s₀.orders.shared u → Joint hash s₀.orders.shared v :=
    fun u l v _ hn hu => hu.next hinit.1.1 hn
  have hsim : ∃ cs, Spec.machine.Run Machine.Always (abs s₀) cs (abs t) :=
    Machine.Run.simulates abs hnext
      (fun u l v hok hn hu => hu.refines (hnext u l v hok hn hu) hn) (hr.trans hrest)
      (Joint.init hinit)
  rcases hsim with ⟨cs, hcs⟩
  refine ⟨⟨cs, hspec, hcs, ?_⟩, ht.accounted, ?_, hstays.confirmed⟩
  · intro k
    exact Spec.confirmed_once (hspec.2 k) hcs
  · intro sale hsale row hrow
    exact (ht.accounted.kept sale (hstays.ledger sale hsale) row hrow).2

/-! ## One order -/

/-- The shop of `Orders.shop`, with an empty outbox and an empty queue. -/
def emptyStart : St Request where
  orders := shop
  delivery :=
    { Delivery.emptyStart with
      relay := ⟨{ Relay.emptyOutbox.shared with now := 1000000 }, fun _ => .idle⟩
      consumer := ⟨{ Consumer.emptyDb with now := 1000000 }, fun _ => .idle⟩ }

/-- The concrete start is a proper one: an empty shop with one product. -/
theorem emptyStart_init (hash : Request → Request) : (machine hash).Init emptyStart :=
  ⟨shop_init hash,
    ⟨⟨⟨fun _ => rfl, fun _ => rfl, rfl, rfl⟩, fun _ => rfl⟩,
      ⟨⟨fun _ => rfl, fun _ => rfl, rfl, rfl, rfl, rfl⟩, fun _ => rfl⟩, rfl, rfl, fun _ => rfl⟩,
    rfl⟩

def placesOrder : List Label :=
  .order 0 (.placeOrder twoPieces) :: List.replicate 9 (.order 0 .run)

def relaysOrder : List Delivery.Label :=
  Delivery.sendsRow 0 0 ++ .confirm 0 :: List.replicate 5 (.relay 0 .run)

/-- The event is relayed, its row is purged after a week, and only then it is consumed. -/
def deliversOrder : List Label :=
  relaysOrder.map .delivery ++
  [.tick (Delivery.outboxRetention + 1), .purgeOutbox 1000001 [1]] ++
  (Delivery.appliesMessage 0 0).map .delivery

/-- An order is placed, relayed, consumed and confirmed, and its outbox row is purged. -/
theorem order_pipeline_delivered : ∃ s t : St Request,
    (machine id).Run Machine.Always emptyStart placesOrder s ∧
    (machine id).Run Machine.Always s deliversOrder t ∧ s.orders.shared.ledger ≠ [] ∧
    (t.delivery.relay.shared.outbox 1).base.isNone ∧
    (t.delivery.consumer.shared.confirmations 1).base = some ⟨"1", 7, 1000⟩ ∧
    Accounted shop.shared t := by
  have hrun : (((machine (id : Request → Request)).exec (fun _ _ => true) emptyStart
      placesOrder).bind fun s => ((machine id).exec (fun _ _ => true) s deliversOrder).map fun t =>
        (s.orders.shared.ledger.length, (t.delivery.relay.shared.outbox 1).base.isNone,
          (t.delivery.consumer.shared.confirmations 1).base)) =
      some (1, true, some ⟨"1", 7, 1000⟩) := by
    decide +kernel
  rw [Option.bind_eq_some_iff] at hrun
  rcases hrun with ⟨s, hs, hrun⟩
  rw [Option.map_eq_some_iff] at hrun
  rcases hrun with ⟨t, ht, heq⟩
  simp only [Prod.mk.injEq] at heq
  rcases heq with ⟨hlen, hnone, hconf⟩
  have hr := Machine.exec_always hs
  have hrest := Machine.exec_always ht
  refine ⟨s, t, hr, hrest, ?_, hnone, hconf, ?_⟩
  · intro hnil
    rw [hnil] at hlen
    cases hlen
  · exact (order_pipeline id emptyStart s t placesOrder deliversOrder (emptyStart_init id) hr
      hrest).2.1

end Marketplace.Pipeline

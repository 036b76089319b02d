import Marketplace.Orders.Preservation

/-!
# Orders.Rows — what a committed row keeps

An order keeps its row but for the status (`row_kept`), and the row of an order placed during
the run is the one its INSERT made. What the prices of a sale are is decided when its stock is
taken, and the price list never changes.
-/

namespace Marketplace.Orders

open Core Auth Outbox

variable {η : Type} [DecidableEq η] {hash : Request → η} {i : ℕ} {d₀ d d' : Db η}
  {pc pc' : Pc} {a : Stmt} {o : OrderId} {r : Order} {p : ProductId}

/-! ## Orders -/

/-- An order row keeps everything but its status. -/
theorem row_kept (hl : Loc hash d₀ i d pc) (he : Effect hash i d pc d' pc')
    (hr : (d.orders o).base = some r) :
    ∃ status, (d'.orders o).base = some { r with status } := by
  rcases he.cases_commit with hu | ⟨sale, hc, rfl⟩ | ⟨o', status, rfl, rfl, rfl⟩
  · refine ⟨r.status, ?_⟩
    rw [hu.orders o, hr]
  · obtain ⟨hnone, -, -, hother⟩ := hl.commit_orders hc
    have hne : o ≠ sale.order.orderId := by
      rintro rfl
      rw [hnone] at hr
      cases hr
    exact ⟨r.status, (hother o hne).trans hr⟩
  · obtain ⟨-, -, horders, -⟩ := hl.commit_status
    have hbase : (d.orders.commit i o).base = some (if o = o' then { r with status } else r) := by
      rw [horders o, hr]
      rfl
    by_cases ho : o = o'
    · rw [if_pos ho] at hbase
      exact ⟨status, hbase⟩
    · rw [if_neg ho] at hbase
      exact ⟨r.status, hbase⟩

/-! ## The sales of a run -/

/-- The row and the lines of a sale, in a shop that began as `d₀`. -/
structure Booked (d₀ d : Db η) (sale : Sale) : Prop where
  fresh : (d₀.orders sale.order.orderId).base = none
  row : ∃ at₀ status, (d.orders sale.order.orderId).base =
    some { toOrderRow sale.order at₀ with status }
  priced : Priced d₀ sale.order.items

def AllBooked (d₀ d : Db η) : Prop := ∀ sale ∈ d.ledger, Booked d₀ d sale

omit [DecidableEq η] in
/-- What a COMMIT enters into the book carries the prices of the list. -/
theorem Loc.commit_priced {sale : Sale} (hl : Loc hash d₀ i d pc) (hc : Commits i pc sale pc') :
    Priced d₀ sale.order.items := by
  have hlines := (hc.saleOf hl.facts).lines
  rw [hlines]
  exact hl.priced

/-- Every statement keeps each order row in step with a sale. -/
theorem AllBooked.stmt (hinv : Inv hash d₀ d) (hl : Loc hash d₀ i d pc) (h : AllBooked d₀ d)
    (he : Effect hash i d pc d' pc') : AllBooked d₀ d' := by
  -- a sale that was in the book
  have old : ∀ sale ∈ d.ledger, Booked d₀ d' sale := by
    intro sale hsale
    obtain ⟨hfresh, ⟨at₀, status, hrow⟩, hpriced⟩ := h sale hsale
    obtain ⟨status', hrow'⟩ := row_kept hl he hrow
    exact ⟨hfresh, ⟨at₀, status', hrow'⟩, hpriced⟩
  rcases he.cases_commit with hu | ⟨sale, hc, rfl⟩ | ⟨o, status, rfl, rfl, rfl⟩
  · obtain ⟨-, -, -, hledger⟩ := hu.added
    intro sale hsale
    rw [hledger] at hsale
    exact old sale hsale
  · intro sale' hsale
    rcases List.mem_append.mp hsale with hold | hnew
    · exact old sale' hold
    · obtain rfl := List.mem_singleton.mp hnew
      obtain ⟨hnone, -, ⟨at₀, hrow⟩, -⟩ := hl.commit_orders hc
      refine ⟨?_, ⟨at₀, .completed, hrow⟩, hl.commit_priced hc⟩
      -- an initial order would still be there
      apply Option.eq_none_iff_forall_ne_some.mpr
      intro r hr
      obtain ⟨status, hkept⟩ := hinv.initial _ r hr
      rw [hnone] at hkept
      cases hkept
  · exact old

/-- After any run each order row is one of before or that of a sale. -/
theorem booked {s t : St η} {as : List Label} (hs : (machine hash).Init s)
    (hr : (machine hash).Run Machine.Always s as t) : AllBooked s.shared t.shared := by
  have hboth : Procs.Holds (Inv hash s.shared) (Loc hash s.shared) t ∧
      AllBooked s.shared t.shared := by
    refine hr.invariant (P := fun u => Procs.Holds (Inv hash s.shared) (Loc hash s.shared) u ∧
      AllBooked s.shared u.shared) ?_ ⟨init_holds hs, ?_⟩
    · intro u act v _ hn h
      refine ⟨run_holds hs.1 (Machine.Run.once hn) h.1, ?_⟩
      cases act with
      | env dt =>
          obtain ⟨d, hd, rfl⟩ := Procs.next_env hn
          cases hd
          intro sale hsale
          obtain ⟨hfresh, hrow, hpriced⟩ := h.2 sale hsale
          exact ⟨hfresh, hrow, hpriced⟩
      | call i a =>
          obtain ⟨d, pc, hst, rfl⟩ := Procs.next_call hn
          exact AllBooked.stmt h.1.1 (h.1.2 i) h.2 (stmt_effect hst)
    · intro sale hsale
      obtain ⟨-, -, -, -, -, -, -, -, -, -, hledger⟩ := hs.1
      rw [hledger] at hsale
      cases hsale
  exact hboth.2

end Marketplace.Orders

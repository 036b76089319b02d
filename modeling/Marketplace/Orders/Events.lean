import Marketplace.Orders.Preservation

/-!
# Orders.Events — every placed order has an event of its own

What the COMMIT of `placeOrder` leaves in the outbox is the event of the order that it
leaves in `orders`, under an id that no other row and no other open transaction has.

* `OnEvents`: what a statement does to the event ids;
* `Numbered`: what holds of them in every run.
-/

namespace Marketplace.Orders

open Core Auth Outbox

variable {η : Type} [DecidableEq η] {hash : Request → η} {i j : ℕ} {d d' : Db η}
  {pc pc' : Pc} {a : Stmt} {s t : St η} {l : Label} {row : OutboxInsert}

/-! ## One statement -/

/-- The COMMIT of the call would put the row into the outbox. -/
def Pc.Carries (row : OutboxInsert) : Pc → Prop
  | .commit _ _ _ row' => row' = row
  | _ => False

/-- What a statement does to the outbox and to the event ids. -/
inductive OnEvents (i : ℕ) (d : Db η) : Pc → Db η → Pc → Prop
  | draws {inp : PlaceOrderInput} {at₀ : ℕ} {order : PlacedOrder} :
      OnEvents i d (.insertOutbox inp at₀ order) { d with nextEvent := d.nextEvent + 1 }
        (.commit inp at₀ order (toOutboxInsert d.nextEvent at₀ order))
  | places {inp : PlaceOrderInput} {at₀ : ℕ} {order : PlacedOrder} {row : OutboxInsert}
      {pc' : Pc} : pc' = .placed inp (.ok ⟨201, toResponseBody order, false⟩) →
      OnEvents i d (.commit inp at₀ order row) (d.commitSale i (placeSale i inp order row)) pc'
  | other {pc pc' : Pc} {d' : Db η} : d'.outbox = d.outbox → d'.nextEvent = d.nextEvent →
      (∀ s ∈ d'.ledger, s ∈ d.ledger ∨ s.IsCheckout) → (∀ row, ¬ pc'.Carries row) →
      OnEvents i d pc d' pc'

section

omit [DecidableEq η]

/-- A statement that leaves outbox, event number and ledger alone, and carries no row, is one of
`OnEvents`. -/
theorem OnEvents.same {d₁ : Db η} (h : d₁.outbox = d.outbox ∧ d₁.nextEvent = d.nextEvent ∧
    d₁.ledger = d.ledger) (hpc : ∀ row, ¬ pc'.Carries row) : OnEvents i d pc d₁ pc' := by
  refine .other h.1 h.2.1 ?_ hpc
  intro s hs
  rw [h.2.2] at hs
  exact Or.inl hs

end

/-- What a statement does to the outbox: nothing, draw a row, or commit one. -/
theorem stmt_onEvents (h : stmt hash i d pc a = some (d', pc')) : OnEvents i d pc d' pc' := by
  cases stmt_branch h with
  | outbox => exact .draws
  | commit => exact .places rfl
  | coCommit =>
      refine .other (List.append_nil _) rfl ?_ fun _ => id
      intro s hs
      rcases List.mem_append.mp hs with hs | hs
      · exact Or.inl hs
      · rw [List.mem_singleton.mp hs]
        exact Or.inr trivial
  | _ => exact OnEvents.same ⟨rfl, rfl, rfl⟩ fun _ => id

/-! ## Runs -/

/-- Event ids are drawn once, and a row has the event of its order. -/
structure Numbered (s : St η) : Prop where
  below : ∀ row ∈ s.shared.outbox, row.id < s.shared.nextEvent
  distinct : (s.shared.outbox.map OutboxInsert.id).Nodup
  sold : ∀ sale ∈ s.shared.ledger, ∀ row, sale.outboxRow = some row →
    ∃ at₀, row = toOutboxInsert row.id at₀ sale.order
  event : ∀ i inp at₀ order row, s.proc i = .commit inp at₀ order row →
    row = toOutboxInsert row.id at₀ order
  drawn : ∀ i row, (s.proc i).Carries row →
    row.id < s.shared.nextEvent ∧ row.id ∉ s.shared.outbox.map OutboxInsert.id
  /-- No two open transactions have the same id. -/
  apart : ∀ i j row row', (s.proc i).Carries row → (s.proc j).Carries row' →
    row.id = row'.id → i = j

/-- A checkout puts nothing into the outbox. -/
theorem Sale.outboxRow_of_checkout {sale : Sale} (h : sale.IsCheckout) : sale.outboxRow = none := by
  unfold Sale.IsCheckout at h
  unfold Sale.outboxRow
  cases hsrc : sale.source with
  | placeOrder inp row =>
      rw [hsrc] at h
      exact h.elim
  | checkout job => rfl

theorem Pc.Carries.of_commit {inp : PlaceOrderInput} {at₀ : ℕ} {order : PlacedOrder}
    (h : pc = .commit inp at₀ order row) : pc.Carries row := by
  rw [h]
  exact rfl

section

omit [DecidableEq η]

/-- Calls other than `i` carry what they carried, and `i` carries nothing. -/
theorem Numbered.others (h : Numbered s) (hpc : ∀ row, ¬ pc'.Carries row)
    (hids : ∀ j row, j ≠ i → (s.proc j).Carries row →
      row.id < d'.nextEvent ∧ row.id ∉ d'.outbox.map OutboxInsert.id)
    (hbelow : ∀ row ∈ d'.outbox, row.id < d'.nextEvent)
    (hdistinct : (d'.outbox.map OutboxInsert.id).Nodup)
    (hsold : ∀ sale ∈ d'.ledger, ∀ row, sale.outboxRow = some row →
      ∃ at₀, row = toOutboxInsert row.id at₀ sale.order) :
    Numbered ⟨d', Function.update s.proc i pc'⟩ where
  below := hbelow
  distinct := hdistinct
  sold := hsold
  event j inp at₀ order row hj := by
    change Function.update s.proc i pc' j = _ at hj
    -- the call that moves carries nothing; the rows of the others are as before
    by_cases hji : j = i
    · subst hji
      rw [Function.update_self] at hj
      exact absurd (Pc.Carries.of_commit hj) (hpc row)
    · rw [Function.update_of_ne hji] at hj
      exact h.event j inp at₀ order row hj
  drawn j row hj := by
    change (Function.update s.proc i pc' j).Carries row at hj
    by_cases hji : j = i
    · subst hji
      rw [Function.update_self] at hj
      exact absurd hj (hpc row)
    · rw [Function.update_of_ne hji] at hj
      exact hids j row hji hj
  apart j k row row' hj hk hid := by
    change (Function.update s.proc i pc' j).Carries row at hj
    change (Function.update s.proc i pc' k).Carries row' at hk
    by_cases hji : j = i
    · subst hji
      rw [Function.update_self] at hj
      exact absurd hj (hpc row)
    · by_cases hki : k = i
      · subst hki
        rw [Function.update_self] at hk
        exact absurd hk (hpc row')
      · rw [Function.update_of_ne hji] at hj
        rw [Function.update_of_ne hki] at hk
        exact h.apart j k row row' hj hk hid

/-- The call has drawn the next id. -/
theorem Numbered.draws {inp : PlaceOrderInput} {at₀ : ℕ} {order : PlacedOrder}
    (h : Numbered s) :
    Numbered ⟨{ s.shared with nextEvent := s.shared.nextEvent + 1 }, Function.update s.proc i
      (.commit inp at₀ order (toOutboxInsert s.shared.nextEvent at₀ order))⟩ := by
  have hnew : ∀ {row}, (Pc.commit inp at₀ order
      (toOutboxInsert s.shared.nextEvent at₀ order)).Carries row →
      row = toOutboxInsert s.shared.nextEvent at₀ order := Eq.symm
  have hne : ∀ {j row}, (s.proc j).Carries row → row.id ≠ s.shared.nextEvent := by
    intro j row hj
    exact Nat.ne_of_lt (h.drawn j row hj).1
  refine ⟨?_, h.distinct, h.sold, ?_, ?_, ?_⟩
  · intro row hrow
    exact Nat.lt_succ_of_lt (h.below row hrow)
  · intro j inp' at₀' order' row hj
    change Function.update s.proc i _ j = _ at hj
    -- the number just drawn is above all that are carried or written
    by_cases hji : j = i
    · subst hji
      rw [Function.update_self] at hj
      cases hj
      rfl
    · rw [Function.update_of_ne hji] at hj
      exact h.event j inp' at₀' order' row hj
  · intro j row hj
    change (Function.update s.proc i _ j).Carries row at hj
    by_cases hji : j = i
    · subst hji
      rw [Function.update_self] at hj
      rw [hnew hj]
      refine ⟨Nat.lt_succ_self _, ?_⟩
      intro hmem
      rcases List.mem_map.mp hmem with ⟨row', hrow', hid⟩
      exact Nat.ne_of_lt (h.below row' hrow') hid
    · rw [Function.update_of_ne hji] at hj
      exact ⟨Nat.lt_succ_of_lt (h.drawn j row hj).1, (h.drawn j row hj).2⟩
  · intro j k row row' hj hk hid
    change (Function.update s.proc i _ j).Carries row at hj
    change (Function.update s.proc i _ k).Carries row' at hk
    by_cases hji : j = i
    · by_cases hki : k = i
      · exact hji.trans hki.symm
      · subst hji
        rw [Function.update_self] at hj
        rw [Function.update_of_ne hki] at hk
        rw [hnew hj] at hid
        exact absurd hid.symm (hne hk)
    · rw [Function.update_of_ne hji] at hj
      by_cases hki : k = i
      · subst hki
        rw [Function.update_self] at hk
        rw [hnew hk] at hid
        exact absurd hid (hne hj)
      · rw [Function.update_of_ne hki] at hk
        exact h.apart j k row row' hj hk hid

/-- COMMIT puts the row into the outbox. -/
theorem Numbered.places {inp : PlaceOrderInput} {at₀ : ℕ} {order : PlacedOrder}
    (h : Numbered s) (hpc : s.proc i = .commit inp at₀ order row)
    (hpc' : ∀ row, ¬ pc'.Carries row) :
    Numbered ⟨s.shared.commitSale i (placeSale i inp order row), Function.update s.proc i pc'⟩ := by
  have hcarries : (s.proc i).Carries row := Pc.Carries.of_commit hpc
  have houtbox : (s.shared.commitSale i (placeSale i inp order row)).outbox =
      s.shared.outbox ++ [row] := rfl
  refine h.others hpc' ?_ ?_ ?_ ?_
  · intro j row' hj hrow'
    refine ⟨(h.drawn j row' hrow').1, ?_⟩
    rw [houtbox, List.map_append, List.mem_append]
    rintro (hmem | hmem)
    · exact (h.drawn j row' hrow').2 hmem
    · have hid : row'.id = row.id := List.mem_singleton.mp hmem
      exact hj (h.apart j i row' row hrow' hcarries hid)
  · intro row' hrow'
    rw [houtbox] at hrow'
    rcases List.mem_append.mp hrow' with hrow' | hrow'
    · exact h.below row' hrow'
    · rw [List.mem_singleton.mp hrow']
      exact (h.drawn i row hcarries).1
  · rw [houtbox, List.map_append]
    refine List.nodup_append.mpr ⟨h.distinct, List.nodup_singleton _, ?_⟩
    rintro x hx y hy rfl
    have hid : x = row.id := List.mem_singleton.mp hy
    exact (h.drawn i row hcarries).2 (hid ▸ hx)
  · intro sale hsale row' hrow'
    rcases List.mem_append.mp hsale with hsale | hsale
    · exact h.sold sale hsale row' hrow'
    · rw [List.mem_singleton.mp hsale] at hrow' ⊢
      cases hrow'
      exact ⟨at₀, h.event i inp at₀ order row hpc⟩

/-- Every statement keeps the event numbers in order. -/
theorem Numbered.stmt (h : Numbered s) (hst : OnEvents i s.shared (s.proc i) d' pc') :
    Numbered ⟨d', Function.update s.proc i pc'⟩ := by
  generalize hpc : s.proc i = pc at hst
  cases hst with
  | draws => exact h.draws
  | places hpc' =>
      refine h.places hpc ?_
      rw [hpc']
      exact fun _ => id
  | other houtbox hnext hledger hnone =>
      refine h.others hnone ?_ ?_ ?_ ?_
      · intro j row _ hj
        rw [houtbox, hnext]
        exact h.drawn j row hj
      · rw [houtbox, hnext]
        exact h.below
      · rw [houtbox]
        exact h.distinct
      · intro sale hsale row hrow
        rcases hledger sale hsale with hsale | hchk
        · exact h.sold sale hsale row hrow
        · rw [Sale.outboxRow_of_checkout hchk] at hrow
          cases hrow

end

/-- Every step keeps the event numbers in order. -/
theorem Numbered.next (h : Numbered s) (hn : (machine hash).next s l = some t) : Numbered t := by
  cases l with
  | call i a =>
      rcases Procs.next_call hn with ⟨d, p, hst, rfl⟩
      exact h.stmt (stmt_onEvents hst)
  | env dt =>
      rcases Procs.next_env hn with ⟨d, hd, rfl⟩
      cases hd
      exact ⟨h.below, h.distinct, h.sold, h.event, h.drawn, h.apart⟩

/-- At the start nobody carries an event. -/
theorem Numbered.init (h : (machine hash).Init s) : Numbered s := by
  rcases h with ⟨⟨-, -, -, -, -, -, -, -, houtbox, -, hledger⟩, hidle⟩
  have hnone : ∀ i row, ¬ (s.proc i).Carries row := by
    intro i row
    rw [hidle i]
    exact id
  refine ⟨?_, ?_, ?_, ?_, ?_, ?_⟩
  · rw [houtbox]
    intro row hrow
    cases hrow
  · rw [houtbox]
    exact List.nodup_nil
  · rw [hledger]
    intro sale hsale
    cases hsale
  · intro i inp at₀ order row hpc
    exact absurd (Pc.Carries.of_commit hpc) (hnone i row)
  · intro i row hrow
    exact absurd hrow (hnone i row)
  · intro i j row row' hrow
    exact absurd hrow (hnone i row)

end Marketplace.Orders

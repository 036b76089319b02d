import Marketplace.Orders.Conservation

/-!
# Orders.Keys — one Idempotency-Key, at most one order

A record, once committed, stays; a claimed key is never claimed again; and every answer
given under a key is the one its record holds, given to the request its record holds.
-/

namespace Marketplace.Orders

open Core Auth Outbox

variable {η : Type} [DecidableEq η] {hash : Request → η} {i : ℕ} {d₀ d d' : Db η}
  {pc pc' : Pc} {a : Stmt}

/-! ## The statement -/

/-- The committed orders placed under a key. -/
def ordersUnder (d : Db η) (k : String) : List OrderId :=
  (d.ledger.filter fun s => s.key = some k).map fun s => s.order.orderId

/-- The committed outbox rows of those orders. -/
def outboxUnder (d : Db η) (k : String) : List OutboxInsert :=
  d.outbox.filter fun row => row.aggregateId ∈ ordersUnder d k

/-- Nothing of call `i` is left in any table. -/
structure HoldsNothing (i : ℕ) (d : Db η) : Prop where
  products : ∀ p, ¬ (d.products p).Held i
  users : ∀ u, ¬ (d.users u).Held i
  orders : ∀ o, ¬ (d.orders o).Held i
  records : ∀ k, ¬ (d.records k).Held i

/-- What one key stands for, in a shop that began as `d₀`. -/
structure OnePerKey (hash : Request → η) (d₀ : Db η) (s : St η) : Prop where
  orders : ∀ k, (ordersUnder s.shared k).length ≤ 1
  outbox : ∀ k, (outboxUnder s.shared k).length ≤ 1
  /-- A key that was taken before the run gets no order at all. -/
  taken : ∀ k, (d₀.records k).base.isSome → ordersUnder s.shared k = []
  /-- The record of an order is that of its key. -/
  record : ∀ k, ∀ o ∈ ordersUnder s.shared k, ∃ r,
    (s.shared.records k).base = some r ∧ r.orderId = o
  answers : ∀ k i j inp inp' res res', inp.key = some k → inp'.key = some k →
    s.proc i = .placed inp (.ok res) → s.proc j = .placed inp' (.ok res') →
    res.status = res'.status ∧ res.body = res'.body ∧
    (res.replayed = false → res'.replayed = false → i = j)
  mismatch : ∀ k i inp r request, inp.key = some k → (s.shared.records k).base = some r →
    r.requestHash = hash request → inp.request ≠ request →
    ∀ res, s.proc i ≠ .placed inp (.ok res)

/-- The call has ended with an error, or was cut off. -/
def Pc.Failed : Pc → Prop
  | .placed _ (.error _) | .checkedOut (.error _) | .statusSet (.error _) | .aborted => True
  | _ => False

/-- A call that has failed has not succeeded. -/
theorem Pc.Failed.not_succeeded (h : pc.Failed) : ¬ pc.Succeeded := by
  cases pc with
  | placed inp result => cases result <;> first | exact h.elim | exact id
  | checkedOut result => cases result <;> first | exact h.elim | exact id
  | statusSet result => cases result <;> first | exact h.elim | exact id
  | _ => exact id

theorem Pc.Failed.draft_empty (h : pc.Failed) : ¬ pc.Rolling ∧ pc.draft = Draft.empty := by
  cases pc <;> first | exact h.elim | exact ⟨id, rfl⟩

omit [DecidableEq η] in
/-- A call that has failed holds no row. -/
theorem Loc.holdsNothing (hl : Loc hash d₀ i d pc) (h : pc.Failed) : HoldsNothing i d := by
  obtain ⟨hroll, hempty⟩ := h.draft_empty
  have hdraft := hl.drafted hroll
  rw [hempty] at hdraft
  refine ⟨?_, ?_, ?_, ?_⟩
  · intro p
    rw [(hdraft.products p).1]
    simp [Draft.products, Draft.empty]
  · intro u
    rw [(hdraft.users u).1]
    simp [Draft.users, Draft.empty]
  · intro o
    rw [(hdraft.orders o).1]
    simp [Draft.orders, Draft.empty]
  · intro k
    rw [(hdraft.records k).1]
    simp [Draft.records, Draft.empty]

/-! ## Orders and outbox rows under a key -/

section

omit [DecidableEq η]

/-- Under a key at most one sale is in the ledger. -/
theorem Inv.under_length (hinv : Inv hash d₀ d) (k : String) :
    (d.ledger.filter fun s => s.key = some k).length ≤ 1 := by
  have hpair : (d.ledger.filter fun s => s.key = some k).Pairwise fun _ _ => False := by
    have hfilter := hinv.book.keys.filter (fun s => s.key = some k)
    refine List.Pairwise.imp_of_mem ?_ hfilter
    intro s s' hs hs' hne
    have hk : s.key = some k := by simpa using (List.mem_filter.mp hs).2
    have hk' : s'.key = some k := by simpa using (List.mem_filter.mp hs').2
    exact hne k hk' hk
  generalize (d.ledger.filter fun s => s.key = some k) = L at hpair
  match L with
  | [] => exact Nat.zero_le _
  | [_] => exact Nat.le_refl _
  | s :: s' :: _ => exact (List.rel_of_pairwise_cons hpair List.mem_cons_self).elim

/-- Under a key at most one order was made. -/
theorem Inv.ordersUnder_length (hinv : Inv hash d₀ d) (k : String) :
    (ordersUnder d k).length ≤ 1 := by
  unfold ordersUnder
  rw [List.length_map]
  exact hinv.under_length k

theorem mem_ordersUnder {k : String} {o : OrderId} :
    o ∈ ordersUnder d k ↔ ∃ s ∈ d.ledger, s.key = some k ∧ s.order.orderId = o := by
  simp [ordersUnder, and_assoc]

end

omit [DecidableEq η] in
/-- Under a key at most one event was written. -/
theorem Inv.outboxUnder_length (hinv : Inv hash d₀ d) (k : String) :
    (outboxUnder d k).length ≤ 1 := by
  unfold outboxUnder
  cases hunder : ordersUnder d k with
  | nil => simp
  | cons o rest =>
      have hlen := hinv.ordersUnder_length k
      rw [hunder, List.length_cons] at hlen
      have hrest : rest = [] := List.length_eq_zero_iff.mp (by omega)
      have hmem : o ∈ ordersUnder d k := by
        rw [hunder]
        exact List.mem_cons_self
      obtain ⟨s, hs, -, rfl⟩ := mem_ordersUnder.mp hmem
      have hfilter : (d.outbox.filter fun row => row.aggregateId ∈ s.order.orderId :: rest) =
          Orders.outboxOf d s.order.orderId := by
        simp [hrest, Orders.outboxOf]
      rw [hfilter, hinv.outboxOf hs]
      cases s.outboxRow <;> simp

/-! ## Answers under a key -/

section

omit [DecidableEq η]

/-- An answer under a key is the one of its record, and its request that of its record. -/
theorem Loc.answer {inp : PlaceOrderInput} {res : PlaceOrderResult} {k : String}
    (hl : Loc hash d₀ i d (.placed inp (.ok res))) (hk : inp.key = some k) :
    ∃ r, (d.records k).base = some r ∧ r.requestHash = hash inp.request ∧
      r.responseStatus = res.status ∧ r.responseBody = res.body :=
  hl.ended.1 k hk

/-- A call that placed its order itself is the call of the sale. -/
theorem Loc.first {inp : PlaceOrderInput} {res : PlaceOrderResult}
    (hl : Loc hash d₀ i d (.placed inp (.ok res))) (hres : res.replayed = false) :
    ∃ s ∈ d.ledger, s.call = i ∧ s.key = inp.key := by
  have hsale := hl.ended.2
  rw [if_neg (by simp [hres])] at hsale
  obtain ⟨s, hs, hcall, ⟨row, hsrc⟩, -⟩ := hsale
  exact ⟨s, hs, hcall, Sale.key_of_source hsrc⟩

end

omit [DecidableEq η] in
/-- The invariant and what every call knows give one order, one event and one answer a key. -/
theorem onePerKey_of_holds (hinj : Function.Injective hash) {s : St η}
    (h : Procs.Holds (Inv hash d₀) (Loc hash d₀) s) : OnePerKey hash d₀ s := by
  obtain ⟨hinv, hloc⟩ := h
  refine ⟨hinv.ordersUnder_length, hinv.outboxUnder_length, ?_, ?_, ?_, ?_⟩
  · intro k hk
    obtain ⟨r, hr⟩ := Option.isSome_iff_exists.mp hk
    rw [List.eq_nil_iff_forall_not_mem]
    intro o ho
    obtain ⟨sale, hs, hkey, rfl⟩ := mem_ordersUnder.mp ho
    rw [hinv.book.unclaimed sale hs k hkey] at hr
    cases hr
  · intro k o ho
    obtain ⟨sale, hs, hkey, rfl⟩ := mem_ordersUnder.mp ho
    obtain ⟨inp, row, hsrc, hkey'⟩ := Sale.source_of_key hkey
    exact ⟨_, hinv.recorded sale hs inp row hsrc k hkey', rfl⟩
  · intro k i j inp inp' res res' hk hk' hi hj
    have hli := hloc i
    have hlj := hloc j
    rw [hi] at hli
    rw [hj] at hlj
    obtain ⟨r, hr, -, hstatus, hbody⟩ := hli.answer hk
    obtain ⟨r', hr', -, hstatus', hbody'⟩ := hlj.answer hk'
    rw [hr] at hr'
    cases hr'
    refine ⟨hstatus.symm.trans hstatus', hbody.symm.trans hbody', ?_⟩
    intro hres hres'
    -- two first answers under one key are one sale, so one call
    obtain ⟨sale, hs, rfl, hkey⟩ := hli.first hres
    obtain ⟨sale', hs', rfl, hkey'⟩ := hlj.first hres'
    rw [hinv.book.key_unique hs hs' (hkey.trans hk) (hkey'.trans hk')]
  · intro k i inp r request hk hr hhash hne res hpc
    have hli := hloc i
    rw [hpc] at hli
    obtain ⟨r', hr', hhash', -⟩ := hli.answer hk
    rw [hr] at hr'
    cases hr'
    exact hne (hinj (hhash'.symm.trans hhash))

/-! ## Records stay -/

theorem Effect.recorded (hinv : Inv hash d₀ d) (hl : Loc hash d₀ i d pc)
    (he : Effect hash i d pc d' pc') :
    ∀ k r, (d.records k).base = some r → (d'.records k).base = some r :=
  (he.rely (j := i + 1) (Nat.succ_ne_self i) hinv hl).recorded

/-- A record stays as it was written. -/
theorem run_recorded {ok : St η → Label → Prop} {s t : St η} {as : List Label} (h₀ : Init d₀)
    (hr : (machine hash).Run ok s as t) (h : Procs.Holds (Inv hash d₀) (Loc hash d₀) s) :
    ∀ k r, (s.shared.records k).base = some r → (t.shared.records k).base = some r := by
  have hboth : Procs.Holds (Inv hash d₀) (Loc hash d₀) t ∧
      ∀ k r, (s.shared.records k).base = some r → (t.shared.records k).base = some r := by
    refine hr.invariant (P := fun u => Procs.Holds (Inv hash d₀) (Loc hash d₀) u ∧
      ∀ k r, (s.shared.records k).base = some r → (u.shared.records k).base = some r) ?_
      ⟨h, fun _ _ hr => hr⟩
    rintro u act v hok hn ⟨hu, hrec⟩
    refine ⟨run_holds h₀ (Machine.Run.single hok hn) hu, ?_⟩
    intro k r hr
    cases act with
    | call i a =>
        obtain ⟨d, pc, hst, rfl⟩ := Procs.next_call hn
        exact (stmt_effect hst).recorded hu.1 (hu.2 i) k r (hrec k r hr)
    | env dt =>
        obtain ⟨d, hd, rfl⟩ := Procs.next_env hn
        cases hd
        exact hrec k r hr
  exact hboth.2

/-- In every interleaving of placeOrder calls (and of the other order paths), with aborts
anywhere: a key stands for one order and one answer, for one request; its record stays as it
was committed; and a call that throws or is aborted leaves nothing behind. -/
theorem one_order_per_key (hash : Request → η) (hinj : Function.Injective hash) (s t : St η)
    (as : List Label) (hs : (machine hash).Init s)
    (hr : (machine hash).Run Machine.Always s as t) :
    OnePerKey hash s.shared t ∧
    (∀ bs cs u, as = bs ++ cs → (machine hash).Run Machine.Always s bs u →
      (machine hash).Run Machine.Always u cs t →
      ∀ k r, (u.shared.records k).base = some r → (t.shared.records k).base = some r) ∧
    ∀ i, (t.proc i).Failed → HoldsNothing i t.shared ∧
      ∀ a bs cs u v, as = bs ++ .call i a :: cs → (machine hash).Run Machine.Always s bs u →
        (machine hash).next u (.call i a) = some v →
        (machine hash).Run Machine.Always v cs t → Uncommitted u.shared v.shared := by
  have hholds := holds hs hr
  refine ⟨onePerKey_of_holds hinj hholds, ?_, ?_⟩
  · intro bs cs u _ hbs hcs
    exact run_recorded hs.1 hcs (holds hs hbs)
  · intro i hfail
    refine ⟨(hholds.2 i).holdsNothing hfail, ?_⟩
    intro a bs cs u v _ _ hn hrest
    exact unsuccessful_uncommitted hn hrest hfail.not_succeeded

/-- Calls 0 and 1 race for one key. Call 1 waits for the stock that call 0 holds, loses the
claim, rolls back and replays the answer of call 0. -/
def sameKey : List Label :=
  .call 0 (.placeOrder twoPieces) :: .call 1 (.placeOrder twoPieces) ::
  runs 0 2 ++ runs 1 1 ++ runs 0 7 ++ runs 1 8

/-- Two calls race under one key: one buys, the other gets its answer. -/
theorem one_order_per_key_race : ∃ (t : St Request) (body : ResponseBody),
    (machine id).Run Machine.Always shop sameKey t ∧
    t.proc 0 = .placed twoPieces (.ok ⟨201, body, false⟩) ∧
    t.proc 1 = .placed twoPieces (.ok ⟨201, body, true⟩) ∧
    OnePerKey id shop.shared t := by
  have hrun : ∃ t body, (machine (id : Request → Request)).exec (fun _ _ => true) shop sameKey = some t ∧
      t.proc 0 = .placed twoPieces (.ok ⟨201, body, false⟩) ∧
      t.proc 1 = .placed twoPieces (.ok ⟨201, body, true⟩) := ⟨_, _, rfl, rfl, rfl⟩
  obtain ⟨t, body, ht, h0, h1⟩ := hrun
  have hr := Machine.exec_always ht
  exact ⟨t, body, hr, h0, h1,
    (one_order_per_key id Function.injective_id shop t sameKey (shop_init id) hr).1⟩

end Marketplace.Orders

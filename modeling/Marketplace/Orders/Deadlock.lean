import Marketplace.Core.Waits
import Marketplace.Orders.Conservation
import Marketplace.Orders.Create
import Mathlib.Data.Prod.Lex

/-!
# Orders.Deadlock — orders wait, but not in a circle

A statement that cannot be taken waits for the holder of the row it needs. The rows are ranked:
products by id, then users and orders, then idempotency keys. Every call wants rows in
rising rank, because `placeOrder` takes its products in the order `sortedItems` gives them and
claims its key last, and `checkout` takes one product and then one user. `create_sortedItems`
says that this is the order of `Number`.

So the waits-for relation is acyclic, and while calls are open one of them can go on.
-/

namespace Marketplace.Orders

open Core Auth Outbox

/-- A row that a statement may have to wait for. -/
inductive Row where
  | product (p : ProductId)
  | user (u : UserId)
  | order (o : OrderId)
  | record (key : String)

namespace Row

/-- The lock order. -/
def rank : Row → ℕ ×ₗ ℤ
  | .product p => toLex (0, p)
  | .user _ | .order _ => toLex (1, 0)
  | .record _ => toLex (2, 0)

variable {η : Type}

/-- Call `i` holds the row until its transaction ends. -/
def Held (d : Db η) (i : ℕ) : Row → Prop
  | .product p => (d.products p).Held i
  | .user u => (d.users u).Held i
  | .order o => (d.orders o).Held i
  | .record key => (d.records key).Held i

/-- Nobody but call `i` holds the row. -/
def Free (d : Db η) (i : ℕ) : Row → Prop
  | .product p => (d.products p).Free i
  | .user u => (d.users u).Free i
  | .order o => (d.orders o).Free i
  | .record key => (d.records key).Free i

/-- A row that is not free for a call is held by another one. -/
theorem exists_holder {d : Db η} {i : ℕ} {r : Row} (h : ¬ r.Free d i) :
    ∃ j, i ≠ j ∧ r.Held d j := by
  have hslot : ∀ {V : Type} (c : Slot ℕ V), ¬ c.Free i → ∃ j, i ≠ j ∧ c.Held j := by
    intro V c hc
    unfold Slot.Free at hc
    push Not at hc
    obtain ⟨j, v, hl, hj⟩ := hc
    exact ⟨j, hj.symm, v, hl⟩
  cases r <;> exact hslot _ h

end Row

/-- The row that the next statement of a call locks. -/
def Pc.wants : Pc → Option Row
  | .stock _ _ (item :: _) _ => some (.product item.productId)
  | .coStock inp _ => some (.product inp.productId)
  | .coBalance inp _ _ _ => some (.user inp.userId)
  | .claim inp _ _ => inp.key.map .record
  | .statusUpdate id _ => some (.order id)
  | _ => none

section

variable {η : Type} [DecidableEq η] {hash : Request → η} {i j : ℕ} {d d' d₀ : Db η} {pc pc' : Pc}
  {r : Row}

/-- The row that call `i` waits for. -/
def waitsFor (hash : Request → η) (s : St η) (i : ℕ) : Option Row :=
  if (stmt hash i s.shared (s.proc i) .run).isNone then (s.proc i).wants else none

/-- Call `i` waits for call `j`, which holds the row that the next statement of `i` needs. -/
def Waits (hash : Request → η) (s : St η) : ℕ → ℕ → Prop :=
  Waits.For (fun j r => r.Held s.shared j) (waitsFor hash s)

/-! ## What a statement that cannot be taken needs -/

/-- An UPDATE that cannot run waits for its row. -/
theorem updateWhere_none {K V : Type} [DecidableEq K] {T : Table ℕ K V} {k : K}
    {cond : V → Bool} {f : V → V} (h : T.updateWhere i k cond f = none) : ¬ (T k).Free i := by
  unfold Table.updateWhere at h
  split at h
  · cases h
  · split at h
    · split at h
      · cases h
      · assumption
    · cases h

section

omit [DecidableEq η]

/-- An UPDATE of the stock that cannot run waits for the product. -/
theorem takeStock_none {productId : ProductId} {quantity : ℤ}
    (h : takeStock i d productId quantity = none) : ¬ (d.products productId).Free i := by
  unfold takeStock at h
  split at h
  · split at h
    · next hu => exact updateWhere_none hu
    · cases h
    · split at h <;> cases h
  · cases h

/-- A claim that cannot run waits for the key. -/
theorem claim_none {inp : PlaceOrderInput} {at₀ : ℕ} {order : PlacedOrder} {key : String}
    (h : claim hash i d inp at₀ order key = none) : ¬ (d.records key).Free i := by
  unfold claim at h
  rw [Option.map_eq_none_iff] at h
  unfold Table.insertNew at h
  split at h
  · split at h <;> cases h
  · assumption

/-- An UPDATE of the balance that cannot run waits for the user. -/
theorem debit_none {inp : CheckoutInput} {at₀ : ℕ} {line : Line} {stockLeft : ℤ}
    (h : debit i d inp at₀ line stockLeft = none) : ¬ (d.users inp.userId).Free i := by
  unfold debit at h
  split at h
  · rw [Option.map_eq_none_iff] at h
    exact updateWhere_none h
  · cases h

end

/-- A call that claims has a key to claim. -/
def Pc.Keyed : Pc → Prop
  | .claim inp _ _ => inp.key.isSome
  | _ => True

/-- The next statement of an open call can be taken, or the row it needs is not free. -/
theorem stmt_none (hopen : pc.Open) (hkey : pc.Keyed) (h : stmt hash i d pc .run = none) :
    ∃ r, pc.wants = some r ∧ ¬ r.Free d i := by
  -- only statements that lock a row can be blocked
  cases pc with
  | stock inp at₀ rest lines =>
      cases rest with
      | nil => cases h
      | cons item rest =>
          simp only [stmt, Option.map_eq_none_iff] at h
          exact ⟨_, rfl, takeStock_none h⟩
  | coStock inp at₀ =>
      simp only [stmt, Option.map_eq_none_iff] at h
      exact ⟨_, rfl, takeStock_none h⟩
  | coBalance inp at₀ line stockLeft => exact ⟨_, rfl, debit_none h⟩
  | claim inp at₀ order =>
      obtain ⟨key, hkey⟩ := Option.isSome_iff_exists.mp hkey
      simp only [stmt, hkey, Option.bind_some] at h
      exact ⟨.record key, by simp [Pc.wants, hkey], claim_none h⟩
  | statusUpdate o status =>
      simp only [stmt, Option.map_eq_none_iff] at h
      exact ⟨_, rfl, updateWhere_none h⟩
  | findReplay inp =>
      simp only [stmt] at h
      split at h <;> cases h
  | insertItems inp at₀ order inserted rest => cases rest <;> cases h
  | insertOrder inp at₀ lines =>
      simp only [stmt] at h
      split at h <;> cases h
  | replay inp =>
      simp only [stmt] at h
      split at h <;> cases h
  | coOrder inp at₀ line stockLeft =>
      simp only [stmt] at h
      split at h <;> cases h
  | idle => exact hopen.elim
  | placed inp result => exact hopen.elim
  | checkedOut result => exact hopen.elim
  | statusSet result => exact hopen.elim
  | aborted => exact hopen.elim
  | _ => cases h

/-- Only a call with a key comes to a claim. -/
theorem stmt_keyed {a : Stmt} (h : stmt hash i d pc a = some (d', pc')) : pc'.Keyed := by
  cases stmt_branch h with
  | toClaim hkey => exact hkey
  | _ => trivial

/-! ## The lock order -/

/-- Items are taken in ascending order of their products. -/
theorem sortedItems_le {inp : PlaceOrderInput} {front rest : List Item} {item : Item}
    (h : front ++ item :: rest = inp.sortedItems) :
    ∀ x ∈ front, x.productId ≤ item.productId := by
  have hsorted : (front ++ item :: rest).Pairwise fun a b => a.productId ≤ b.productId := by
    rw [h]
    exact List.pairwise_insertionSort _ _
  intro x hx
  exact (List.pairwise_append.mp hsorted).2.2 x hx item List.mem_cons_self

section

omit [DecidableEq η]

/-- A product that a call holds is one of its lines. -/
theorem Drafted.held_product {δ : Draft} (h : Drafted hash i d δ) {p : ProductId}
    (hheld : (d.products p).Held i) : p ∈ δ.lines.map Line.productId := by
  have hsome := (h.products p).1.mp hheld
  by_contra hnot
  rw [Draft.products, if_neg hnot] at hsome
  cases hsome

/-- A call without a draft holds no row. -/
theorem Drafted.empty_held (h : Drafted hash i d Draft.empty) : ¬ r.Held d i := by
  intro hheld
  cases r with
  | product p => cases (h.products p).1.mp hheld
  | user u => cases (h.users u).1.mp hheld
  | order o => cases (h.orders o).1.mp hheld
  | record key => cases (h.records key).1.mp hheld

/-- A call that waits holds rows of lower rank only. -/
theorem held_rank (hl : Loc hash d₀ i d pc) {r' : Row} (hw : pc.wants = some r)
    (hfree : ¬ r.Free d i) (hheld : r'.Held d i) : r'.rank < r.rank := by
  have hdrafted : ∀ {δ : Draft}, pc.draft = δ → ¬ pc.Rolling → Drafted hash i d δ := by
    rintro δ rfl hroll
    exact hl.drafted hroll
  have hbelow : ∀ {m n : ℕ} (a b : ℤ), m < n → (toLex (m, a) : ℕ ×ₗ ℤ) < toLex (n, b) :=
    fun a b h => Prod.Lex.toLex_lt_toLex.mpr (Or.inl h)
  -- products in ascending order, then the user, then the order, then the key
  cases pc with
  | stock inp at₀ rest lines =>
      cases rest with
      | nil => cases hw
      | cons item rest =>
          obtain rfl := Option.some.inj hw
          have hdraft := hdrafted rfl id
          cases r' with
          | product p =>
              have hp : p ∈ lines.map Line.productId := hdraft.held_product hheld
              have hfacts : lines.map (fun l => (⟨l.productId, l.quantity⟩ : Item)) ++
                  item :: rest = inp.sortedItems := hl.facts
              obtain ⟨l, hl', rfl⟩ := List.mem_map.mp hp
              have hle : l.productId ≤ item.productId :=
                sortedItems_le hfacts _ (List.mem_map_of_mem hl')
              -- a product it holds itself it need not wait for
              have hne : l.productId ≠ item.productId := by
                intro heq
                rw [heq] at hheld
                exact hfree (Slot.Held.free hheld)
              exact Prod.Lex.toLex_lt_toLex.mpr (Or.inr ⟨rfl, lt_of_le_of_ne hle hne⟩)
          | user u => cases (hdraft.users u).1.mp hheld
          | order o => cases (hdraft.orders o).1.mp hheld
          | record key => cases (hdraft.records key).1.mp hheld
  | coStock inp at₀ => exact absurd hheld (hdrafted rfl id).empty_held
  | coBalance inp at₀ line stockLeft =>
      obtain rfl := Option.some.inj hw
      have hdraft := hdrafted rfl id
      cases r' with
      | product p => exact hbelow _ _ (by decide)
      | user u => cases (hdraft.users u).1.mp hheld
      | order o => cases (hdraft.orders o).1.mp hheld
      | record key => cases (hdraft.records key).1.mp hheld
  | claim inp at₀ order =>
      have hdraft := hdrafted rfl id
      obtain ⟨key, -, rfl⟩ := Option.map_eq_some_iff.mp hw
      cases r' with
      | product p => exact hbelow _ _ (by decide)
      | user u => exact hbelow _ _ (by decide)
      | order o => exact hbelow _ _ (by decide)
      | record key => cases (hdraft.records key).1.mp hheld
  | statusUpdate o status => exact absurd hheld (hdrafted rfl id).empty_held
  | _ => cases hw

/-- A call that is not open holds nothing. -/
theorem open_of_held (hl : Loc hash d₀ i d pc) (h : r.Held d i) : pc.Open := by
  by_contra hopen
  have hempty : ¬ pc.Rolling ∧ pc.draft = Draft.empty := by
    cases pc with
    | idle => exact ⟨id, rfl⟩
    | placed inp result => exact ⟨id, rfl⟩
    | checkedOut result => exact ⟨id, rfl⟩
    | statusSet result => exact ⟨id, rfl⟩
    | aborted => exact ⟨id, rfl⟩
    | _ => exact absurd trivial hopen
  have hdraft := hl.drafted hempty.1
  rw [hempty.2] at hdraft
  exact hdraft.empty_held h

end

/-! ## No deadlock -/

/-- What is known of every call of a reachable state. -/
theorem reachable_facts {s : St η} (h : (machine hash).Reachable s) :
    ∃ d₀, Procs.Holds (Inv hash d₀) (Loc hash d₀) s ∧ (∀ i, (s.proc i).Keyed) ∧
      {i | (s.proc i).Open}.Finite := by
  obtain ⟨s₀, as, hinit, hr⟩ := h
  refine ⟨s₀.shared, run_holds hinit.1 hr (init_holds hinit), ?_, ?_⟩
  · refine hr.invariant (P := fun s => ∀ i, (s.proc i).Keyed) ?_ ?_
    · intro t act u _ hn hkeyed
      cases act with
      | call i a =>
          obtain ⟨d, p, hst, rfl⟩ := Procs.next_call hn
          exact Procs.forall_update (Q := fun _ => Pc.Keyed) (stmt_keyed hst) fun j _ => hkeyed j
      | env e =>
          obtain ⟨d, -, rfl⟩ := Procs.next_env hn
          exact hkeyed
    · intro i
      rw [hinit.2 i]
      trivial
  · refine (Procs.Run.finite_begun hr hinit.2).subset ?_
    intro i hi heq
    change (s.proc i).Open at hi
    rw [heq] at hi
    exact hi

/-- In every reachable state nobody waits in a circle, and while a transaction is open, one of
the open ones can take its next statement. -/
theorem orders_deadlock_free (hash : Request → η) (s : St η) (h : (machine hash).Reachable s) :
    (∀ i, ¬ Relation.TransGen (Waits hash s) i i) ∧
    ((∃ i, (s.proc i).Open) →
      ∃ i, (s.proc i).Open ∧ (stmt hash i s.shared (s.proc i) .run).isSome) := by
  obtain ⟨d₀, ⟨-, hloc⟩, hkeyed, hfin⟩ := reachable_facts h
  have hblocked : ∀ i r, waitsFor hash s i = some r →
      (s.proc i).wants = some r ∧ stmt hash i s.shared (s.proc i) .run = none := by
    intro i r hw
    unfold waitsFor at hw
    split at hw
    · next hnone => exact ⟨hw, Option.isNone_iff_eq_none.mp hnone⟩
    · cases hw
  have hopen : ∀ i r, (s.proc i).wants = some r → (s.proc i).Open := by
    intro i r hw
    generalize s.proc i = pc at hw
    cases pc <;> trivial
  -- whoever waits wants a row of higher rank than all it holds
  have hrank : ∀ i r (r' : Row), waitsFor hash s i = some r → r'.Held s.shared i →
      r'.rank < r.rank := by
    intro i r r' hw hheld
    obtain ⟨hwants, hnone⟩ := hblocked i r hw
    obtain ⟨r₂, hwants₂, hfree⟩ := stmt_none (hopen i r hwants) (hkeyed i) hnone
    obtain rfl : r = r₂ := Option.some.inj (hwants.symm.trans hwants₂)
    exact held_rank (hloc i) hwants hfree hheld
  have hacyclic : ∀ i, ¬ Relation.TransGen (Waits hash s) i i := Waits.acyclic hrank
  refine ⟨hacyclic, ?_⟩
  intro hsome
  have hclosed : ∀ i ∈ {i | (s.proc i).Open}, ∀ j, Waits hash s i j → (s.proc j).Open := by
    intro i _ j hij
    obtain ⟨-, r, -, hheld⟩ := hij
    exact open_of_held (hloc j) hheld
  obtain ⟨i, hi, hready⟩ := Waits.exists_unblocked hacyclic hfin hsome hclosed
  refine ⟨i, hi, ?_⟩
  cases hst : stmt hash i s.shared (s.proc i) .run with
  | some r => rfl
  | none =>
      obtain ⟨r, hwants, hfree⟩ := stmt_none hi (hkeyed i) hst
      obtain ⟨j, hij, hheld⟩ := Row.exists_holder hfree
      refine absurd ⟨hij, r, ?_, hheld⟩ (hready j)
      rw [waitsFor, hst]
      exact hwants

end

/-- Call 0 has taken the stock that call 1 wants. -/
def oneWaits : List Label :=
  .call 0 (.placeOrder twoPieces) :: .call 1 (.placeOrder twoPieces) :: runs 0 2 ++ runs 1 1

/-- One call waits for another's product, and somebody can move. -/
theorem orders_deadlock_free_waits : ∃ s : St Request,
    (machine id).exec (fun _ _ => true) shop oneWaits = some s ∧ Waits id s 1 0 ∧
    (∀ i, ¬ Relation.TransGen (Waits id s) i i) ∧
    ∃ i, (s.proc i).Open ∧ (stmt id i s.shared (s.proc i) .run).isSome := by
  have hrun : ∃ s : St Request, (machine id).exec (fun _ _ => true) shop oneWaits = some s ∧
      waitsFor id s 1 = some (.product 1) ∧ (Row.product 1).Held s.shared 0 ∧ (s.proc 0).Open :=
    ⟨_, rfl, rfl, ⟨_, rfl⟩, trivial⟩
  obtain ⟨s, hexec, hwants, hheld, hopen⟩ := hrun
  have hreach : (machine (id : Request → Request)).Reachable s :=
    ⟨shop, _, shop_init id, Machine.exec_always hexec⟩
  obtain ⟨hacyclic, hready⟩ := orders_deadlock_free id s hreach
  exact ⟨s, hexec, ⟨by decide, _, hwants, hheld⟩, hacyclic, hready ⟨0, hopen⟩⟩

end Marketplace.Orders

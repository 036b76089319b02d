import Marketplace.Orders.Steps
import Mathlib.Data.List.Pairwise

/-!
# Orders.Book — the book of committed orders

What the order paths are for, without statements, locks or rows: a book of sales. A
sale may be entered if it is proper, its order, its call and its key are new, and
neither the stock of a product nor the balance of a user is overdrawn.
-/

namespace Marketplace.Orders

open Core Auth Outbox

namespace Sale

/-- What the sale takes from the stock of `p`. -/
def takes (s : Sale) (p : ProductId) : ℤ := takenOf s.order.items p

def IsCheckout (s : Sale) : Prop :=
  match s.source with
  | .checkout _ => True
  | .placeOrder _ _ => False

instance : DecidablePred IsCheckout := fun s =>
  match h : s.source with
  | .checkout _ => isTrue (by unfold IsCheckout; rw [h]; trivial)
  | .placeOrder _ _ => isFalse (by unfold IsCheckout; rw [h]; exact id)

/-- What the sale takes from the balance of `u`: only a checkout is paid from it. -/
def pays (s : Sale) (u : UserId) : ℤ :=
  if s.IsCheckout ∧ s.order.userId = u then s.order.totalCents else 0

/-- The Idempotency-Key the sale was placed under. -/
def key (s : Sale) : Option String :=
  match s.source with
  | .placeOrder inp _ => inp.key
  | .checkout _ => none

/-- The outbox row written with the order. -/
def outboxRow (s : Sale) : Option OutboxInsert :=
  match s.source with
  | .placeOrder _ row => some row
  | .checkout _ => none

def job (s : Sale) : Option Job :=
  match s.source with
  | .placeOrder _ _ => none
  | .checkout job => some job

end Sale

/-- A line as the price list and the constraints of `order_items` have it. -/
structure LineOk (l : Line) : Prop where
  quantity : 1 ≤ l.quantity ∧ l.quantity ≤ 100
  total : l.lineTotalCents = l.unitPriceCents * l.quantity

/-- An order whose figures add up, and whose other rows belong to it. -/
structure Proper (s : Sale) : Prop where
  lines : ∀ l ∈ s.order.items, LineOk l
  distinct : s.order.items.Pairwise fun a b => a.productId ≠ b.productId
  total : s.order.totalCents = totalOf s.order.items
  outbox : ∀ row, s.outboxRow = some row → row.aggregateId = s.order.orderId
  job : ∀ j, s.job = some j → j.orderId = s.order.orderId

/-- The initial stock of a product, and balance of a user. -/
def stockOf {η : Type} (d : Db η) (p : ProductId) : ℤ :=
  ((d.products p).base.map Product.stock).getD 0

def balanceOf {η : Type} (d : Db η) (u : UserId) : ℤ :=
  ((d.users u).base.map User.balanceCents).getD 0

def soldOf (L : List Sale) (p : ProductId) : ℤ := Ledger.debited Sale.takes L p

def paidOf (L : List Sale) (u : UserId) : ℤ := Ledger.debited Sale.pays L u

/-- What lines take of a product is not negative. -/
theorem takenOf_nonneg {lines : List Line} (h : ∀ l ∈ lines, 0 ≤ l.quantity) (p : ProductId) :
    0 ≤ takenOf lines p := by
  refine Ledger.debited_nonneg _ _ _ ?_
  intro l hl
  have hq := h l hl
  unfold taken
  split
  · exact hq
  · exact le_refl _

/-- A proper sale gives no stock back. -/
theorem Proper.takes_nonneg {s : Sale} (h : Proper s) (p : ProductId) : 0 ≤ s.takes p := by
  refine takenOf_nonneg ?_ p
  intro l hl
  have hq := (h.lines l hl).quantity.1
  omega

theorem soldOf_nonneg {L : List Sale} (h : ∀ s ∈ L, Proper s) (p : ProductId) : 0 ≤ soldOf L p :=
  Ledger.debited_nonneg _ _ _ fun s hs => (h s hs).takes_nonneg p

/-- When a sale may be entered in the book of a shop that began as `d₀`. -/
structure May {η : Type} (d₀ : Db η) (L : List Sale) (s : Sale) : Prop where
  proper : Proper s
  order : ∀ s' ∈ L, s'.order.orderId ≠ s.order.orderId
  call : ∀ s' ∈ L, s'.call ≠ s.call
  key : ∀ k, s.key = some k → ∀ s' ∈ L, s'.key ≠ some k
  unclaimed : ∀ k, s.key = some k → (d₀.records k).base = none
  stock : ∀ p, soldOf (L ++ [s]) p ≤ stockOf d₀ p
  balance : ∀ u, paidOf (L ++ [s]) u ≤ balanceOf d₀ u

/-- The book of a shop that began as `d₀`. -/
def Book {η : Type} (d₀ : Db η) (L : List Sale) : Prop := Ledger.Legal (May d₀) L

section

variable {η : Type} {d₀ : Db η} {L : List Sale}

theorem Book.proper (h : Book d₀ L) : ∀ s ∈ L, Proper s :=
  Ledger.Legal.forall_mem (fun _ _ hm => hm.proper) h

theorem Book.orders (h : Book d₀ L) :
    L.Pairwise fun s s' => s.order.orderId ≠ s'.order.orderId :=
  Ledger.Legal.pairwise (fun _ _ hm => hm.order) h

theorem Book.calls (h : Book d₀ L) : L.Pairwise fun s s' => s.call ≠ s'.call :=
  Ledger.Legal.pairwise (fun _ _ hm => hm.call) h

/-- One key, at most one sale. -/
theorem Book.keys (h : Book d₀ L) :
    L.Pairwise fun s s' => ∀ k, s'.key = some k → s.key ≠ some k :=
  Ledger.Legal.pairwise (fun _ _ hm e' he' k hk => hm.key k hk e' he') h

/-- A key that was taken before the run stays without a sale. -/
theorem Book.unclaimed (h : Book d₀ L) :
    ∀ s ∈ L, ∀ k, s.key = some k → (d₀.records k).base = none :=
  Ledger.Legal.forall_mem (fun _ _ hm => hm.unclaimed) h

theorem Book.stock (h : Book d₀ L) (h₀ : ∀ p, 0 ≤ stockOf d₀ p) (p : ProductId) :
    soldOf L p ≤ stockOf d₀ p :=
  Ledger.Legal.debited_le h₀ (fun _ _ hm => hm.stock) h p

theorem Book.balance (h : Book d₀ L) (h₀ : ∀ u, 0 ≤ balanceOf d₀ u) (u : UserId) :
    paidOf L u ≤ balanceOf d₀ u :=
  Ledger.Legal.debited_le h₀ (fun _ _ hm => hm.balance) h u

end

/-- In a list whose elements differ pairwise under `f`, equal images mean equal elements. -/
theorem eq_of_pairwise {α β : Type} {f : α → β} {l : List α}
    (h : l.Pairwise fun a b => f a ≠ f b) {a b : α} (ha : a ∈ l) (hb : b ∈ l)
    (heq : f a = f b) : a = b := by
  by_contra hne
  have hsymm : Std.Symm fun a b : α => f a ≠ f b := ⟨fun _ _ hxy => Ne.symm hxy⟩
  exact h.forall ha hb hne heq

theorem Book.order_unique {η : Type} {d₀ : Db η} {L : List Sale} (h : Book d₀ L) {s s' : Sale}
    (hs : s ∈ L) (hs' : s' ∈ L) (heq : s.order.orderId = s'.order.orderId) : s = s' :=
  eq_of_pairwise (f := fun s : Sale => s.order.orderId) h.orders hs hs' heq

/-- A legal ledger has at most one sale under a key. -/
theorem Book.key_unique {η : Type} {d₀ : Db η} {L : List Sale} (h : Book d₀ L) {s s' : Sale}
    {k : String} (hs : s ∈ L) (hs' : s' ∈ L) (hk : s.key = some k) (hk' : s'.key = some k) :
    s = s' := by
  by_contra hne
  have hsym : L.Pairwise fun s s' => ¬ ∃ k, s.key = some k ∧ s'.key = some k := by
    refine h.keys.imp ?_
    rintro a b hab ⟨k, ha, hb⟩
    exact hab k hb ha
  have hsymm : Std.Symm fun s s' : Sale => ¬ ∃ k, s.key = some k ∧ s'.key = some k := by
    constructor
    rintro x y hxy ⟨k, hy, hx⟩
    exact hxy ⟨k, hx, hy⟩
  exact hsym.forall hs hs' hne ⟨k, hk, hk'⟩

end Marketplace.Orders

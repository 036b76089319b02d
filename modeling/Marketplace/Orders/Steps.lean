import Marketplace.Core.Ledger
import Marketplace.Orders.Branches

/-!
# Orders.Steps — what an open transaction holds, and what one statement does

`Pc.draft` reads off a program point everything its transaction has written and not
committed. `stmt_effect` says, once, what a statement can do to the tables and to the
draft: take stock, debit a balance, insert an order, claim a key, set a status, throw,
roll back or commit.
-/

namespace Marketplace.Orders

open Core Auth Outbox

variable {η : Type}

/-! ## Drafts -/

/-- What an open transaction has written. -/
structure Draft where
  /-- Lines whose stock has been taken. -/
  lines : List Line
  pays : Option (UserId × ℤ)
  order : Option (OrderId × Order)
  status : Option (OrderId × OrderStatus)
  record : Option (String × PlaceOrderInput × PlacedOrder)

namespace Draft

def empty : Draft := ⟨[], none, none, none, none⟩

end Draft

namespace Pc

/-- A transaction that is only going to roll back. -/
def Rolling : Pc → Prop
  | .productExists _ _ _ | .rollback _ _ | .coRollback _ => True
  | _ => False

/-- A call that has returned a result of its own. -/
def Answers : Pc → Prop
  | .placed _ (.ok _) | .checkedOut (.ok _) => True
  | _ => False

def draft : Pc → Draft
  | .stock _ _ _ lines | .insertOrder _ _ lines => { Draft.empty with lines }
  | .insertItems _ at₀ order _ _ | .claim _ at₀ order =>
      { Draft.empty with
        lines := order.items, order := some (order.orderId, toOrderRow order at₀) }
  | .insertOutbox inp at₀ order | .commit inp at₀ order _ =>
      { Draft.empty with
        lines := order.items, order := some (order.orderId, toOrderRow order at₀)
        record := inp.key.map (·, inp, order) }
  | .coBalance _ _ line _ => { Draft.empty with lines := [line] }
  | .coOrder inp _ line _ =>
      { Draft.empty with lines := [line], pays := some (inp.userId, line.lineTotalCents) }
  | .coItem inp at₀ order line _ | .coJob inp at₀ order line _ | .coCommit inp at₀ order line _ _ =>
      { Draft.empty with
        lines := [line], pays := some (inp.userId, line.lineTotalCents)
        order := some (order.orderId, toOrderRow order at₀) }
  | .statusCommit id status => { Draft.empty with status := some (id, status) }
  | _ => Draft.empty

end Pc

/-- The quantity of product `p` in a list of lines. -/
def taken (l : Line) (p : ProductId) : ℤ := if l.productId = p then l.quantity else 0

def takenOf (lines : List Line) (p : ProductId) : ℤ := Ledger.debited taken lines p

def lessStock (n : ℤ) : Option Product → Option Product :=
  Option.map fun r => { r with stock := r.stock - n }

def lessBalance (n : ℤ) : Option User → Option User :=
  Option.map fun r => { r with balanceCents := r.balanceCents - n }

namespace Draft

/-- The own versions of each table. -/
def products (δ : Draft) (p : ProductId) : Option (Option Product → Option Product) :=
  if p ∈ δ.lines.map Line.productId then some (lessStock (takenOf δ.lines p)) else none

def users (δ : Draft) : UserId → Option (Option User → Option User) :=
  match δ.pays with
  | none => fun _ => none
  | some (u, cents) => Function.update (fun _ => none) u (some (lessBalance cents))

def orders (δ : Draft) : OrderId → Option (Option Order → Option Order) :=
  match δ.order, δ.status with
  | some (o, row), _ => Function.update (fun _ => none) o (some fun _ => some row)
  | none, some (o, status) =>
      Function.update (fun _ => none) o (some (Option.map fun r => { r with status }))
  | none, none => fun _ => none

def records (hash : Request → η) (δ : Draft) :
    String → Option (Option (IdempotencyRecord η) → Option (IdempotencyRecord η)) :=
  match δ.record with
  | none => fun _ => none
  | some (key, inp, order) =>
      Function.update (fun _ => none) key (some fun _ => some (toRecord hash inp order))

end Draft

/-- The rows that call `i` holds are those of its draft. -/
structure Drafted (hash : Request → η) (i : ℕ) (d : Db η) (δ : Draft) : Prop where
  products : Table.Draft i δ.products d.products
  users : Table.Draft i δ.users d.users
  orders : Table.Draft i δ.orders d.orders
  records : Table.Draft i (δ.records hash) d.records

theorem lessStock_zero : lessStock 0 = id := by
  funext o
  cases o <;> simp [lessStock]

theorem lessBalance_zero : lessBalance 0 = id := by
  funext o
  cases o <;> simp [lessBalance]

/-- Taking twice is taking the sum. -/
theorem lessStock_add (m n : ℤ) (o : Option Product) :
    lessStock n (lessStock m o) = lessStock (m + n) o := by
  cases o with
  | none => rfl
  | some r =>
      simp only [lessStock, Option.map_some, Option.some.injEq, Product.mk.injEq, true_and,
        and_true]
      omega

/-- Paying twice is paying the sum. -/
theorem lessBalance_add (m n : ℤ) (o : Option User) :
    lessBalance n (lessBalance m o) = lessBalance (m + n) o := by
  cases o with
  | none => rfl
  | some r =>
      simp only [lessBalance, Option.map_some, Option.some.injEq, User.mk.injEq]
      omega

/-- Of a product without a line nothing is taken. -/
theorem takenOf_eq_zero {lines : List Line} {p : ProductId}
    (h : p ∉ lines.map Line.productId) : takenOf lines p = 0 := by
  apply Ledger.debited_eq_zero
  intro l hl
  have hne : l.productId ≠ p := by
    rintro rfl
    exact h (List.mem_map_of_mem hl)
  simp [taken, hne]

/-- Seen through its draft, a product has lost what the lines take. -/
theorem Draft.products_apply (δ : Draft) (p : ProductId) :
    (δ.products p).getD id = lessStock (takenOf δ.lines p) := by
  unfold Draft.products
  split
  · rfl
  · next h => rw [takenOf_eq_zero h, lessStock_zero]; rfl

/-- One more line in the draft is one more write of its product. -/
theorem Draft.products_concat {δ δ' : Draft} {l : Line} (h : δ'.lines = δ.lines ++ [l]) :
    δ'.products = Function.update δ.products l.productId
      (some (lessStock (takenOf δ.lines l.productId + l.quantity))) := by
  funext p
  have htaken : takenOf δ'.lines p = takenOf δ.lines p + taken l p := by
    rw [h]
    exact Ledger.debited_concat taken _ l p
  by_cases hp : p = l.productId
  · subst hp
    rw [Function.update_self]
    unfold Draft.products
    rw [if_pos (by simp [h]), htaken]
    simp [taken]
  · rw [Function.update_of_ne hp]
    have hne : l.productId ≠ p := fun heq => hp heq.symm
    unfold Draft.products
    rw [htaken]
    simp [h, hp, taken, hne]

/-! ## One statement -/

/-- The four tables with locks, and what the run has added, are the same. -/
structure SameTables (d d' : Db η) : Prop where
  products : d'.products = d.products
  users : d'.users = d.users
  orders : d'.orders = d.orders
  records : d'.records = d.records
  added : d'.orderItems = d.orderItems ∧ d'.outbox = d.outbox ∧ d'.jobs = d.jobs ∧
    d'.ledger = d.ledger
  nextOrder : d'.nextOrder = d.nextOrder

theorem SameTables.refl (d : Db η) : SameTables d d :=
  ⟨rfl, rfl, rfl, rfl, ⟨rfl, rfl, rfl, rfl⟩, rfl⟩

/-- The COMMIT of call `i` that places an order, and what the call returns. -/
inductive Commits (i : ℕ) : Pc → Sale → Pc → Prop
  | place {inp : PlaceOrderInput} {at₀ : ℕ} {order : PlacedOrder} {row : OutboxInsert} :
      Commits i (.commit inp at₀ order row) (placeSale i inp order row)
        (.placed inp (.ok ⟨201, toResponseBody order, false⟩))
  | checkout {inp : CheckoutInput} {at₀ : ℕ} {order : PlacedOrder} {line : Line} {job : Job}
      {stockLeft : ℤ} :
      Commits i (.coCommit inp at₀ order line job stockLeft) (checkoutSale i order job)
        (.checkedOut (.ok ⟨order.orderId, job.id, order.totalCents, stockLeft⟩))

/-- What a statement of call `i` does. -/
inductive Effect [DecidableEq η] (hash : Request → η) (i : ℕ) (d : Db η) (pc : Pc) :
    Db η → Pc → Prop
  | quiet {d' : Db η} {pc' : Pc} : SameTables d d' → ¬ pc.Rolling → ¬ pc'.Answers →
      pc'.draft = pc.draft → Effect hash i d pc d' pc'
  | replays {inp : PlaceOrderInput} {key : String} {res : PlaceOrderResult} :
      inp.key = some key → findReplay hash d key inp = some (.ok res) → ¬ pc.Rolling →
      ¬ pc.Answers → pc.draft = Draft.empty → Effect hash i d pc d (.placed inp (.ok res))
  | throws {pc' : Pc} : pc'.Rolling → Effect hash i d pc d pc'
  | take {pc' : Pc} {item : Item} {r : Product} :
      (d.products item.productId).view i = some r → (d.products item.productId).Free i →
      r.isActive = true → item.quantity ≤ r.stock → ¬ pc.Rolling →
      pc'.draft = { pc.draft with lines := pc.draft.lines ++ [toLine item r.priceCents] } →
      Effect hash i d pc
        (d.putProduct i item.productId { r with stock := r.stock - item.quantity }) pc'
  | pay {pc' : Pc} {u : UserId} {r : User} {cents : ℤ} :
      (d.users u).view i = some r → (d.users u).Free i → cents ≤ r.balanceCents →
      ¬ pc.Rolling → pc.draft.pays = none →
      pc'.draft = { pc.draft with pays := some (u, cents) } →
      Effect hash i d pc (d.putUser i u { r with balanceCents := r.balanceCents - cents }) pc'
  | insert {pc' : Pc} {row : Order} :
      ¬ pc.Rolling → pc.draft.order = none → pc.draft.status = none →
      pc'.draft = { pc.draft with order := some (d.nextOrder, row) } →
      Effect hash i d pc
        { d.putOrder i d.nextOrder row with nextOrder := d.nextOrder + 1 } pc'
  | status {pc' : Pc} {o : OrderId} {r : Order} {status : OrderStatus} :
      (d.orders o).view i = some r → (d.orders o).Free i → ¬ pc.Rolling →
      pc.draft = Draft.empty → pc'.draft = { Draft.empty with status := some (o, status) } →
      Effect hash i d pc (d.putOrder i o { r with status }) pc'
  | claim {pc' : Pc} {key : String} {inp : PlaceOrderInput} {order : PlacedOrder} :
      (d.records key).view i = none → (d.records key).Free i → ¬ pc.Rolling →
      pc.draft.record = none →
      pc'.draft = { pc.draft with record := some (key, inp, order) } →
      Effect hash i d pc (d.putRecord i key (toRecord hash inp order)) pc'
  | rollback {pc' : Pc} : ¬ pc'.Rolling → ¬ pc'.Answers → pc'.draft = Draft.empty →
      Effect hash i d pc (d.rollback i) pc'
  | commitSale {pc' : Pc} {sale : Sale} : Commits i pc sale pc' →
      Effect hash i d pc (d.commitSale i sale) pc'
  | commitStatus {o : OrderId} {status : OrderStatus} : pc = .statusCommit o status →
      Effect hash i d pc (d.commit i) (.statusSet (.ok o))

section

variable [DecidableEq η] {hash : Request → η} {i : ℕ} {d d' : Db η} {pc pc' : Pc} {a : Stmt}

/-- A call that is under way runs its next statement, unless it is cut off. -/
theorem stmt_action (h : stmt hash i d pc a = some (d', pc')) :
    a = .run ∨ a = .abort ∨ pc = .idle := by
  cases a with
  | run => exact Or.inl rfl
  | abort => exact Or.inr (Or.inl rfl)
  | _ => cases pc <;> first | exact Or.inr (Or.inr rfl) | simp [stmt] at h

/-- An answer found under the key ends the call. -/
theorem findReplay_effect {inp : PlaceOrderInput} {result : Except Thrown PlaceOrderResult}
    (hroll : ¬ pc.Rolling) (hans : ¬ pc.Answers) (hdraft : pc.draft = Draft.empty)
    (hr : (inp.key.bind fun key => findReplay hash d key inp) = some result) :
    Effect hash i d pc d (.placed inp result) := by
  rw [Option.bind_eq_some_iff] at hr
  obtain ⟨key, hkey, hr⟩ := hr
  cases result with
  | error err => exact .quiet (SameTables.refl d) hroll id hdraft.symm
  | ok res => exact .replays hkey hr hroll hans hdraft

/-- Every statement is one of the ways of `Effect`, which say what it writes and what that adds to
the draft. -/
theorem stmt_effect (h : stmt hash i d pc a = some (d', pc')) :
    Effect hash i d pc d' pc' := by
  have same := SameTables.refl d
  -- most branches write nothing; the others write one row of one table
  cases stmt_branch h with
  | keyed _ => exact .quiet same id id rfl
  | unkeyed _ => exact .quiet same id id rfl
  | stored hr => exact findReplay_effect id id rfl hr
  | unclaimed _ => exact .quiet same id id rfl
  | refused _ => exact .throws trivial
  | noRow _ => exact .throws trivial
  | take ht => exact .take ht.seen ht.free ht.active ht.enough id rfl
  | taken => exact .quiet same id id rfl
  | productExists => exact .throws trivial
  | orderRefused _ => exact .throws trivial
  | order hi =>
      refine .insert id rfl rfl ?_
      rw [hi.order_eq]
      rfl
  | item _ => exact .quiet same id id rfl
  | itemRefused _ => exact .throws trivial
  | toClaim _ => exact .quiet same id id rfl
  | toOutbox hkey =>
      refine .quiet same id id ?_
      simp [Pc.draft, Draft.empty, hkey]
  | claim hkey hnone hfree =>
      refine .claim hnone hfree id rfl ?_
      simp [Pc.draft, hkey]
  | conflict _ _ => exact .throws trivial
  | outbox => exact .quiet ⟨rfl, rfl, rfl, rfl, ⟨rfl, rfl, rfl, rfl⟩, rfl⟩ id id rfl
  | commit => exact .commitSale .place
  | replays => exact .rollback id id rfl
  | fails => exact .rollback id id rfl
  | replayed hr => exact findReplay_effect id id rfl hr
  | gone _ => exact .quiet same id id rfl
  | checkout _ => exact .quiet same id id rfl
  | badQuantity _ => exact .quiet same id id rfl
  | coRefused _ => exact .throws trivial
  | coNoRow _ => exact .throws trivial
  | @coTake inp _ r ht =>
      have hseen : (d.products (Item.productId ⟨inp.productId, inp.quantity⟩)).view i = some r :=
        ht.seen
      exact .take hseen ht.free ht.active ht.enough id rfl
  | coTooMuch _ => exact .throws trivial
  | coPoor => exact .throws trivial
  | coPay hseen hfree hle => exact .pay hseen hfree hle id rfl rfl
  | coOrderRefused _ => exact .throws trivial
  | coOrder hi =>
      refine .insert id rfl rfl ?_
      rw [hi.order_eq]
      rfl
  | coItem _ => exact .quiet same id id rfl
  | coItemRefused _ => exact .throws trivial
  | coJob => exact .quiet ⟨rfl, rfl, rfl, rfl, ⟨rfl, rfl, rfl, rfl⟩, rfl⟩ id id rfl
  | coCommit => exact .commitSale .checkout
  | coRollback => exact .rollback id id rfl
  | updateStatus => exact .quiet same id id rfl
  | statusDenied => exact .quiet same id id rfl
  | statusFound => exact .quiet same id id rfl
  | saveGone _ => exact .quiet same id id rfl
  | saveSame _ _ => exact .quiet same id id rfl
  | saveDiffers _ _ => exact .quiet same id id rfl
  | updateGone _ => exact .quiet same id id rfl
  | update hseen hfree => exact .status hseen hfree id rfl rfl
  | statusCommit => exact .commitStatus rfl
  | abort _ => exact .rollback id id rfl

end

end Marketplace.Orders

import Marketplace.Orders.Retry

/-!
# Orders.Race — many buyers of one product

`src/demo-race.ts`: `attempts` buyers check out the same quantity of one product at once. The
script counts the checkouts that succeed and looks at the stock they leave.

A buyer who is refused found too little stock. Committed stock only falls, so there is too
little for that buyer ever after (`Buying`). So if anybody was refused, less than one more
quantity is left, and the number of winners is what the stock has room for.
-/

namespace Marketplace.Orders

open Core Auth Outbox

variable {η : Type} [DecidableEq η] {hash : Request → η} {i j : ℕ} {d₀ d d' : Db η}
  {pc pc' : Pc} {a : Stmt} {attempts : ℕ} {buys : ℕ → CheckoutInput} {line : Line}
  {p : ProductId} {q : ℤ} {r : Product}

/-! ## The script -/

/-- `InsufficientStockError`. -/
def soldOut : Thrown := .error "insufficient stock"

/-- The calls are `attempts` checkouts, call `i` that of `buys i`. -/
def Buyers (attempts : ℕ) (buys : ℕ → CheckoutInput) (_ : St η) : Label → Prop
  | .call i (.checkout inp) => i < attempts ∧ inp = buys i
  | .call _ (.placeOrder _) | .call _ (.updateStatus _ _ _) => False
  | _ => True

/-- `{ ok: true }`. -/
def Won : Pc → Prop
  | .checkedOut (.ok _) => True
  | _ => False

instance : DecidablePred Won := fun pc => by
  unfold Won
  split <;> infer_instance

/-- `{ ok: false, reason: 'stock' }`. -/
def Refused (pc : Pc) : Prop := pc = .checkedOut (.error soldOut)

/-- `Promise.all` of the checkouts: any other error would be thrown again. -/
def AllSettled (attempts : ℕ) (s : St η) : Prop :=
  ∀ i < attempts, Won (s.proc i) ∨ Refused (s.proc i)

def successes (attempts : ℕ) (s : St η) : ℕ :=
  ((List.range attempts).filter fun i => Won (s.proc i)).length

/-! ## One buyer -/

/-- Too little of an active product is left for the buyer. -/
def Short (d₀ d : Db η) (inp : CheckoutInput) : Prop :=
  ∀ r, (d₀.products inp.productId).base = some r → r.isActive = true →
    stockOf d inp.productId < inp.quantity

/-- The line is what the buyer asked for. -/
def LineFor (inp : CheckoutInput) (line : Line) : Prop :=
  line.productId = inp.productId ∧ line.quantity = inp.quantity

/-- The local fact of a buyer. -/
def Buying (inp : CheckoutInput) (d₀ d : Db η) : Pc → Prop
  | .idle | .aborted | .checkedOut (.ok _) => True
  | .coStock inp' _ => inp' = inp
  | .coBalance _ _ line _ | .coOrder _ _ line _ | .coItem _ _ _ line _ | .coJob _ _ _ line _
  | .coCommit _ _ _ line _ _ => LineFor inp line
  | .coRollback err | .checkedOut (.error err) => err = soldOut → Short d₀ d inp
  | _ => False

/-- The invariant: every sale is what its buyer asked for. -/
def AllAsked (buys : ℕ → CheckoutInput) (d : Db η) : Prop :=
  ∀ sale ∈ d.ledger, ∃ line, sale.order.items = [line] ∧ LineFor (buys sale.call) line

section

omit [DecidableEq η]

/-- Short of stock stays short while the stock falls. -/
theorem Short.less {inp : CheckoutInput} (h : Short d₀ d inp)
    (hle : ∀ p, stockOf d' p ≤ stockOf d p) : Short d₀ d' inp := by
  intro r hr hactive
  have hlt := h r hr hactive
  have hfalls := hle inp.productId
  omega

/-- How a buyer stands does not get better while the stock falls. -/
theorem Buying.less {inp : CheckoutInput} (h : Buying inp d₀ d pc)
    (hle : ∀ p, stockOf d' p ≤ stockOf d p) : Buying inp d₀ d' pc := by
  have hshort : ∀ {err : Thrown}, (err = soldOut → Short d₀ d inp) →
      err = soldOut → Short d₀ d' inp := fun h heq => (h heq).less hle
  cases pc with
  | coRollback err => exact hshort h
  | checkedOut result =>
      cases result with
      | error err => exact hshort h
      | ok res => trivial
  | _ => exact h

/-- The UPDATE matches no row of an active product: its stock is below the quantity. -/
theorem short_of_noRow {inp : CheckoutInput} {at₀ : ℕ} (hinv : Inv hash d₀ d)
    (hl : Loc hash d₀ i d (.coStock inp at₀))
    (h : takeStock i d inp.productId inp.quantity = some (d', .noRow)) : Short d₀ d inp := by
  obtain ⟨-, -, hno⟩ := takeStock_noRow h
  intro r hr hactive
  have hbase := hinv.products inp.productId
  rw [hr] at hbase
  -- the transaction has written nothing yet, so it sees the committed row
  have hview := (hl.drafted id).products.view inp.productId
  rw [Draft.products_apply, hbase] at hview
  have hlt := hno _ hview hactive
  unfold stockOf
  rw [hbase]
  show r.stock - soldOf d.ledger inp.productId < inp.quantity
  have heq : r.stock - soldOf d.ledger inp.productId - 0 < inp.quantity := hlt
  omega

/-- An error with another message does not say that the stock is out. -/
theorem other_error {inp : CheckoutInput} {message : String} (h : message ≠ "insufficient stock") :
    (Thrown.error message = soldOut → Short d₀ d inp) := by
  intro heq
  cases heq
  exact absurd rfl h

end

/-- A statement of a buyer keeps it as `Buying` says: refused only where the stock is short. -/
theorem stmt_buying (hinv : Inv hash d₀ d) (hl : Loc hash d₀ i d pc)
    (hstart : ∀ inp, a = .checkout inp → inp = buys i)
    (hplace : ∀ inp, a ≠ .placeOrder inp) (hstatus : ∀ id st viewer, a ≠ .updateStatus id st viewer)
    (hb : Buying (buys i) d₀ d pc) (h : stmt hash i d pc a = some (d', pc')) :
    Buying (buys i) d₀ d pc' := by
  cases stmt_branch h with
  | keyed _ => exact absurd rfl (hplace _)
  | unkeyed _ => exact absurd rfl (hplace _)
  | updateStatus => exact absurd rfl (hstatus _ _ _)
  | checkout _ => exact hstart _ rfl
  | badQuantity _ => exact other_error (by decide)
  | coRefused _ => exact other_error (by decide)
  | coNoRow ht =>
      obtain rfl := hb
      exact fun _ => short_of_noRow hinv hl ht
  | coTake _ =>
      obtain rfl := hb
      constructor <;> rfl
  | coTooMuch _ => exact other_error (by decide)
  | coPoor => exact other_error (by decide)
  | coPay _ _ _ => exact hb
  | coOrderRefused _ => exact other_error (by decide)
  | coOrder _ => exact hb
  | coItem _ => exact hb
  | coItemRefused _ => exact other_error (by decide)
  | coJob => exact hb
  | coCommit => trivial
  | coRollback => exact hb
  | abort _ => trivial
  | _ => exact hb.elim

/-- What a COMMIT enters is what its buyer asked for. -/
theorem AllAsked.stmt (hl : Loc hash d₀ i d pc) (hb : Buying (buys i) d₀ d pc)
    (he : Effect hash i d pc d' pc') (h : AllAsked buys d) : AllAsked buys d' := by
  rcases he.cases_commit with hu | ⟨sale, hc, rfl⟩ | ⟨o, status, -, -, rfl⟩
  · obtain ⟨-, -, -, hledger⟩ := hu.added
    intro sale hsale
    rw [hledger] at hsale
    exact h sale hsale
  · intro sale' hsale
    rcases List.mem_append.mp hsale with hold | hnew
    · exact h sale' hold
    · obtain rfl := List.mem_singleton.mp hnew
      cases hc with
      | place => exact hb.elim
      | @checkout inp at₀ order line job stockLeft => exact ⟨line, hl.facts.1, hb⟩
  · exact h

/-! ## All buyers -/

/-- The local fact of call `i`. -/
def RaceLoc (attempts : ℕ) (buys : ℕ → CheckoutInput) (hash : Request → η) (d₀ : Db η) (i : ℕ)
    (d : Db η) (pc : Pc) : Prop :=
  Loc hash d₀ i d pc ∧ Buying (buys i) d₀ d pc ∧ (attempts ≤ i → pc = .idle)

/-- Along a run of the buyers the shop's invariant holds, and each buyer stands as it should. -/
theorem race_holds {s t : St η} {as : List Label} (hs : (machine hash).Init s)
    (hr : (machine hash).Run (Buyers attempts buys) s as t) :
    Procs.Holds (fun d => Inv hash s.shared d ∧ AllAsked buys d)
      (RaceLoc attempts buys hash s.shared) t := by
  apply Procs.rely_guarantee (Buyers attempts buys)
    (fun d => Inv hash s.shared d ∧ AllAsked buys d) (RaceLoc attempts buys hash s.shared)
    (fun j d d' => Rely j d d' ∧ ∀ p, stockOf d' p ≤ stockOf d p) ?_ ?_ ?_ hr
  · -- initially nobody has begun
    obtain ⟨hinv, hloc⟩ := init_holds hs
    constructor
    · refine ⟨hinv, ?_⟩
      intro sale hsale
      obtain ⟨-, -, -, -, -, -, -, -, -, -, hledger⟩ := hs.1
      rw [hledger] at hsale
      cases hsale
    · intro i
      refine ⟨hloc i, ?_, fun _ => hs.2 i⟩
      rw [hs.2 i]
      trivial
  -- one statement: the invariant of the shop, the ledger of the buyers, and the caller's own
  -- standing
  · rintro u i a d pc hok ⟨⟨hinv, hasked⟩, hloc⟩ hst
    obtain ⟨hl, hb, hidle⟩ := hloc i
    have he := stmt_effect hst
    have hfalls := he.stockOf_le hl
    refine ⟨⟨he.inv hs.1 hinv hl, hasked.stmt hl hb he⟩, ⟨stmt_loc hinv hl hst, ?_, ?_⟩, ?_⟩
    · apply Buying.less ?_ hfalls
      apply stmt_buying hinv hl ?_ ?_ ?_ hb hst
      · rintro inp rfl
        exact hok.2
      · rintro inp rfl
        exact hok
      · rintro id st viewer rfl
        exact hok
    · -- a call that is no buyer never begins
      intro hge
      have hpc := hidle hge
      rw [hpc] at hst
      cases a with
      | checkout inp =>
          have hlt : i < attempts := hok.1
          omega
      | placeOrder inp => exact hok.elim
      | updateStatus id st viewer => exact hok.elim
      | run => cases hst
      | abort => cases hst
    · intro j hj
      exact ⟨he.rely hj hinv hl, hfalls⟩
  · rintro u dt d - ⟨⟨hinv, hasked⟩, -⟩ hd
    cases hd
    exact ⟨⟨hinv.tick dt, hasked⟩, fun j => ⟨Rely.tick dt, fun p => le_refl _⟩⟩
  · rintro j d d' pc - - ⟨hrely, hfalls⟩ ⟨hl, hb, hidle⟩
    exact ⟨hl.rely hrely, hb.less hfalls, hidle⟩

section Finish

variable {t : St η}
  (h : Procs.Holds (fun d => Inv hash d₀ d ∧ AllAsked buys d) (RaceLoc attempts buys hash d₀) t)

include h

section

omit [DecidableEq η]

/-- A call has won when its sale is in the book. -/
theorem won_iff (i : ℕ) : Won (t.proc i) ↔ i ∈ t.shared.ledger.map Sale.call := by
  obtain ⟨hl, hb, -⟩ := h.2 i
  have hended := hl.ended
  constructor
  · intro hwon
    unfold Won at hwon
    split at hwon
    · next res hpc =>
        rw [hpc] at hended
        obtain ⟨sale, hsale, hcall, -⟩ := hended
        exact List.mem_map.mpr ⟨sale, hsale, hcall⟩
    · exact hwon.elim
  · intro hin
    obtain ⟨sale, hsale, hcall⟩ := List.mem_map.mp hin
    by_contra hlost
    -- every other program point has sold nothing
    refine (show ∀ s ∈ t.shared.ledger, s.call ≠ i from ?_) sale hsale hcall
    revert hended hb hlost
    cases t.proc i with
    | placed inp result => exact fun hb _ _ => hb.elim
    | checkedOut result =>
        cases result with
        | error err => exact fun _ hended _ => hended
        | ok res => exact fun _ _ hlost => absurd trivial hlost
    | _ => exact fun _ hended _ => hended

/-- The winners are the calls of the book, each once. -/
theorem successes_eq : successes attempts t = t.shared.ledger.length := by
  have hcalls : (t.shared.ledger.map Sale.call).Nodup :=
    List.pairwise_map.mpr h.1.1.book.calls
  have hperm : ((List.range attempts).filter fun i => Won (t.proc i)).Perm
      (t.shared.ledger.map Sale.call) := by
    rw [List.perm_ext_iff_of_nodup (List.nodup_range.filter _) hcalls]
    intro i
    rw [List.mem_filter, decide_eq_true_eq, won_iff h, List.mem_range, and_iff_right_iff_imp]
    intro hin
    by_contra hge
    have hwon := (won_iff h i).mpr hin
    rw [(h.2 i).2.2 (by omega)] at hwon
    exact hwon
  unfold successes
  rw [hperm.length_eq, List.length_map]

/-- Everybody takes the same. -/
theorem sold_eq (hbuys : ∀ i, (buys i).productId = p ∧ (buys i).quantity = q) :
    soldOf t.shared.ledger p = q * successes attempts t := by
  rw [successes_eq h]
  apply Ledger.debited_const
  intro sale hsale
  obtain ⟨line, hitems, hp, hq⟩ := h.1.2 sale hsale
  rw [(hbuys _).1] at hp
  rw [(hbuys _).2] at hq
  show takenOf sale.order.items p = q
  rw [hitems]
  show taken line p + 0 = q
  rw [taken, if_pos hp, hq]
  omega

end

end Finish

/-- The checks of the script: as many buyers win as the stock has room for, and nobody more; what
they took is what is gone; and no stock is negative. -/
theorem race_winners {s t : St η} {as : List Label} (hs : (machine hash).Init s)
    (hr : (machine hash).Run (Buyers attempts buys) s as t)
    (hbuys : ∀ i, (buys i).productId = p ∧ (buys i).quantity = q) (hq : 1 ≤ q)
    (hp : (s.shared.products p).base = some r) (hactive : r.isActive = true)
    (hsettled : AllSettled attempts t) :
    (successes attempts t : ℤ) = min (attempts : ℤ) (r.stock / q) ∧
    (t.shared.products p).base = some { r with stock := r.stock - q * successes attempts t } ∧
    ∀ p' r', (t.shared.products p').base = some r' → 0 ≤ r'.stock := by
  have h := race_holds hs hr
  have hinv := h.1.1
  have hbase := hinv.products p
  rw [hp, sold_eq h hbuys] at hbase
  have hstock : ∀ p' r', (t.shared.products p').base = some r' → 0 ≤ r'.stock :=
    fun p' r' hr' => (hinv.stock p').1 r' hr'
  refine ⟨?_, hbase, hstock⟩
  have hnonneg : 0 ≤ r.stock - q * successes attempts t := hstock p _ hbase
  -- what was sold fits the stock, so no more win than fit
  have hroom : (successes attempts t : ℤ) ≤ r.stock / q := by
    apply Int.le_ediv_of_mul_le (by omega)
    rw [mul_comm]
    omega
  have hmany : successes attempts t ≤ attempts := by
    have hle := List.length_filter_le (fun i => decide (Won (t.proc i))) (List.range attempts)
    rwa [List.length_range] at hle
  by_cases hall : ∀ i < attempts, Won (t.proc i)
  · -- nobody was refused
    have heq : successes attempts t = attempts := by
      unfold successes
      rw [List.filter_eq_self.mpr, List.length_range]
      intro i hi
      exact decide_eq_true (hall i (List.mem_range.mp hi))
    omega
  · -- somebody was: less than one more quantity is left
    obtain ⟨i, hnot⟩ := not_forall.mp hall
    obtain ⟨hi, hlost⟩ := Classical.not_imp.mp hnot
    have hpc : t.proc i = .checkedOut (.error soldOut) := (hsettled i hi).resolve_left hlost
    have hshort := (h.2 i).2.1
    rw [hpc] at hshort
    have hlt := hshort rfl r ((hbuys i).1.symm ▸ hp) hactive
    rw [(hbuys i).1, (hbuys i).2] at hlt
    unfold stockOf at hlt
    rw [hbase] at hlt
    have hless : r.stock - q * successes attempts t < q := hlt
    have hfull : r.stock / q < successes attempts t + 1 := by
      apply Int.ediv_lt_of_lt_mul (by omega)
      rw [add_mul, one_mul, mul_comm _ q]
      omega
    omega

/-- Two buyers of three pieces, five in stock. The second runs its UPDATE when the first has
committed. -/
def twoBuyers : List Label :=
  [.call 0 (.checkout ⟨7, 1, 3, none⟩), .call 1 (.checkout ⟨7, 1, 3, none⟩)] ++ runs 0 6 ++ runs 1 2

def buyersOnly (_ : St Request) : Label → Bool
  | .call i (.checkout inp) => decide (i < 2 ∧ inp = ⟨7, 1, 3, none⟩)
  | .call _ (.placeOrder _) | .call _ (.updateStatus _ _ _) => false
  | _ => true

/-- What the concrete run checks is the condition of the theorem. -/
theorem buyersOnly_spec (s : St Request) (l : Label) (h : buyersOnly s l = true) :
    Buyers 2 (fun _ => ⟨7, 1, 3, none⟩) s l := by
  cases l with
  | call i a =>
      cases a with
      | checkout inp =>
          have hone : i < 2 ∧ inp = ⟨7, 1, 3, none⟩ := of_decide_eq_true h
          exact hone
      | placeOrder => cases h
      | updateStatus => cases h
      | run => trivial
      | abort => trivial
  | env dt => trivial

/-- Two buyers of three at a stock of five: one wins. -/
theorem race_winners_twoBuyers : ∃ t : St Request,
    (machine id).Run (Buyers 2 fun _ => ⟨7, 1, 3, none⟩) shop twoBuyers t ∧
    successes 2 t = 1 ∧ (t.shared.products 1).base = some ⟨500, 2, true⟩ := by
  have hrun : ∃ t res, (machine (id : Request → Request)).exec buyersOnly shop twoBuyers = some t ∧
      t.proc 0 = .checkedOut (.ok res) ∧ t.proc 1 = .checkedOut (.error soldOut) :=
    ⟨_, _, rfl, rfl, rfl⟩
  obtain ⟨t, res, ht, hwon, hlost⟩ := hrun
  have hr := Machine.exec_run buyersOnly_spec ht
  have hsettled : AllSettled 2 t := by
    intro i hi
    match i, hi with
    | 0, _ => exact Or.inl (hwon.symm ▸ trivial)
    | 1, _ => exact Or.inr hlost
  obtain ⟨hcount, hbase, -⟩ := race_winners (shop_init id) hr (fun _ => ⟨rfl, rfl⟩) (by decide)
    (show (shop.shared.products 1).base = some ⟨500, 5, true⟩ from rfl) rfl hsettled
  have hone : successes 2 t = 1 := by
    have hmin : (successes 2 t : ℤ) = 1 := hcount
    omega
  refine ⟨t, hr, hone, ?_⟩
  rw [hbase, hone]
  rfl

end Marketplace.Orders

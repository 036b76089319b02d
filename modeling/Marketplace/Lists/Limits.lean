import Marketplace.Lists.Walk

/-!
# Lists.Limits — the contract of `limit`

`openapi.yaml` has `limit` between 1 and 100. The controllers hand on what
`enableImplicitConversion` made of the query string, and neither they nor the services compare
it with anything:

* 0 looks one row ahead and then reads the last of no items;
* −1 has no LIMIT at all, and the slice drops the last row;
* from 101 on the page is as long as was asked for.
-/

namespace Marketplace.Lists

open Core Auth

/-- A limit of the contract. -/
def InContract (limit : ℤ) : Prop := 1 ≤ limit ∧ limit ≤ 100

/-- What the contract says of the answer to one limit. -/
structure KeepsContract {β : Type} (limit : ℤ) (answer : Except Thrown (Page β)) : Prop where
  served : InContract limit → ∃ page, answer = .ok page ∧ page.items.length ≤ limit
  refused : ¬ InContract limit →
    ∃ status message, answer = .error (.http status message) ∧ 400 ≤ status ∧ status < 500
  noTypeError : answer ≠ .error (.error "TypeError")
  atMost : ∀ page, answer = .ok page → page.items.length ≤ 100

section

variable {α β : Type} {l : Listing α β} {orm : TypeOrm} {dbl : Doubles} {T : Table α l.id}
  {m : Option ℤ} {limit : ℤ} {cursor : Option String}

/-! ## What each limit gives -/

/-- No list is ever refused. -/
theorem list_ne_http {status : ℕ} {message : String} :
    l.list orm dbl T limit cursor ≠ .error (.http status message) := by
  intro h
  unfold Listing.list Listing.respond at h
  split at h
  · cases h
  · dsimp only at h
    split at h
    · split at h <;> cases h
    · cases h

/-- A page has as many items as the limit asks for, or all there are. -/
theorem Turned.items_length {rest : List α} {n : ℕ} {page : Page β} (h : Turned l rest n page) :
    page.items.length = min n rest.length := by
  cases h with
  | last hle => rw [List.length_map, Nat.min_eq_right hle]
  | more hlt _ => rw [List.length_map, List.length_take]

/-- A positive limit is the number of items, if there are so many. -/
theorem list_positive (orm : TypeOrm) (dbl : Doubles) (hlimit : 1 ≤ limit) (hm : ∀ n ∈ m, |n| ≤ 2 ^ 53) :
    ∃ page, l.list orm dbl T limit (cursorOf m) = .ok page ∧
      page.items.length = min limit.toNat (l.selected T m).length := by
  obtain ⟨n, rfl⟩ := Int.eq_ofNat_of_zero_le (le_trans zero_le_one hlimit)
  have hn : 1 ≤ n := by omega
  obtain ⟨page, hpage, hturned⟩ := list_turns orm dbl (T := T) hn hm
  exact ⟨page, hpage, hturned.items_length⟩

/-- With the cursor of a page, the rows after it are taken and made a page. -/
theorem list_found {found : List α} (hm : ∀ n ∈ m, |n| ≤ 2 ^ 53)
    (hfound : orm.take (limit + 1) (l.selected T m) = some found) :
    l.list orm dbl T limit (cursorOf m) = l.respond limit found := by
  unfold Listing.list
  rw [moreThan_cursorOf hm, Option.bind_some, hfound]

/-- Limit 0 reads `undefined.id` as soon as there is a row. -/
theorem list_zero (orm : TypeOrm) (dbl : Doubles) (hm : ∀ n ∈ m, |n| ≤ 2 ^ 53) (hrows : l.selected T m ≠ []) :
    l.list orm dbl T 0 (cursorOf m) = .error (.error "TypeError") := by
  rw [list_found hm rfl]
  cases hrest : l.selected T m with
  | nil => exact absurd hrest hrows
  | cons row rest => simp [Listing.respond, slice]

/-- For a cursor that a page handed out, the list keeps its contract exactly if the limit is
between 1 and 100. -/
theorem keeps_contract_iff (hm : ∀ n ∈ m, |n| ≤ 2 ^ 53) :
    KeepsContract limit (l.list orm dbl T limit (cursorOf m)) ↔ InContract limit := by
  constructor
  · intro hkeeps
    by_contra hout
    obtain ⟨status, message, heq, -⟩ := hkeeps.refused hout
    exact list_ne_http heq
  · intro hin
    obtain ⟨page, hpage, hlength⟩ :=
      list_positive orm dbl (l := l) (T := T) hin.1 hm
    have hle : page.items.length ≤ limit := by
      have hmin := Nat.min_le_left limit.toNat (l.selected T m).length
      have hpos := hin.1
      omega
    rw [hpage]
    constructor
    · intro _
      exact ⟨page, rfl, hle⟩
    · intro hout
      exact absurd hin hout
    · intro herr
      cases herr
    · rintro page' ⟨⟩
      have hmax := hin.2
      omega

end

/-- An answer to a limit keeps the contract if and only if the limit does. -/
theorem limits_keep_contract_iff (orm : TypeOrm) (dbl : Doubles) (limit : ℤ) (m : Option ℤ)
    (hm : ∀ n ∈ m, |n| ≤ 2 ^ 53) :
    (∀ T : Products,
      KeepsContract limit (ProductsController.listProducts orm dbl T (some limit) (cursorOf m)) ↔
        InContract limit) ∧
    ∀ (viewer : AccessClaims) (T : Orders),
      KeepsContract limit (OrdersController.listOrders orm dbl T viewer (some limit) (cursorOf m)) ↔
        InContract limit := by
  constructor
  · intro T
    exact keeps_contract_iff hm
  · intro viewer T
    exact keeps_contract_iff hm

/-- A limit of 100 on a listing of three is within the contract, and the page is as it says. -/
theorem limits_keep_contract_hundred : InContract 100 ∧
    KeepsContract 100 (ProductsController.listProducts ⟨fun _ _ => none⟩ .unrounded shelf
      (some 100) (cursorOf (some 1))) := by
  have hin : InContract 100 := by
    constructor <;> omega
  exact ⟨hin, ((limits_keep_contract_iff ⟨fun _ _ => none⟩ .unrounded 100 (some 1)
    (by decide)).1 shelf).mpr hin⟩

/-- `GET /products?limit=0` is a 500. -/
theorem zero_breaks_contract :
    ProductsController.listProducts ⟨fun _ _ => none⟩ .unrounded shelf (some 0) none =
        .error (.error "TypeError") ∧
      ¬ KeepsContract 0 (ProductsController.listProducts ⟨fun _ _ => none⟩ .unrounded shelf
        (some 0) none) := by
  have hrows : productListing.selected shelf none ≠ [] :=
    List.ne_nil_of_mem (mem_selected.mpr ⟨List.mem_cons_self, rfl, rfl⟩)
  have herr : ProductsController.listProducts ⟨fun _ _ => none⟩ .unrounded shelf (some 0) none =
      .error (.error "TypeError") := by
    exact list_zero ⟨fun _ _ => none⟩ .unrounded (m := none) (by simp) hrows
  exact ⟨herr, fun hkeeps => hkeeps.noTypeError herr⟩

end Marketplace.Lists

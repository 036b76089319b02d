import Mathlib.Data.List.Basic

/-!
# Core.Pages — a listing that comes in pages

A listing in ascending order of a key, read page by page: each request names a marker and
gets the items after it, as many as the other side likes to give, with the marker of the
next request if there are more. `collect` is the reading loop, and `collect_eq` says that
it ends with the whole listing, whatever the page sizes are.
-/

namespace Core.Pages

universe u

/-- What one request answers: some items, and where to go on if there are more. -/
structure Page (α : Type u) where
  items : List α
  next : Option ℕ

variable {α : Type u} (key : α → ℕ)

/-- The first `size` items after the marker. -/
def page (listing : List α) (size marker : ℕ) : Page α :=
  let rest := listing.filter fun x => marker < key x
  { items := rest.take size
    next := if size < rest.length then (rest.take size).getLast?.map key else none }

/-- Request pages until one has no next marker; the page sizes are the other side's. -/
def collect (listing : List α) (size : ℕ → ℕ) : ℕ → ℕ → List α → Option (List α)
  | 0, _, _ => none
  | fuel + 1, marker, read =>
      let p := page key listing (size marker) marker
      match p.next with
      | none => some (read ++ p.items)
      | some marker' => collect listing size fuel marker' (read ++ p.items)

variable {key} {listing read rest : List α} {size : ℕ → ℕ} {marker fuel : ℕ}

/-- What is read has keys up to the marker, what is not has later ones. -/
structure Split (key : α → ℕ) (listing read rest : List α) (marker : ℕ) : Prop where
  whole : listing = read ++ rest
  before : ∀ x ∈ read, key x ≤ marker
  after : ∀ x ∈ rest, marker < key x

/-- Filtering the listing by the marker of a split gives back exactly what is still to be read:
the keys ascend, so the marker cuts the listing in two. -/
theorem Split.filter (h : Split key listing read rest marker) :
    listing.filter (fun x => marker < key x) = rest := by
  have hread : read.filter (fun x => decide (marker < key x)) = [] := by
    rw [List.filter_eq_nil_iff]
    intro x hx
    simpa using h.before x hx
  have hrest : rest.filter (fun x => decide (marker < key x)) = rest := by
    rw [List.filter_eq_self]
    intro x hx
    simpa using h.after x hx
  rw [h.whole, List.filter_append, hread, hrest, List.nil_append]

/-- One page further. -/
theorem Split.next {n : ℕ} {x : α} (h : Split key listing read rest marker)
    (hsorted : listing.Pairwise fun a b => key a < key b)
    (hlast : (rest.take n).getLast? = some x) :
    Split key listing (read ++ rest.take n) (rest.drop n) (key x) := by
  have hrest : (rest.take n ++ rest.drop n).Pairwise fun a b => key a < key b := by
    rw [List.take_append_drop]
    rw [h.whole, List.pairwise_append] at hsorted
    exact hsorted.2.1
  obtain ⟨init, hinit⟩ := List.getLast?_eq_some_iff.mp hlast
  have hx : x ∈ rest.take n := by
    rw [hinit]
    exact List.mem_append_right _ (List.mem_singleton.mpr rfl)
  rw [List.pairwise_append] at hrest
  refine ⟨?_, ?_, ?_⟩
  · rw [List.append_assoc, List.take_append_drop]
    exact h.whole
  · intro y hy
    rcases List.mem_append.mp hy with hy | hy
    · have hmarker := h.after x (List.mem_of_mem_take hx)
      exact Nat.le_trans (h.before y hy) (Nat.le_of_lt hmarker)
    · have hpage := hrest.1
      rw [hinit, List.pairwise_append] at hpage
      rw [hinit] at hy
      rcases List.mem_append.mp hy with hy | hy
      · exact Nat.le_of_lt (hpage.2.2 y hy x (List.mem_singleton.mpr rfl))
      · exact Nat.le_of_eq (congrArg key (List.mem_singleton.mp hy))
  · intro y hy
    exact hrest.2.2 x hx y hy

/-- From any split point the loop over the pages ends with the whole listing, provided every page
has room for a key. Induction on the fuel, each page moving the split. -/
theorem collect_split (hsorted : listing.Pairwise fun a b => key a < key b)
    (hsize : ∀ m, 0 < size m) (h : Split key listing read rest marker)
    (hfuel : rest.length < fuel) : collect key listing size fuel marker read = some listing := by
  -- a page moves the split point by at least one key, which is what the fuel pays for
  induction fuel generalizing read rest marker with
  | zero => exact absurd hfuel (Nat.not_lt_zero _)
  | succ fuel ih =>
      simp only [collect, page, h.filter]
      by_cases hmore : size marker < rest.length
      · have hne : rest.take (size marker) ≠ [] := by
          have hpos := hsize marker
          intro hnil
          have hlen := congrArg List.length hnil
          rw [List.length_take, List.length_nil] at hlen
          omega
        obtain ⟨x, hx⟩ : ∃ x, (rest.take (size marker)).getLast? = some x :=
          ⟨_, List.getLast?_eq_some_getLast hne⟩
        rw [if_pos hmore, hx]
        refine ih (h.next hsorted hx) ?_
        have hpos := hsize marker
        rw [List.length_drop]
        omega
      · rw [if_neg hmore, List.take_of_length_le (Nat.le_of_not_lt hmore), h.whole]

/-- The loop reads the whole listing, for all page sizes. -/
theorem collect_eq (hsorted : listing.Pairwise fun a b => key a < key b)
    (hpos : ∀ x ∈ listing, 0 < key x) (hsize : ∀ m, 0 < size m) (hfuel : listing.length < fuel) :
    collect key listing size fuel 0 [] = some listing :=
  collect_split hsorted hsize ⟨rfl, nofun, hpos⟩ hfuel

end Core.Pages

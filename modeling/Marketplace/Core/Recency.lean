import Mathlib.Algebra.BigOperators.Group.List.Basic
import Mathlib.Algebra.Order.Ring.Int
import Mathlib.Data.List.Dedup

/-!
# Core.Recency — least recently used first, within a budget

A log of uses orders the things used by their last use: `uses.dedup` keeps the last
occurrence of each. `shrink` gives up the oldest members of a list until the sizes of the
rest no longer exceed a budget; `Shortest` says what that is.
-/

namespace Core.Recency

universe u

section Order

variable {κ : Type u} [DecidableEq κ] {uses keys : List κ} {k : κ}

/-- A use moves its key to the end of the order and leaves the order of the others alone. -/
theorem dedup_concat : (uses ++ [k]).dedup = uses.dedup.filter (· ≠ k) ++ [k] := by
  induction uses with
  | nil => rfl
  | cons a l ih =>
      rw [List.cons_append]
      by_cases hmem : a ∈ l
      · rw [List.dedup_cons_of_mem (List.mem_append_left _ hmem), ih,
          List.dedup_cons_of_mem hmem]
      · by_cases hak : a = k
        · subst hak
          rw [List.dedup_cons_of_mem (List.mem_append_right _ (List.mem_singleton.mpr rfl)), ih,
            List.dedup_cons_of_notMem hmem]
          simp
        · have hnot : a ∉ l ++ [k] := by simp [hmem, hak]
          rw [List.dedup_cons_of_notMem hnot, ih, List.dedup_cons_of_notMem hmem]
          simp [hak]

/-- A use moves a key to the end. -/
theorem sublist_use (h : keys.Sublist uses.dedup) :
    (keys.filter (· ≠ k) ++ [k]).Sublist (uses ++ [k]).dedup := by
  rw [dedup_concat]
  exact (h.filter _).append (List.Sublist.refl _)

end Order

section Budget

variable {α : Type u} (size : α → ℤ) (exceeds : ℤ → Prop)

def total (l : List α) : ℤ := (l.map size).sum

/-- `r` is `l` less its shortest prefix whose loss brings the total within the budget. -/
def Shortest (l r : List α) : Prop :=
  ∃ n, r = l.drop n ∧ ¬ exceeds (total size r) ∧ ∀ m < n, exceeds (total size (l.drop m))

variable {size exceeds} {a : α} {l r : List α}

@[simp] theorem total_nil : total size [] = 0 := rfl

@[simp] theorem total_cons : total size (a :: l) = size a + total size l := by simp [total]

@[simp] theorem total_concat : total size (l ++ [a]) = total size l + size a := by simp [total]

theorem Shortest.sublist (h : Shortest size exceeds l r) : r.Sublist l := by
  obtain ⟨n, rfl, -, -⟩ := h
  exact List.drop_sublist n l

theorem Shortest.fits (h : Shortest size exceeds l r) : ¬ exceeds (total size r) := by
  obtain ⟨n, -, hfit, -⟩ := h
  exact hfit

variable (size exceeds) [DecidablePred exceeds]

/-- Give up the first member until the rest is within the budget. -/
def shrink : List α → List α
  | [] => []
  | a :: l => if exceeds (total size (a :: l)) then shrink l else a :: l

variable {size exceeds}

/-- What is evicted is the shortest prefix whose removal makes the rest fit. -/
theorem shrink_shortest (h0 : ¬ exceeds 0) : Shortest size exceeds l (shrink size exceeds l) := by
  induction l with
  | nil => exact ⟨0, rfl, h0, fun m hm => absurd hm (Nat.not_lt_zero m)⟩
  | cons a l ih =>
      rw [shrink]
      split
      · next hexceeds =>
          obtain ⟨n, hr, hfit, hmin⟩ := ih
          refine ⟨n + 1, hr, hfit, ?_⟩
          intro m hm
          cases m with
          | zero => exact hexceeds
          | succ m => exact hmin m (by omega)
      · next hexceeds => exact ⟨0, rfl, hexceeds, fun m hm => absurd hm (Nat.not_lt_zero m)⟩

/-- A last member that fits alone stays. -/
theorem shrink_concat (h : ¬ exceeds (size a)) :
    ∃ r, shrink size exceeds (l ++ [a]) = r ++ [a] := by
  induction l with
  | nil =>
      refine ⟨[], ?_⟩
      have htotal : total size [a] = size a := by simp
      rw [List.nil_append, shrink, htotal, if_neg h]
  | cons b l ih =>
      rw [List.cons_append, shrink]
      split
      · exact ih
      · exact ⟨b :: l, rfl⟩

end Budget

end Core.Recency

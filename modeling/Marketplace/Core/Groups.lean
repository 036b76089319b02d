import Mathlib.Algebra.BigOperators.Group.List.Basic
import Mathlib.Algebra.Order.Ring.Int
import Mathlib.Data.List.Dedup

/-!
# Core.Groups — GROUP BY and the aggregates

The rows of a relation are grouped by a key and each group is added up. A column that is NULL
in a row is `none` there, and the aggregates leave it out; `SUM` and `MAX` of nothing are NULL.
Whatever the key, each row is in one group, so the sums of the groups add up to that of all rows
(`sum_parts`, `sum_groupBy`).
-/

namespace Core.Groups

variable {R K : Type*} [DecidableEq K]

/-! ## Aggregates -/

def sum (column : R → Option ℤ) (rows : List R) : Option ℤ :=
  match rows.filterMap column with
  | [] => none
  | n :: ns => some (n :: ns).sum

/-- `COUNT(DISTINCT column)`. -/
def countDistinct (column : R → Option K) (rows : List R) : ℕ :=
  (rows.filterMap column).dedup.length

def max (column : R → Option ℕ) (rows : List R) : Option ℕ := (rows.filterMap column).max?

/-- `COALESCE(SUM(column), 0)`. -/
theorem sum_getD (column : R → Option ℤ) (rows : List R) :
    (sum column rows).getD 0 = (rows.filterMap column).sum := by
  unfold sum
  cases rows.filterMap column with
  | nil => rfl
  | cons n ns => rfl

/-- The sum of a column that is never NULL. -/
theorem sum_some (f : R → ℤ) (rows : List R) :
    (sum (fun r => some (f r)) rows).getD 0 = (rows.map f).sum := by
  rw [sum_getD, ← List.filterMap_eq_map]
  rfl

/-! ## Groups -/

def group (key : R → K) (rows : List R) (k : K) : List R := rows.filter fun r => key r = k

/-- `GROUP BY key`: each key once, with its rows. -/
def groupBy (key : R → K) (rows : List R) : List (K × List R) :=
  (rows.map key).dedup.map fun k => (k, group key rows k)

theorem mem_groupBy {key : R → K} {rows : List R} {g : K × List R} (h : g ∈ groupBy key rows) :
    g.2 = group key rows g.1 ∧ ∃ r ∈ rows, key r = g.1 := by
  obtain ⟨k, hk, rfl⟩ := List.mem_map.mp h
  exact ⟨rfl, List.mem_map.mp (List.mem_dedup.mp hk)⟩

/-- The groups stand in the order in which their keys first occur, each key once. -/
theorem groupBy_keys (key : R → K) (rows : List R) :
    (groupBy key rows).map Prod.fst = (rows.map key).dedup := by
  unfold groupBy
  rw [List.map_map]
  exact List.map_id _

theorem groupBy_nodup (key : R → K) (rows : List R) :
    ((groupBy key rows).map Prod.fst).Nodup := by
  rw [groupBy_keys]
  exact List.nodup_dedup _

/-! ## Sums -/

/-- Of the keys, one is that of the row. -/
theorem sum_at_key {ks : List K} {k : K} (hks : ks.Nodup) (hk : k ∈ ks) (n : ℤ) :
    (ks.map fun k' => if k = k' then n else 0).sum = n := by
  induction ks with
  | nil => cases hk
  | cons k' ks ih =>
      obtain ⟨hnew, hks⟩ := List.nodup_cons.mp hks
      rw [List.map_cons, List.sum_cons]
      by_cases heq : k = k'
      · subst heq
        have hrest : (ks.map fun k' => if k = k' then n else 0).sum = 0 := by
          apply List.sum_eq_zero
          intro x hx
          obtain ⟨k', hk', rfl⟩ := List.mem_map.mp hx
          apply if_neg
          rintro rfl
          exact hnew hk'
        rw [if_pos rfl, hrest, add_zero]
      · rw [if_neg heq, zero_add]
        apply ih hks
        exact (List.mem_cons.mp hk).resolve_left heq

/-- The parts of the rows by their keys add up to the rows. -/
theorem sum_parts {key : R → K} (f : R → ℤ) {rows : List R} {ks : List K} (hks : ks.Nodup)
    (hrows : ∀ r ∈ rows, key r ∈ ks) :
    (ks.map fun k => ((group key rows k).map f).sum).sum = (rows.map f).sum := by
  induction rows with
  | nil =>
      apply List.sum_eq_zero
      intro n hn
      obtain ⟨k, -, rfl⟩ := List.mem_map.mp hn
      rfl
  | cons r rows ih =>
      have hrest := ih fun r' hr' => hrows r' (List.mem_cons_of_mem _ hr')
      -- the first row is in the part of its own key
      have hsplit : ∀ k, ((group key (r :: rows) k).map f).sum =
          (if key r = k then f r else 0) + ((group key rows k).map f).sum := by
        intro k
        unfold group
        by_cases hk : key r = k
        · rw [List.filter_cons_of_pos (by simpa using hk), if_pos hk, List.map_cons, List.sum_cons]
        · rw [List.filter_cons_of_neg (by simpa using hk), if_neg hk, zero_add]
      calc (ks.map fun k => ((group key (r :: rows) k).map f).sum).sum
          = (ks.map fun k => if key r = k then f r else 0).sum +
              (ks.map fun k => ((group key rows k).map f).sum).sum := by
            rw [← List.sum_map_add]
            exact congrArg List.sum (List.map_congr_left fun k _ => hsplit k)
        _ = f r + (rows.map f).sum := by
            rw [sum_at_key hks (hrows r List.mem_cons_self), hrest]
        _ = ((r :: rows).map f).sum := (List.sum_cons).symm

/-- Summing group by group is summing all rows. -/
theorem sum_groupBy (key : R → K) (f : R → ℤ) (rows : List R) :
    ((groupBy key rows).map fun g => (g.2.map f).sum).sum = (rows.map f).sum := by
  unfold groupBy
  rw [List.map_map]
  apply sum_parts f (List.nodup_dedup _)
  intro r hr
  exact List.mem_dedup.mpr (List.mem_map_of_mem hr)

/-! ## Counting the rows that satisfy a condition -/

section Counting

variable {p q r : K → Prop} [DecidablePred p] [DecidablePred q] [DecidablePred r] {L S : List K}

omit [DecidableEq K] in
/-- Counting by ones and zeros is the length of what the filter leaves. -/
theorem sum_ite (L : List K) :
    (L.map fun k => if p k then 1 else 0).sum = (L.filter fun k => p k).length := by
  induction L with
  | nil => rfl
  | cons k L ih =>
      rw [List.map_cons, List.sum_cons, ih]
      by_cases hk : p k
      · simp [hk]
        omega
      · simp [hk]

/-- One each for the rows of a sublist. -/
theorem sum_marked (hL : L.Nodup) (hS : S.Nodup) (hsub : ∀ k ∈ S, k ∈ L) :
    (L.map fun k => if k ∈ S then 1 else 0).sum = S.length := by
  rw [sum_ite]
  apply List.Perm.length_eq
  rw [List.perm_ext_iff_of_nodup (hL.filter _) hS]
  intro k
  rw [List.mem_filter, decide_eq_true_eq]
  exact ⟨And.right, fun hk => ⟨hsub k hk, hk⟩⟩

/-- The rows of `S` are new under the condition. -/
theorem count_grown (hL : L.Nodup) (hS : S.Nodup) (hsub : ∀ k ∈ S, k ∈ L)
    (hq : ∀ k ∈ L, q k ↔ p k ∨ k ∈ S) (hnew : ∀ k ∈ S, ¬ p k) :
    (L.filter fun k => q k).length = (L.filter fun k => p k).length + S.length := by
  rw [← sum_ite, ← sum_ite, ← sum_marked hL hS hsub, ← List.sum_map_add]
  apply congrArg List.sum
  apply List.map_congr_left
  intro k hk
  have hiff := hq k hk
  by_cases hS : k ∈ S
  · rw [if_pos (hiff.mpr (Or.inr hS)), if_neg (hnew k hS), if_pos hS]
  · by_cases hp : p k
    · rw [if_pos (hiff.mpr (Or.inl hp)), if_pos hp, if_neg hS]
    · rw [if_neg, if_neg hp, if_neg hS]
      rintro hqk
      exact (hiff.mp hqk).elim hp hS

omit [DecidableEq K] in
/-- Three conditions of which each row satisfies one. -/
theorem count_three (h : ∀ k ∈ L, (if p k then 1 else 0) + (if q k then 1 else 0) +
      (if r k then 1 else 0) = 1) :
    (L.filter fun k => p k).length + (L.filter fun k => q k).length +
      (L.filter fun k => r k).length = L.length := by
  rw [← sum_ite, ← sum_ite, ← sum_ite, ← List.sum_map_add, ← List.sum_map_add,
    List.map_congr_left h]
  simp

end Counting

end Core.Groups

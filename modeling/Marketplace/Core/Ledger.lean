import Mathlib.Algebra.BigOperators.Group.List.Basic
import Mathlib.Algebra.Order.BigOperators.Group.List
import Mathlib.Algebra.Order.Ring.Int

/-!
# Core.Ledger — an append-only book of entries

Entries debit accounts. A book is legal when every entry was allowed where it was
written and no account is ever overdrawn. Whatever holds of an entry when it is
written, alone (`Legal.forall`) or against the earlier ones (`Legal.pairwise`), holds
of the whole book, and every balance is the initial funds less all debits.
-/

namespace Core.Ledger

universe u v

variable {E : Type u} {A : Type v}

/-- What the entries of `L` take from account `a`. -/
def debited (debit : E → A → ℤ) (L : List E) (a : A) : ℤ := (L.map fun e => debit e a).sum

section

variable (debit : E → A → ℤ) (L : List E) (e : E) (a : A)

@[simp] theorem debited_nil : debited debit [] a = 0 := rfl

@[simp] theorem debited_concat : debited debit (L ++ [e]) a = debited debit L a + debit e a := by
  simp [debited]

/-- An account that no entry touches is debited nothing. -/
theorem debited_eq_zero (h : ∀ e ∈ L, debit e a = 0) : debited debit L a = 0 := by
  induction L with
  | nil => rfl
  | cons e L ih =>
      have hhead : debit e a = 0 := h e List.mem_cons_self
      have htail : debited debit L a = 0 := ih fun x hx => h x (List.mem_cons_of_mem _ hx)
      change debit e a + debited debit L a = 0
      rw [hhead, htail, add_zero]

/-- If every entry debits the same, the sum is that many times as much. -/
theorem debited_const {n : ℤ} (h : ∀ e ∈ L, debit e a = n) : debited debit L a = n * L.length := by
  induction L with
  | nil => simp
  | cons e L ih =>
      have hhead := h e List.mem_cons_self
      have htail := ih fun x hx => h x (List.mem_cons_of_mem _ hx)
      show debit e a + debited debit L a = n * (L.length + 1 : ℕ)
      rw [hhead, htail, Nat.cast_add, Nat.cast_one, mul_add, mul_one]
      omega

/-- Entries that take nothing back have a sum that is not negative. -/
theorem debited_nonneg (h : ∀ e ∈ L, 0 ≤ debit e a) : 0 ≤ debited debit L a := by
  refine List.sum_nonneg ?_
  intro n hn
  obtain ⟨e, he, rfl⟩ := List.mem_map.mp hn
  exact h e he

end

/-- The rows of one entry are found among those of all by its key. -/
theorem filter_rows {R : Type*} {B : Type*} [DecidableEq B] {rows : E → List R} (key : E → B)
    (keyOf : R → B) {L : List E} {e : E} (hL : L.Pairwise fun a b => key a ≠ key b)
    (hkey : ∀ a ∈ L, ∀ r ∈ rows a, keyOf r = key a) (he : e ∈ L) :
    (L.flatMap rows).filter (fun r => keyOf r = key e) = rows e := by
  induction L with
  | nil => cases he
  | cons a L ih =>
      obtain ⟨hne, hL⟩ := List.pairwise_cons.mp hL
      have hhead : ∀ r ∈ rows a, keyOf r = key a := hkey a List.mem_cons_self
      have htail : ∀ b ∈ L, ∀ r ∈ rows b, keyOf r = key b :=
        fun b hb => hkey b (List.mem_cons_of_mem _ hb)
      rw [List.flatMap_cons, List.filter_append]
      rcases List.mem_cons.mp he with rfl | he
      · have hrest : (L.flatMap rows).filter (fun r => keyOf r = key e) = [] := by
          rw [List.filter_eq_nil_iff]
          intro r hr
          obtain ⟨b, hb, hr⟩ := List.mem_flatMap.mp hr
          rw [htail b hb r hr, decide_eq_true_eq]
          exact (hne b hb).symm
        rw [hrest, List.append_nil, List.filter_eq_self]
        intro r hr
        simpa using hhead r hr
      · have hnone : (rows a).filter (fun r => keyOf r = key e) = [] := by
          rw [List.filter_eq_nil_iff]
          intro r hr
          rw [hhead r hr, decide_eq_true_eq]
          exact hne e he
        rw [hnone, List.nil_append]
        exact ih hL htail he

/-- A sum over some of the entries is a sum over all of them with the others counted as 0. -/
theorem sum_filter {R : Type*} (q : R → Bool) (f : R → ℤ) (l : List R) :
    ((l.filter q).map f).sum = (l.map fun r => if q r then f r else 0).sum := by
  induction l with
  | nil => rfl
  | cons r l ih =>
      by_cases hr : q r = true
      · simp [List.filter_cons_of_pos hr, hr, ih]
      · simp [List.filter_cons_of_neg hr, hr, ih]

/-- A book whose entries were each allowed by `may`, given the book before it. -/
inductive Legal (may : List E → E → Prop) : List E → Prop
  | nil : Legal may []
  | concat {L : List E} {e : E} : Legal may L → may L e → Legal may (L ++ [e])

namespace Legal

variable {may : List E → E → Prop} {L : List E}

/-- What every entry has when it is booked, all entries of a legal ledger have. -/
theorem forall_mem {Q : E → Prop} (hmay : ∀ L e, may L e → Q e) (h : Legal may L) :
    ∀ e ∈ L, Q e := by
  induction h with
  | nil => exact fun e he => by cases he
  | concat _ hm ih =>
      intro e he
      rcases List.mem_append.mp he with he | he
      · exact ih e he
      · rw [List.mem_singleton.mp he]
        exact hmay _ _ hm

/-- What a new entry has towards all earlier ones holds between any two entries of a legal ledger.
-/
theorem pairwise {R : E → E → Prop} (hmay : ∀ L e, may L e → ∀ e' ∈ L, R e' e)
    (h : Legal may L) : L.Pairwise R := by
  induction h with
  | nil => exact List.Pairwise.nil
  | concat _ hm ih =>
      rw [List.pairwise_append]
      refine ⟨ih, List.pairwise_singleton _ _, ?_⟩
      intro e' he' e he
      rw [List.mem_singleton.mp he]
      exact hmay _ _ hm e' he'

/-- No account is overdrawn, if no entry overdraws one. -/
theorem debited_le {debit : E → A → ℤ} {funds : A → ℤ} (hfunds : ∀ a, 0 ≤ funds a)
    (hmay : ∀ L e, may L e → ∀ a, debited debit (L ++ [e]) a ≤ funds a) (h : Legal may L) :
    ∀ a, debited debit L a ≤ funds a := by
  cases h with
  | nil => exact hfunds
  | concat _ hm => exact hmay _ _ hm

end Legal

end Core.Ledger

import Mathlib.Algebra.Order.Floor.Div
import Mathlib.Algebra.Order.Ring.Rat
import Mathlib.Algebra.Order.Monoid.Unbundled.WithTop
import Mathlib.Data.Rat.Floor
import Mathlib.Tactic.FieldSimp
import Mathlib.Tactic.Linarith

/-!
# Core.JsNumber — numbers as doubles

The rounding of numbers is a parameter with two laws: it keeps order and fixes the whole
numbers up to 2⁵³. `Numerals` adds what `String` makes of whole numbers.
-/

namespace Core

/-- The rounding of numbers to doubles: `⊤` past the largest one. -/
structure Doubles where
  round : ℚ → WithTop ℚ
  mono : Monotone round
  exact : ∀ n : ℕ, n ≤ 2 ^ 53 → round n = (n : ℚ)

/-- No rounding at all, which is right for whole numbers. -/
def Doubles.unrounded : Doubles where
  round q := q
  mono _ _ h := WithTop.coe_le_coe.mpr h
  exact _ _ := rfl

/-- A whole number that a JavaScript number can be. -/
def Doubles.IsInteger (dbl : Doubles) (n : ℤ) : Prop := dbl.round n = (n : ℚ)

/-- A number of either sign, rounded; `none` for the infinities. -/
def Doubles.finite (dbl : Doubles) (q : ℚ) : Option ℚ :=
  match dbl.round |q| with
  | none => none
  | some r => some (if q < 0 then -r else r)

/-- Every whole number up to 2^53 is a double, and not an infinite one. -/
theorem Doubles.finite_int (dbl : Doubles) {n : ℤ} (h : |n| ≤ 2 ^ 53) :
    dbl.finite n = some (n : ℚ) := by
  have habs : |(n : ℚ)| = (n.natAbs : ℚ) := by
    rw [← Int.cast_abs, Int.abs_eq_natAbs]
    rfl
  have hround : dbl.round |(n : ℚ)| = ((n.natAbs : ℚ) : WithTop ℚ) := by
    rw [Int.abs_eq_natAbs] at h
    rw [habs]
    exact dbl.exact _ (by omega)
  unfold finite
  rw [hround, ← habs]
  change some _ = some _
  split
  · next hneg => rw [abs_of_neg hneg, neg_neg]
  · next hpos => rw [abs_of_nonneg (not_lt.mp hpos)]

/-- Rounding to the nearest of the numbers with 53 significant bits: a number that is not too
small for that moves by at most its 2⁵³rd part. -/
structure Binary64 extends Doubles where
  near : ∀ q r : ℚ, 1 / 2 ^ 1022 ≤ q → round q = r → |r - q| ≤ q / 2 ^ 53

def Binary64.unrounded : Binary64 where
  toDoubles := Doubles.unrounded
  near q r hq h := by
    obtain rfl : q = r := WithTop.coe_eq_coe.mp h
    have hpos : (0 : ℚ) ≤ q := le_trans (by positivity) hq
    rw [sub_self, abs_zero]
    positivity

/-- `Math.ceil` of a number, 0 for `Infinity`. -/
def ceil (q : WithTop ℚ) : ℕ := ⌈q.untopD 0⌉₊

/-- A quotient of whole numbers below 2⁵³ is not rounded to or past a whole number, so
`Math.ceil` of it is the quotient rounded up. -/
theorem Binary64.ceil_div (dbl : Binary64) {a b : ℕ} (ha : a < 2 ^ 53) (hb : 0 < b)
    (hb' : b < 2 ^ 53) : ceil (dbl.round (a / b)) = a ⌈/⌉ b := by
  have hbq : (0 : ℚ) < b := by exact_mod_cast hb
  have hcover : a ≤ b * (a ⌈/⌉ b) := (ceilDiv_le_iff_le_mul hb).mp (le_refl _)
  have hcle : a ⌈/⌉ b ≤ a := (ceilDiv_le_iff_le_mul hb).mpr (Nat.le_mul_of_pos_left a hb)
  -- from above: the quotient rounded up is itself a double
  have hup : dbl.round (a / b) ≤ ((a ⌈/⌉ b : ℕ) : ℚ) := by
    rw [← dbl.exact _ (by omega)]
    apply dbl.mono
    rw [div_le_iff₀ hbq, mul_comm]
    exact_mod_cast hcover
  obtain ⟨r, hr⟩ : ∃ r : ℚ, dbl.round (a / b) = r :=
    (WithTop.ne_top_iff_exists.mp (ne_top_of_le_ne_top (WithTop.coe_ne_top) hup)).imp
      fun _ h => h.symm
  rw [hr] at hup ⊢
  have hrle : r ≤ ((a ⌈/⌉ b : ℕ) : ℚ) := WithTop.coe_le_coe.mp hup
  change ⌈r⌉₊ = a ⌈/⌉ b
  apply le_antisymm
  · exact Nat.ceil_le.mpr hrle
  · -- from below: the error is smaller than the distance 1 / b to the whole number below
    rcases Nat.eq_zero_or_pos (a ⌈/⌉ b) with hzero | hpos
    · rw [hzero]
      exact Nat.zero_le _
    · obtain ⟨m, hm⟩ : ∃ m, a ⌈/⌉ b = m + 1 := Nat.exists_eq_add_one_of_ne_zero hpos.ne'
      have hbelow : b * m + 1 ≤ a := by
        by_contra hle
        have hfewer : a ⌈/⌉ b ≤ m := (ceilDiv_le_iff_le_mul hb).mpr (by omega)
        omega
      have hbelow' : (m : ℚ) + 1 / b ≤ a / b := by
        rw [le_div_iff₀ hbq]
        have hone : (m + 1 / b : ℚ) * b = b * m + 1 := by
          field_simp
        rw [hone]
        exact_mod_cast hbelow
      -- the bound on the error is for normal doubles only; 1 / b is one of them
      have hnormal : (1 : ℚ) / 2 ^ 1022 ≤ a / b := by
        have hinv : (1 : ℚ) / 2 ^ 1022 ≤ 1 / b := by
          apply one_div_le_one_div_of_le hbq
          have hb53 : (b : ℚ) ≤ 2 ^ 53 := by exact_mod_cast hb'.le
          exact hb53.trans (pow_le_pow_right₀ one_le_two (by omega))
        have hm0 : (0 : ℚ) ≤ m := by positivity
        exact hinv.trans ((le_add_of_nonneg_left hm0).trans hbelow')
      have herr : r ≥ a / b - a / b / 2 ^ 53 := by
        have habs := abs_le.mp (dbl.near _ _ hnormal hr)
        linarith [habs.1]
      have hsmall : (a : ℚ) / b / 2 ^ 53 < 1 / b := by
        rw [div_div, mul_comm, ← div_div]
        apply div_lt_div_of_pos_right _ hbq
        rw [div_lt_one (by positivity)]
        exact_mod_cast ha
      have hlt : (m : ℚ) < r := by linarith
      rw [hm]
      exact Nat.lt_ceil.mpr hlt

/-- `text n` is the whole number that the text `String(n)` denotes. It need not be `n`, but
`Number` gives `n` back. -/
structure Numerals extends Doubles where
  text : ℤ → ℤ
  number_text : ∀ n, toDoubles.IsInteger n → round (text n) = (n : ℚ)

def Numerals.unrounded : Numerals where
  toDoubles := Doubles.unrounded
  text n := n
  number_text _ h := h

/-- Texts of whole numbers are ordered as the numbers are. -/
theorem Numerals.text_le_iff (num : Numerals) {m n : ℤ} (hm : num.IsInteger m)
    (hn : num.IsInteger n) : num.text m ≤ num.text n ↔ m ≤ n := by
  have hround : ∀ {a b : ℤ}, num.IsInteger a → num.IsInteger b → num.text a ≤ num.text b →
      a ≤ b := by
    intro a b ha hb h
    have hle : num.round (num.text a) ≤ num.round (num.text b) :=
      num.mono (by exact_mod_cast h)
    rw [num.number_text a ha, num.number_text b hb, WithTop.coe_le_coe] at hle
    exact_mod_cast hle
  constructor
  · exact hround hm hn
  · intro h
    by_contra hlt
    have hle : n ≤ m := hround hn hm (by omega)
    obtain rfl : m = n := by omega
    exact hlt (Int.le_refl _)

end Core

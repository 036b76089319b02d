import Marketplace.Core.JsNumber
import Marketplace.Core.JsString
import Marketplace.Core.JsText
import Marketplace.Core.Utf8

/-!
# Core.UnitText — string functions of JavaScript, on code units

`trim`, `toLowerCase` and `Number` of a string that may hold lone surrogates, the string that
`buffer.toString('latin1')` is, and the octets that a string is written as. `toLowerCase` knows
the letters up to U+00FF.
-/

namespace Core.UnitText

open JsString

/-! ## Characters -/

/-- A code unit by itself. A surrogate is no character; it becomes one that is neither white space
nor part of a number. -/
def char (u : ℕ) : Char := Char.ofNat u

def isSpace (u : ℕ) : Bool := JsText.isSpace (char u)

def trim (s : Units) : Units := ((s.dropWhile isSpace).reverse.dropWhile isSpace).reverse

/-- A letter from A to Z or from U+00C0 to U+00DE. -/
def isUpper (u : ℕ) : Bool := (65 ≤ u && u ≤ 90) || (192 ≤ u && u ≤ 222 && u ≠ 215)

def toLowerCase (s : Units) : Units := s.map fun u => if isUpper u then u + 32 else u

/-- `Number(s)` if it is finite. -/
def number (dbl : Doubles) (s : Units) : Option ℚ := (JsText.number (s.map char)).bind dbl.finite

/-- `String(n)` of a whole number. -/
def decimal (n : ℕ) : Units := units (toString n).toList

example : trim (units " \t a b\r".toList) = units "a b".toList := by decide

example : toLowerCase (units "Content-Length".toList) = units "content-length".toList := by decide

theorem trim_cons {u : ℕ} (h : isSpace u = true) (s : Units) : trim (u :: s) = trim s := by
  rw [trim, List.dropWhile_cons_of_pos h, trim]

/-- A text without blanks is not changed by `trim`. -/
theorem trim_of_notSpace {s : Units} (h : ∀ u ∈ s, isSpace u = false) : trim s = s := by
  have hfront : ∀ t : Units, (∀ u ∈ t, isSpace u = false) → t.dropWhile isSpace = t := by
    intro t ht
    cases t with
    | nil => rfl
    | cons u t => rw [List.dropWhile_cons_of_neg (by simp [ht u List.mem_cons_self])]
  unfold trim
  rw [hfront s h, hfront s.reverse fun u hu => h u (List.mem_reverse.mp hu), List.reverse_reverse]

/-- A text with a character that is no white space is not trimmed away. -/
theorem trim_ne_nil {s : Units} {u : ℕ} (hu : u ∈ s) (h : isSpace u = false) : trim s ≠ [] := by
  have hdrop : ∀ t : Units, u ∈ t → u ∈ t.dropWhile isSpace := by
    intro t ht
    induction t with
    | nil => cases ht
    | cons v t ih =>
        by_cases hv : isSpace v = true
        · rw [List.dropWhile_cons_of_pos hv]
          rcases List.mem_cons.mp ht with rfl | ht
          · rw [h] at hv
            cases hv
          · exact ih ht
        · rwa [List.dropWhile_cons_of_neg hv]
  exact List.ne_nil_of_mem
    (List.mem_reverse.mpr (hdrop _ (List.mem_reverse.mpr (hdrop s hu))))

/-- A text without capitals is not changed by `toLowerCase`. -/
theorem toLowerCase_of_lower {s : Units} (h : ∀ u ∈ s, isUpper u = false) : toLowerCase s = s := by
  conv_rhs => rw [← List.map_id s]
  refine List.map_congr_left ?_
  intro u hu
  simp [h u hu]

/-! ## Digits -/

def isDigit (u : ℕ) : Bool := 48 ≤ u && u ≤ 57

/-- The value of a decimal numeral. -/
def value (s : Units) : ℕ := s.foldl (fun n u => 10 * n + (u - 48)) 0

/-- A code unit below the surrogates is its own code point. -/
theorem char_toNat {u : ℕ} (h : u < 0xD800) : (char u).toNat = u := by
  have hvalid : u.isValidChar := Or.inl h
  rw [char, Char.ofNat, dif_pos hvalid]
  exact UInt32.toNat_ofNatLT

/-- A code unit that is a digit is the character of that digit. -/
theorem isDigit_char {u : ℕ} (h : isDigit u = true) : (char u).isDigit = true := by
  have hrange : 48 ≤ u ∧ u ≤ 57 := by simpa [isDigit] using h
  have hchar := char_toNat (u := u) (by omega)
  simp only [Char.isDigit, Bool.and_eq_true, decide_eq_true_eq, ge_iff_le, UInt32.le_iff_toNat_le]
  change 48 ≤ (char u).toNat ∧ (char u).toNat ≤ 57
  omega

/-- `Number` of digits, before it is rounded. -/
theorem number_digits {s : Units} (dbl : Doubles) (hne : s ≠ []) (h : ∀ u ∈ s, isDigit u = true) :
    number dbl s = dbl.finite (value s) := by
  have hvalue : ∀ (t : Units) (n : ℕ), (∀ u ∈ t, isDigit u = true) →
      Nat.ofDigitChars 10 (t.map char) n = t.foldl (fun n u => 10 * n + (u - 48)) n := by
    intro t
    induction t with
    | nil =>
        intro n _
        rfl
    | cons u t ih =>
        intro n ht
        have hu : 48 ≤ u ∧ u ≤ 57 := by simpa [isDigit] using ht u List.mem_cons_self
        have hchar := char_toNat (u := u) (by omega)
        rw [List.map_cons, Nat.ofDigitChars_cons, hchar, List.foldl_cons]
        exact ih _ fun v hv => ht v (List.mem_cons_of_mem u hv)
  have hdigits : ∀ c ∈ s.map char, c.isDigit = true := by
    intro c hc
    obtain ⟨u, hu, rfl⟩ := List.mem_map.mp hc
    exact isDigit_char (h u hu)
  rw [number, JsText.number_digits (by simpa using hne) hdigits, hvalue s 0 h]
  rfl

/-- `buffer.toString('latin1')`. -/
def latin1 (octets : List UInt8) : Units := octets.map UInt8.toNat

/-- A code unit that is no half of a character. -/
def single (u : ℕ) : Char := if isLead u || isTrail u then Utf8.replacement else char u

def chars : Units → List Char
  | [] => []
  | [u] => [single u]
  | u :: v :: s =>
      if isLead u && isTrail v then
        Char.ofNat (0x10000 + 0x400 * (u - 0xD800) + (v - 0xDC00)) :: chars s
      else single u :: chars (v :: s)

/-- What is written to a socket; U+FFFD for a lone surrogate. -/
def utf8 (s : Units) : List UInt8 := Utf8.encode (chars s)

/-- `Buffer.byteLength(s)`. -/
def byteLength (s : Units) : ℕ := (utf8 s).length

example : utf8 [0xE9, 0xD83D, 0xDE00, 0xD83D] =
    [0xC3, 0xA9, 0xF0, 0x9F, 0x98, 0x80, 0xEF, 0xBF, 0xBD] := by decide

end Core.UnitText

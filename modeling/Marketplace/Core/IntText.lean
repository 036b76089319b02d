import Mathlib.Algebra.Order.Ring.Int
import Mathlib.Data.List.Basic

/-!
# Core.IntText — a text as PostgreSQL reads a `bigint`

`pg_strtoint64_safe` of PostgreSQL 16 and later: blanks around the number, a sign, a decimal,
`0x`, `0o` or `0b` number, and `_` between digits. The digits are read first, so a number that
is too large is out of range whatever follows the digit at which that shows.

`int8in_toDigits`: the decimal text of a natural number is read as that number, if it is in range.
-/

namespace Core.IntText

/-- Why a text is no `bigint`. -/
inductive CastError where
  | invalidSyntax
  | outOfRange
deriving DecidableEq, Repr

/-- `isspace` of the C locale. -/
def isSpace (c : Char) : Bool := c.toNat = 32 || (9 ≤ c.toNat && c.toNat ≤ 13)

/-- The value of a digit below `radix`. -/
def digit (radix : ℕ) (c : Char) : Option ℕ :=
  let k :=
    if c.isDigit then c.toNat - 48
    else if 'a' ≤ c ∧ c ≤ 'f' then c.toNat - 87
    else if 'A' ≤ c ∧ c ≤ 'F' then c.toNat - 55
    else radix
  if k < radix then some k else none

/-- The digits, and what follows them. A `_` has a digit after it. -/
def digits (radix : ℕ) : ℕ → List Char → Except CastError (ℕ × List Char)
  | tmp, [] => .ok (tmp, [])
  | tmp, c :: rest =>
      match digit radix c with
      | some k =>
          if 2 ^ 63 / radix < tmp then .error .outOfRange else digits radix (tmp * radix + k) rest
      | none =>
          if c ≠ '_' then .ok (tmp, c :: rest)
          else if (rest.head?.bind (digit radix)).isSome then digits radix tmp rest
          else .error .invalidSyntax

/-- One digit at least; after a prefix, a `_` may come before it. -/
def number (radix : ℕ) (prefixed : Bool) (cs : List Char) : Except CastError (ℕ × List Char) :=
  if cs.head?.any fun c => (digit radix c).isSome || (prefixed && c = '_') then digits radix 0 cs
  else .error .invalidSyntax

def magnitude : List Char → Except CastError (ℕ × List Char)
  | '0' :: 'x' :: cs | '0' :: 'X' :: cs => number 16 true cs
  | '0' :: 'o' :: cs | '0' :: 'O' :: cs => number 8 true cs
  | '0' :: 'b' :: cs | '0' :: 'B' :: cs => number 2 true cs
  | cs => number 10 false cs

/-- Whether there is a minus, and what follows the sign. -/
def sign : List Char → Bool × List Char
  | '-' :: cs => (true, cs)
  | '+' :: cs => (false, cs)
  | cs => (false, cs)

def int8in (text : List Char) : Except CastError ℤ := do
  let (neg, cs) := sign (text.dropWhile isSpace)
  let (tmp, rest) ← magnitude cs
  if rest.dropWhile isSpace ≠ [] then .error .invalidSyntax
  else if neg then
    if tmp ≤ 2 ^ 63 then .ok (-tmp) else .error .outOfRange
  else if tmp < 2 ^ 63 then .ok tmp else .error .outOfRange

example : int8in " -1_000\n".toList = .ok (-1000) ∧ int8in "0x1F".toList = .ok 31 ∧
    int8in "1__0".toList = .error .invalidSyntax ∧ int8in "0b".toList = .error .invalidSyntax ∧
    int8in "9223372036854775808".toList = .error .outOfRange := by
  decide +kernel

variable {cs : List Char} {c : Char} {tmp : ℕ} {n : ℕ}

/-- A decimal digit has its usual value in base ten. -/
theorem digit_of_isDigit (h : c.isDigit = true) : digit 10 c = some (c.toNat - '0'.toNat) := by
  have hle : c.toNat ≤ 57 := (Char.isDigit_iff_toNat.mp h).2
  unfold digit
  simp only [h, if_true]
  rw [if_pos (by omega)]
  rfl

/-- Decimal digits alone are read to their end, or to where they are too many. -/
theorem digits_decimal (tmp : ℕ) (h : ∀ c ∈ cs, c.isDigit = true) :
    digits 10 tmp cs = .ok (Nat.ofDigitChars 10 cs tmp, []) ∨
      digits 10 tmp cs = .error .outOfRange := by
  induction cs generalizing tmp with
  | nil => exact Or.inl (by rw [digits, Nat.ofDigitChars_nil])
  | cons c cs ih =>
      rw [digits, digit_of_isDigit (h c List.mem_cons_self)]
      dsimp only
      by_cases hlarge : 2 ^ 63 / 10 < tmp
      · exact Or.inr (if_pos hlarge)
      · rw [if_neg hlarge, Nat.ofDigitChars_cons, Nat.mul_comm 10 tmp]
        exact ih _ fun c' hc' => h c' (List.mem_cons_of_mem c hc')

/-- No digit is the letter of a prefix. -/
theorem magnitude_decimal (hne : cs ≠ []) (h : ∀ c ∈ cs, c.isDigit = true) :
    magnitude cs = digits 10 0 cs := by
  have hletter : ∀ (c : Char) (rest : List Char), cs = '0' :: c :: rest → c.isDigit = true := by
    rintro c rest rfl
    exact h c (by simp)
  unfold magnitude
  split
  · exact absurd (hletter _ _ rfl) (by decide)
  · exact absurd (hletter _ _ rfl) (by decide)
  · exact absurd (hletter _ _ rfl) (by decide)
  · exact absurd (hletter _ _ rfl) (by decide)
  · exact absurd (hletter _ _ rfl) (by decide)
  · exact absurd (hletter _ _ rfl) (by decide)
  · obtain ⟨c, rest, rfl⟩ := List.exists_cons_of_ne_nil hne
    refine if_pos ?_
    simp [digit_of_isDigit (h c List.mem_cons_self)]

/-- Neither blanks nor a sign stand before a digit. -/
theorem sign_decimal (h : ∀ c ∈ cs, c.isDigit = true) :
    sign (cs.dropWhile isSpace) = (false, cs) := by
  cases cs with
  | nil => rfl
  | cons c rest =>
      have hdigit := h c List.mem_cons_self
      have hrange := Char.isDigit_iff_toNat.mp hdigit
      have hzero : '0'.toNat = 48 := rfl
      have hspace : isSpace c = false := by
        simp only [isSpace, Bool.or_eq_false_iff, Bool.and_eq_false_iff, decide_eq_false_iff_not]
        omega
      rw [List.dropWhile_cons_of_neg (by simp [hspace])]
      unfold sign
      split
      · next heq =>
          cases heq
          exact absurd hdigit (by decide)
      · next heq =>
          cases heq
          exact absurd hdigit (by decide)
      · rfl

/-- The text of a natural number is read as that number, or is too large. -/
theorem int8in_toDigits {z : ℤ} (h : int8in (Nat.toDigits 10 n) = .ok z) : z = n := by
  have hdigits : ∀ c ∈ Nat.toDigits 10 n, c.isDigit = true := fun c hc =>
    Nat.isDigit_of_mem_toDigits (by decide) (by decide) hc
  unfold int8in at h
  rw [sign_decimal hdigits] at h
  simp only [magnitude_decimal Nat.toDigits_ne_nil hdigits] at h
  rcases digits_decimal 0 hdigits with hread | hlarge
  · rw [hread, Nat.ofDigitChars_ten_toDigits] at h
    change (if n < 2 ^ 63 then Except.ok (n : ℤ) else Except.error CastError.outOfRange) = _ at h
    split at h
    · cases h
      rfl
    · cases h
  · rw [hlarge] at h
    cases h

end Core.IntText

import Mathlib.Data.List.Basic
import Mathlib.Data.Nat.Notation

/-!
# Core.Utf8 — text as octets

`Buffer.from(text)` and `buffer.toString()`. Octets that are no UTF-8 are read as U+FFFD: one for
the longest start of a character that breaks off, and one for an octet that starts none.
-/

namespace Core.Utf8

def octets (c : Char) : List UInt8 :=
  let n := c.toNat
  (if n < 0x80 then [n]
    else if n < 0x800 then [0xC0 + n / 64, 0x80 + n % 64]
    else if n < 0x10000 then [0xE0 + n / 4096, 0x80 + n / 64 % 64, 0x80 + n % 64]
    else [0xF0 + n / 262144, 0x80 + n / 4096 % 64, 0x80 + n / 64 % 64, 0x80 + n % 64]).map
      UInt8.ofNat

def encode (s : List Char) : List UInt8 := s.flatMap octets

/-- A character of which some octets are still due: its bits so far, and the bounds of the next
octet. -/
structure Pending where
  due : ℕ
  bits : ℕ
  low : ℕ
  high : ℕ

def replacement : Char := Char.ofNat 0xFFFD

/-- The first octet of a character. -/
def start (b : ℕ) : List Char × Option Pending :=
  if b < 0x80 then ([Char.ofNat b], none)
  else if b < 0xC2 then ([replacement], none)
  else if b < 0xE0 then ([], some ⟨1, b - 0xC0, 0x80, 0xBF⟩)
  -- the bounds leave out overlong forms, surrogates and what is past U+10FFFF
  else if b < 0xF0 then
    ([], some ⟨2, b - 0xE0, if b = 0xE0 then 0xA0 else 0x80, if b = 0xED then 0x9F else 0xBF⟩)
  else if b < 0xF5 then
    ([], some ⟨3, b - 0xF0, if b = 0xF0 then 0x90 else 0x80, if b = 0xF4 then 0x8F else 0xBF⟩)
  else ([replacement], none)

def read (b : ℕ) : Option Pending → List Char × Option Pending
  | none => start b
  | some p =>
      if p.low ≤ b ∧ b ≤ p.high then
        let bits := 64 * p.bits + (b - 0x80)
        if p.due = 1 then ([Char.ofNat bits], none) else ([], some ⟨p.due - 1, bits, 0x80, 0xBF⟩)
      -- the character breaks off, and the octet is the first of another
      else (replacement :: (start b).1, (start b).2)

def decodeFrom (p : Option Pending) : List UInt8 → List Char
  | [] => if p.isNone then [] else [replacement]
  | b :: s => (read b.toNat p).1 ++ decodeFrom (read b.toNat p).2 s

def decode (s : List UInt8) : List Char := decodeFrom none s

example : decode [0x61, 0xE2, 0x82, 0xAC, 0xE2, 0x82, 0x62, 0xFF] =
    ['a', '€', replacement, 'b', replacement] := by decide

/-! ## Round trip -/

theorem decodeFrom_cons {b : ℕ} (hb : b < 0x100) (p : Option Pending) (s : List UInt8) :
    decodeFrom p (UInt8.ofNat b :: s) = (read b p).1 ++ decodeFrom (read b p).2 s := by
  rw [decodeFrom, UInt8.toNat_ofNat_of_lt' hb]

/-- An octet after the first, of which `d` are the bits. -/
theorem decodeFrom_more {due bits low high d : ℕ} (hlow : low ≤ 0x80 + d) (hhigh : 0x80 + d ≤ high)
    (hd : d < 0x40) (s : List UInt8) :
    decodeFrom (some ⟨due + 2, bits, low, high⟩) (UInt8.ofNat (0x80 + d) :: s) =
      decodeFrom (some ⟨due + 1, 64 * bits + d, 0x80, 0xBF⟩) s := by
  rw [decodeFrom_cons (by omega), read, if_pos ⟨hlow, hhigh⟩]
  dsimp only
  rw [if_neg (by omega), Nat.add_sub_cancel_left]
  rfl

/-- The last octet. -/
theorem decodeFrom_last {bits low high d : ℕ} (hlow : low ≤ 0x80 + d) (hhigh : 0x80 + d ≤ high)
    (hd : d < 0x40) (s : List UInt8) :
    decodeFrom (some ⟨1, bits, low, high⟩) (UInt8.ofNat (0x80 + d) :: s) =
      Char.ofNat (64 * bits + d) :: decodeFrom none s := by
  rw [decodeFrom_cons (by omega), read, if_pos ⟨hlow, hhigh⟩]
  dsimp only
  rw [if_pos rfl, Nat.add_sub_cancel_left]
  rfl

theorem toNat_valid (c : Char) : c.toNat < 0xD800 ∨ (0xDFFF < c.toNat ∧ c.toNat < 0x110000) :=
  c.valid

/-- The octets of a character are decoded to that character, and decoding goes on behind them. One
case a length of the encoding. -/
theorem decodeFrom_octets (c : Char) (s : List UInt8) :
    decodeFrom none (octets c ++ s) = c :: decodeFrom none s := by
  have hvalid := toNat_valid c
  have hchar : ∀ n, n = c.toNat → Char.ofNat n = c := by
    rintro n rfl
    exact Char.ofNat_toNat c
  unfold octets
  dsimp only
  split_ifs with h1 h2 h3
  · rw [List.map_singleton, List.singleton_append, decodeFrom_cons (by omega), read, start,
      if_pos h1, hchar _ rfl]
    rfl
  · simp only [List.map_cons, List.map_nil, List.cons_append, List.nil_append]
    rw [decodeFrom_cons (by omega), read, start, if_neg (by omega), if_neg (by omega),
      if_pos (by omega), List.nil_append, decodeFrom_last (by omega) (by omega) (by omega),
      hchar _ (by omega)]
  · simp only [List.map_cons, List.map_nil, List.cons_append, List.nil_append]
    rw [decodeFrom_cons (by omega), read, start, if_neg (by omega), if_neg (by omega),
      if_neg (by omega), if_pos (by omega), List.nil_append,
      decodeFrom_more (by split <;> omega) (by split <;> omega) (by omega),
      decodeFrom_last (by omega) (by omega) (by omega), hchar _ (by omega)]
  · simp only [List.map_cons, List.map_nil, List.cons_append, List.nil_append]
    rw [decodeFrom_cons (by omega), read, start, if_neg (by omega), if_neg (by omega),
      if_neg (by omega), if_neg (by omega), if_pos (by omega), List.nil_append,
      decodeFrom_more (by split <;> omega) (by split <;> omega) (by omega),
      decodeFrom_more (by omega) (by omega) (by omega),
      decodeFrom_last (by omega) (by omega) (by omega), hchar _ (by omega)]

/-- What was encoded is decoded. -/
theorem decode_encode (s : List Char) : decode (encode s) = s := by
  unfold decode encode
  induction s with
  | nil => rfl
  | cons c s ih => rw [List.flatMap_cons, decodeFrom_octets, ih]

end Core.Utf8

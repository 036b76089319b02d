import Mathlib.Data.List.Basic
import Mathlib.Data.Nat.Notation

/-!
# Core.JsString — strings as UTF-16 code units, and their JSON texts

A string is a list of code units, and a surrogate may stand alone. `quote` is `JSON.stringify` of
a string: it escapes what JSON forbids and lone surrogates. `unquote` reads it back, so a quoted
string is the beginning of no other (`quote_append_inj`).
-/

namespace Core.JsString

/-- A string, as its UTF-16 code units. -/
abbrev Units := List ℕ

/-- A text without characters past U+FFFF. -/
def units (s : List Char) : Units := s.map Char.toNat

/-- The code units of a text: a character past U+FFFF is two surrogates. -/
def utf16 (s : List Char) : Units :=
  s.flatMap fun c =>
    if c.toNat < 0x10000 then [c.toNat]
    else [0xD800 + (c.toNat - 0x10000) / 0x400, 0xDC00 + (c.toNat - 0x10000) % 0x400]

/-- Below U+10000 a character is one code unit. -/
theorem utf16_eq_units {s : List Char} (h : ∀ c ∈ s, c.toNat < 0x10000) : utf16 s = units s := by
  have hunit : ∀ c ∈ s, (if c.toNat < 0x10000 then [c.toNat]
      else [0xD800 + (c.toNat - 0x10000) / 0x400, 0xDC00 + (c.toNat - 0x10000) % 0x400]) =
      [c.toNat] := fun c hc => if_pos (h c hc)
  unfold utf16 units
  rw [List.flatMap_congr hunit]
  exact List.map_eq_flatMap.symm

def isLead (u : ℕ) : Bool := 0xD800 ≤ u && u < 0xDC00
def isTrail (u : ℕ) : Bool := 0xDC00 ≤ u && u < 0xE000

/-- A hexadecimal digit, in lower case. -/
def hexDigit (n : ℕ) : ℕ := if n < 10 then 48 + n else 87 + n

/-- `\uXXXX`. -/
def unicodeEscape (u : ℕ) : Units :=
  [92, 117, hexDigit (u / 4096 % 16), hexDigit (u / 256 % 16), hexDigit (u / 16 % 16),
    hexDigit (u % 16)]

/-- The characters behind a backslash: `b`, `t`, `n`, `f`, `r`, a quote and a backslash. -/
def escapes : List (ℕ × ℕ) :=
  [(8, 98), (9, 116), (10, 110), (12, 102), (13, 114), (34, 34), (92, 92)]

/-- A code unit that is no half of a character. -/
def quoteUnit (u : ℕ) : Units :=
  match escapes.lookup u with
  | some c => [92, c]
  | none => if u < 32 || isLead u || isTrail u then unicodeEscape u else [u]

def quoteUnits : Units → Units
  | [] => []
  | [u] => quoteUnit u
  | u :: v :: s =>
      if isLead u && isTrail v then u :: v :: quoteUnits s else quoteUnit u ++ quoteUnits (v :: s)

/-- `JSON.stringify` of a string. -/
def quote (s : Units) : Units := 34 :: (quoteUnits s ++ [34])

example : quote (units "a\"\n".toList) = units "\"a\\\"\\n\"".toList := by decide

example : quote [0xD83D, 0xDE00, 0xD83D] =
    [34, 0xD83D, 0xDE00] ++ units "\\ud83d\"".toList := by decide

/-! ## Reading it back -/

def hexValue (c : ℕ) : ℕ := if c < 58 then c - 48 else c - 87

/-- The string up to the closing quote, and what follows. -/
def unquote : Units → Option (Units × Units)
  | [] => none
  | u :: s =>
      if u = 34 then some ([], s)
      else if u = 92 then
        match s with
        | 117 :: a :: b :: c :: d :: s =>
            (unquote s).map fun r =>
              ((4096 * hexValue a + 256 * hexValue b + 16 * hexValue c + hexValue d) :: r.1, r.2)
        | c :: s =>
            (unquote s).map fun r => (((escapes.map Prod.swap).lookup c).getD c :: r.1, r.2)
        | [] => none
      else (unquote s).map fun r => (u :: r.1, r.2)

theorem hexValue_hexDigit {n : ℕ} (h : n < 16) : hexValue (hexDigit n) = n := by
  unfold hexValue hexDigit
  split_ifs <;> omega

theorem unquote_end (s : Units) : unquote (34 :: s) = some ([], s) := by
  rw [unquote.eq_def]
  exact if_pos rfl

/-- Inside a string an ordinary code unit stands for itself. -/
theorem unquote_plain {u : ℕ} (hquote : u ≠ 34) (hslash : u ≠ 92) (s : Units) :
    unquote (u :: s) = (unquote s).map fun r => (u :: r.1, r.2) := by
  rw [unquote.eq_def]
  dsimp only
  rw [if_neg hquote, if_neg hslash]

/-- A \u escape is read back as the code unit it spells. -/
theorem unquote_unicode {u : ℕ} (h : u < 65536) (s : Units) :
    unquote (unicodeEscape u ++ s) = (unquote s).map fun r => (u :: r.1, r.2) := by
  have hvalue : 4096 * hexValue (hexDigit (u / 4096 % 16)) +
      256 * hexValue (hexDigit (u / 256 % 16)) + 16 * hexValue (hexDigit (u / 16 % 16)) +
        hexValue (hexDigit (u % 16)) = u := by
    rw [hexValue_hexDigit (by omega), hexValue_hexDigit (by omega), hexValue_hexDigit (by omega),
      hexValue_hexDigit (by omega)]
    omega
  show unquote (92 :: 117 :: _ :: _ :: _ :: _ :: s) = _
  rw [unquote, if_neg (by decide), if_pos rfl]
  simp only [hvalue]

/-- However a code unit was quoted, it is read back as itself. -/
theorem unquote_quoteUnit (u : ℕ) (s : Units) :
    unquote (quoteUnit u ++ s) = (unquote s).map fun r => (u :: r.1, r.2) := by
  unfold quoteUnit
  cases h : escapes.lookup u with
  | some c =>
      have hmem : (u, c) ∈ escapes := by
        obtain ⟨front, back, heq, -⟩ := List.lookup_eq_some_iff.mp h
        rw [heq]
        exact List.mem_append_right _ List.mem_cons_self
      simp only [escapes, List.mem_cons, List.not_mem_nil, or_false, Prod.mk.injEq] at hmem
      rcases hmem with ⟨rfl, rfl⟩ | ⟨rfl, rfl⟩ | ⟨rfl, rfl⟩ | ⟨rfl, rfl⟩ | ⟨rfl, rfl⟩ | ⟨rfl, rfl⟩ |
        ⟨rfl, rfl⟩ <;> rfl
  | none =>
      have hquote : u ≠ 34 := by
        rintro rfl
        cases h
      have hslash : u ≠ 92 := by
        rintro rfl
        cases h
      by_cases hu : (u < 32 || isLead u || isTrail u) = true
      · rw [if_pos hu]
        apply unquote_unicode
        simp [isLead, isTrail] at hu
        omega
      · rw [if_neg hu]
        exact unquote_plain hquote hslash s

/-- A quoted string is read back. -/
theorem unquote_quoteUnits (s rest : Units) :
    unquote (quoteUnits s ++ 34 :: rest) = some (s, rest) := by
  induction s using quoteUnits.induct with
  | case1 => exact unquote_end rest
  | case2 u =>
      rw [quoteUnits, unquote_quoteUnit, unquote_end]
      rfl
  | case3 u v s hpair ih =>
      simp only [isLead, isTrail, Bool.and_eq_true, decide_eq_true_eq] at hpair
      rw [quoteUnits, if_pos (by simp [isLead, isTrail]; omega), List.cons_append, List.cons_append,
        unquote_plain (by omega) (by omega), unquote_plain (by omega) (by omega), ih]
      rfl
  | case4 u v s hpair ih =>
      rw [quoteUnits, if_neg hpair, List.append_assoc, unquote_quoteUnit, ih]
      rfl

/-- Two quoted strings with something behind them are the same, if the whole is. -/
theorem quote_append_inj {s t rest rest' : Units} (h : quote s ++ rest = quote t ++ rest') :
    s = t ∧ rest = rest' := by
  have htail : quoteUnits s ++ 34 :: rest = quoteUnits t ++ 34 :: rest' := by
    simpa [quote] using h
  have hread := congrArg unquote htail
  rw [unquote_quoteUnits, unquote_quoteUnits] at hread
  simpa using hread

end Core.JsString

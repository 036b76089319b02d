import Marketplace.Core.JsNumber
import Marketplace.Core.JsText

/-!
# Core.JsonText — JSON texts

`JSON.parse` and `JSON.stringify`. What the first makes of a text can be an infinite number,
which `Core.Json` leaves out. A surrogate without its other half, which no string here holds, is
read as U+FFFD.

The parser recurses on a number of rounds. `parse` gives it one more than the text has
characters, and more make no difference (`parse_rounds`).
-/

namespace Core.JsonText

/-- A double; 0 and −0 are one. -/
inductive Number where
  | finite (q : ℚ)
  | infinite (negative : Bool)
deriving DecidableEq

inductive Value where
  | null
  | bool (b : Bool)
  | num (n : Number)
  | str (s : String)
  | arr (items : List Value)
  | obj (fields : List (String × Value))

/-- `decimal n` is what `String(n)` makes of a number: the digits of a whole one. -/
structure Decimals extends Doubles where
  decimal : ℚ → List Char
  decimal_int : ∀ n : ℤ, |n| ≤ 2 ^ 53 → decimal n = (toString n).toList

def Decimals.unrounded : Decimals where
  toDoubles := Doubles.unrounded
  decimal q := (toString q.num).toList
  decimal_int _ _ := rfl

/-! ## Stringify -/

section

variable (dec : Decimals)

mutual

/-- `JSON.stringify` of a value. -/
def text : Value → List Char
  | .null => "null".toList
  | .bool b => (if b then "true" else "false").toList
  | .num (.finite q) => dec.decimal q
  | .num (.infinite _) => "null".toList
  | .str s => JsText.stringify s.toList
  | .arr [] => ['[', ']']
  | .arr (v :: items) => '[' :: (text v ++ itemsText items)
  | .obj [] => ['{', '}']
  | .obj ((k, v) :: fields) =>
      '{' :: (JsText.stringify k.toList ++ ':' :: (text v ++ fieldsText fields))

/-- What follows an item of an array. -/
def itemsText : List Value → List Char
  | [] => [']']
  | v :: items => ',' :: (text v ++ itemsText items)

/-- What follows a field of an object. -/
def fieldsText : List (String × Value) → List Char
  | [] => ['}']
  | (k, v) :: fields => ',' :: (JsText.stringify k.toList ++ ':' :: (text v ++ fieldsText fields))

end

end

/-! ## Scalars -/

/-- From the start of a text: something, and what follows it. -/
abbrev Reader (α : Type) := List Char → Option (α × List Char)

def blank (c : Char) : Bool := c = ' ' || c = '\t' || c = '\n' || c = '\r'

def skip (s : List Char) : List Char := s.dropWhile blank

/-- A character of a string, or a code unit written `\uXXXX`. -/
abbrev Piece := Char ⊕ ℕ

/-- The character that `\c` stands for. -/
def escaped (c : Char) : Option Char :=
  [('"', '"'), ('\\', '\\'), ('/', '/'), ('b', Char.ofNat 8), ('f', Char.ofNat 12), ('n', '\n'),
    ('r', '\r'), ('t', '\t')].lookup c

/-- A string from its opening quote on, and what follows its closing one. -/
def pieces : Reader (List Piece)
  | '"' :: s => some ([], s)
  | '\\' :: 'u' :: a :: b :: c :: d :: s => do
      let n ← JsText.digits 16 [a, b, c, d]
      let (ps, rest) ← pieces s
      return (.inr n :: ps, rest)
  | '\\' :: c :: s => do
      let d ← escaped c
      let (ps, rest) ← pieces s
      return (.inl d :: ps, rest)
  | c :: s => do
      guard (0x20 ≤ c.toNat)
      let (ps, rest) ← pieces s
      return (.inl c :: ps, rest)
  | [] => none

/-- Two surrogates are one character. -/
def join : List Piece → List Char
  | .inl c :: ps => c :: join ps
  | .inr n :: .inr m :: ps =>
      if (0xD800 ≤ n ∧ n < 0xDC00) ∧ 0xDC00 ≤ m ∧ m < 0xE000 then
        Char.ofNat (0x10000 + 0x400 * (n - 0xD800) + (m - 0xDC00)) :: join ps
      else (if n.isValidChar then Char.ofNat n else Char.ofNat 0xFFFD) :: join (.inr m :: ps)
  | .inr n :: ps => (if n.isValidChar then Char.ofNat n else Char.ofNat 0xFFFD) :: join ps
  | [] => []

def string : Reader String := fun s => (pieces s).map fun p => (String.ofList (join p.1), p.2)

example : string "a\\n\\ud83d\\ude00\\ud83d\"]".toList =
    some (String.ofList ['a', '\n', '😀', Char.ofNat 0xFFFD], [']']) := by decide +kernel

def isNumeral (c : Char) : Bool := c.isDigit || c ∈ "+-.eE".toList

/-- Digits before the point, without a leading zero, and digits after it if there is one. -/
def plain (s : List Char) : Bool :=
  let whole (w : List Char) : Bool := w = ['0'] || w.head?.any fun c => c ≠ '0'
  match JsText.split '.' (s.takeWhile fun c => c ≠ 'e' && c ≠ 'E') with
  | [w] => whole w
  | [w, frac] => whole w && frac ≠ []
  | _ => false

/-- `none` for what is no number of JSON. -/
def numeral (s : List Char) : Option ℚ :=
  match s with
  | '-' :: s => if plain s then (JsText.unsigned s).map fun q => -q else none
  | s => if plain s then JsText.unsigned s else none

example : numeral "-1.5e3".toList = some (-1500) := by decide +kernel

example : numeral "01".toList = none := by decide +kernel

def number (dbl : Doubles) (q : ℚ) : Number :=
  match dbl.finite q with
  | some r => .finite r
  | none => .infinite (q < 0)

def scalar (dbl : Doubles) : Reader Value := fun s =>
  match s with
  | 'n' :: 'u' :: 'l' :: 'l' :: rest => some (.null, rest)
  | 't' :: 'r' :: 'u' :: 'e' :: rest => some (.bool true, rest)
  | 'f' :: 'a' :: 'l' :: 's' :: 'e' :: rest => some (.bool false, rest)
  | '"' :: s => (string s).map fun p => (.str p.1, p.2)
  | s => (numeral (s.takeWhile isNumeral)).map fun q =>
      (.num (number dbl q), s.dropWhile isNumeral)

/-! ## Parse -/

/-- `o[k] = v` for an own property. -/
def set (fields : List (String × Value)) (field : String × Value) : List (String × Value) :=
  if field.1 ∈ fields.map Prod.fst then
    fields.map fun f => if f.1 = field.1 then field else f
  else fields ++ [field]

/-- A name that comes twice has its last value. -/
def object (fields : List (String × Value)) : Value := .obj (fields.foldl set [])

section

variable {α : Type}

/-- An element and what follows it. -/
def elements (one : Reader α) (rest : Reader (List α)) : Reader (List α) := fun s => do
  let (a, s) ← one s
  let (as, s) ← rest s
  return (a :: as, s)

/-- A list from behind its opening bracket on. -/
def group (close : Char) (one : Reader α) (rest : Reader (List α)) : Reader (List α) := fun s =>
  match skip s with
  | [] => none
  | c :: s => if c = close then some ([], s) else elements one rest (c :: s)

/-- A list from behind one of its elements on. -/
def more (close : Char) (one : Reader α) (rest : Reader (List α)) : Reader (List α) := fun s =>
  match skip s with
  | [] => none
  | c :: s => if c = close then some ([], s) else if c = ',' then elements one rest s else none

/-- A field of an object. -/
def field (value : Reader α) : Reader (String × α) := fun s =>
  match skip s with
  | '"' :: s => do
      let (k, s) ← string s
      match skip s with
      | ':' :: s => (value s).map fun p => ((k, p.1), p.2)
      | _ => none
  | _ => none

end

section

variable (dbl : Doubles)

mutual

def value : ℕ → Reader Value
  | 0, _ => none
  | n + 1, s =>
      match skip s with
      | '[' :: s => (group ']' (value n) (items n) s).map fun p => (.arr p.1, p.2)
      | '{' :: s => (group '}' (field (value n)) (fields n) s).map fun p => (object p.1, p.2)
      | s => scalar dbl s

/-- What follows an item of an array. -/
def items : ℕ → Reader (List Value)
  | 0, _ => none
  | n + 1, s => more ']' (value n) (items n) s

/-- What follows a field of an object. -/
def fields : ℕ → Reader (List (String × Value))
  | 0, _ => none
  | n + 1, s => more '}' (field (value n)) (fields n) s

end

/-- `none` where `JSON.parse` throws a SyntaxError. -/
def parse (s : List Char) : Option Value := do
  let (v, rest) ← value dbl (s.length + 1) s
  guard (skip rest = [])
  return v

end

example : (parse Doubles.unrounded
      " \x7b\"a\": [1, null], \"b\" : \x7b\x7d,\"a\":-25e1\x7d ".toList).map
    (text Decimals.unrounded) = some "\x7b\"a\":-250,\"b\":\x7b\x7d\x7d".toList := by
  decide +kernel

/-! ## Rounds -/

section

variable {α : Type} {one one' : Reader α} {rest rest' : Reader (List α)} {s : List Char} {n : ℕ}

/-- What is left is no longer than the text. -/
def Shortens (r : Reader α) : Prop := ∀ {s a t}, r s = some (a, t) → t.length ≤ s.length

/-- The same on texts of fewer characters. -/
def Agree (n : ℕ) (r r' : Reader α) : Prop := ∀ s, s.length < n → r s = r' s

theorem skip_length (s : List Char) : (skip s).length ≤ s.length :=
  (List.dropWhile_sublist blank).length_le

/-- What is left behind the blanks is shorter than the text by the symbol read next. -/
theorem skip_cons {c : Char} {t : List Char} (h : skip s = c :: t) : t.length < s.length := by
  have hle := skip_length s
  rw [h, List.length_cons] at hle
  omega

/-- Reading the pieces of a string uses up at least the closing quote. -/
theorem pieces_shortens : Shortens pieces := by
  intro s ps t h
  induction s using pieces.induct generalizing ps t with
  -- one case a branch of the scanner: closing quote, \u escape, short escape, plain character
  | case1 s =>
      obtain ⟨-, rfl⟩ := Prod.mk.inj (Option.some.inj h)
      exact Nat.le_succ _
  | case2 s a b c d ih =>
      simp only [pieces, Option.bind_eq_bind, Option.bind_eq_some_iff, Option.pure_def,
        Option.some.injEq, Prod.mk.injEq] at h
      obtain ⟨-, -, ⟨qs, u⟩, hqs, -, rfl⟩ := h
      have hle := ih hqs
      simp only [List.length_cons]
      omega
  | case3 c s hnot ih =>
      rw [pieces] at h
      · simp only [Option.bind_eq_bind, Option.bind_eq_some_iff, Option.pure_def,
          Option.some.injEq, Prod.mk.injEq] at h
        obtain ⟨-, -, ⟨qs, u⟩, hqs, -, rfl⟩ := h
        have hle := ih hqs
        simp only [List.length_cons]
        omega
      · exact hnot
  | case4 c s hquote hunit hescape ih =>
      rw [pieces] at h
      · simp only [Option.bind_eq_bind, Option.bind_eq_some_iff, Option.pure_def,
          Option.some.injEq, Prod.mk.injEq] at h
        obtain ⟨-, -, ⟨qs, u⟩, hqs, -, rfl⟩ := h
        exact (ih hqs).trans (Nat.le_succ _)
      · exact hquote
      · exact hunit
      · exact hescape
  | case5 => cases h

/-- Reading a string uses up characters. -/
theorem string_shortens : Shortens string := by
  intro s a t h
  obtain ⟨p, hp, heq⟩ := Option.map_eq_some_iff.mp h
  obtain ⟨-, rfl⟩ := Prod.mk.inj heq
  exact pieces_shortens hp

/-- Reading a scalar uses up at least one character. -/
theorem scalar_shortens (dbl : Doubles) : Shortens (scalar dbl) := by
  intro s v t h
  unfold scalar at h
  split at h
  · obtain ⟨-, rfl⟩ := Prod.mk.inj (Option.some.inj h)
    simp only [List.length_cons]
    omega
  · obtain ⟨-, rfl⟩ := Prod.mk.inj (Option.some.inj h)
    simp only [List.length_cons]
    omega
  · obtain ⟨-, rfl⟩ := Prod.mk.inj (Option.some.inj h)
    simp only [List.length_cons]
    omega
  · obtain ⟨p, hp, heq⟩ := Option.map_eq_some_iff.mp h
    obtain ⟨-, rfl⟩ := Prod.mk.inj heq
    exact (string_shortens hp).trans (Nat.le_succ _)
  · obtain ⟨q, -, heq⟩ := Option.map_eq_some_iff.mp h
    obtain ⟨-, rfl⟩ := Prod.mk.inj heq
    exact (List.dropWhile_sublist isNumeral).length_le

/-- One element and then the rest: both use up characters, so the pair does. -/
theorem elements_shortens (hone : Shortens one) (hrest : Shortens rest) :
    Shortens (elements one rest) := by
  intro s as t h
  simp only [elements, Option.bind_eq_bind, Option.bind_eq_some_iff, Option.pure_def,
    Option.some.injEq, Prod.mk.injEq] at h
  obtain ⟨⟨a, u⟩, ha, ⟨bs, t'⟩, hb, -, rfl⟩ := h
  exact (hrest hb).trans (hone ha)

/-- Reading an array or an object, empty or not, uses up characters. -/
theorem group_shortens (close : Char) (hone : Shortens one) (hrest : Shortens rest) :
    Shortens (group close one rest) := by
  intro s as t h
  unfold group at h
  split at h
  · cases h
  · next c u heq =>
      have hlt := skip_cons heq
      split at h
      · obtain ⟨-, rfl⟩ := Prod.mk.inj (Option.some.inj h)
        omega
      · have hle := elements_shortens hone hrest h
        rw [List.length_cons] at hle
        omega

/-- Reading what follows an element, a comma or the closing bracket, uses up characters. -/
theorem more_shortens (close : Char) (hone : Shortens one) (hrest : Shortens rest) :
    Shortens (more close one rest) := by
  intro s as t h
  unfold more at h
  split at h
  · cases h
  · next c u heq =>
      have hlt := skip_cons heq
      split at h
      · obtain ⟨-, rfl⟩ := Prod.mk.inj (Option.some.inj h)
        omega
      · split at h
        · have hle := elements_shortens hone hrest h
          omega
        · cases h

/-- Reading a name, the colon and a value uses up characters. -/
theorem field_shortens (hone : Shortens one) : Shortens (field one) := by
  intro s f t h
  unfold field at h
  split at h
  · next u heq =>
      have hlt := skip_cons heq
      simp only [Option.bind_eq_bind, Option.bind_eq_some_iff] at h
      obtain ⟨⟨k, w⟩, hk, h⟩ := h
      have hle : w.length ≤ u.length := string_shortens hk
      split at h
      · next x heq' =>
          have hlt' : x.length < w.length := skip_cons heq'
          obtain ⟨p, hp, heq⟩ := Option.map_eq_some_iff.mp h
          obtain ⟨-, rfl⟩ := Prod.mk.inj heq
          have hle' := hone hp
          omega
      · cases h
  · cases h

/-- Two readers that agree on all texts up to a length agree on a list of elements up to it: the
rest is shorter. -/
theorem elements_agree (hshort : Shortens one) (hone : Agree n one one')
    (hrest : Agree n rest rest') : Agree n (elements one rest) (elements one' rest') := by
  intro s hs
  unfold elements
  rw [← hone s hs]
  cases h : one s with
  | none => rfl
  | some p =>
      rw [Option.bind_eq_bind, Option.bind_eq_bind, Option.bind_some, Option.bind_some]
      dsimp only
      rw [hrest p.2 (lt_of_le_of_lt (hshort h) hs)]

/-- Readers of the parts that agree up to a length make readers of groups that agree up to it. -/
theorem group_agree (close : Char) (hshort : Shortens one) (hone : Agree n one one')
    (hrest : Agree n rest rest') : Agree n (group close one rest) (group close one' rest') := by
  intro s hs
  unfold group
  cases heq : skip s with
  | nil => rfl
  | cons c u =>
      dsimp only
      split
      · rfl
      · have hlt := skip_cons heq
        exact elements_agree hshort hone hrest _ (by rw [List.length_cons]; omega)

/-- Behind an element one character more is used up, so the agreement goes one character further.
-/
theorem more_agree (close : Char) (hshort : Shortens one) (hone : Agree n one one')
    (hrest : Agree n rest rest') : Agree (n + 1) (more close one rest) (more close one' rest') := by
  intro s hs
  unfold more
  cases heq : skip s with
  | nil => rfl
  | cons c u =>
      dsimp only
      split
      · rfl
      · split
        · have hlt := skip_cons heq
          exact elements_agree hshort hone hrest _ (by omega)
        · rfl

/-- Fields agree where the values do. -/
theorem field_agree (hone : Agree n one one') : Agree n (field one) (field one') := by
  intro s hs
  unfold field
  split
  · next u heq =>
      have hlt := skip_cons heq
      cases hk : string u with
      | none => rfl
      | some p =>
          have hle : p.2.length ≤ u.length := string_shortens hk
          simp only [Option.bind_eq_bind, Option.bind_some]
          split
          · next w heq' =>
              have hlt' : w.length < p.2.length := skip_cons heq'
              rw [hone w (by omega)]
          · rfl
  · rfl

end

section

variable {dbl : Doubles}

/-- No round leaves more than it got. -/
theorem shortens (n : ℕ) : Shortens (value dbl n) ∧ Shortens (items dbl n) ∧
    Shortens (fields dbl n) := by
  induction n with
  | zero =>
      refine ⟨?_, ?_, ?_⟩ <;>
      · intro s a t h
        cases h
  | succ n ih =>
      obtain ⟨hvalue, hitems, hfields⟩ := ih
      refine ⟨?_, more_shortens ']' hvalue hitems,
        more_shortens '}' (field_shortens hvalue) hfields⟩
      intro s v t h
      unfold value at h
      split at h
      · next u heq =>
          have hlt := skip_cons heq
          obtain ⟨p, hp, heq⟩ := Option.map_eq_some_iff.mp h
          obtain ⟨-, rfl⟩ := Prod.mk.inj heq
          exact (group_shortens ']' hvalue hitems hp).trans hlt.le
      · next u heq =>
          have hlt := skip_cons heq
          obtain ⟨p, hp, heq⟩ := Option.map_eq_some_iff.mp h
          obtain ⟨-, rfl⟩ := Prod.mk.inj heq
          exact (group_shortens '}' (field_shortens hvalue) hfields hp).trans hlt.le
      · exact (scalar_shortens dbl h).trans (skip_length s)

/-- A text is read the same with any number of rounds above its length. -/
theorem agree {k n m : ℕ} (hn : k ≤ n) (hm : k ≤ m) : Agree k (value dbl n) (value dbl m) ∧
    Agree k (items dbl n) (items dbl m) ∧ Agree k (fields dbl n) (fields dbl m) := by
  induction k generalizing n m with
  | zero =>
      refine ⟨?_, ?_, ?_⟩ <;>
      · intro s hs
        exact absurd hs (Nat.not_lt_zero _)
  | succ k ih =>
      obtain ⟨n, rfl⟩ : ∃ n', n = n' + 1 := Nat.exists_eq_add_one_of_ne_zero (by omega)
      obtain ⟨m, rfl⟩ : ∃ m', m = m' + 1 := Nat.exists_eq_add_one_of_ne_zero (by omega)
      obtain ⟨hvalue, hitems, hfields⟩ := ih (n := n) (m := m) (by omega) (by omega)
      have hshort : Shortens (value dbl n) := (shortens n).1
      refine ⟨?_, more_agree ']' hshort hvalue hitems,
        more_agree '}' (field_shortens hshort) (field_agree hvalue) hfields⟩
      intro s hs
      unfold value
      split
      · next u heq =>
          have hlt := skip_cons heq
          rw [group_agree ']' hshort hvalue hitems u (by omega)]
      · next u heq =>
          have hlt := skip_cons heq
          rw [group_agree '}' (field_shortens hshort) (field_agree hvalue) hfields u (by omega)]
      · rfl

/-- `parse` has rounds enough. -/
theorem parse_rounds {s : List Char} {n : ℕ} (hn : s.length < n) : parse dbl s =
    (value dbl n s).bind fun p => if skip p.2 = [] then some p.1 else none := by
  have hagree : value dbl (s.length + 1) s = value dbl n s :=
    (agree (le_refl (s.length + 1)) hn).1 s (Nat.lt_succ_self _)
  unfold parse
  rw [hagree]
  cases value dbl n s with
  | none => rfl
  | some p =>
      simp only [Option.bind_eq_bind, Option.bind_some, guard]
      split <;> rfl

end

end Core.JsonText

import Mathlib.Algebra.Ring.Rat
import Mathlib.Data.Int.Cast.Lemmas
import Mathlib.Data.List.Infix

/-!
# Core.JsText — string functions of JavaScript

`trim`, `split`, `Number` and `JSON.stringify` of a string, and `decodeURIComponent`, on lists
of characters. A string here has no lone surrogates.
-/

namespace Core.JsText

/-! ## White space and splitting -/

/-- `WhiteSpace` and `LineTerminator`. -/
def isSpace (c : Char) : Bool :=
  (9 ≤ c.toNat && c.toNat ≤ 13) || c.toNat = 32 || c.toNat = 0xA0 || c.toNat = 0x1680 ||
    (0x2000 ≤ c.toNat && c.toNat ≤ 0x200A) || c.toNat = 0x2028 || c.toNat = 0x2029 ||
    c.toNat = 0x202F || c.toNat = 0x205F || c.toNat = 0x3000 || c.toNat = 0xFEFF

def trim (s : List Char) : List Char :=
  ((s.dropWhile isSpace).reverse.dropWhile isSpace).reverse

/-- `s.split(sep)` for a one-character separator. -/
def split (sep : Char) : List Char → List (List Char)
  | [] => [[]]
  | c :: s =>
      if c = sep then [] :: split sep s
      else match split sep s with
        | [] => [[c]]
        | part :: parts => (c :: part) :: parts

/-- `s.startsWith(start)`. -/
def startsWith (start s : List Char) : Bool := start.isPrefixOf s

example : (split ',' "public, max-age=60".toList).map trim =
    ["public".toList, "max-age=60".toList] := by decide

theorem split_cons (sep c : Char) (s : List Char) : split sep (c :: s) =
    if c = sep then [] :: split sep s
    else match split sep s with
      | [] => [[c]]
      | part :: parts => (c :: part) :: parts := rfl

/-- A text without the separator is one part. -/
theorem split_of_notMem {sep : Char} {s : List Char} (h : sep ∉ s) : split sep s = [s] := by
  induction s with
  | nil => rfl
  | cons c s ih =>
      have hc : c ≠ sep := fun heq => h (heq ▸ List.mem_cons_self)
      rw [split_cons, if_neg hc, ih fun hs => h (List.mem_cons_of_mem c hs)]

/-- The first part of a split ends at the first separator. -/
theorem split_cons_sep {sep : Char} {a b : List Char} (h : sep ∉ a) :
    split sep (a ++ sep :: b) = a :: split sep b := by
  induction a with
  | nil => exact if_pos rfl
  | cons c a ih =>
      have hc : c ≠ sep := fun heq => h (heq ▸ List.mem_cons_self)
      rw [List.cons_append, split_cons, if_neg hc, ih fun ha => h (List.mem_cons_of_mem c ha)]

/-- Two texts side by side: the last part of the first and the first part of the second are
one. -/
theorem split_append (sep : Char) (a : List Char) :
    ∃ init last, split sep a = init ++ [last] ∧ ∀ b, ∃ head tail, split sep b = head :: tail ∧
      split sep (a ++ b) = init ++ (last ++ head) :: tail := by
  induction a with
  | nil =>
      refine ⟨[], [], rfl, ?_⟩
      intro b
      cases b with
      | nil => exact ⟨[], [], rfl, rfl⟩
      | cons c b =>
          rw [List.nil_append, split_cons]
          split
          · exact ⟨_, _, rfl, rfl⟩
          · split
            · exact ⟨_, _, rfl, rfl⟩
            · exact ⟨_, _, rfl, rfl⟩
  | cons c a ih =>
      -- a separator opens a new part; any other character is glued to the first one
      obtain ⟨init, last, ha, hb⟩ := ih
      by_cases hc : c = sep
      · refine ⟨[] :: init, last, ?_, ?_⟩
        · rw [split_cons, if_pos hc, ha]
          rfl
        · intro b
          obtain ⟨head, tail, hsplit, happ⟩ := hb b
          refine ⟨head, tail, hsplit, ?_⟩
          rw [List.cons_append, split_cons, if_pos hc, happ]
          rfl
      · cases init with
        | nil =>
            refine ⟨[], c :: last, ?_, ?_⟩
            · rw [split_cons, if_neg hc, ha]
              rfl
            · intro b
              obtain ⟨head, tail, hsplit, happ⟩ := hb b
              refine ⟨head, tail, hsplit, ?_⟩
              rw [List.cons_append, split_cons, if_neg hc, happ]
              rfl
        | cons part init =>
            refine ⟨(c :: part) :: init, last, ?_, ?_⟩
            · rw [split_cons, if_neg hc, ha]
              rfl
            · intro b
              obtain ⟨head, tail, hsplit, happ⟩ := hb b
              refine ⟨head, tail, hsplit, ?_⟩
              rw [List.cons_append, split_cons, if_neg hc, happ]
              rfl

/-- A part holds only characters of the text it was cut from. -/
theorem mem_of_mem_split {sep : Char} {s part : List Char} (h : part ∈ split sep s) :
    part ⊆ s := by
  induction s generalizing part with
  | nil =>
      obtain rfl := List.mem_singleton.mp h
      exact List.Subset.refl _
  | cons c s ih =>
      rw [split_cons] at h
      split at h
      · rcases List.mem_cons.mp h with rfl | h
        · exact List.nil_subset _
        · exact List.subset_cons_of_subset c (ih h)
      · split at h
        · obtain rfl := List.mem_singleton.mp h
          simp
        · next first parts hparts =>
            rw [hparts] at ih
            rcases List.mem_cons.mp h with rfl | h
            · exact List.cons_subset_cons c (ih List.mem_cons_self)
            · exact List.subset_cons_of_subset c (ih (List.mem_cons_of_mem _ h))

/-- A separator between two texts is a clean cut: the parts of both, one list after the other. -/
theorem split_append_sep (sep : Char) (a b : List Char) :
    split sep (a ++ sep :: b) = split sep a ++ split sep b := by
  obtain ⟨init, last, ha, happ⟩ := split_append sep a
  obtain ⟨head, tail, hsplit, hab⟩ := happ (sep :: b)
  rw [split_cons, if_pos rfl, List.cons.injEq] at hsplit
  obtain ⟨rfl, rfl⟩ := hsplit
  rw [hab, ha, List.append_nil, List.append_assoc, List.singleton_append]

/-- Texts joined by the separator are split, each by itself. -/
theorem split_intercalate (sep : Char) {texts : List (List Char)} (hne : texts ≠ []) :
    split sep ([sep].intercalate texts) = texts.flatMap (split sep) := by
  induction texts with
  | nil => exact absurd rfl hne
  | cons text texts ih =>
      cases texts with
      | nil => simp
      | cons next texts =>
          rw [List.intercalate_cons_cons, List.append_assoc, List.singleton_append,
            split_append_sep, ih (by simp)]
          rfl

/-- Trimming loses blanks only; every other character stays. -/
theorem mem_trim {s : List Char} {c : Char} (hc : isSpace c = false) (h : c ∈ s) : c ∈ trim s := by
  have hdrop : ∀ t : List Char, c ∈ t → c ∈ t.dropWhile isSpace := by
    intro t ht
    induction t with
    | nil => cases ht
    | cons d t ih =>
        by_cases hd : isSpace d = true
        · rw [List.dropWhile_cons_of_pos hd]
          rcases List.mem_cons.mp ht with rfl | ht
          · rw [hc] at hd
            cases hd
          · exact ih ht
        · rwa [List.dropWhile_cons_of_neg hd]
  unfold trim
  exact List.mem_reverse.mpr (hdrop _ (List.mem_reverse.mpr (hdrop s h)))

/-- Trimming adds nothing and keeps the order. -/
theorem trim_sublist (s : List Char) : (trim s).Sublist s := by
  have h := (List.dropWhile_sublist (l := (s.dropWhile isSpace).reverse) isSpace).reverse
  rw [List.reverse_reverse] at h
  exact h.trans (List.dropWhile_sublist isSpace)

/-- White space on both sides goes, and nothing else. -/
theorem trim_pads {pad x pad' : List Char} (hpad : ∀ c ∈ pad, isSpace c = true)
    (hpad' : ∀ c ∈ pad', isSpace c = true) (hne : x ≠ []) (hhead : isSpace (x.head hne) = false)
    (hlast : isSpace (x.getLast hne) = false) : trim (pad ++ x ++ pad') = x := by
  have hdrop : ∀ (p t : List Char) (ht : t ≠ []), (∀ c ∈ p, isSpace c = true) →
      isSpace (t.head ht) = false → (p ++ t).dropWhile isSpace = t := by
    intro p t ht hp hspace
    rw [List.dropWhile_append_of_pos hp]
    cases t with
    | nil => exact absurd rfl ht
    | cons c t => rw [List.dropWhile_cons_of_neg (by simpa using hspace)]
  unfold trim
  rw [List.append_assoc, hdrop pad (x ++ pad') (by simp [hne]) hpad (by simpa [hne] using hhead),
    List.reverse_append, hdrop pad'.reverse x.reverse (by simpa using hne) (by simpa using hpad')
      (by simpa [List.head_reverse] using hlast), List.reverse_reverse]

/-! ## Numbers -/

def digit (radix : ℕ) (c : Char) : Option ℕ :=
  let value :=
    if '0' ≤ c ∧ c ≤ '9' then c.toNat - '0'.toNat
    else if 'a' ≤ c ∧ c ≤ 'z' then c.toNat - 'a'.toNat + 10
    else if 'A' ≤ c ∧ c ≤ 'Z' then c.toNat - 'A'.toNat + 10
    else radix
  if value < radix then some value else none

/-- One or more digits and nothing else. -/
def digits (radix : ℕ) : List Char → Option ℕ
  | [] => none
  | s => (s.mapM (digit radix)).map fun ds => ds.foldl (fun n d => radix * n + d) 0

/-- `12`, `12.`, `1.5` or `.5`. -/
def mantissa (s : List Char) : Option ℚ :=
  match split '.' s with
  | [whole] => (digits 10 whole).map fun n => n
  | [whole, []] => (digits 10 whole).map fun n => n
  | [[], frac] => (digits 10 frac).map fun n => n / 10 ^ frac.length
  | [whole, frac] => do
      let n ← digits 10 whole
      let m ← digits 10 frac
      return n + m / 10 ^ frac.length
  | _ => none

/-- `5`, `+5` or `-5`, as a power of ten. -/
def exponent : List Char → Option ℚ
  | '+' :: s => (digits 10 s).map fun n => 10 ^ n
  | '-' :: s => (digits 10 s).map fun n => 1 / 10 ^ n
  | s => (digits 10 s).map fun n => 10 ^ n

def unsigned (s : List Char) : Option ℚ :=
  match split 'e' (s.map fun c => if c = 'E' then 'e' else c) with
  | [m] => mantissa m
  | [m, e] => do return (← mantissa m) * (← exponent e)
  | _ => none

/-- `Number(s)` before it is rounded; `none` for NaN and the infinities. -/
def number (s : List Char) : Option ℚ :=
  match trim s with
  | [] => some 0
  | '0' :: 'x' :: ds | '0' :: 'X' :: ds => (digits 16 ds).map fun n => n
  | '0' :: 'o' :: ds | '0' :: 'O' :: ds => (digits 8 ds).map fun n => n
  | '0' :: 'b' :: ds | '0' :: 'B' :: ds => (digits 2 ds).map fun n => n
  | '+' :: ds => unsigned ds
  | '-' :: ds => (unsigned ds).map fun q => -q
  | ds => unsigned ds

example : number " 60 ".toList = some 60 := by decide +kernel

example : number "1e3".toList = some 1000 := by decide +kernel

example : number "60s".toList = none := by decide +kernel

/-! ## Texts of whole numbers -/

/-- A text without blanks is not changed by `trim`. -/
theorem trim_of_notSpace {s : List Char} (h : ∀ c ∈ s, isSpace c = false) : trim s = s := by
  have hfront : ∀ t : List Char, (∀ c ∈ t, isSpace c = false) → t.dropWhile isSpace = t := by
    intro t ht
    cases t with
    | nil => rfl
    | cons c t => rw [List.dropWhile_cons_of_neg (by simp [ht c List.mem_cons_self])]
  unfold trim
  rw [hfront s h, hfront s.reverse fun c hc => h c (List.mem_reverse.mp hc), List.reverse_reverse]

/-- A decimal digit has its usual value in base ten. -/
theorem digit_ten {c : Char} (h : c.isDigit = true) : digit 10 c = some (c.toNat - '0'.toNat) := by
  have hrange : '0' ≤ c ∧ c ≤ '9' := by
    simpa [Char.isDigit, Char.le_def] using h
  have hlt : c.toNat - '0'.toNat < 10 := by
    have hle : c.toNat ≤ '9'.toNat := hrange.2
    change c.toNat ≤ 57 at hle
    change c.toNat - 48 < 10
    omega
  simp only [digit, if_pos hrange, if_pos hlt]

/-- A nonempty list of decimal digits is read as the number it spells. -/
theorem digits_ten {s : List Char} (hne : s ≠ []) (h : ∀ c ∈ s, c.isDigit = true) :
    digits 10 s = some (Nat.ofDigitChars 10 s 0) := by
  have hmap : s.mapM (digit 10) = some (s.map fun c => c.toNat - '0'.toNat) := by
    induction s with
    | nil => rfl
    | cons c s ih =>
        rw [List.mapM_cons, digit_ten (h c List.mem_cons_self)]
        cases s with
        | nil => rfl
        | cons d s => rw [ih (by simp) fun e he => h e (List.mem_cons_of_mem c he)]; rfl
  unfold digits
  split
  · exact absurd rfl hne
  · rw [hmap, Option.map_some, List.foldl_map]
    rfl

/-- No digit is white space, so trimming leaves digits alone. -/
theorem isDigit_notSpace {c : Char} (h : c.isDigit = true) : isSpace c = false := by
  have hrange : 48 ≤ c.toNat ∧ c.toNat ≤ 57 := by
    simpa [Char.isDigit, Char.le_def, UInt32.le_iff_toNat_le] using h
  simp only [isSpace, Bool.or_eq_false_iff, Bool.and_eq_false_iff, decide_eq_false_iff_not]
  omega

/-- What is not a digit does not stand in a list of digits. -/
theorem notMem_of_digits {s : List Char} (h : ∀ c ∈ s, c.isDigit = true) {c : Char}
    (hc : c.isDigit = false) : c ∉ s := by
  intro hin
  rw [h c hin] at hc
  cases hc

/-- `Number` on a run of digits gives the number they spell: no sign, point, exponent or base
prefix gets in the way. -/
theorem unsigned_digits {s : List Char} (hne : s ≠ []) (h : ∀ c ∈ s, c.isDigit = true) :
    unsigned s = some (Nat.ofDigitChars 10 s 0 : ℚ) := by
  have hmap : (s.map fun c => if c = 'E' then 'e' else c) = s := by
    conv_rhs => rw [← List.map_id s]
    refine List.map_congr_left ?_
    intro c hc
    rw [if_neg]
    · rfl
    · rintro rfl
      exact notMem_of_digits h (by decide) hc
  unfold unsigned
  rw [hmap, split_of_notMem (notMem_of_digits h (by decide))]
  change mantissa s = _
  unfold mantissa
  rw [split_of_notMem (notMem_of_digits h (by decide))]
  simp [digits_ten hne h]

/-- Digits are a number as they stand. -/
theorem number_digits {s : List Char} (hne : s ≠ []) (h : ∀ c ∈ s, c.isDigit = true) :
    number s = some (Nat.ofDigitChars 10 s 0 : ℚ) := by
  have hnot : ∀ c : Char, c.isDigit = false → c ∉ s := fun _ hc => notMem_of_digits h hc
  have htrim : trim s = s := trim_of_notSpace fun c hc => isDigit_notSpace (h c hc)
  unfold number
  rw [htrim]
  split
  · exact absurd rfl hne
  · exact absurd (by simp) (hnot 'x' rfl)
  · exact absurd (by simp) (hnot 'X' rfl)
  · exact absurd (by simp) (hnot 'o' rfl)
  · exact absurd (by simp) (hnot 'O' rfl)
  · exact absurd (by simp) (hnot 'b' rfl)
  · exact absurd (by simp) (hnot 'B' rfl)
  · exact absurd (by simp) (hnot '+' rfl)
  · exact absurd (by simp) (hnot '-' rfl)
  · exact unsigned_digits hne h

/-- The decimal text of a natural number is not empty, is made of digits, and spells the number.
-/
theorem toString_nat (n : ℕ) : (toString n).toList ≠ [] ∧
    (∀ c ∈ (toString n).toList, c.isDigit = true) ∧
    Nat.ofDigitChars 10 (toString n).toList 0 = n := by
  have htext : (toString n).toList = Nat.toDigits 10 n := Nat.toList_repr
  rw [htext]
  exact ⟨Nat.toDigits_ne_nil, fun c hc => Nat.isDigit_of_mem_toDigits (by decide) (by decide) hc,
    Nat.ofDigitChars_ten_toDigits⟩

theorem toString_negSucc (n : ℕ) :
    (toString (Int.negSucc n)).toList = '-' :: (toString (n + 1)).toList := by
  change (String.append "-" (toString (n + 1))).toList = _
  exact String.toList_append

/-- `Number` reads back what `String` writes. -/
theorem number_toString (n : ℤ) : number (toString n).toList = some (n : ℚ) := by
  cases n with
  | ofNat n =>
      obtain ⟨hne, hdigits, hvalue⟩ := toString_nat n
      change number (toString n).toList = _
      rw [number_digits hne hdigits, hvalue]
      rfl
  | negSucc n =>
      obtain ⟨hne, hdigits, hvalue⟩ := toString_nat (n + 1)
      have htrim : trim ('-' :: (toString (n + 1)).toList) = '-' :: (toString (n + 1)).toList := by
        refine trim_of_notSpace ?_
        intro c hc
        rcases List.mem_cons.mp hc with rfl | hc
        · rfl
        · exact isDigit_notSpace (hdigits c hc)
      rw [toString_negSucc]
      unfold number
      rw [htrim]
      change (unsigned (toString (n + 1)).toList).map _ = _
      rw [unsigned_digits hne hdigits, hvalue, Option.map_some, Int.cast_negSucc]

/-! ## JSON -/

def escape (c : Char) : List Char :=
  match c.toNat with
  | 0x22 => "\\\"".toList
  | 0x5C => "\\\\".toList
  | 8 => "\\b".toList
  | 9 => "\\t".toList
  | 10 => "\\n".toList
  | 12 => "\\f".toList
  | 13 => "\\r".toList
  | n =>
      if n < 0x20 then "\\u00".toList ++ [Nat.digitChar (n / 16), Nat.digitChar (n % 16)]
      else [c]

/-- `JSON.stringify(s)` of a string. -/
def stringify (s : List Char) : List Char := "\"".toList ++ s.flatMap escape ++ "\"".toList

example : stringify "a\nb".toList = "\"a\\nb\"".toList := by decide +kernel

/-! ## Percent-decoding -/

/-- A character of the text, or an octet written as `%XX`. -/
inductive Piece where
  | char (c : Char)
  | octet (n : ℕ)

/-- `none` where a `%` is not followed by two hexadecimal digits. -/
def pieces : List Char → Option (List Piece)
  | [] => some []
  | '%' :: h :: l :: s => do
      let hi ← digit 16 h
      let lo ← digit 16 l
      return .octet (16 * hi + lo) :: (← pieces s)
  | c :: s => if c = '%' then none else (pieces s).map (.char c :: ·)

/-- Read octets as UTF-8. `pending` is the character being read: how many octets it still
takes, its bits so far, and the least code point so many octets may stand for. -/
def utf8 (pending : Option (ℕ × ℕ × ℕ)) : List Piece → Option (List Char)
  | [] => if pending.isNone then some [] else none
  | .char c :: s => if pending.isNone then (utf8 none s).map (c :: ·) else none
  | .octet b :: s =>
      match pending with
      | none =>
          if b < 0x80 then (utf8 none s).map (Char.ofNat b :: ·)
          else if b < 0xC0 then none
          else if b < 0xE0 then utf8 (some (1, b - 0xC0, 0x80)) s
          else if b < 0xF0 then utf8 (some (2, b - 0xE0, 0x800)) s
          else if b < 0xF8 then utf8 (some (3, b - 0xF0, 0x10000)) s
          else none
      | some (left, bits, least) =>
          let n := 64 * bits + (b - 0x80)
          if b < 0x80 ∨ 0xC0 ≤ b then none
          else if 1 < left then utf8 (some (left - 1, n, least)) s
          -- no overlong form, no surrogate, nothing past U+10FFFF
          else if least ≤ n ∧ n.isValidChar then (utf8 none s).map (Char.ofNat n :: ·)
          else none

/-- `none` where `decodeURIComponent` throws a URIError. -/
def decodeURIComponent (s : List Char) : Option (List Char) := (pieces s).bind (utf8 none)

example : decodeURIComponent "a%2Fb%E2%82%AC".toList = some "a/b€".toList := by decide +kernel

example : decodeURIComponent "%C0%AF".toList = none := by decide +kernel

/-- A character other than the percent sign is a piece of its own. -/
theorem pieces_cons_of_ne {c : Char} {s : List Char} (hc : c ≠ '%') :
    pieces (c :: s) = (pieces s).map (.char c :: ·) := by
  rw [pieces.eq_def]
  split
  · next heq => cases heq
  · next heq => exact absurd (List.cons.inj heq).1 hc
  · next heq =>
      obtain ⟨rfl, rfl⟩ := List.cons.inj heq
      exact if_neg hc

/-- Decoding copies a character that is no percent sign and goes on with the rest. -/
theorem decodeURIComponent_cons {c : Char} {s : List Char} (hc : c ≠ '%') :
    decodeURIComponent (c :: s) = (decodeURIComponent s).map (c :: ·) := by
  unfold decodeURIComponent
  rw [pieces_cons_of_ne hc]
  cases pieces s with
  | none => rfl
  | some ps =>
      rw [Option.map_some, Option.bind_some, Option.bind_some, utf8]
      exact if_pos rfl

/-- A text without escapes is what it says. -/
theorem decodeURIComponent_of_notMem {s : List Char} (h : '%' ∉ s) :
    decodeURIComponent s = some s := by
  induction s with
  | nil => rfl
  | cons c s ih =>
      have hc : c ≠ '%' := fun heq => h (heq ▸ List.mem_cons_self)
      rw [decodeURIComponent_cons hc, ih fun hs => h (List.mem_cons_of_mem c hs)]
      rfl

/-- A nonempty text has at least one piece. -/
theorem pieces_ne_nil {s : List Char} {ps : List Piece} (hs : s ≠ []) (h : pieces s = some ps) :
    ps ≠ [] := by
  rintro rfl
  rw [pieces.eq_def] at h
  split at h
  · exact hs rfl
  · simp [Option.bind_eq_some_iff] at h
  · simp at h

/-- Decoding never swallows everything: pieces, or a character that is under way, leave at least
one character when decoding succeeds. -/
theorem utf8_ne_nil {ps : List Piece} {pending : Option (ℕ × ℕ × ℕ)}
    (h : ps ≠ [] ∨ pending ≠ none) : utf8 pending ps ≠ some [] := by
  induction ps generalizing pending with
  | nil =>
      cases pending with
      | none => simp at h
      | some p => simp [utf8]
  | cons p ps ih =>
      cases p with
      | char c =>
          unfold utf8
          split <;> simp
      | octet b =>
          -- the two ways to go on: with a character under way, and behind a finished one
          have hmore : ∀ q, utf8 (some q) ps ≠ some [] := fun q => ih (Or.inr (by simp))
          have hcons : ∀ d : Char, (utf8 none ps).map (d :: ·) ≠ some [] := by simp
          unfold utf8
          cases pending with
          | none =>
              dsimp only
              split_ifs
              · exact hcons _
              · simp
              · exact hmore _
              · exact hmore _
              · exact hmore _
              · simp
          | some p =>
              dsimp only
              split_ifs
              · simp
              · exact hmore _
              · exact hcons _
              · simp

/-- What is not empty does not become empty. -/
theorem decodeURIComponent_ne_nil {s : List Char} (hs : s ≠ []) :
    decodeURIComponent s ≠ some [] := by
  intro h
  obtain ⟨ps, hps, htext⟩ := Option.bind_eq_some_iff.mp h
  exact utf8_ne_nil (Or.inl (pieces_ne_nil hs hps)) htext

/-- Cutting into pieces does not lengthen a text, and leaves the length alone only where there is
no escape. -/
theorem pieces_length {s : List Char} {ps : List Piece} (h : pieces s = some ps) :
    ps.length ≤ s.length ∧ (ps.length = s.length → '%' ∉ s) := by
  induction s using pieces.induct generalizing ps with
  | case1 =>
      obtain rfl := Option.some.inj h
      simp
  | case2 hi lo s ih =>
      simp only [pieces, Option.bind_eq_bind, Option.bind_eq_some_iff, Option.pure_def,
        Option.some.injEq] at h
      obtain ⟨-, -, -, -, rest, hrest, rfl⟩ := h
      have hle := (ih hrest).1
      simp only [List.length_cons]
      omega
  | case3 s hnot =>
      rw [pieces] at h
      · simp at h
      · exact hnot
  | case4 c s hnot hc ih =>
      rw [pieces_cons_of_ne hc] at h
      obtain ⟨rest, hrest, rfl⟩ := Option.map_eq_some_iff.mp h
      obtain ⟨hle, heq⟩ := ih hrest
      simp only [List.length_cons, Nat.add_le_add_iff_right, Nat.add_right_cancel_iff,
        List.mem_cons, not_or]
      exact ⟨hle, fun hlen => ⟨Ne.symm hc, heq hlen⟩⟩

/-- Decoding never makes more characters than there were pieces. -/
theorem utf8_length {ps : List Piece} {pending : Option (ℕ × ℕ × ℕ)} {text : List Char}
    (h : utf8 pending ps = some text) : text.length ≤ ps.length := by
  induction ps generalizing pending text with
  | nil =>
      rw [utf8] at h
      split at h
      · obtain rfl := Option.some.inj h
        exact Nat.zero_le _
      · cases h
  | cons p ps ih =>
      -- behind a finished character the rest is shorter by one piece; with one under way, by one
      -- as well
      have hcons : ∀ d : Char, (utf8 none ps).map (d :: ·) = some text →
          text.length ≤ (p :: ps).length := by
        intro d hd
        obtain ⟨rest, hrest, rfl⟩ := Option.map_eq_some_iff.mp hd
        have hle := ih hrest
        simp only [List.length_cons]
        omega
      have hmore : ∀ q, utf8 q ps = some text → text.length ≤ (p :: ps).length :=
        fun q hq => (ih hq).trans (Nat.le_succ _)
      cases p with
      | char c =>
          rw [utf8] at h
          split at h
          · exact hcons c h
          · cases h
      | octet b =>
          unfold utf8 at h
          cases pending with
          | none =>
              dsimp only at h
              split_ifs at h
              · exact hcons _ h
              · exact hmore _ h
              · exact hmore _ h
              · exact hmore _ h
          | some p =>
              dsimp only at h
              split_ifs at h
              · exact hmore _ h
              · exact hcons _ h

/-- Decoding makes a text shorter, unless there is nothing to decode. -/
theorem decodeURIComponent_length {s text : List Char} (h : decodeURIComponent s = some text) :
    text.length ≤ s.length ∧ (text.length = s.length → '%' ∉ s) := by
  obtain ⟨ps, hps, htext⟩ := Option.bind_eq_some_iff.mp h
  have hpieces := pieces_length hps
  have hutf8 := utf8_length htext
  refine ⟨hutf8.trans hpieces.1, fun heq => hpieces.2 ?_⟩
  omega

end Core.JsText

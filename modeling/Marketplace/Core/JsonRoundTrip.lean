import Marketplace.Core.JsonText
import Mathlib.Data.List.TakeWhile

/-!
# Core.JsonRoundTrip — a value through its text

`parse_text`: what `JSON.stringify` writes, `JSON.parse` reads back, for values whose numbers are
whole and not too large and whose objects have no name twice. `Same` is equality up to the order
of names, as a `jsonb` column keeps it.
-/

namespace Core.JsonText

inductive Safe : Value → Prop where
  | null : Safe .null
  | bool (b : Bool) : Safe (.bool b)
  | num {n : ℤ} (h : |n| ≤ 2 ^ 53) : Safe (.num (.finite n))
  | str (s : String) : Safe (.str s)
  | arr {items : List Value} (h : ∀ v ∈ items, Safe v) : Safe (.arr items)
  | obj {fields : List (String × Value)} (h : ∀ f ∈ fields, Safe f.2)
      (names : (fields.map Prod.fst).Nodup) : Safe (.obj fields)

/-! ## Strings -/

section

variable {c : Char} {ps : List Piece} {s : List Char} {n : ℕ}

/-- A unit below the surrogates is joined to nothing: it is a character by itself. -/
theorem join_unit (h : n < 0xD800) : join (.inr n :: ps) = Char.ofNat n :: join ps := by
  have hvalid : n.isValidChar := Or.inl h
  cases ps with
  | nil => simp [join, hvalid]
  | cons p ps =>
      cases p with
      | inl d => simp [join, hvalid]
      | inr m => rw [join, if_neg (by omega), if_pos hvalid]

/-- A short escape is read as the character it stands for. -/
theorem pieces_escaped {d : Char} (hc : c ≠ 'u') (h : escaped c = some d) :
    pieces ('\\' :: c :: s) = (pieces s).map fun r => (.inl d :: r.1, r.2) := by
  rw [pieces, h]
  · cases pieces s <;> rfl
  · intro _ _ _ _ _ heq
    exact absurd heq hc

/-- A character that needs no escape is read as itself. -/
theorem pieces_plain (hquote : c ≠ '"') (hslash : c ≠ '\\') (h : 0x20 ≤ c.toNat) :
    pieces (c :: s) = (pieces s).map fun r => (.inl c :: r.1, r.2) := by
  rw [pieces]
  · simp only [h, guard, if_true, Option.bind_eq_bind]
    cases pieces s <;> rfl
  · exact hquote
  · intro _ _ _ _ _ heq
    exact absurd heq hslash
  · intro _ _ heq
    exact absurd heq hslash

/-- A control character is read back from its \u escape. -/
theorem pieces_control (h : n < 0x20) :
    pieces ("\\u00".toList ++ [Nat.digitChar (n / 16), Nat.digitChar (n % 16)] ++ s) =
      (pieces s).map fun r => (.inr n :: r.1, r.2) := by
  have hdigit : ∀ k < 16, JsText.digit 16 (Nat.digitChar k) = some k := by decide
  have hdigits : JsText.digits 16 ['0', '0', Nat.digitChar (n / 16), Nat.digitChar (n % 16)] =
      some n := by
    have hzero : JsText.digit 16 '0' = some 0 := by decide
    simp only [JsText.digits, List.mapM_cons, List.mapM_nil, hzero, hdigit (n / 16) (by omega),
      hdigit (n % 16) (by omega), Option.pure_def, Option.bind_eq_bind, Option.bind_some,
      Option.map_some, List.foldl_cons, List.foldl_nil, Option.some.injEq]
    omega
  change pieces ('\\' :: 'u' :: '0' :: '0' :: _ :: _ :: s) = _
  rw [pieces, hdigits]
  cases pieces s <;> rfl

/-- A character comes back as one piece. -/
theorem pieces_escape (c : Char) (s : List Char) :
    ∃ p, (∀ ps, join (p :: ps) = c :: join ps) ∧
      pieces (JsText.escape c ++ s) = (pieces s).map fun r => (p :: r.1, r.2) := by
  have hchar : ∀ {n : ℕ}, c.toNat = n → c = Char.ofNat n := by
    rintro n rfl
    exact (Char.ofNat_toNat c).symm
  have hescaped : ∀ d : Char, d ≠ 'u' → escaped d = some c → ∃ p,
      (∀ ps, join (p :: ps) = c :: join ps) ∧
        pieces ('\\' :: d :: s) = (pieces s).map fun r => (p :: r.1, r.2) := by
    intro d hd h
    exact ⟨.inl c, fun _ => by rw [join], pieces_escaped hd h⟩
  unfold JsText.escape
  split
  · next h => exact hescaped '"' (by decide) (by rw [hchar h]; decide)
  · next h => exact hescaped '\\' (by decide) (by rw [hchar h]; decide)
  · next h => exact hescaped 'b' (by decide) (by rw [hchar h]; decide)
  · next h => exact hescaped 't' (by decide) (by rw [hchar h]; decide)
  · next h => exact hescaped 'n' (by decide) (by rw [hchar h]; decide)
  · next h => exact hescaped 'f' (by decide) (by rw [hchar h]; decide)
  · next h => exact hescaped 'r' (by decide) (by rw [hchar h]; decide)
  · next hquote hslash _ _ _ _ _ =>
      split
      · next hlt =>
          refine ⟨.inr c.toNat, ?_, pieces_control hlt⟩
          intro ps
          rw [join_unit (by omega), Char.ofNat_toNat]
      · next hle =>
          refine ⟨.inl c, fun _ => by rw [join], pieces_plain ?_ ?_ (by omega)⟩
          · rintro rfl
            exact hquote rfl
          · rintro rfl
            exact hslash rfl

/-- A string is read back, whatever follows it. -/
theorem string_stringify (t rest : List Char) :
    string (t.flatMap JsText.escape ++ '"' :: rest) = some (String.ofList t, rest) := by
  have hpieces : ∃ ps, join ps = t ∧
      pieces (t.flatMap JsText.escape ++ '"' :: rest) = some (ps, rest) := by
    induction t with
    | nil => exact ⟨[], by rw [join], by rw [List.flatMap_nil, List.nil_append, pieces]⟩
    | cons c t ih =>
        obtain ⟨ps, hjoin, hps⟩ := ih
        obtain ⟨p, hp, hone⟩ := pieces_escape c (t.flatMap JsText.escape ++ '"' :: rest)
        refine ⟨p :: ps, by rw [hp, hjoin], ?_⟩
        rw [List.flatMap_cons, List.append_assoc, hone, hps]
        rfl
  obtain ⟨ps, rfl, hps⟩ := hpieces
  unfold string
  rw [hps]
  rfl

end

/-! ## Numbers -/

/-- No number goes on here. -/
def Ends (rest : List Char) : Prop := ∀ c ∈ rest.head?, isNumeral c = false

/-- Digits of a number have no leading zero. -/
theorem toDigits_head (n : ℕ) : Nat.toDigits 10 n = ['0'] ∨
    ∃ c t, Nat.toDigits 10 n = c :: t ∧ c ≠ '0' := by
  induction n using Nat.strong_induction_on with
  | _ n ih =>
      rcases Nat.lt_or_ge n 10 with hlt | hge
      · rw [Nat.toDigits_of_lt_base hlt]
        rcases Nat.eq_zero_or_pos n with rfl | hpos
        · exact Or.inl rfl
        · have hdigit : ∀ k < 10, 0 < k → Nat.digitChar k ≠ '0' := by decide
          exact Or.inr ⟨_, [], rfl, hdigit n hlt hpos⟩
      · rw [Nat.toDigits_of_base_le (by decide) hge]
        rcases ih (n / 10) (by omega) with hzero | ⟨c, t, hcons, hc⟩
        · have hvalue := congrArg (fun ds => Nat.ofDigitChars 10 ds 0) hzero
          simp only [Nat.ofDigitChars_ten_toDigits] at hvalue
          have hnil : Nat.ofDigitChars 10 ['0'] 0 = 0 := by decide
          omega
        · exact Or.inr ⟨c, _, by rw [hcons, List.cons_append], hc⟩

/-- The decimal text of a natural number is plain digits: no sign, point or exponent. -/
theorem plain_digits (n : ℕ) : plain (toString n).toList = true := by
  obtain ⟨-, hdigits, -⟩ := JsText.toString_nat n
  have htake : ((toString n).toList.takeWhile fun c => c ≠ 'e' && c ≠ 'E') = (toString n).toList := by
    rw [List.takeWhile_eq_self_iff]
    intro c hc
    have hdigit := hdigits c hc
    simp only [ne_eq, Bool.and_eq_true, decide_eq_true_eq]
    constructor <;> rintro rfl <;> exact absurd hdigit (by decide)
  have htext : (toString n).toList = Nat.toDigits 10 n := Nat.toList_repr
  unfold plain
  rw [htake, JsText.split_of_notMem (JsText.notMem_of_digits hdigits (by decide)), htext]
  rcases toDigits_head n with hzero | ⟨c, t, hcons, hc⟩
  · rw [hzero]
    rfl
  · rw [hcons]
    simp [hc]

theorem unsigned_toString (n : ℕ) : JsText.unsigned (toString n).toList = some (n : ℚ) := by
  obtain ⟨hne, hdigits, hvalue⟩ := JsText.toString_nat n
  rw [JsText.unsigned_digits hne hdigits, hvalue]

/-- The decimal text of an integer is a JSON number and is read as that integer. -/
theorem numeral_toString (k : ℤ) : numeral (toString k).toList = some (k : ℚ) := by
  cases k with
  | ofNat n =>
      obtain ⟨-, hdigits, -⟩ := JsText.toString_nat n
      change numeral (toString n).toList = some (n : ℚ)
      unfold numeral
      split
      · next heq =>
          have hminus := hdigits '-' (by rw [heq]; exact List.mem_cons_self)
          cases hminus
      · rw [if_pos (plain_digits n), unsigned_toString]
  | negSucc n =>
      rw [JsText.toString_negSucc]
      change (if plain (toString (n + 1)).toList then _ else none) = _
      rw [if_pos (plain_digits (n + 1)), unsigned_toString, Option.map_some, Int.cast_negSucc]

/-- Characters of a whole number. -/
theorem toString_numeral (k : ℤ) : ∀ c ∈ (toString k).toList, c.isDigit = true ∨ c = '-' := by
  intro c hc
  cases k with
  | ofNat n => exact Or.inl ((JsText.toString_nat n).2.1 c hc)
  | negSucc n =>
      rw [JsText.toString_negSucc] at hc
      rcases List.mem_cons.mp hc with rfl | hc
      · exact Or.inr rfl
      · exact Or.inl ((JsText.toString_nat (n + 1)).2.1 c hc)

/-- The decimal text of an integer begins with a digit or a minus sign. -/
theorem toString_head (k : ℤ) :
    ∃ c t, (toString k).toList = c :: t ∧ (c.isDigit = true ∨ c = '-') := by
  cases hs : (toString k).toList with
  | nil =>
      have hnone : numeral ([] : List Char) = none := by decide
      rw [← hs, numeral_toString] at hnone
      cases hnone
  | cons c t => exact ⟨c, t, rfl, toString_numeral k c (by rw [hs]; exact List.mem_cons_self)⟩

/-- No word and no string begins with the first character of a number. -/
theorem scalar_number (dbl : Doubles) {c : Char} {s : List Char} (hc : c.isDigit = true ∨ c = '-') :
    scalar dbl (c :: s) = (numeral ((c :: s).takeWhile isNumeral)).map fun q =>
      (.num (number dbl q), (c :: s).dropWhile isNumeral) := by
  unfold scalar
  split
  · next heq =>
      obtain ⟨rfl, -⟩ := List.cons.inj heq
      exact absurd hc (by decide)
  · next heq =>
      obtain ⟨rfl, -⟩ := List.cons.inj heq
      exact absurd hc (by decide)
  · next heq =>
      obtain ⟨rfl, -⟩ := List.cons.inj heq
      exact absurd hc (by decide)
  · next heq =>
      obtain ⟨rfl, -⟩ := List.cons.inj heq
      exact absurd hc (by decide)
  · rfl

/-- The text of an integer up to 2^53 is read back as a number, given that no further digit stands
behind it. -/
theorem scalar_int (dbl : Doubles) {k : ℤ} (hk : |k| ≤ 2 ^ 53) {rest : List Char}
    (hrest : Ends rest) :
    scalar dbl ((toString k).toList ++ rest) = some (.num (.finite k), rest) := by
  have hchars := toString_numeral k
  have hnumeral : ∀ c ∈ (toString k).toList, isNumeral c = true := by
    intro c hc
    rcases hchars c hc with hdigit | rfl
    · rw [isNumeral, hdigit, Bool.true_or]
    · rfl
  have hstop : rest.takeWhile isNumeral = [] ∧ rest.dropWhile isNumeral = rest := by
    cases rest with
    | nil => exact ⟨rfl, rfl⟩
    | cons c t =>
        have hc : isNumeral c = false := hrest c rfl
        exact ⟨List.takeWhile_cons_of_neg (by simp [hc]), List.dropWhile_cons_of_neg (by simp [hc])⟩
  have hnumber : number dbl (k : ℚ) = .finite k := by
    rw [number, dbl.finite_int hk]
  have hread : scalar dbl ((toString k).toList ++ rest) =
      (numeral (((toString k).toList ++ rest).takeWhile isNumeral)).map fun q =>
        (.num (number dbl q), ((toString k).toList ++ rest).dropWhile isNumeral) := by
    obtain ⟨c, t, hcons, hc⟩ := toString_head k
    rw [hcons]
    exact scalar_number dbl hc
  rw [hread, List.takeWhile_append_of_pos hnumeral, List.dropWhile_append_of_pos hnumeral,
    hstop.1, hstop.2, List.append_nil, numeral_toString, Option.map_some, hnumber]

/-! ## Values -/

theorem skip_of_not {c : Char} {t : List Char} (hc : blank c = false) : skip (c :: t) = c :: t :=
  List.dropWhile_cons_of_neg (by simp [hc])

theorem set_fresh {fields : List (String × Value)} {f : String × Value}
    (h : f.1 ∉ fields.map Prod.fst) : set fields f = fields ++ [f] := if_neg h

/-- Names that are all different stay as they are. -/
theorem object_of_nodup {fields : List (String × Value)} (h : (fields.map Prod.fst).Nodup) :
    object fields = .obj fields := by
  have hset : ∀ front back : List (String × Value), ((front ++ back).map Prod.fst).Nodup →
      back.foldl set front = front ++ back := by
    intro front back
    induction back generalizing front with
    | nil =>
        intro _
        rw [List.foldl_nil, List.append_nil]
    | cons f back ih =>
        intro hnodup
        have hfresh : f.1 ∉ front.map Prod.fst := by
          rw [List.map_append, List.map_cons] at hnodup
          intro hin
          exact (List.nodup_append.mp hnodup).2.2 _ hin _ List.mem_cons_self rfl
        rw [List.foldl_cons, set_fresh hfresh, ih (front ++ [f]) (by simpa using hnodup),
          List.append_assoc, List.singleton_append]
  exact congrArg Value.obj (hset [] fields h)

section

variable {dec : Decimals} {v : Value} {rest : List Char} {n : ℕ}

/-- What a number begins with is neither blank nor a bracket or brace of either kind. -/
theorem number_head {c : Char} (hc : c.isDigit = true ∨ c = '-') :
    blank c = false ∧ c ≠ ']' ∧ c ≠ '}' ∧ c ≠ '[' ∧ c ≠ '{' := by
  rcases hc with hdigit | rfl
  · have hne : ∀ d : Char, d.isDigit = false → c ≠ d := by
      rintro d hd rfl
      rw [hdigit] at hd
      cases hd
    refine ⟨?_, hne _ rfl, hne _ rfl, hne _ rfl, hne _ rfl⟩
    simp only [blank, hne ' ' rfl, hne '\t' rfl, hne '\n' rfl, hne '\r' rfl, decide_false,
      Bool.or_false]
  · decide

/-- The first character of a text. -/
theorem text_head (hv : Safe v) :
    ∃ c t, text dec v = c :: t ∧ blank c = false ∧ c ≠ ']' ∧ c ≠ '}' := by
  cases hv with
  | null => exact ⟨'n', _, rfl, by decide⟩
  | bool b =>
      cases b with
      | false => exact ⟨'f', _, rfl, by decide⟩
      | true => exact ⟨'t', _, rfl, by decide⟩
  | @num k hk =>
      obtain ⟨c, t, hcons, hc⟩ := toString_head k
      have hplain := number_head hc
      exact ⟨c, t, (dec.decimal_int k hk).trans hcons, hplain.1, hplain.2.1, hplain.2.2.1⟩
  | str s => exact ⟨'"', _, rfl, by decide⟩
  | @arr items h =>
      cases items with
      | nil => exact ⟨'[', _, rfl, by decide⟩
      | cons v items => exact ⟨'[', _, rfl, by decide⟩
  | @obj fields h names =>
      cases fields with
      | nil => exact ⟨'{', _, rfl, by decide⟩
      | cons f fields => exact ⟨'{', _, rfl, by decide⟩

/-- A value that begins with neither a blank nor an opening bracket is read as a scalar. -/
theorem value_scalar (dbl : Doubles) {c : Char} {t : List Char} (hblank : blank c = false)
    (harr : c ≠ '[') (hobj : c ≠ '{') : value dbl (n + 1) (c :: t) = scalar dbl (c :: t) := by
  unfold value
  rw [skip_of_not hblank]
  split
  · next heq => exact absurd (List.cons.inj heq).1 harr
  · next heq => exact absurd (List.cons.inj heq).1 hobj
  · rfl

/-- The text of `v` is read as `v`, whatever follows it. -/
def Reads (dec : Decimals) (v : Value) : Prop := ∀ {rest n}, Ends rest →
  (text dec v ++ rest).length < n → value dec.toDoubles n (text dec v ++ rest) = some (v, rest)

/-- Behind the elements stands a comma or the closing bracket, at which every number ends. -/
theorem items_ends (vs : List Value) (rest : List Char) : Ends (itemsText dec vs ++ rest) := by
  intro c hc
  cases vs with
  | nil =>
      obtain rfl : ']' = c := Option.some.inj hc
      rfl
  | cons v vs =>
      obtain rfl : ',' = c := Option.some.inj hc
      rfl

/-- Behind the fields stands a comma or the closing brace, at which every number ends. -/
theorem fields_ends (fs : List (String × Value)) (rest : List Char) :
    Ends (fieldsText dec fs ++ rest) := by
  intro c hc
  cases fs with
  | nil =>
      obtain rfl : '}' = c := Option.some.inj hc
      rfl
  | cons f fs =>
      obtain rfl : ',' = c := Option.some.inj hc
      rfl

/-- The text of the further elements is read back, given that each element is. -/
theorem items_text {vs : List Value} (hvs : ∀ v ∈ vs, Reads dec v)
    (hn : (itemsText dec vs ++ rest).length < n) :
    items dec.toDoubles n (itemsText dec vs ++ rest) = some (vs, rest) := by
  induction vs generalizing n with
  | nil =>
      obtain ⟨n, rfl⟩ : ∃ n', n = n' + 1 := Nat.exists_eq_add_one_of_ne_zero (by omega)
      rfl
  | cons v vs ih =>
      obtain ⟨n, rfl⟩ : ∃ n', n = n' + 1 := Nat.exists_eq_add_one_of_ne_zero (by omega)
      have htext : itemsText dec (v :: vs) ++ rest =
          ',' :: (text dec v ++ (itemsText dec vs ++ rest)) := by
        rw [itemsText, List.cons_append, List.append_assoc]
      rw [htext, List.length_cons] at hn
      have hlater : (itemsText dec vs ++ rest).length < n := by
        rw [List.length_append] at hn
        omega
      have hone := hvs v List.mem_cons_self (items_ends vs rest) (Nat.lt_of_succ_lt_succ hn)
      have hmore := ih (fun w hw => hvs w (List.mem_cons_of_mem v hw)) hlater
      rw [htext]
      change elements _ _ _ = _
      simp only [elements, Option.bind_eq_bind, hone, hmore, Option.bind_some, Option.pure_def]

/-- A field is read, if its value is. -/
theorem field_text (one : Reader Value) (k : String) (s : List Char) :
    field one (JsText.stringify k.toList ++ ':' :: s) =
      (one s).map fun p => ((k, p.1), p.2) := by
  have htext : JsText.stringify k.toList ++ ':' :: s =
      '"' :: (k.toList.flatMap JsText.escape ++ '"' :: (':' :: s)) := by
    simp [JsText.stringify]
  rw [htext]
  unfold field
  rw [skip_of_not (by decide)]
  simp only [Option.bind_eq_bind, string_stringify, Option.bind_some, String.ofList_toList]
  rfl

/-- The text of the further fields is read back, given that each value is. -/
theorem fields_text {fs : List (String × Value)} (hfs : ∀ f ∈ fs, Reads dec f.2)
    (hn : (fieldsText dec fs ++ rest).length < n) :
    fields dec.toDoubles n (fieldsText dec fs ++ rest) = some (fs, rest) := by
  induction fs generalizing n with
  | nil =>
      obtain ⟨n, rfl⟩ : ∃ n', n = n' + 1 := Nat.exists_eq_add_one_of_ne_zero (by omega)
      rfl
  | cons f fs ih =>
      obtain ⟨n, rfl⟩ : ∃ n', n = n' + 1 := Nat.exists_eq_add_one_of_ne_zero (by omega)
      have htext : fieldsText dec (f :: fs) ++ rest = ',' :: (JsText.stringify f.1.toList ++
          ':' :: (text dec f.2 ++ (fieldsText dec fs ++ rest))) := by
        rw [fieldsText]
        simp only [List.cons_append, List.append_assoc]
      rw [htext, List.length_cons, List.length_append, List.length_cons] at hn
      have hlater : (fieldsText dec fs ++ rest).length < n := by
        rw [List.length_append] at hn
        omega
      have hone : value dec.toDoubles n (text dec f.2 ++ (fieldsText dec fs ++ rest)) =
          some (f.2, fieldsText dec fs ++ rest) :=
        hfs f List.mem_cons_self (fields_ends fs rest) (by omega)
      have hmore := ih (fun g hg => hfs g (List.mem_cons_of_mem f hg)) hlater
      rw [htext]
      change elements _ _ _ = _
      simp only [elements, Option.bind_eq_bind, field_text, hone, Option.map_some, hmore,
        Option.bind_some, Option.pure_def]

/-- A value that begins with a bracket: the brackets are read, and what is between them. -/
theorem value_array (dbl : Doubles) (s : List Char) : value dbl (n + 1) ('[' :: s) =
    (group ']' (value dbl n) (items dbl n) s).map fun p => (.arr p.1, p.2) := by
  unfold value
  rfl

theorem value_object (dbl : Doubles) (s : List Char) : value dbl (n + 1) ('{' :: s) =
    (group '}' (field (value dbl n)) (fields dbl n) s).map fun p => (object p.1, p.2) := by
  unfold value
  rfl

/-- A list that does not end at once has a first element. -/
theorem group_cons {α : Type} {close : Char} {one : Reader α} {more : Reader (List α)}
    {s : List Char} (h : ∃ c t, s = c :: t ∧ blank c = false ∧ c ≠ close) :
    group close one more s = elements one more s := by
  obtain ⟨c, t, rfl, hblank, hclose⟩ := h
  unfold group
  rw [skip_of_not hblank]
  exact if_neg hclose

/-- The text of a safe value is read back as that value, whatever stands behind it: by induction
on the value, one case a constructor. -/
theorem reads (hv : Safe v) : Reads dec v := by
  induction hv with
  | null =>
      intro rest n _ hn
      obtain ⟨n, rfl⟩ : ∃ n', n = n' + 1 := Nat.exists_eq_add_one_of_ne_zero (by omega)
      exact value_scalar dec.toDoubles (by decide) (by decide) (by decide)
  | bool b =>
      intro rest n _ hn
      obtain ⟨n, rfl⟩ : ∃ n', n = n' + 1 := Nat.exists_eq_add_one_of_ne_zero (by omega)
      cases b with
      | false => exact value_scalar dec.toDoubles (by decide) (by decide) (by decide)
      | true => exact value_scalar dec.toDoubles (by decide) (by decide) (by decide)
  | @num k hk =>
      intro rest n hrest hn
      obtain ⟨n, rfl⟩ : ∃ n', n = n' + 1 := Nat.exists_eq_add_one_of_ne_zero (by omega)
      have htext : text dec (.num (.finite k)) = (toString k).toList := dec.decimal_int k hk
      obtain ⟨c, t, hcons, hc⟩ := toString_head k
      obtain ⟨hblank, -, -, harr, hobj⟩ := number_head hc
      have hscalar := scalar_int dec.toDoubles hk hrest
      rw [hcons, List.cons_append] at hscalar
      rw [htext, hcons, List.cons_append, value_scalar dec.toDoubles hblank harr hobj, hscalar]
  | str s =>
      intro rest n _ hn
      obtain ⟨n, rfl⟩ : ∃ n', n = n' + 1 := Nat.exists_eq_add_one_of_ne_zero (by omega)
      have htext : text dec (.str s) ++ rest =
          '"' :: (s.toList.flatMap JsText.escape ++ '"' :: rest) := by
        simp [text, JsText.stringify]
      rw [htext, value_scalar dec.toDoubles (by decide) (by decide) (by decide)]
      change (string _).map _ = _
      rw [string_stringify, Option.map_some, String.ofList_toList]
  | @arr items h ih =>
      intro rest n hrest hn
      obtain ⟨n, rfl⟩ : ∃ n', n = n' + 1 := Nat.exists_eq_add_one_of_ne_zero (by omega)
      cases items with
      | nil => exact value_array dec.toDoubles (']' :: rest)
      | cons v items =>
          have htext : text dec (.arr (v :: items)) ++ rest =
              '[' :: (text dec v ++ (itemsText dec items ++ rest)) := by
            rw [text, List.cons_append, List.append_assoc]
          obtain ⟨c, t, hcons, hblank, hclose, -⟩ : ∃ c t, text dec v = c :: t ∧
              blank c = false ∧ c ≠ ']' ∧ c ≠ '}' := text_head (h v List.mem_cons_self)
          rw [htext, List.length_cons] at hn
          -- the fuel is more than the length of the text, so it is more than that of what follows
          have hlater : (itemsText dec items ++ rest).length < n := by
            rw [List.length_append] at hn
            omega
          have hone := ih v List.mem_cons_self (items_ends items rest) (Nat.lt_of_succ_lt_succ hn)
          have hmore := items_text (fun w hw => ih w (List.mem_cons_of_mem v hw)) hlater
          rw [htext, value_array, group_cons]
          · simp only [elements, Option.bind_eq_bind, hone, hmore, Option.bind_some,
              Option.pure_def, Option.map_some]
          · exact ⟨c, _, by rw [hcons, List.cons_append], hblank, hclose⟩
  | @obj fields h names ih =>
      intro rest n hrest hn
      obtain ⟨n, rfl⟩ : ∃ n', n = n' + 1 := Nat.exists_eq_add_one_of_ne_zero (by omega)
      cases fields with
      | nil => exact value_object dec.toDoubles ('}' :: rest)
      | cons f fs =>
          have htext : text dec (.obj (f :: fs)) ++ rest = '{' :: (JsText.stringify f.1.toList ++
              ':' :: (text dec f.2 ++ (fieldsText dec fs ++ rest))) := by
            rw [text]
            simp only [List.cons_append, List.append_assoc]
          rw [htext, List.length_cons, List.length_append, List.length_cons] at hn
          have hlater : (fieldsText dec fs ++ rest).length < n := by
            rw [List.length_append] at hn
            omega
          have hone : value dec.toDoubles n (text dec f.2 ++ (fieldsText dec fs ++ rest)) =
              some (f.2, fieldsText dec fs ++ rest) :=
            ih f List.mem_cons_self (fields_ends fs rest) (by omega)
          have hmore := fields_text (fun g hg => ih g (List.mem_cons_of_mem f hg)) hlater
          rw [htext, value_object, group_cons]
          · simp only [elements, Option.bind_eq_bind, field_text, hone, Option.map_some, hmore,
              Option.bind_some, Option.pure_def, object_of_nodup names]
          · exact ⟨'"', _, rfl, by decide, by decide⟩

/-- What was written is read back. -/
theorem parse_text (hv : Safe v) : parse dec.toDoubles (text dec v) = some v := by
  have hread : value dec.toDoubles ((text dec v).length + 1) (text dec v ++ []) = some (v, []) :=
    reads hv (fun c hc => by cases hc) (by simp)
  rw [List.append_nil] at hread
  rw [parse_rounds (Nat.lt_succ_self _), hread, Option.bind_some]
  exact if_pos rfl

end

/-! ## Up to the order of names -/

/-- The same value, but for the order of the names in its objects. -/
inductive Same : Value → Value → Prop where
  | null : Same .null .null
  | bool (b : Bool) : Same (.bool b) (.bool b)
  | num (n : Number) : Same (.num n) (.num n)
  | str (s : String) : Same (.str s) (.str s)
  | arr {vs ws : List Value} (length : vs.length = ws.length)
      (h : ∀ (i : ℕ) v w, vs[i]? = some v → ws[i]? = some w → Same v w) : Same (.arr vs) (.arr ws)
  | obj {fs gs : List (String × Value)} (names : (fs.map Prod.fst).Perm (gs.map Prod.fst))
      (h : ∀ k v w, fs.lookup k = some v → gs.lookup k = some w → Same v w) :
      Same (.obj fs) (.obj gs)

section

variable {v w : Value} {fs gs : List (String × Value)} {k : String}

/-- With names that are all different, a pair of the list is what its name looks up. -/
theorem lookup_of_mem (names : (fs.map Prod.fst).Nodup) (h : (k, v) ∈ fs) :
    fs.lookup k = some v := by
  induction fs with
  | nil => cases h
  | cons f fs ih =>
      rw [List.map_cons, List.nodup_cons] at names
      rcases List.mem_cons.mp h with rfl | h
      · exact List.lookup_cons_self
      · have hne : (k == f.1) = false := by
          rw [beq_eq_false_iff_ne]
          rintro rfl
          exact names.1 (List.mem_map.mpr ⟨_, h, rfl⟩)
        rw [List.lookup_cons, hne]
        exact ih names.2 h

/-- A name that is in the list can be looked up. -/
theorem exists_lookup (h : k ∈ fs.map Prod.fst) : ∃ v, fs.lookup k = some v := by
  obtain ⟨f, hf, rfl⟩ := List.mem_map.mp h
  have hsome : (fs.lookup f.1).isSome = true := by
    rw [List.lookup_isSome_iff]
    exact ⟨f, hf, BEq.rfl⟩
  exact Option.isSome_iff_exists.mp hsome

theorem mem_of_lookup (h : fs.lookup k = some v) : (k, v) ∈ fs := by
  obtain ⟨front, back, rfl, -⟩ := List.lookup_eq_some_iff.mp h
  simp

/-- Two objects with the same names, compared field by field. -/
theorem Same.of_fields (names : (fs.map Prod.fst).Perm (gs.map Prod.fst))
    (h : ∀ f ∈ fs, ∀ w, gs.lookup f.1 = some w → Same f.2 w) : Same (.obj fs) (.obj gs) :=
  .obj names fun k v w hv hw => h (k, v) (mem_of_lookup hv) w hw

/-- A value is the same as itself, by induction on the value. -/
theorem Same.refl : ∀ v, Same v v
  | .null => .null
  | .bool b => .bool b
  | .num n => .num n
  | .str s => .str s
  | .arr vs => .arr rfl fun i v w hv hw => by
      obtain rfl : v = w := Option.some.inj (hv.symm.trans hw)
      have hin := List.mem_of_getElem? hv
      exact Same.refl v
  | .obj fs => .obj (List.Perm.refl _) fun k v w hv hw => by
      obtain rfl : v = w := Option.some.inj (hv.symm.trans hw)
      have hin := mem_of_lookup hv
      exact Same.refl v
termination_by v => sizeOf v
decreasing_by
  · have hlt := List.sizeOf_lt_of_mem hin
    rw [Value.arr.sizeOf_spec]
    omega
  · have hlt := List.sizeOf_lt_of_mem hin
    rw [Prod.mk.sizeOf_spec] at hlt
    rw [Value.obj.sizeOf_spec]
    omega

/-- The fields of an object are found under their names. -/
theorem Same.lookup (h : Same (.obj fs) w) : ∃ gs, w = .obj gs ∧
    ∀ k v, fs.lookup k = some v → ∃ w', gs.lookup k = some w' ∧ Same v w' := by
  cases h with
  | @obj _ gs names h =>
      refine ⟨gs, rfl, ?_⟩
      intro k v hv
      obtain ⟨w', hw⟩ := exists_lookup (names.mem_iff.mp (List.mem_map_of_mem (mem_of_lookup hv)))
      exact ⟨w', hw, h k v w' hv hw⟩

/-- A value that is the same as a safe one is safe. -/
theorem Same.safe (hv : Safe v) (h : Same v w) : Safe w := by
  induction hv generalizing w with
  | null =>
      cases h
      exact Safe.null
  | bool b =>
      cases h
      exact Safe.bool b
  | num hn =>
      cases h
      exact Safe.num hn
  | str s =>
      cases h
      exact Safe.str s
  | arr _ ih =>
      cases h with
      | arr length h =>
          refine Safe.arr ?_
          intro w hw
          obtain ⟨i, hi, rfl⟩ := List.mem_iff_getElem.mp hw
          exact ih _ (List.getElem_mem (by omega))
            (h i _ _ (List.getElem?_eq_getElem (by omega)) (List.getElem?_eq_getElem hi))
  | obj _ nodup ih =>
      cases h with
      | obj names h =>
          have hnodup := names.nodup_iff.mp nodup
          refine Safe.obj ?_ hnodup
          rintro ⟨k, w⟩ hw
          obtain ⟨v, hv⟩ := exists_lookup (names.mem_iff.mpr (List.mem_map_of_mem hw))
          exact ih _ (mem_of_lookup hv) (h k v w hv (lookup_of_mem hnodup hw))

end

end Core.JsonText

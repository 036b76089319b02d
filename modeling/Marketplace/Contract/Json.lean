import Marketplace.Core.JsonRoundTrip
import Marketplace.Core.JsString
import Marketplace.Core.UniqueReading
import Mathlib.Data.List.Lex
import Mathlib.Data.List.Sort

/-!
# Contract.Json — stableStringify

`stableStringify` of `hw-09/src/app.js`, on what `JSON.parse` gives: strings are code units, −0 is
a number of its own, and the fields of an object stand in some order under different names. What
`String` makes of a number is a parameter (`NumberTexts`).

`Same` is equality of JSON values up to the order of names. The text of a value determines it up
to `Same`: a text can be read in one way only (`reads`), as every part of it is closed by a comma
or a bracket, and no number goes on with one.
-/

namespace Marketplace.Contract

open Core Core.JsString Core.UniqueReading

/-- A finite double. -/
inductive Double where
  | ratio (q : ℚ)
  | negZero
deriving DecidableEq

def Double.value : Double → ℚ
  | .ratio q => q
  | .negZero => 0

inductive Value where
  | null
  | bool (b : Bool)
  | num (n : Double)
  | str (s : Units)
  | arr (items : List Value)
  | obj (fields : List (Units × Value))

/-- `String` of a number that is a double: a numeral, and different for different numbers. -/
structure NumberTexts extends JsonText.Decimals where
  decimal_numeral : ∀ q, toDoubles.finite q = some q →
    decimal q ≠ [] ∧ (decimal q).all JsonText.isNumeral = true
  decimal_inj : ∀ p q, toDoubles.finite p = some p → toDoubles.finite q = some q →
    decimal p = decimal q → p = q

def NumberTexts.IsDouble (dec : NumberTexts) (q : ℚ) : Prop := dec.finite q = some q

/-- A value as `JSON.parse` gives it, if it is finite. -/
inductive Parsed (dec : NumberTexts) : Value → Prop where
  | null : Parsed dec .null
  | bool (b : Bool) : Parsed dec (.bool b)
  | num {n : Double} (h : dec.IsDouble n.value) : Parsed dec (.num n)
  | str (s : Units) : Parsed dec (.str s)
  | arr {items : List Value} (h : ∀ v ∈ items, Parsed dec v) : Parsed dec (.arr items)
  | obj {fields : List (Units × Value)} (names : (fields.map Prod.fst).Nodup)
      (h : ∀ f ∈ fields, Parsed dec f.2) : Parsed dec (.obj fields)

/-- Equal as JSON values: objects without regard to the order of their names, 0 equal to −0. -/
inductive Same : Value → Value → Prop where
  | null : Same .null .null
  | bool (b : Bool) : Same (.bool b) (.bool b)
  | num {n m : Double} (h : n.value = m.value) : Same (.num n) (.num m)
  | str (s : Units) : Same (.str s) (.str s)
  | arr {vs ws : List Value} (length : vs.length = ws.length)
      (h : ∀ (i : ℕ) v w, vs[i]? = some v → ws[i]? = some w → Same v w) : Same (.arr vs) (.arr ws)
  | obj {fs gs : List (Units × Value)} (names : ∀ k, k ∈ fs.map Prod.fst ↔ k ∈ gs.map Prod.fst)
      (h : ∀ k v w, (k, v) ∈ fs → (k, w) ∈ gs → Same v w) : Same (.obj fs) (.obj gs)

/-! ## stableStringify -/

/-- Names are ordered by their code units. -/
def KeyLe {β : Type} (f g : Units × β) : Prop := f.1 ≤ g.1

instance {β : Type} : DecidableRel (KeyLe (β := β)) := fun f g =>
  inferInstanceAs (Decidable (f.1 ≤ g.1))

/-- `.sort()`. -/
def sortByKey {β : Type} (fields : List (Units × β)) : List (Units × β) :=
  fields.insertionSort KeyLe

/-- `parts.join(',')`. -/
def join (parts : List Units) : Units := [44].intercalate parts

/-- `${JSON.stringify(key)}:${text}`. -/
def member (f : Units × Units) : Units := quote f.1 ++ 58 :: f.2

section

variable (dec : NumberTexts)

mutual

def stableStringify : Value → Units
  | .arr items => 91 :: (join (texts items) ++ [93])
  | .obj fields => 123 :: (join ((sortByKey (fieldTexts fields)).map member) ++ [125])
  -- JSON.stringify
  | .null => units "null".toList
  | .bool b => units (if b then "true" else "false").toList
  | .num n => units (dec.decimal n.value)
  | .str s => quote s

def texts : List Value → List Units
  | [] => []
  | v :: items => stableStringify v :: texts items

/-- The fields with the texts of their values. -/
def fieldTexts : List (Units × Value) → List (Units × Units)
  | [] => []
  | (k, v) :: fields => (k, stableStringify v) :: fieldTexts fields

end

end

/-! ## The shape of a text -/

/-- What closes a part of a text. -/
def Stop (c : ℕ) : Prop := c = 44 ∨ c = 93 ∨ c = 125

instance : DecidablePred Stop := fun c => inferInstanceAs (Decidable (c = 44 ∨ c = 93 ∨ c = 125))

/-- The text of a field. -/
def fieldText (dec : NumberTexts) (f : Units × Value) : Units :=
  quote f.1 ++ 58 :: stableStringify dec f.2

section

variable {dec : NumberTexts} {a b v w : Value} {items : List Value} {rest rest' : Units}
  {fields fs gs : List (Units × Value)}

/-- The texts of a list are the texts of its values. -/
theorem texts_eq : texts dec items = items.map (stableStringify dec) := by
  induction items with
  | nil => rfl
  | cons v items ih => rw [texts, ih, List.map_cons]

/-- The texts of fields are their names with the texts of their values. -/
theorem fieldTexts_eq :
    fieldTexts dec fields = fields.map fun f => (f.1, stableStringify dec f.2) := by
  induction fields with
  | nil => rfl
  | cons f fields ih =>
      obtain ⟨k, v⟩ := f
      rw [fieldTexts, ih, List.map_cons]

/-- It makes no difference whether values are written before or after their names are sorted. -/
theorem sortByKey_fieldTexts :
    (sortByKey (fieldTexts dec fields)).map member = (sortByKey fields).map (fieldText dec) := by
  have hsort : sortByKey (fieldTexts dec fields) =
      (sortByKey fields).map fun f => (f.1, stableStringify dec f.2) := by
    rw [fieldTexts_eq]
    exact (List.map_insertionSort KeyLe KeyLe
      (fun f : Units × Value => (f.1, stableStringify dec f.2)) fields
      fun _ _ _ _ => Iff.rfl).symm
  rw [hsort, List.map_map]
  rfl

theorem text_arr : stableStringify dec (.arr items) ++ rest =
    91 :: group 44 (stableStringify dec) items (93 :: rest) := by
  rw [group_eq_intercalate, stableStringify, texts_eq, join]
  simp

theorem text_obj : stableStringify dec (.obj fields) ++ rest =
    123 :: group 44 (fieldText dec) (sortByKey fields) (125 :: rest) := by
  rw [group_eq_intercalate, stableStringify, sortByKey_fieldTexts, join]
  simp

theorem mem_sortByKey {β : Type} {f : Units × β} {l : List (Units × β)} :
    f ∈ sortByKey l ↔ f ∈ l :=
  List.mem_insertionSort _

/-- The seven kinds of values, by the first unit of their texts. -/
inductive Kind where
  | null | true | false | num | str | arr | obj
deriving DecidableEq

def kind : Value → Kind
  | .null => .null
  | .bool b => if b then .true else .false
  | .num _ => .num
  | .str _ => .str
  | .arr _ => .arr
  | .obj _ => .obj

def kindOf (c : ℕ) : Kind :=
  if c = 110 then .null
  else if c = 116 then .true
  else if c = 102 then .false
  else if c = 34 then .str
  else if c = 91 then .arr
  else if c = 123 then .obj
  else .num

/-- The units of a numeral are no other beginning and close nothing. -/
theorem numeral_unit {c : Char} (h : JsonText.isNumeral c = true) :
    kindOf c.toNat = .num ∧ ¬ Stop c.toNat := by
  rw [JsonText.isNumeral, Bool.or_eq_true] at h
  rcases h with hdigit | hsign
  · have hrange : 48 ≤ c.toNat ∧ c.toNat ≤ 57 := by
      simpa [Char.isDigit, Char.le_def, UInt32.le_iff_toNat_le] using hdigit
    constructor
    · unfold kindOf
      rw [if_neg (by omega), if_neg (by omega), if_neg (by omega), if_neg (by omega),
        if_neg (by omega), if_neg (by omega)]
    · unfold Stop
      omega
  · have hall : "+-.eE".toList.all (fun c => kindOf c.toNat = .num && c.toNat ≠ 44 &&
        c.toNat ≠ 93 && c.toNat ≠ 125) = true := by decide
    have hc := List.all_eq_true.mp hall c (of_decide_eq_true hsign)
    simp only [Bool.and_eq_true, decide_eq_true_eq] at hc
    exact ⟨hc.1.1.1, by unfold Stop; tauto⟩

/-- A number's text is not empty, and none of its characters ends a number or begins another kind
of value. -/
theorem text_num {n : Double} (h : dec.IsDouble n.value) :
    stableStringify dec (.num n) ≠ [] ∧
      ∀ c ∈ stableStringify dec (.num n), kindOf c = .num ∧ ¬ Stop c := by
  obtain ⟨hne, hall⟩ := dec.decimal_numeral _ h
  constructor
  · simpa [stableStringify, units] using hne
  · intro c hc
    obtain ⟨d, hd, rfl⟩ := List.mem_map.mp hc
    exact numeral_unit (List.all_eq_true.mp hall d hd)

/-- The first unit of a text says what kind of value it is. -/
theorem text_head (ha : Parsed dec a) :
    ∃ c s, stableStringify dec a = c :: s ∧ kindOf c = kind a ∧ ¬ Stop c := by
  cases ha with
  | null =>
      exact ⟨110, units "ull".toList, by simp only [stableStringify]; decide, rfl, by decide⟩
  | bool b =>
      cases b with
      | false =>
          exact ⟨102, units "alse".toList, by simp only [stableStringify]; decide, rfl, by decide⟩
      | true =>
          exact ⟨116, units "rue".toList, by simp only [stableStringify]; decide, rfl, by decide⟩
  | num h =>
      obtain ⟨hne, hall⟩ := text_num h
      obtain ⟨c, s, hcons⟩ := List.exists_cons_of_ne_nil hne
      obtain ⟨hkind, hstop⟩ := hall c (hcons ▸ List.mem_cons_self)
      exact ⟨c, s, hcons, hkind, hstop⟩
  | str s => exact ⟨34, _, by rw [stableStringify, quote], rfl, by decide⟩
  | arr h => exact ⟨91, _, by rw [stableStringify], rfl, by decide⟩
  | obj names h => exact ⟨123, _, by rw [stableStringify], rfl, by decide⟩

theorem text_starts (ha : Parsed dec a) (close : ℕ) (hclose : Stop close) :
    Starts close (stableStringify dec) a := by
  obtain ⟨c, s, htext, -, hstop⟩ := text_head ha
  exact ⟨c, s, htext, fun heq => hstop (heq ▸ hclose)⟩

/-- Two texts that agree so far begin with the same character, so their values are of one kind. -/
theorem kind_eq (ha : Parsed dec a) (hb : Parsed dec b)
    (heq : stableStringify dec a ++ rest = stableStringify dec b ++ rest') : kind a = kind b := by
  obtain ⟨c, s, hc, hkind, -⟩ := text_head ha
  obtain ⟨d, t, hd, hkind', -⟩ := text_head hb
  rw [hc, hd] at heq
  rw [← hkind, ← hkind', (List.cons.inj heq).1]

/-! ## Unique reading -/

/-- The text of a number ends where something stands that closes a part. -/
theorem reads_num {n m : Double} (hn : dec.IsDouble n.value) (hm : dec.IsDouble m.value)
    (hrest : Ends Stop rest) (hrest' : Ends Stop rest')
    (heq : stableStringify dec (.num n) ++ rest = stableStringify dec (.num m) ++ rest') :
    n.value = m.value ∧ rest = rest' := by
  have htake : ∀ {k : Double} {r : Units}, dec.IsDouble k.value → Ends Stop r →
      (stableStringify dec (.num k) ++ r).takeWhile (fun c => decide (¬ Stop c)) =
        stableStringify dec (.num k) := by
    intro k r hk hr
    have hstop : r.takeWhile (fun c => decide (¬ Stop c)) = [] := by
      cases r with
      | nil => rfl
      | cons c r => exact List.takeWhile_cons_of_neg (by simpa using hr c rfl)
    rw [List.takeWhile_append_of_pos, hstop, List.append_nil]
    intro c hc
    exact decide_eq_true ((text_num hk).2 c hc).2
  have htext : stableStringify dec (.num n) = stableStringify dec (.num m) := by
    rw [← htake hn hrest, heq, htake hm hrest']
  rw [htext] at heq
  refine ⟨dec.decimal_inj _ _ hn hm ?_, List.append_cancel_left heq⟩
  have hinj : Function.Injective Char.toNat := fun c d h => Char.toNat_inj.mp h
  rw [stableStringify, stableStringify] at htext
  exact (List.map_injective_iff.mpr hinj) htext

/-- A field is read back if its value is: the name in front is quoted, and the colon follows it.
-/
theorem reads_field (h : Reads Stop (stableStringify dec) (Parsed dec) Same v) (k : Units) :
    Reads Stop (fieldText dec) (fun f => Parsed dec f.2) (fun f g => f.1 = g.1 ∧ Same f.2 g.2)
      (k, v) := by
  rintro ⟨k', w⟩ r r' hw hr hr' heq
  simp only [fieldText, List.append_assoc, List.cons_append] at heq
  obtain ⟨hk, htail⟩ := quote_append_inj heq
  obtain ⟨hsame, hrest⟩ := h w r r' hw hr hr' (List.cons.inj htail).2
  exact ⟨⟨hk, hsame⟩, hrest⟩

/-- A field begins with a quote, which closes nothing. -/
theorem field_starts (f : Units × Value) (close : ℕ) (hclose : Stop close) :
    Starts close (fieldText dec) f := by
  refine ⟨34, _, by rw [fieldText, quote]; rfl, ?_⟩
  rintro rfl
  exact absurd hclose (by decide)

/-- The fields of two objects that were read alike, one by one in sorted order. -/
theorem same_obj (hgs : (gs.map Prod.fst).Nodup)
    (h : List.Forall₂ (fun f g => f.1 = g.1 ∧ Same f.2 g.2) (sortByKey fs) (sortByKey gs)) :
    Same (.obj fs) (.obj gs) := by
  have hkeys : (sortByKey fs).map Prod.fst = (sortByKey gs).map Prod.fst := by
    rw [← List.forall₂_eq_eq_eq, List.forall₂_map_left_iff, List.forall₂_map_right_iff]
    exact h.imp fun _ _ hfg => hfg.1
  constructor
  · intro k
    have hperm := (List.perm_insertionSort KeyLe fs).map Prod.fst
    have hperm' := (List.perm_insertionSort KeyLe gs).map Prod.fst
    rw [← hperm.mem_iff, ← hperm'.mem_iff]
    show k ∈ (sortByKey fs).map Prod.fst ↔ k ∈ (sortByKey gs).map Prod.fst
    rw [hkeys]
  · intro k v w hv hw
    obtain ⟨i, hi, hfi⟩ := List.mem_iff_getElem.mp (mem_sortByKey.mpr hv)
    obtain ⟨hlen, hall⟩ := List.forall₂_iff_get.mp h
    obtain ⟨hname, hsame⟩ := hall i hi (hlen ▸ hi)
    simp only [List.get_eq_getElem, hfi] at hname hsame
    have hin : (sortByKey gs)[i] ∈ gs := mem_sortByKey.mp (List.getElem_mem _)
    obtain heq := List.inj_on_of_nodup_map hgs hin hw hname.symm
    rwa [heq] at hsame

/-- The text of a value is the beginning of no other. -/
theorem reads (ha : Parsed dec a) : Reads Stop (stableStringify dec) (Parsed dec) Same a := by
  -- one case a constructor: the first character of the text settles the kind of the other value
  induction ha with
  | null =>
      intro b r r' hb hr hr' heq
      have hkind := kind_eq .null hb heq
      cases hb <;> try cases hkind
      · exact ⟨.null, List.append_cancel_left heq⟩
      · next c => cases c <;> cases hkind
  | bool c =>
      intro b r r' hb hr hr' heq
      have hkind := kind_eq (.bool c) hb heq
      cases hb with
      | bool d =>
          obtain rfl : c = d := by cases c <;> cases d <;> first | rfl | cases hkind
          exact ⟨.bool c, List.append_cancel_left heq⟩
      | _ => cases c <;> cases hkind
  | num hn =>
      intro b r r' hb hr hr' heq
      have hkind := kind_eq (.num hn) hb heq
      cases hb with
      | num hm =>
          obtain ⟨hvalue, hrest⟩ := reads_num hn hm hr hr' heq
          exact ⟨.num hvalue, hrest⟩
      | bool d => cases d <;> cases hkind
      | _ => cases hkind
  | str s =>
      intro b r r' hb hr hr' heq
      have hkind := kind_eq (.str s) hb heq
      cases hb with
      | str t =>
          rw [stableStringify, stableStringify] at heq
          obtain ⟨rfl, hrest⟩ := quote_append_inj heq
          exact ⟨.str s, hrest⟩
      | bool d => cases d <;> cases hkind
      | _ => cases hkind
  | @arr vs hvs ih =>
      intro b r r' hb hr hr' heq
      have hkind := kind_eq (.arr hvs) hb heq
      cases hb with
      | @arr ws hws =>
          rw [text_arr, text_arr] at heq
          obtain ⟨hall, hrest⟩ := Reads.group 44 93 (by decide) (by decide)
            (by decide) ih (fun v hv => text_starts (hvs v hv) 93 (by decide))
            (fun w hw => ⟨hws w hw, text_starts (hws w hw) 93 (by decide)⟩) (List.cons.inj heq).2
          refine ⟨.arr hall.length_eq ?_, hrest⟩
          intro i v w hv hw
          obtain ⟨hi, rfl⟩ := List.getElem?_eq_some_iff.mp hv
          obtain ⟨hi', rfl⟩ := List.getElem?_eq_some_iff.mp hw
          exact (List.forall₂_iff_get.mp hall).2 i hi hi'
      | bool d => cases d <;> cases hkind
      | _ => cases hkind
  -- the names are sorted in both, so fields are compared one by one
  | @obj fs names hfs ih =>
      intro b r r' hb hr hr' heq
      have hkind := kind_eq (.obj names hfs) hb heq
      cases hb with
      | @obj gs names' hgs =>
          rw [text_obj, text_obj] at heq
          obtain ⟨hall, hrest⟩ := Reads.group 44 125 (by decide) (by decide)
            (by decide) (fun f hf => reads_field (ih f (mem_sortByKey.mp hf)) f.1)
            (fun f _ => field_starts f 125 (by decide))
            (fun g hg => ⟨hgs g (mem_sortByKey.mp hg), field_starts g 125 (by decide)⟩)
            (List.cons.inj heq).2
          exact ⟨same_obj names' hall, hrest⟩
      | bool d => cases d <;> cases hkind
      | _ => cases hkind

theorem same_of_text_eq (ha : Parsed dec a) (hb : Parsed dec b)
    (h : stableStringify dec a = stableStringify dec b) : Same a b := by
  have hnil : Ends Stop ([] : Units) := nofun
  exact (reads ha b [] [] hb hnil hnil (by rw [h])).1

/-! ## The same value, the same text -/

/-- Sorted fields have their names in ascending order. -/
theorem sortByKey_pairwise {β : Type} (l : List (Units × β)) :
    ((sortByKey l).map Prod.fst).Pairwise (· ≤ ·) := by
  rw [List.pairwise_map]
  have htotal : Std.Total (KeyLe (β := β)) := ⟨fun f g => le_total f.1 g.1⟩
  have htrans : IsTrans _ (KeyLe (β := β)) := ⟨fun _ _ _ hfg hgh => le_trans hfg hgh⟩
  exact List.pairwise_insertionSort KeyLe l

/-- Values that differ only in the order of names have one text. -/
theorem text_eq_of_same (h : Same a b) (ha : Parsed dec a) (hb : Parsed dec b) :
    stableStringify dec a = stableStringify dec b := by
  induction h with
  | null => rfl
  | bool b => rfl
  | num h => rw [stableStringify, stableStringify, h]
  | str s => rfl
  | @arr vs ws length _ ih =>
      cases ha with
      | arr hvs =>
          cases hb with
          | arr hws =>
              have htexts : texts dec vs = texts dec ws := by
                rw [texts_eq, texts_eq]
                refine List.ext_getElem (by simpa using length) ?_
                intro i hi hi'
                rw [List.length_map] at hi hi'
                rw [List.getElem_map, List.getElem_map]
                exact ih i _ _ (List.getElem?_eq_getElem hi) (List.getElem?_eq_getElem hi')
                  (hvs _ (List.getElem_mem hi)) (hws _ (List.getElem_mem hi'))
              rw [stableStringify, stableStringify, htexts]
  -- the same names in another order: sorted, the two lists are one
  | @obj fs gs names _ ih =>
      cases ha with
      | obj hfs hvs =>
          cases hb with
          | obj hgs hws =>
              have hkeys : (sortByKey fs).map Prod.fst = (sortByKey gs).map Prod.fst := by
                refine List.Perm.eq_of_pairwise' (sortByKey_pairwise fs) (sortByKey_pairwise gs) ?_
                refine ((List.perm_insertionSort KeyLe fs).map Prod.fst).trans ?_
                refine List.Perm.trans ?_ ((List.perm_insertionSort KeyLe gs).map Prod.fst).symm
                exact (List.perm_ext_iff_of_nodup hfs hgs).mpr names
              have hlen : (sortByKey fs).length = (sortByKey gs).length := by
                simpa using congrArg List.length hkeys
              have hmembers : (sortByKey fs).map (fieldText dec) =
                  (sortByKey gs).map (fieldText dec) := by
                refine List.ext_getElem (by simpa using hlen) ?_
                intro i hi hi'
                rw [List.length_map] at hi hi'
                rw [List.getElem_map, List.getElem_map]
                have hname : (sortByKey fs)[i].1 = (sortByKey gs)[i].1 := by
                  have hi_map := congrArg (fun l : List Units => l[i]?) hkeys
                  simpa [List.getElem?_eq_getElem hi, List.getElem?_eq_getElem hi'] using hi_map
                have hf : (sortByKey fs)[i] ∈ fs := mem_sortByKey.mp (List.getElem_mem hi)
                have hg : (sortByKey gs)[i] ∈ gs := mem_sortByKey.mp (List.getElem_mem hi')
                have htext := ih (sortByKey fs)[i].1 (sortByKey fs)[i].2 (sortByKey gs)[i].2 hf
                  (by rw [hname]; exact hg) (hvs _ hf) (hws _ hg)
                rw [fieldText, fieldText, hname, htext]
              rw [stableStringify, stableStringify, sortByKey_fieldTexts, sortByKey_fieldTexts,
                hmembers]

end

/-- The texts of two values are the same exactly when the values are, up to the order of names and
the sign of 0. -/
theorem stableStringify_canonical (dec : NumberTexts) {a b : Value} (ha : Parsed dec a)
    (hb : Parsed dec b) : stableStringify dec a = stableStringify dec b ↔ Same a b :=
  ⟨same_of_text_eq ha hb, fun h => text_eq_of_same h ha hb⟩

/-- Rounding to whole numbers. -/
def Doubles.whole : Doubles where
  round q := ((⌊q⌋ : ℤ) : ℚ)
  mono p q h := WithTop.coe_le_coe.mpr (Int.cast_le.mpr (Int.floor_le_floor h))
  exact n _ := by simp

/-- A whole number is the numerator of itself. -/
theorem whole_num {q : ℚ} (h : Doubles.whole.finite q = some q) : (q.num : ℚ) = q := by
  have hround : Doubles.whole.finite q = some (if q < 0 then -(⌊|q|⌋ : ℚ) else (⌊|q|⌋ : ℚ)) := rfl
  obtain ⟨k, hk⟩ : ∃ k : ℤ, q = (k : ℚ) := by
    rw [hround] at h
    by_cases hneg : q < 0
    · rw [if_pos hneg] at h
      exact ⟨-⌊|q|⌋, by rw [Int.cast_neg]; exact (Option.some.inj h).symm⟩
    · rw [if_neg hneg] at h
      exact ⟨⌊|q|⌋, (Option.some.inj h).symm⟩
  rw [hk, Rat.num_intCast]

/-- Two integers with one decimal text are equal. -/
theorem toString_inj {m n : ℤ} (h : (toString m).toList = (toString n).toList) : m = n := by
  have hnumber := JsText.number_toString m
  rw [h, JsText.number_toString n] at hnumber
  exact_mod_cast (Option.some.inj hnumber).symm

/-- The decimal text of an integer is not empty and holds nothing that a JSON number cannot hold.
-/
theorem toString_isNumeral (m : ℤ) :
    (toString m).toList ≠ [] ∧ (toString m).toList.all JsonText.isNumeral = true := by
  obtain ⟨c, t, hcons, -⟩ := JsonText.toString_head m
  refine ⟨hcons ▸ List.cons_ne_nil c t, List.all_eq_true.mpr ?_⟩
  intro c hc
  rcases JsonText.toString_numeral m c hc with hdigit | rfl
  · rw [JsonText.isNumeral, hdigit, Bool.true_or]
  · rfl

theorem whole_inj {p q : ℚ} (hp : Doubles.whole.finite p = some p)
    (hq : Doubles.whole.finite q = some q)
    (h : (toString p.num).toList = (toString q.num).toList) : p = q := by
  rw [← whole_num hp, toString_inj h, whole_num hq]

theorem toString_intCast (n : ℤ) (_ : |n| ≤ 2 ^ 53) :
    (toString (n : ℚ).num).toList = (toString n).toList := by
  rw [Rat.num_intCast]

def NumberTexts.whole : NumberTexts where
  toDoubles := Doubles.whole
  decimal q := (toString q.num).toList
  decimal_int := toString_intCast
  decimal_numeral q _ := toString_isNumeral q.num
  decimal_inj _ _ hp hq h := whole_inj hp hq h

/-- `{"a":-0,"b":[]}` and `{"b":[],"a":0}`. -/
theorem stableStringify_canonical_zero :
    stableStringify .whole (.obj [(units ['a'], .num .negZero), (units ['b'], .arr [])]) =
      stableStringify .whole (.obj [(units ['b'], .arr []), (units ['a'], .num (.ratio 0))]) := by
  have hzero : NumberTexts.whole.IsDouble 0 := by
    show Doubles.whole.finite 0 = some 0
    simp [Doubles.finite, Doubles.whole]
  have hnil : Parsed .whole (.arr []) := .arr nofun
  have ha : Parsed .whole (.obj [(units ['a'], .num .negZero), (units ['b'], .arr [])]) := by
    refine .obj (by decide) ?_
    intro f hf
    rcases List.mem_pair.mp hf with rfl | rfl
    · exact .num hzero
    · exact hnil
  have hb : Parsed .whole (.obj [(units ['b'], .arr []), (units ['a'], .num (.ratio 0))]) := by
    refine .obj (by decide) ?_
    intro f hf
    rcases List.mem_pair.mp hf with rfl | rfl
    · exact hnil
    · exact .num hzero
  refine (stableStringify_canonical .whole ha hb).mpr (.obj ?_ ?_)
  · intro k
    simp [or_comm]
  · intro k v w hv hw
    rcases List.mem_pair.mp hv with heq | heq <;> cases heq <;>
      rcases List.mem_pair.mp hw with heq' | heq' <;> cases heq'
    · exact .num rfl
    · exact .arr rfl nofun

end Marketplace.Contract

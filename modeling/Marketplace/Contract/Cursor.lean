import Marketplace.Core.Base64
import Marketplace.Core.JsString
import Marketplace.Core.JsonRoundTrip
import Marketplace.Core.Utf8

/-!
# Contract.Cursor — cursors and pages

`encodeCursor`, `decodeCursor` and `page` of `hw-09/src/app.js`. A cursor is base64url of
`offset:n`. Node reads base64url generously and `Number` rounds, but a cursor is accepted only if
encoding the number again gives the cursor.

`walk` follows `next_cursor` from the first page while the collection grows. What has been read is
always a beginning of the collection (`walk_reads`).
-/

namespace Marketplace.Contract

open Core Core.JsString

structure ApiError where
  status : ℕ
  title : String
  detail : List Char
  type : String
deriving DecidableEq

def invalidCursor : ApiError where
  status := 400
  title := "Bad Request"
  detail := "The cursor is invalid or malformed.".toList
  type := "https://marketplace.example/problems/invalid-cursor"

/-- An array: it has fewer than 2³² elements. -/
structure Collection (α : Type) where
  items : List α
  length_lt : items.length < 2 ^ 32

structure Page (α : Type) where
  items : List α
  nextCursor : Option Units

section

variable (dec : JsonText.Decimals)

/-- `String` of a number. -/
def numberText : JsonText.Number → List Char
  | .finite q => dec.decimal q
  | .infinite negative => (if negative then "-Infinity" else "Infinity").toList

def encodeCursor (offset : JsonText.Number) : Units :=
  units (Base64.encode (Utf8.encode ("offset:".toList ++ numberText dec offset)))

/-- `/^offset:(0|[1-9]\d*)$/`: the digits, if the text matches. -/
def offsetDigits (text : List Char) : Option (List Char) :=
  if "offset:".toList.isPrefixOf text then
    let digits := text.drop "offset:".length
    if digits = ['0'] || digits.head?.any (fun c => c.isDigit && c ≠ '0') &&
        digits.all Char.isDigit then
      some digits
    else none
  else none

def decodeCursor : Option Units → Except ApiError JsonText.Number
  | none => .ok (.finite 0)
  | some cursor =>
      let decoded := Utf8.decode (Base64.decode cursor)
      match (offsetDigits decoded).bind JsText.number with
      | none => .error invalidCursor
      | some q =>
          let offset := JsonText.number dec.toDoubles q
          if encodeCursor dec offset = cursor then .ok offset else .error invalidCursor

/-- A position in an array, as `slice` takes it; offsets are not negative. -/
def position (length : ℕ) : JsonText.Number → ℕ
  | .finite q => min ⌊q⌋₊ length
  | .infinite negative => if negative then 0 else length

/-- `offset + n`. -/
def plus (offset : JsonText.Number) (n : ℕ) : JsonText.Number :=
  match offset with
  | .finite q => JsonText.number dec.toDoubles (q + n)
  | .infinite negative => .infinite negative

def less (offset : JsonText.Number) (n : ℕ) : Bool :=
  match offset with
  | .finite q => q < n
  | .infinite negative => negative

def slice {α : Type} (items : List α) (start stop : JsonText.Number) : List α :=
  let start := position items.length start
  (items.drop start).take (position items.length stop - start)

def page {α : Type} (collection : Collection α) (cursor : Option Units) (limit : Option ℕ) :
    Except ApiError (Page α) := do
  let offset ← decodeCursor dec cursor
  let limit := limit.getD 20
  let items := slice collection.items offset (plus dec offset limit)
  let nextOffset := plus dec offset items.length
  return {
    items
    nextCursor :=
      if less nextOffset collection.items.length then some (encodeCursor dec nextOffset) else none }

/-- `calls` requests at most, from the first page on or from a later one. The `i`th one finds the
collection `coll i`. -/
def walk {α : Type} (coll : ℕ → Collection α) (limit : ℕ → Option ℕ) :
    ℕ → ℕ → Option Units → Except ApiError (List (Page α))
  | 0, _, _ => .ok []
  | calls + 1, i, cursor => do
      let p ← page dec (coll i) cursor (limit i)
      match p.nextCursor with
      | none => return [p]
      | some next => return p :: (← walk coll limit calls (i + 1) (some next))

end

/-! ## Cursors -/

section

variable {dec : JsonText.Decimals} {n : ℕ} {q : ℚ}

theorem decimal_nat (hn : n ≤ 2 ^ 53) : dec.decimal n = (toString n).toList := by
  have h := dec.decimal_int n (by rw [abs_of_nonneg (Int.natCast_nonneg n)]; exact_mod_cast hn)
  exact_mod_cast h

/-- A natural number up to 2^53 is read as itself. -/
theorem number_nat (hn : n ≤ 2 ^ 53) : JsonText.number dec.toDoubles (n : ℚ) = .finite n := by
  have h := dec.finite_int (n := (n : ℤ))
    (by rw [abs_of_nonneg (Int.natCast_nonneg n)]; exact_mod_cast hn)
  have h' : dec.finite (n : ℚ) = some (n : ℚ) := by exact_mod_cast h
  rw [JsonText.number, h']

/-- The digits of an offset are found behind the fixed text. -/
theorem offsetDigits_nat (n : ℕ) :
    offsetDigits ("offset:".toList ++ (toString n).toList) = some (toString n).toList := by
  obtain ⟨-, hdigits, -⟩ := JsText.toString_nat n
  have hprefix : "offset:".toList.isPrefixOf ("offset:".toList ++ (toString n).toList) = true :=
    List.isPrefixOf_iff_prefix.mpr (List.prefix_append _ _)
  have hdrop : ("offset:".toList ++ (toString n).toList).drop "offset:".length =
      (toString n).toList := List.drop_left' rfl
  unfold offsetDigits
  rw [if_pos hprefix]
  dsimp only
  rw [hdrop, if_pos]
  have htext : (toString n).toList = Nat.toDigits 10 n := Nat.toList_repr
  rcases JsonText.toDigits_head n with hzero | ⟨c, t, hcons, hc⟩
  · simp [hzero]
  · have hall : (toString n).toList.all Char.isDigit = true := List.all_eq_true.mpr hdigits
    have hdigit : c.isDigit = true := hdigits c (by rw [htext, hcons]; exact List.mem_cons_self)
    rw [hall]
    simp [hcons, hc, hdigit]

/-- A cursor is read back. -/
theorem decode_encodeCursor (hn : n ≤ 2 ^ 53) :
    decodeCursor dec (some (encodeCursor dec (.finite n))) = .ok (.finite n) := by
  have hdecoded : Utf8.decode (Base64.decode (encodeCursor dec (.finite n))) =
      "offset:".toList ++ (toString n).toList := by
    rw [encodeCursor, Base64.decode_encode, Utf8.decode_encode, numberText,
      decimal_nat hn]
  have hnumber : JsText.number (toString n).toList = some (n : ℚ) := by
    exact_mod_cast JsText.number_toString n
  simp only [decodeCursor, hdecoded, offsetDigits_nat, Option.bind_some, hnumber, number_nat hn,
    if_true]

/-- Only what a number is encoded as is accepted. -/
theorem decodeCursor_cases (dec : JsonText.Decimals) (c : Units) :
    (∃ v, decodeCursor dec (some c) = .ok v ∧ c = encodeCursor dec v) ∨
      decodeCursor dec (some c) = .error invalidCursor := by
  cases hdigits : (offsetDigits (Utf8.decode (Base64.decode c))).bind
      JsText.number with
  | none => exact Or.inr (by simp only [decodeCursor, hdigits])
  | some q =>
      by_cases heq : encodeCursor dec (JsonText.number dec.toDoubles q) = c
      · exact Or.inl ⟨_, by simp only [decodeCursor, hdigits, if_pos heq], heq.symm⟩
      · exact Or.inr (by simp only [decodeCursor, hdigits, if_neg heq])

/-! ## Pages -/

variable {α : Type} {C : Collection α} {limit : Option ℕ}

/-- The cursor of an offset; the first page has none. -/
def Points (dec : JsonText.Decimals) (cursor : Option Units) (n : ℕ) : Prop :=
  decodeCursor dec cursor = .ok (.finite n)

theorem plus_nat {m : ℕ} (h : n + m ≤ 2 ^ 53) :
    plus dec (.finite n) m = .finite ((n + m : ℕ) : ℚ) := by
  rw [plus, ← number_nat h, Nat.cast_add]

/-- `slice` from `n` to `n + m` is `m` items from the `n`-th on, or as many as there are. -/
theorem slice_nat (items : List α) {m : ℕ} (hn : n ≤ items.length) :
    slice items (.finite n) (.finite ((n + m : ℕ) : ℚ)) = (items.drop n).take m := by
  simp only [slice, position, Nat.floor_natCast, Nat.min_eq_left hn]
  rcases Nat.le_total (n + m) items.length with hle | hge
  · rw [Nat.min_eq_left hle, Nat.add_sub_cancel_left]
  · rw [Nat.min_eq_right hge, ← List.length_drop, List.take_length,
      List.take_of_length_le (by rw [List.length_drop]; omega)]

/-- What a page holds. -/
theorem page_eq {cursor : Option Units} (hcursor : Points dec cursor n) (hn : n ≤ C.items.length)
    (hlimit : limit.getD 20 ≤ 100) :
    page dec C cursor limit = .ok {
      items := (C.items.drop n).take (limit.getD 20)
      nextCursor :=
        if n + limit.getD 20 < C.items.length then
          some (encodeCursor dec (.finite ((n + limit.getD 20 : ℕ) : ℚ)))
        else none } := by
  have hlen := C.length_lt
  have hpage : page dec C cursor limit = .ok {
      items := slice C.items (.finite n) (plus dec (.finite n) (limit.getD 20))
      nextCursor :=
        if less (plus dec (.finite n)
            (slice C.items (.finite n) (plus dec (.finite n) (limit.getD 20))).length)
            C.items.length then
          some (encodeCursor dec (plus dec (.finite n)
            (slice C.items (.finite n) (plus dec (.finite n) (limit.getD 20))).length))
        else none } := by
    rw [page, hcursor]
    rfl
  rw [hpage, plus_nat (by omega), slice_nat C.items hn, List.length_take, List.length_drop,
    plus_nat (by omega)]
  by_cases hmore : n + limit.getD 20 < C.items.length
  · have hmin : min (limit.getD 20) (C.items.length - n) = limit.getD 20 := by omega
    rw [hmin, if_pos hmore, if_pos]
    exact decide_eq_true (Nat.cast_lt.mpr hmore)
  · rw [if_neg hmore, if_neg]
    have hnot : ¬ n + min (limit.getD 20) (C.items.length - n) < C.items.length := by omega
    simpa [less] using fun h : ((n + min (limit.getD 20) (C.items.length - n) : ℕ) : ℚ) <
      C.items.length => hnot (Nat.cast_lt.mp h)

end

/-! ## The walk -/

section

variable {dec : JsonText.Decimals} {α : Type} {coll : ℕ → Collection α} {limit : ℕ → Option ℕ}

/-- The last request has answered `next_cursor: null`. -/
def Ended (pages : List (Page α)) : Prop :=
  ∃ p, pages.getLast? = some p ∧ p.nextCursor = none

/-- Appends only. -/
def Growing (coll : ℕ → Collection α) : Prop := ∀ i, (coll i).items <+: (coll (i + 1)).items

/-- What the schema admits; the default is 20. -/
def Admitted (limit : Option ℕ) : Prop := ∀ l ∈ limit, 1 ≤ l ∧ l ≤ 100

/-- The limit in force is between 1 and 100, also where the caller gave none. -/
theorem Admitted.bounds {l : Option ℕ} (h : Admitted l) : 1 ≤ l.getD 20 ∧ l.getD 20 ≤ 100 := by
  cases l with
  | none => decide
  | some l => exact h l rfl

/-- A collection that only grows at the end begins with everything it began with before. -/
theorem Growing.begins (hg : Growing coll) (i j : ℕ) :
    (coll i).items <+: (coll (i + j)).items := by
  induction j with
  | zero => exact List.prefix_refl _
  | succ j ih => exact ih.trans (hg (i + j))

/-- A stretch within a prefix is the same stretch of the whole. -/
theorem drop_take_prefix {xs ys : List α} (h : xs <+: ys) {n m : ℕ} (hle : n + m ≤ xs.length) :
    (xs.drop n).take m = (ys.drop n).take m := by
  obtain ⟨zs, rfl⟩ := h
  rw [List.drop_append_of_le_length (by omega),
    List.take_append_of_le_length (by rw [List.length_drop]; omega)]

/-- What `calls` requests from offset `n` on have read: the rest of the collection if the last
page has no next one, and a piece of it otherwise. -/
structure ReadsFrom (coll : ℕ → Collection α) (i n calls : ℕ) (pages : List (Page α)) : Prop where
  ended : Ended pages → ∃ j < calls, pages.length = j + 1 ∧
    pages.flatMap (·.items) = (coll (i + j)).items.drop n
  unended : ¬ Ended pages → pages.length = calls ∧ ∃ m, calls ≤ m ∧
    n + m ≤ (coll (i + calls)).items.length ∧
    pages.flatMap (·.items) = ((coll (i + calls)).items.drop n).take m

/-- A walk whose page has a cursor ends exactly if the rest of it does. -/
theorem ended_cons {p : Page α} {pages : List (Page α)} (h : p.nextCursor ≠ none) :
    Ended (p :: pages) ↔ Ended pages := by
  cases pages with
  | nil => simp [Ended, h]
  | cons q pages => simp [Ended]

/-- A page that is not the last one, and the pages after it. -/
theorem ReadsFrom.cons {i n calls l : ℕ} {p : Page α} {pages : List (Page α)}
    (hg : Growing coll) (hl : 1 ≤ l) (hmore : n + l < (coll i).items.length)
    (hitems : p.items = ((coll i).items.drop n).take l) (hnext : p.nextCursor ≠ none)
    (h : ReadsFrom coll (i + 1) (n + l) calls pages) :
    ReadsFrom coll i n (calls + 1) (p :: pages) := by
  constructor
  · intro hended
    obtain ⟨j, hj, hlen, hread⟩ := h.ended ((ended_cons hnext).mp hended)
    refine ⟨j + 1, by omega, by rw [List.length_cons, hlen], ?_⟩
    have hindex : i + 1 + j = i + (j + 1) := by omega
    rw [List.flatMap_cons, hread, hindex, hitems,
      drop_take_prefix (hg.begins i (j + 1)) (by omega), ← List.drop_drop, List.take_append_drop]
  · intro hopen
    obtain ⟨hlen, m, hm, hle, hread⟩ := h.unended fun hended => hopen ((ended_cons hnext).mpr hended)
    have hindex : i + 1 + calls = i + (calls + 1) := by omega
    rw [hindex] at hle hread
    refine ⟨by rw [List.length_cons, hlen], l + m, by omega, by omega, ?_⟩
    rw [List.flatMap_cons, hread, hitems, drop_take_prefix (hg.begins i (calls + 1)) (by omega),
      ← List.drop_drop, ← List.take_add]

/-- A walk by cursors over a collection that grows reads it from where it starts, page by page.
Induction on the number of calls. -/
theorem walk_reads (hg : Growing coll) (hlimit : ∀ i, Admitted (limit i)) :
    ∀ (calls i n : ℕ) (cursor : Option Units), Points dec cursor n → n ≤ (coll i).items.length →
      ∃ pages, walk dec coll limit calls i cursor = .ok pages ∧ ReadsFrom coll i n calls pages := by
  intro calls
  induction calls with
  | zero =>
      intro i n cursor _ hn
      refine ⟨[], rfl, ?_, ?_⟩
      · rintro ⟨p, hp, -⟩
        cases hp
      · exact fun _ => ⟨rfl, 0, Nat.le_refl 0, hn, by simp⟩
  | succ calls ih =>
      intro i n cursor hcursor hn
      obtain ⟨hl, hl'⟩ := (hlimit i).bounds
      have hpage := page_eq hcursor hn hl'
      have hlen := (coll i).length_lt
      -- a page that is not the last points the next call at the item behind it
      by_cases hmore : n + (limit i).getD 20 < (coll i).items.length
      · rw [if_pos hmore] at hpage
        have hgrown := (hg i).length_le
        have hbound : n + (limit i).getD 20 ≤ 2 ^ 53 := by omega
        obtain ⟨p, hp, hitems, hnext⟩ : ∃ p : Page α, page dec (coll i) cursor (limit i) = .ok p ∧
            p.items = ((coll i).items.drop n).take ((limit i).getD 20) ∧
            p.nextCursor = some (encodeCursor dec (.finite ((n + (limit i).getD 20 : ℕ) : ℚ))) :=
          ⟨_, hpage, rfl, rfl⟩
        obtain ⟨pages, hwalk, hreads⟩ := ih (i + 1) (n + (limit i).getD 20) _
          (decode_encodeCursor hbound) (by omega)
        refine ⟨p :: pages, ?_, hreads.cons hg hl hmore hitems (by simp [hnext])⟩
        rw [walk, hp]
        show (match p.nextCursor with | none => _ | some next => _) = _
        rw [hnext]
        show (walk dec coll limit calls (i + 1) _ >>= fun ps => pure (p :: ps)) = _
        rw [hwalk]
        rfl
      · rw [if_neg hmore] at hpage
        refine ⟨[_], by rw [walk, hpage]; rfl, ?_, ?_⟩
        · intro _
          refine ⟨0, by omega, rfl, ?_⟩
          simp only [List.flatMap_cons, List.flatMap_nil, List.append_nil, Nat.add_zero]
          exact List.take_of_length_le (by rw [List.length_drop]; omega)
        · intro hopen
          exact absurd ⟨_, rfl, rfl⟩ hopen

end

/-- Cursors are read back and nothing else is; and a walk from the first page on, in a collection
that others append to, reads it in order from its beginning, has read all of it when
`next_cursor` is null, and comes to that when the appends stop. -/
theorem cursors_page_completely (dec : JsonText.Decimals) :
    (∀ n : ℕ, n < 2 ^ 53 →
      decodeCursor dec (some (encodeCursor dec (.finite n))) = .ok (.finite n)) ∧
    (∀ c : Units, (∃ v, decodeCursor dec (some c) = .ok v ∧ c = encodeCursor dec v) ∨
      decodeCursor dec (some c) = .error invalidCursor) ∧
    ∀ {α : Type} (coll : ℕ → Collection α) (limit : ℕ → Option ℕ), Growing coll →
      (∀ i, Admitted (limit i)) →
      (∀ calls, ∃ pages, walk dec coll limit calls 0 none = .ok pages ∧
        (Ended pages → ∃ j < calls, pages.length = j + 1 ∧
          pages.flatMap (·.items) = (coll j).items ∧ (coll 0).items <+: (coll j).items) ∧
        (¬ Ended pages → ∃ m, pages.length = calls ∧
          pages.flatMap (·.items) = (coll calls).items.take m)) ∧
      ∀ i₀, (∀ i, i₀ ≤ i → (coll i).items = (coll i₀).items) →
        ∃ calls pages, walk dec coll limit calls 0 none = .ok pages ∧ Ended pages := by
  refine ⟨fun n hn => decode_encodeCursor hn.le, decodeCursor_cases dec, ?_⟩
  intro α coll limit hg hlimit
  have hfirst : Points dec none 0 := rfl
  have hreads := fun calls => walk_reads hg hlimit calls 0 0 none hfirst (Nat.zero_le _)
  constructor
  · intro calls
    obtain ⟨pages, hwalk, hread⟩ := hreads calls
    refine ⟨pages, hwalk, ?_, ?_⟩
    · intro hended
      obtain ⟨j, hj, hlen, hitems⟩ := hread.ended hended
      rw [Nat.zero_add] at hitems
      have hprefix := hg.begins 0 j
      rw [Nat.zero_add] at hprefix
      exact ⟨j, hj, hlen, by rw [hitems, List.drop_zero], hprefix⟩
    · intro hopen
      obtain ⟨hlen, m, -, -, hitems⟩ := hread.unended hopen
      exact ⟨m, hlen, by rw [hitems, List.drop_zero, Nat.zero_add]⟩
  · intro i₀ hstop
    -- a page that is not the last one has an element, so there are not that many
    obtain ⟨pages, hwalk, hread⟩ := hreads (i₀ + (coll i₀).items.length + 1)
    refine ⟨_, pages, hwalk, ?_⟩
    by_contra hopen
    obtain ⟨-, m, hm, hle, -⟩ := hread.unended hopen
    rw [Nat.zero_add, Nat.zero_add, hstop _ (by omega)] at hle
    omega

/-- A cursor for offset 20 is read back, and three items at two a page take two calls. -/
theorem cursors_page_three :
    decodeCursor .unrounded (some (encodeCursor .unrounded (.finite (20 : ℕ)))) =
      .ok (.finite (20 : ℕ)) ∧
    ∃ calls pages, walk .unrounded (fun _ => ⟨[7, 8, 9], by decide⟩) (fun _ => some 2) calls 0
      none = .ok pages ∧ Ended pages := by
  have h := cursors_page_completely .unrounded
  refine ⟨h.1 20 (by decide), (h.2.2 _ _ (fun _ => List.prefix_refl _) ?_).2 0 fun _ _ => rfl⟩
  intro _ l hl
  obtain rfl : 2 = l := Option.some.inj hl
  decide

end Marketplace.Contract

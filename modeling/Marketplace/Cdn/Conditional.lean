import Marketplace.Cdn.Edge
import Mathlib.Data.List.Count

/-!
# Cdn.Conditional — If-None-Match against its grammar

`etagMatches` splits at every comma, while a comma may stand inside an entity tag. A tag with a
comma falls into fragments, none of which has both quotes, so it matches nothing; but a
fragment between two of its commas that is an asterisk matches everything.

`Piece` says where the two readings part, and `reads_iff` that they part nowhere else.
-/

namespace Marketplace.Cdn

open Core JsText

/-! ## The grammar -/

/-- `etagc`. -/
def etagc (c : Char) : Bool :=
  c.toNat = 0x21 || (0x23 ≤ c.toNat && c.toNat ≤ 0x7E) || (0x80 ≤ c.toNat && c.toNat ≤ 0xFF)

/-- `[W/]"tag"`. -/
structure EntityTag where
  weak : Bool
  tag : List Char
  chars : tag.all etagc = true

def EntityTag.text (e : EntityTag) : List Char :=
  (if e.weak then "W/".toList else []) ++ '"' :: e.tag ++ ['"']

/-- An entity tag of a list, with the spaces around it. -/
structure Listed extends EntityTag where
  before : List Char
  after : List Char
  blank : (before ++ after).all (fun c => c = ' ' || c = '\t') = true

def Listed.text (l : Listed) : List Char := l.before ++ l.toEntityTag.text ++ l.after

inductive IfNoneMatch where
  | any
  | tags (list : List Listed)

def IfNoneMatch.text : IfNoneMatch → String
  | .any => "*"
  | .tags list => String.ofList ([','].intercalate (list.map Listed.text))

/-- The weak comparison. -/
def IfNoneMatch.Matches (value : IfNoneMatch) (etag : EntityTag) : Prop :=
  match value with
  | .any => True
  | .tags list => ∃ l ∈ list, l.tag = etag.tag

/-! ## A value read as the grammar reads it -/

/-- `etagMatches` and `send` read the value as the grammar does. -/
structure Reads (value : IfNoneMatch) (etag : EntityTag) : Prop where
  matched : etagMatches (some value.text) (String.ofList etag.text) = true ↔ value.Matches etag
  answered : ∀ (req : Request) (obj : StoredObject) (x : XCache) (res : Response),
    req.ifNoneMatch = some value.text → obj.etag = some (String.ofList etag.text) →
    send req obj x = some res → (res.status = 304 ↔ value.Matches etag)
  absent : ∀ (req : Request) (obj : StoredObject) (x : XCache) (res : Response),
    req.ifNoneMatch = none → obj.etag = some (String.ofList etag.text) →
    send req obj x = some res → res.status ≠ 304

/-- Between two commas of the tag there is an asterisk, alone but for white space. -/
def Piece (tag : List Char) : Prop := ∃ part ∈ ((split ',' tag).drop 1).dropLast, trim part = ['*']

/-- A listed tag that is the object's has no comma, or an asterisk helps out; and no asterisk
stands between commas where no listed tag is the object's. -/
def Unambiguous (value : IfNoneMatch) (etag : EntityTag) : Prop :=
  match value with
  | .any => True
  | .tags list =>
      if ∃ l ∈ list, l.tag = etag.tag then ',' ∉ etag.tag ∨ ∃ l ∈ list, Piece l.tag
      else ¬ ∃ l ∈ list, Piece l.tag

/-! ## One entity tag -/

section

variable {e etag : EntityTag} {l : Listed} {s : List Char}

/-- Taking the quotes off adds nothing. -/
theorem bare_sublist (s : List Char) : (bare s).Sublist s := by
  refine List.Sublist.trans ?_ (trim_sublist s)
  unfold bare
  split
  · next rest heq =>
      rw [heq]
      exact (List.sublist_cons_self _ _).trans (List.sublist_cons_self _ _)
  · exact List.Sublist.refl _

theorem quote_notMem (e : EntityTag) : '"' ∉ e.tag := by
  intro hin
  exact absurd (List.all_eq_true.mp e.chars _ hin) (by decide)

/-- The spaces around a tag are white space, and neither commas nor quotes. -/
theorem blank_plain (l : Listed) : ∀ c ∈ l.before ++ l.after,
    isSpace c = true ∧ c ≠ ',' ∧ c ≠ '"' := by
  intro c hc
  have hblank : c = ' ' ∨ c = '\t' := by simpa using List.all_eq_true.mp l.blank c hc
  rcases hblank with rfl | rfl <;> decide

/-- What is compared: the tag in its quotes. -/
theorem bare_text (e : EntityTag) {pad pad' : List Char} (hpad : ∀ c ∈ pad, isSpace c = true)
    (hpad' : ∀ c ∈ pad', isSpace c = true) :
    trim (pad ++ e.text ++ pad') = e.text ∧
      bare (pad ++ e.text ++ pad') = '"' :: e.tag ++ ['"'] := by
  have htrim : trim (pad ++ e.text ++ pad') = e.text := by
    refine trim_pads hpad hpad' (by simp [EntityTag.text]) ?_ ?_
    · unfold EntityTag.text
      cases e.weak <;> rfl
    · simp only [EntityTag.text, List.getLast_append_singleton]
      decide
  refine ⟨htrim, ?_⟩
  unfold bare
  rw [htrim]
  unfold EntityTag.text
  cases e.weak <;> rfl

theorem bare_etag (e : EntityTag) : bare e.text = '"' :: e.tag ++ ['"'] := by
  have h := (bare_text e (List.forall_mem_nil _) (List.forall_mem_nil _)).2
  rwa [List.nil_append, List.append_nil] at h

/-- A fragment with fewer than two quotes is no tag. -/
theorem bare_ne (h : s.count '"' < 2) (etag : EntityTag) : bare s ≠ bare etag.text := by
  intro heq
  have hcount := (bare_sublist s).count_le '"'
  rw [heq, bare_etag] at hcount
  simp at hcount
  omega

/-- A fragment matches if it is an asterisk or the object's tag. -/
def Hit (etag : EntityTag) (fragment : List Char) : Prop :=
  trim fragment = ['*'] ∨ bare fragment = bare etag.text

/-- A tag that is looked at in one piece is hit exactly if it is the entity's. -/
theorem hit_whole (l : Listed) : Hit etag l.text ↔ l.tag = etag.tag := by
  have htext := bare_text l.toEntityTag
    (fun c hc => (blank_plain l c (List.mem_append_left _ hc)).1)
    fun c hc => (blank_plain l c (List.mem_append_right _ hc)).1
  unfold Hit Listed.text
  rw [htext.1, htext.2, bare_etag]
  constructor
  · rintro (hstar | hbare)
    · exfalso
      unfold EntityTag.text at hstar
      have hlength := congrArg List.length hstar
      simp only [List.length_append, List.length_cons, List.length_nil] at hlength
      omega
    · simpa using hbare
  · intro heq
    rw [heq]
    exact Or.inr rfl

/-- A fragment with one quote does not match. -/
theorem not_hit_quote (h : s.count '"' = 1) : ¬ Hit etag s := by
  rintro (hstar | hbare)
  · have hin : '"' ∈ trim s := mem_trim (by decide) (List.count_pos_iff.mp (by omega))
    rw [hstar] at hin
    exact absurd hin (by decide)
  · exact bare_ne (by omega) etag hbare

/-- A fragment without quotes matches if it is an asterisk. -/
theorem hit_piece (h : '"' ∉ s) : Hit etag s ↔ trim s = ['*'] := by
  constructor
  · rintro (hstar | hbare)
    · exact hstar
    · exact absurd hbare (bare_ne (by rw [List.count_eq_zero_of_not_mem h]; decide) etag)
  · exact Or.inl

/-- A tag with a comma falls into pieces, and the first and the last have one quote each. -/
theorem hit_broken {front tag back : List Char} (hfront : ',' ∉ front ∧ front.count '"' = 1)
    (hback : ',' ∉ back ∧ back.count '"' = 1) (hquote : '"' ∉ tag) (hcomma : ',' ∈ tag) :
    (∃ fragment ∈ split ',' (front ++ tag ++ back), Hit etag fragment) ↔ Piece tag := by
  obtain ⟨p, rest, rfl, hp⟩ := List.eq_append_cons_of_mem hcomma
  obtain ⟨init, last, hrest, happ⟩ := split_append ',' rest
  obtain ⟨head, tail, hsplit, hend⟩ := happ back
  rw [split_of_notMem hback.1, List.cons.injEq] at hsplit
  obtain ⟨rfl, rfl⟩ := hsplit
  have hall : split ',' (front ++ (p ++ ',' :: rest) ++ back) =
      (front ++ p) :: (init ++ [last ++ back]) := by
    rw [← List.append_assoc, List.append_assoc, List.cons_append,
      split_cons_sep (by simp [hfront.1, hp]), hend]
  -- the parts in front of the last comma and behind the first one keep a quote; a * can stand
  -- only between
  have hpiece : Piece (p ++ ',' :: rest) ↔ ∃ part ∈ init, trim part = ['*'] := by
    unfold Piece
    rw [split_cons_sep hp, hrest, List.drop_one, List.tail_cons, List.dropLast_concat]
  have hquotes : '"' ∉ p ∧ '"' ∉ rest := by
    simpa using hquote
  have hparts : ∀ part ∈ init ++ [last], '"' ∉ part := by
    intro part hpart hin
    rw [← hrest] at hpart
    exact hquotes.2 (mem_of_mem_split hpart hin)
  have hfirst : (front ++ p).count '"' = 1 := by
    rw [List.count_append, hfront.2, List.count_eq_zero_of_not_mem hquotes.1]
  have hlast : (last ++ back).count '"' = 1 := by
    rw [List.count_append, hback.2,
      List.count_eq_zero_of_not_mem (hparts last (by simp))]
  rw [hall, hpiece]
  constructor
  · rintro ⟨fragment, hin, hhit⟩
    rcases List.mem_cons.mp hin with rfl | hin
    · exact absurd hhit (not_hit_quote hfirst)
    · rcases List.mem_append.mp hin with hin | hin
      · exact ⟨fragment, hin, (hit_piece (hparts _ (List.mem_append_left _ hin))).mp hhit⟩
      · rw [List.mem_singleton.mp hin] at hhit
        exact absurd hhit (not_hit_quote hlast)
  · rintro ⟨part, hin, hstar⟩
    exact ⟨part, by simp [hin], Or.inl hstar⟩

/-- When one of the fragments of a listed tag matches. -/
theorem fragments (l : Listed) : (∃ fragment ∈ split ',' l.text, Hit etag fragment) ↔
    (',' ∉ l.tag ∧ l.tag = etag.tag) ∨ Piece l.tag := by
  have hbefore : ',' ∉ l.before ∧ '"' ∉ l.before := by
    constructor
    · intro hin
      exact (blank_plain l _ (List.mem_append_left _ hin)).2.1 rfl
    · intro hin
      exact (blank_plain l _ (List.mem_append_left _ hin)).2.2 rfl
  have hafter : ',' ∉ l.after ∧ '"' ∉ l.after := by
    constructor
    · intro hin
      exact (blank_plain l _ (List.mem_append_right _ hin)).2.1 rfl
    · intro hin
      exact (blank_plain l _ (List.mem_append_right _ hin)).2.2 rfl
  have hfront : ',' ∉ l.before ++ ((if l.weak then "W/".toList else []) ++ ['"']) ∧
      (l.before ++ ((if l.weak then "W/".toList else []) ++ ['"'])).count '"' = 1 := by
    rw [List.mem_append, not_or, List.count_append, List.count_eq_zero_of_not_mem hbefore.2]
    refine ⟨⟨hbefore.1, ?_⟩, ?_⟩ <;> cases l.weak <;> decide
  have hback : ',' ∉ '"' :: l.after ∧ ('"' :: l.after).count '"' = 1 := by
    rw [List.mem_cons, not_or, List.count_cons_self, List.count_eq_zero_of_not_mem hafter.2]
    exact ⟨⟨by decide, hafter.1⟩, rfl⟩
  have htext : l.text = l.before ++ ((if l.weak then "W/".toList else []) ++ ['"']) ++ l.tag ++
      '"' :: l.after := by
    simp [Listed.text, EntityTag.text]
  -- a tag without comma is looked at in one piece, any other is broken up
  by_cases hcomma : ',' ∈ l.tag
  · rw [htext, hit_broken hfront hback (quote_notMem l.toEntityTag) hcomma]
    simp [hcomma]
  · have hpiece : ¬ Piece l.tag := by
      rintro ⟨part, hpart, -⟩
      rw [split_of_notMem hcomma] at hpart
      cases hpart
    have hplain : ',' ∉ l.text := by
      rw [htext, List.mem_append, List.mem_append]
      rintro ((hin | hin) | hin)
      · exact hfront.1 hin
      · exact hcomma hin
      · exact hback.1 hin
    rw [split_of_notMem hplain]
    simp only [List.mem_singleton, exists_eq_left, hcomma, not_false_eq_true, true_and, hpiece,
      or_false]
    exact hit_whole l

end

/-! ## The whole value -/

section

variable {list : List Listed} {value : IfNoneMatch} {etag : EntityTag}

theorem truthy_some {t : String} (h : t ≠ "") : truthy (some t) = some t := by
  simp [truthy, h]

/-- A tag has its quotes, if nothing else. -/
theorem text_ne_empty (etag : EntityTag) : String.ofList etag.text ≠ "" := by
  intro heq
  have hnil := congrArg String.toList heq
  rw [String.toList_ofList] at hnil
  simp [EntityTag.text] at hnil

/-- A list of tags has a text that is not empty, so the header is not taken for missing. -/
theorem tags_ne_empty (h : list ≠ []) : (IfNoneMatch.tags list).text ≠ "" := by
  intro heq
  have hnil : [','].intercalate (list.map Listed.text) = [] := by
    have htext := congrArg String.toList heq
    rwa [IfNoneMatch.text, String.toList_ofList] at htext
  have hquote : ∀ l : Listed, l.text ≠ [] := by
    intro l
    simp [Listed.text, EntityTag.text]
  match list, h with
  | [l], _ =>
      rw [List.map_singleton, List.intercalate_singleton] at hnil
      exact hquote l hnil
  | l :: l' :: rest, _ =>
      rw [List.map_cons, List.map_cons, List.intercalate_cons_cons, List.append_assoc] at hnil
      exact hquote l (List.append_eq_nil_iff.mp hnil).1

/-- `etagMatches` of a list of tags, tag by tag. -/
theorem etagMatches_tags : etagMatches (some (IfNoneMatch.tags list).text)
      (String.ofList etag.text) = true ↔
    ∃ l ∈ list, (',' ∉ l.tag ∧ l.tag = etag.tag) ∨ Piece l.tag := by
  by_cases hempty : list = []
  · have hfalsy : truthy (some (IfNoneMatch.tags []).text) = none := by decide
    rw [hempty, etagMatches, hfalsy]
    simp
  · have hhit : ∀ fragment : List Char,
        (decide (trim fragment = ['*']) || decide (bare fragment = bare etag.text)) = true ↔
          Hit etag fragment := by
      intro fragment
      rw [Bool.or_eq_true, decide_eq_true_iff, decide_eq_true_iff, Hit]
    unfold etagMatches
    rw [truthy_some (tags_ne_empty hempty)]
    dsimp only
    rw [IfNoneMatch.text, String.toList_ofList, String.toList_ofList,
      split_intercalate ',' (by simpa using hempty), List.any_eq_true]
    simp only [hhit, List.mem_flatMap, List.mem_map]
    constructor
    · rintro ⟨fragment, ⟨text, ⟨l, hl, rfl⟩, hpart⟩, h⟩
      exact ⟨l, hl, (fragments l).mp ⟨fragment, hpart, h⟩⟩
    · rintro ⟨l, hl, h⟩
      obtain ⟨fragment, hpart, h⟩ := (fragments l).mpr h
      exact ⟨fragment, ⟨_, ⟨l, hl, rfl⟩, hpart⟩, h⟩

/-- `etagMatches` reads a value as the grammar does exactly if it is unambiguous. -/
theorem etagMatches_iff : (etagMatches (some value.text) (String.ofList etag.text) = true ↔
    value.Matches etag) ↔ Unambiguous value etag := by
  -- * is answered before anything is split
  cases value with
  | any =>
      have htrue : etagMatches (some "*") (String.ofList etag.text) = true := by
        unfold etagMatches
        rw [truthy_some (by decide)]
        rfl
      simp [IfNoneMatch.text, IfNoneMatch.Matches, Unambiguous, htrue]
  | tags list =>
      rw [etagMatches_tags]
      unfold IfNoneMatch.Matches Unambiguous
      dsimp only
      split
      · next hlisted =>
          rw [iff_true_right hlisted]
          constructor
          · rintro ⟨l, hl, ⟨hcomma, heq⟩ | hpiece⟩
            · exact Or.inl (heq ▸ hcomma)
            · exact Or.inr ⟨l, hl, hpiece⟩
          · rintro (hcomma | ⟨l, hl, hpiece⟩)
            · obtain ⟨l, hl, heq⟩ := hlisted
              exact ⟨l, hl, Or.inl ⟨heq ▸ hcomma, heq⟩⟩
            · exact ⟨l, hl, Or.inr hpiece⟩
      · next hlisted =>
          rw [iff_false_right hlisted, not_iff_not]
          constructor
          · rintro ⟨l, hl, ⟨-, heq⟩ | hpiece⟩
            · exact absurd ⟨l, hl, heq⟩ hlisted
            · exact ⟨l, hl, hpiece⟩
          · rintro ⟨l, hl, hpiece⟩
            exact ⟨l, hl, Or.inr hpiece⟩

/-- The status of an answer about an object with a tag. -/
theorem send_status {req : Request} {obj : StoredObject} {x : XCache} {res : Response}
    (htag : obj.etag = some (String.ofList etag.text)) (hsend : send req obj x = some res) :
    res.status = 304 ↔ etagMatches req.ifNoneMatch (String.ofList etag.text) = true := by
  unfold send writeHead at hsend
  rw [htag, truthy_some (text_ne_empty etag), Option.any_some] at hsend
  split at hsend
  · next hmatch =>
      rw [Option.ite_none_right_eq_some, Option.some.injEq] at hsend
      obtain ⟨-, rfl⟩ := hsend
      exact iff_of_true rfl hmatch
  · next hmatch =>
      rw [Option.ite_none_right_eq_some, Option.some.injEq] at hsend
      obtain ⟨-, rfl⟩ := hsend
      exact iff_of_false (show (200 : ℕ) ≠ 304 by decide) hmatch

/-- A value is read as the grammar has it exactly if it is unambiguous: then the comma that
splits the list is no comma of a tag that matters. -/
theorem reads_iff (value : IfNoneMatch) (etag : EntityTag) :
    Reads value etag ↔ Unambiguous value etag := by
  rw [← etagMatches_iff]
  constructor
  · intro h
    exact h.matched
  · intro h
    constructor
    · exact h
    · intro req obj x res hvalue htag hsend
      rw [send_status htag hsend, hvalue]
      exact h
    · intro req obj x res hvalue htag hsend
      rw [Ne, send_status htag hsend, hvalue]
      exact Bool.false_ne_true

end

/-- `"a,b"` is listed and is the object's, and is not found. -/
theorem comma_not_matched : ∃ (value : IfNoneMatch) (etag : EntityTag),
    value.Matches etag ∧
      etagMatches (some value.text) (String.ofList etag.text) = false ∧ ¬ Reads value etag := by
  have hmatches : IfNoneMatch.Matches (.tags [⟨⟨false, "a,b".toList, rfl⟩, [], [], rfl⟩])
      ⟨false, "a,b".toList, rfl⟩ := ⟨_, List.mem_singleton_self _, rfl⟩
  have hfalse : etagMatches
      (some (IfNoneMatch.tags [⟨⟨false, "a,b".toList, rfl⟩, [], [], rfl⟩]).text)
      (String.ofList (EntityTag.text ⟨false, "a,b".toList, rfl⟩)) = false := by
    decide +kernel
  refine ⟨_, _, hmatches, hfalse, ?_⟩
  intro h
  rw [h.matched.mpr hmatches] at hfalse
  cases hfalse

end Marketplace.Cdn

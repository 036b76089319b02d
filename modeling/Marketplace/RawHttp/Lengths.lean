import Marketplace.RawHttp.Server

/-!
# RawHttp.Lengths — the two readings of Content-Length

`getContentLength` takes the first field of that name, and `parseHttpRequest` keeps the last one.
A first field past the largest double is `Infinity` to `Number` and frames no body at all.

A string has fewer than 2⁵³ characters, so a length that is not `Infinity` and that the text holds
is not rounded.
-/

namespace Marketplace.RawHttp

open Core Core.JsString Core.UnitText

/-- A string of decimal digits. -/
def IsDigits (s : Units) : Prop := s ≠ [] ∧ ∀ u ∈ s, isDigit u = true

/-- The decimal value of `headers['content-length']`, or 0. -/
def declared (headers : Object) : ℕ := ((headers.get contentLengthName).map value).getD 0

/-- The first and the last of the values say the same, or the first is `Infinity` and the last
is 0. -/
def LengthsAgree (dbl : Doubles) (values : List Units) : Prop :=
  ∀ first ∈ values.head?, ∀ last ∈ values.getLast?,
    if dbl.round (value first) = ⊤ then value last = 0 else value first = value last

/-! ## The fields that are read -/

section

variable {dbl : Doubles} {lines : List Units} {line name rawRequest buf : Units} {headers : Object}
  {headerEnd m : ℕ} {req : HttpRequest}

/-- The server takes the first Content-Length line of the head, whatever comes after it. -/
theorem readContentLength_eq : readContentLength dbl lines =
    match (lineValues contentLengthName lines).head? with
    | none => 0
    | some value =>
        match number dbl value with
        | none => 0
        | some n => if 0 ≤ n then n else 0 := by
  induction lines with
  | nil => rfl
  | cons line lines ih =>
      rw [readContentLength, lineValues, List.filterMap_cons]
      cases hfield : field line with
      | none => exact ih
      | some p =>
          obtain ⟨key, value⟩ := p
          dsimp only
          rw [List.filterMap_cons]
          by_cases hkey : key = contentLengthName
          · rw [if_neg (not_not.mpr hkey), if_pos hkey]
            rfl
          · rw [if_pos hkey, if_neg hkey]
            exact ih

/-- A line with a field is not blank. -/
theorem trim_of_field (h : field line ≠ none) : trim line ≠ [] := by
  cases hindex : Substring.indexOf colon line with
  | none => simp [field, hindex] at h
  | some i =>
      have hmem : 58 ∈ line := by
        rw [(Substring.eq_of_indexOf hindex).1]
        simp [colon]
      exact trim_ne_nil hmem (by decide)

/-- A line of the head is a field, or is passed over. -/
theorem readLine_eq : readLine headers line =
    match field line with
    | none => headers
    | some (key, value) => assign headers key value := by
  unfold readLine
  split
  · next hblank =>
      cases hfield : field line with
      | none => rfl
      | some p => exact absurd hblank (trim_of_field (by simp [hfield]))
  · rfl

/-- A field sets its own name and no other, provided the name is not the prototype's. -/
theorem get_assign {key value : Units} (hname : name ≠ protoName) :
    (assign headers key value).get name = if key = name then some value else headers.get name := by
  unfold assign
  by_cases hkey : key = name
  · rw [if_neg (hkey ▸ hname), if_pos hkey, hkey, JsMap.get_set_self]
  · rw [if_neg hkey]
    split
    · rfl
    · exact JsMap.get_set_of_ne (Ne.symm hkey)

/-- The last field of a name is kept. -/
theorem get_readLines (hname : name ≠ protoName) (lines : List Units) :
    (lines.foldl readLine JsMap.empty).get name = (lineValues name lines).getLast? := by
  induction lines using List.reverseRecOn with
  | nil => rfl
  | append_singleton lines line ih =>
      rw [List.foldl_append, List.foldl_cons, List.foldl_nil, readLine_eq, lineValues,
        List.filterMap_append, List.filterMap_append]
      cases hfield : field line with
      | none =>
          simp only [List.filterMap_cons, hfield, List.filterMap_nil, List.append_nil]
          exact ih
      | some p =>
          obtain ⟨key, value⟩ := p
          simp only [List.filterMap_cons, hfield, List.filterMap_nil]
          rw [get_assign hname, ih]
          by_cases hkey : key = name
          · simp [hkey]
          · simp [hkey, lineValues]

/-- What a request that is accepted says. -/
theorem parse_ok (h : parseHttpRequest rawRequest = .ok req)
    (hindex : Substring.indexOf crlfcrlf rawRequest = some headerEnd) :
    req.headers = ((Substring.cut crlf (rawRequest.take headerEnd)).tail.foldl readLine
      JsMap.empty) ∧ req.body = rawRequest.drop (headerEnd + 4) := by
  obtain ⟨hhead, hbody⟩ := cut_head hindex
  simp only [parseHttpRequest, hhead, hbody] at h
  split at h
  · cases h
  · split at h
    · split at h
      · cases h
      · cases h
        exact ⟨rfl, rfl⟩
    · cases h

/-! ## The length of a body -/

/-- The length the server waits for is that of the first Content-Length field. -/
theorem getContentLength_eq (dbl : Doubles) (headersPart : Units) :
    getContentLength dbl headersPart =
      match (fieldValues contentLengthName headersPart).head? with
      | none => 0
      | some value =>
          match number dbl value with
          | none => 0
          | some n => if 0 ≤ n then n else 0 :=
  readContentLength_eq

/-- `Number` of digits that are read as a length. -/
theorem getContentLength_digits {headersPart first : Units} (hdigits : IsDigits first)
    (h : (fieldValues contentLengthName headersPart).head? = some first) :
    getContentLength dbl headersPart = (dbl.round (value first)).untopD 0 := by
  rw [getContentLength_eq, h]
  dsimp only
  rw [number_digits dbl hdigits.1 hdigits.2]
  have hpos : ¬ ((value first : ℕ) : ℚ) < 0 := not_lt.mpr (Nat.cast_nonneg _)
  have habs : |((value first : ℕ) : ℚ)| = (value first : ℕ) := abs_of_nonneg (Nat.cast_nonneg _)
  unfold Doubles.finite
  rw [habs]
  cases hround : dbl.round (value first : ℕ) with
  | top => rfl
  | coe r =>
      have hr : 0 ≤ r := by
        have hmono := dbl.mono (Nat.cast_nonneg (α := ℚ) (value first))
        have hzero : dbl.round 0 = ((0 : ℚ) : WithTop ℚ) := by exact_mod_cast dbl.exact 0 (by simp)
        rw [hzero, hround] at hmono
        exact WithTop.coe_le_coe.mp hmono
      show (if 0 ≤ (if ((value first : ℕ) : ℚ) < 0 then -r else r) then _ else _) = r
      rw [if_neg hpos, if_pos hr]

/-- What the text holds is below 2⁵³. -/
theorem needed_lt (hlen : buf.length < 2 ^ 53)
    (hle : totalNeeded dbl buf headerEnd ≤ ((buf.length : ℚ) : WithTop ℚ)) :
    headerEnd + 4 + getContentLength dbl (buf.take headerEnd) < 2 ^ 53 := by
  by_contra hge
  have hmono := dbl.mono (not_lt.mp hge)
  have hexact : dbl.round (2 ^ 53) = ((2 ^ 53 : ℚ) : WithTop ℚ) := by
    exact_mod_cast dbl.exact (2 ^ 53) (le_refl _)
  rw [hexact] at hmono
  have hbound : (2 ^ 53 : ℚ) ≤ (buf.length : ℚ) := WithTop.coe_le_coe.mp (hmono.trans hle)
  have hnat : 2 ^ 53 ≤ buf.length := by exact_mod_cast hbound
  omega

/-- The length that frames a body: the first one that is declared, unless it is `Infinity`. -/
theorem framed_length {first : Units} (hlen : buf.length < 2 ^ 53)
    (hle : totalNeeded dbl buf headerEnd ≤ ((buf.length : ℚ) : WithTop ℚ))
    (hdigits : IsDigits first)
    (h : (fieldValues contentLengthName (buf.take headerEnd)).head? = some first) :
    getContentLength dbl (buf.take headerEnd) =
      ((if dbl.round (value first) = ⊤ then 0 else value first : ℕ) : ℚ) := by
  have hread : getContentLength dbl (buf.take headerEnd) = (dbl.round (value first)).untopD 0 :=
    getContentLength_digits hdigits h
  have hlt := needed_lt hlen hle
  rw [hread] at hlt ⊢
  cases hround : dbl.round (value first) with
  | top => simp
  | coe r =>
      rw [if_neg WithTop.coe_ne_top, WithTop.untopD_coe]
      by_cases hsmall : value first ≤ 2 ^ 53
      · rw [dbl.exact _ hsmall] at hround
        exact (WithTop.coe_eq_coe.mp hround).symm
      · -- it is rounded, but not to less than 2⁵³
        have hmono := dbl.mono (a := ((2 ^ 53 : ℕ) : ℚ)) (b := (value first : ℕ))
          (by exact_mod_cast le_of_lt (not_le.mp hsmall))
        rw [dbl.exact _ (le_refl _), hround] at hmono
        have hr : ((2 ^ 53 : ℕ) : ℚ) ≤ r := WithTop.coe_le_coe.mp hmono
        rw [hround, WithTop.untopD_coe] at hlt
        have hpos : (0 : ℚ) ≤ headerEnd := Nat.cast_nonneg _
        push_cast at hr
        linarith

/-- A whole length is the length of the body. -/
theorem body_length {n : ℕ} (hlen : buf.length < 2 ^ 53)
    (hle : totalNeeded dbl buf headerEnd ≤ ((buf.length : ℚ) : WithTop ℚ))
    (hn : getContentLength dbl (buf.take headerEnd) = n) :
    ∃ m, sliceTo (totalNeeded dbl buf headerEnd) buf = buf.take m ∧ m ≤ buf.length ∧
      m = headerEnd + 4 + n := by
  have hlt := needed_lt hlen hle
  rw [hn] at hlt
  have hsum : ((headerEnd : ℚ) + 4 + n) = ((headerEnd + 4 + n : ℕ) : ℚ) := by push_cast; ring
  rw [hsum] at hlt
  have hnat : headerEnd + 4 + n < 2 ^ 53 := by exact_mod_cast hlt
  have htotal : totalNeeded dbl buf headerEnd = (((headerEnd + 4 + n : ℕ) : ℚ) : WithTop ℚ) := by
    rw [totalNeeded, hn, hsum, dbl.exact _ (le_of_lt hnat)]
  rw [htotal] at hle ⊢
  refine ⟨headerEnd + 4 + n, ?_, ?_, rfl⟩
  · rw [sliceTo, WithTop.untopD_coe, Nat.floor_natCast]
  · exact_mod_cast WithTop.coe_le_coe.mp hle

/-- A request that was handed on, from the length that frames it. -/
theorem handed_parts {n : ℕ} (hlen : buf.length < 2 ^ 53)
    (hindex : Substring.indexOf crlfcrlf buf = some headerEnd)
    (h : firstRequest dbl buf = some rawRequest) (hparse : parseHttpRequest rawRequest = .ok req)
    (hn : getContentLength dbl (buf.take headerEnd) = n) :
    req.body.length = n ∧ req.headers.get contentLengthName =
      (fieldValues contentLengthName (buf.take headerEnd)).getLast? := by
  obtain ⟨i, hi, hle, rfl⟩ := firstRequest_eq_some.mp h
  obtain rfl : headerEnd = i := by
    rw [hindex] at hi
    exact Option.some.inj hi
  obtain ⟨m, hslice, hm, hmeq⟩ := body_length hlen hle hn
  rw [hslice] at hparse
  have hfit : headerEnd + crlfcrlf.length ≤ m := by
    rw [hmeq, crlfcrlf, List.length_cons, List.length_cons, List.length_cons, List.length_cons,
      List.length_nil]
    omega
  obtain ⟨hheaders, hbody⟩ := parse_ok hparse (Substring.indexOf_take hindex hfit)
  constructor
  · rw [hbody, List.length_drop, List.length_take]
    omega
  · rw [hheaders, get_readLines (by decide), List.take_take, Nat.min_eq_left (by omega)]
    rfl

end

/-- The parsed body has the length its headers declare, exactly when the two readings agree. -/
theorem lengths_agree_iff (dbl : Doubles) (octets : List UInt8) (rawRequest : Units)
    (req : HttpRequest) (headerEnd : ℕ) (hlen : octets.length < 2 ^ 53)
    (hindex : Substring.indexOf crlfcrlf (latin1 octets) = some headerEnd)
    (h : firstRequest dbl (latin1 octets) = some rawRequest)
    (hparse : parseHttpRequest rawRequest = .ok req)
    (hdigits : ∀ v ∈ fieldValues contentLengthName ((latin1 octets).take headerEnd), IsDigits v) :
    req.body.length = declared req.headers ↔
      LengthsAgree dbl (fieldValues contentLengthName ((latin1 octets).take headerEnd)) := by
  have hbuf : (latin1 octets).length < 2 ^ 53 := by rwa [latin1, List.length_map]
  have hle : totalNeeded dbl (latin1 octets) headerEnd ≤
      (((latin1 octets).length : ℚ) : WithTop ℚ) := by
    obtain ⟨i, hi, hle, -⟩ := firstRequest_eq_some.mp h
    rw [hindex] at hi
    rwa [Option.some.inj hi]
  cases hvalues : fieldValues contentLengthName ((latin1 octets).take headerEnd) with
  | nil =>
      have hframe : getContentLength dbl ((latin1 octets).take headerEnd) = ((0 : ℕ) : ℚ) := by
        rw [getContentLength_eq, hvalues]
        rfl
      obtain ⟨hbody, hget⟩ := handed_parts hbuf hindex h hparse hframe
      rw [hvalues] at hget
      simp [LengthsAgree, declared, hbody, hget]
  | cons first rest =>
      have hframe := framed_length hbuf hle
        (hdigits first (hvalues ▸ List.mem_cons_self)) (by rw [hvalues]; rfl)
      obtain ⟨hbody, hget⟩ := handed_parts hbuf hindex h hparse hframe
      obtain ⟨last, hlast⟩ : ∃ last, (first :: rest).getLast? = some last :=
        ⟨_, List.getLast?_eq_some_getLast (by simp)⟩
      rw [hvalues, hlast] at hget
      simp only [LengthsAgree, declared, hbody, hget, hlast, List.head?_cons, Option.mem_some_iff,
        forall_eq', Option.map_some, Option.getD_some]
      split
      · exact eq_comm
      · exact Iff.rfl

def ascii (text : String) : List UInt8 := text.toList.map fun c => UInt8.ofNat c.toNat

def onceDeclared : List UInt8 := ascii "POST / HTTP/1.1\r\ncontent-length : 1\r\n\r\nx"

/-- With one Content-Length field, well formed, the body the parser returns is as long as
declared. -/
theorem lengths_agree_once : ∃ req, parseHttpRequest (latin1 onceDeclared) = .ok req ∧
    (req.body.length = declared req.headers ↔
      LengthsAgree .unrounded
        (fieldValues contentLengthName ((latin1 onceDeclared).take 35))) := by
  have hparsed : (parseHttpRequest (latin1 onceDeclared)).toOption.isSome = true := by
    decide +kernel
  have hvalues : fieldValues contentLengthName ((latin1 onceDeclared).take 35) = [[49]] := by
    decide +kernel
  cases hparse : parseHttpRequest (latin1 onceDeclared) with
  | error e =>
      rw [hparse] at hparsed
      cases hparsed
  | ok req =>
      refine ⟨req, rfl, lengths_agree_iff .unrounded onceDeclared (latin1 onceDeclared) req 35
        (by decide) (by decide +kernel) (by decide +kernel) hparse ?_⟩
      rw [hvalues]
      intro v hv
      rw [List.mem_singleton.mp hv]
      exact ⟨by decide, by decide⟩

def twiceDeclared : List UInt8 :=
  ascii "POST / HTTP/1.1\r\nContent-Length: 1\r\nContent-Length: 0\r\n\r\nx"

/-- A body of one character under a declared length of 0. -/
theorem twiceDeclared_disagrees :
    firstRequest .unrounded (latin1 twiceDeclared) = some (latin1 twiceDeclared) ∧
      fieldValues contentLengthName ((latin1 twiceDeclared).take 53) = [[49], [48]] ∧
      (parseHttpRequest (latin1 twiceDeclared)).toOption.map
        (fun req => (req.body.length, declared req.headers)) = some (1, 0) := by
  decide +kernel

end Marketplace.RawHttp

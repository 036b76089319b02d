import Marketplace.RawHttp.Server

/-!
# RawHttp.RoundTrip — parsing what was written

A request that is written line by line is parsed back: its words, its body behind the first blank
line, and its headers. A name that is assigned once is an own property with its value, unless it is
`__proto__`: the object ignores that one, and the header is lost.
-/

namespace Marketplace.RawHttp

open Core Core.JsString Core.UnitText

/-- METHOD SP PATH SP VERSION CRLF, the lines `name: value` CRLF, CRLF and the body. -/
def serialize (method path version : Units) (headers : List (Units × Units)) (body : Units) :
    Units :=
  method ++ space ++ path ++ space ++ version ++ crlf ++
    headers.flatMap (fun p => headerLine p ++ crlf) ++ crlf ++ body

/-- A part of the request line. -/
def IsWord (s : Units) : Prop := s ≠ [] ∧ 32 ∉ s ∧ 13 ∉ s ∧ 10 ∉ s

/-- A character of an HTTP token in lower case. -/
def isTokenUnit (u : ℕ) : Bool :=
  isDigit u || (97 ≤ u && u ≤ 122) ||
    [33, 35, 36, 37, 38, 39, 42, 43, 45, 46, 94, 95, 96, 124, 126].contains u

/-- A header whose name is a token and whose value has no line breaks and no white space around
it. -/
structure IsHeader (p : Units × Units) : Prop where
  name_ne : p.1 ≠ []
  token : p.1.all isTokenUnit = true
  value : 13 ∉ p.2 ∧ 10 ∉ p.2
  trimmed : trim p.2 = p.2

/-- The request is parsed back, and `GET /headers` echoes each header once. -/
def Undone (method path version : Units) (headers : List (Units × Units)) (body : Units) : Prop :=
  ∃ req, parseHttpRequest (serialize method path version headers body) = .ok req ∧
    req.method = method ∧ req.path = path ∧ req.version = version ∧ req.body = body ∧
    (∀ p ∈ headers, req.headers.get p.1 = some p.2) ∧
    (∀ name, name ∉ headers.map Prod.fst → req.headers.get name = none) ∧
    (method = units "GET".toList → path = units "/headers".toList →
      ∃ lines : List Units, lines.Perm (headers.map headerLine) ∧
        handleRequest req = buildHttpResponse 200 (units "OK".toList) [(contentType, textPlain)]
          ([10].intercalate lines))

/-! ## Lines -/

section

variable {method path version body : Units} {headers : List (Units × Units)} {p : Units × Units}
  {object : Object} {u : ℕ}

/-- Lines with a line break behind each and one more. -/
theorem lines_eq (line : Units) (lines : List Units) :
    line ++ crlf ++ lines.flatMap (· ++ crlf) ++ crlf =
      crlf.intercalate (line :: lines) ++ crlfcrlf := by
  induction lines generalizing line with
  | nil =>
      rw [List.flatMap_nil, List.intercalate_singleton]
      simp [crlf, crlfcrlf]
  | cons next lines ih =>
      rw [List.intercalate_cons_cons, List.append_assoc (line ++ crlf) _ crlfcrlf, ← ih next,
        List.flatMap_cons]
      simp only [List.append_assoc]

def requestLine (method path version : Units) : Units := method ++ space ++ path ++ space ++ version

theorem serialize_eq : serialize method path version headers body =
    crlf.intercalate (requestLine method path version :: headers.map headerLine) ++ crlfcrlf ++
      body := by
  rw [← lines_eq, List.flatMap_map]
  rfl

/-- A code unit of a token is no blank, no capital, no colon and no CR. -/
theorem token_unit (h : isTokenUnit u = true) : isSpace u = false ∧ isUpper u = false ∧ u ≠ 58 ∧
    u ≠ 13 := by
  have hall : (List.range 127).all (fun u => !isTokenUnit u ||
      (!isSpace u && !isUpper u && u ≠ 58 && u ≠ 13)) = true := by decide
  have hlt : u < 127 := by
    simp [isTokenUnit, isDigit] at h
    omega
  have hu := List.all_eq_true.mp hall u (List.mem_range.mpr hlt)
  simpa [h, and_assoc] using hu

/-- The name of a well-formed header is what the parser makes of it: trimmed, in lower case,
without colon or CR. -/
theorem IsHeader.name (h : IsHeader p) : toLowerCase (trim p.1) = p.1 ∧ 58 ∉ p.1 ∧ 13 ∉ p.1 := by
  have hall : ∀ u ∈ p.1, isTokenUnit u = true := List.all_eq_true.mp h.token
  refine ⟨?_, fun hu => (token_unit (hall 58 hu)).2.2.1 rfl, fun hu =>
    (token_unit (hall 13 hu)).2.2.2 rfl⟩
  rw [trim_of_notSpace fun u hu => (token_unit (hall u hu)).1]
  exact toLowerCase_of_lower fun u hu => (token_unit (hall u hu)).2.1

theorem readLine_headerLine (h : IsHeader p) :
    readLine object (headerLine p) = assign object p.1 p.2 := by
  obtain ⟨hname, hcolon, -⟩ := h.name
  rw [readLine, if_neg trim_headerLine, field_headerLine hcolon, hname, h.trimmed]

/-- A line of the request is not empty and holds no carriage return. -/
theorem line_ok (hmethod : IsWord method) (hpath : IsWord path) (hversion : IsWord version)
    (hheaders : ∀ p ∈ headers, IsHeader p) :
    ∀ line ∈ requestLine method path version :: headers.map headerLine,
      line ≠ [] ∧ 13 ∉ line := by
  intro line hline
  rcases List.mem_cons.mp hline with rfl | hline
  · constructor
    · simp [requestLine, hmethod.1]
    · simp [requestLine, space, hmethod.2.2.1, hpath.2.2.1, hversion.2.2.1]
  · obtain ⟨p, hp, rfl⟩ := List.mem_map.mp hline
    have hsep : 13 ∉ units ": ".toList := by decide
    constructor
    · simp [headerLine, units]
    · simp only [headerLine, List.mem_append, not_or]
      exact ⟨⟨(hheaders p hp).name.2.2, hsep⟩, (hheaders p hp).value.1⟩

/-- What is parsed. -/
theorem parse_serialize (hmethod : IsWord method) (hpath : IsWord path) (hversion : IsWord version)
    (hheaders : ∀ p ∈ headers, IsHeader p) :
    parseHttpRequest (serialize method path version headers body) =
      .ok ⟨method, path, version,
        headers.foldl (fun object p => assign object p.1 p.2) JsMap.empty, body⟩ := by
  have hlines := line_ok hmethod hpath hversion hheaders
  have hindex : Substring.indexOf crlfcrlf (serialize method path version headers body) =
      some (crlf.intercalate (requestLine method path version ::
        headers.map headerLine)).length := by
    rw [serialize_eq]
    exact Substring.indexOf_block (by decide) (by simp) hlines body
  obtain ⟨hhead, hbody⟩ := cut_head hindex
  -- the lines, then the words of the first one, then what is in front of the blank line and
  -- behind it
  have hcut : Substring.cut crlf (crlf.intercalate (requestLine method path version ::
      headers.map headerLine)) = requestLine method path version :: headers.map headerLine :=
    Substring.cut_intercalate (by simp) fun line hline => (hlines line hline).2
  have hwords : Substring.cut space (requestLine method path version) =
      [method, path, version] := by
    rw [requestLine, List.append_assoc (method ++ space), List.append_assoc (method ++ space), space,
      Substring.cut_append hmethod.2.1, Substring.cut_append hpath.2.1,
      Substring.cut_of_notMem hversion.2.1]
  have htake : (serialize method path version headers body).take
      (crlf.intercalate (requestLine method path version :: headers.map headerLine)).length =
        crlf.intercalate (requestLine method path version :: headers.map headerLine) := by
    rw [serialize_eq, List.append_assoc, List.take_left]
  have hdrop : (serialize method path version headers body).drop
      ((crlf.intercalate (requestLine method path version :: headers.map headerLine)).length + 4) =
        body := by
    rw [serialize_eq]
    exact List.drop_left' (by simp [crlfcrlf])
  have hread : (headers.map headerLine).foldl readLine JsMap.empty =
      headers.foldl (fun object p => assign object p.1 p.2) JsMap.empty := by
    rw [List.foldl_map]
    exact List.foldl_ext _ _ _ fun object p hp => readLine_headerLine (hheaders p hp)
  have hne : requestLine method path version ≠ [] := (hlines _ List.mem_cons_self).1
  simp only [parseHttpRequest, hhead, hbody, htake, hdrop, hcut, List.headD_cons, List.tail_cons,
    if_neg hne, hwords, hread]
  exact if_neg (by simp [hmethod.1, hpath.1, hversion.1])

/-! ## Headers -/

/-- `__proto__` is never an own property. -/
theorem get_proto (headers : List (Units × Units)) :
    (headers.foldl (fun object p => assign object p.1 p.2) JsMap.empty).get protoName = none := by
  induction headers using List.reverseRecOn with
  | nil => rfl
  | append_singleton headers p ih =>
      rw [List.foldl_append, List.foldl_cons, List.foldl_nil, assign]
      split
      · exact ih
      · next hname => rw [JsMap.get_set_of_ne (Ne.symm hname), ih]

/-- Different names, none of them `__proto__`, are assigned one after the other. -/
theorem assign_entries (hnodup : (headers.map Prod.fst).Nodup)
    (hproto : protoName ∉ headers.map Prod.fst) :
    (headers.foldl (fun object p => assign object p.1 p.2) JsMap.empty).entries = headers := by
  induction headers using List.reverseRecOn with
  | nil => rfl
  | append_singleton headers p ih =>
      rw [List.map_append, List.map_singleton] at hnodup hproto
      rw [List.nodup_append] at hnodup
      rw [List.mem_append, not_or, List.mem_singleton] at hproto
      have hprev := ih hnodup.1 hproto.1
      rw [List.foldl_append, List.foldl_cons, List.foldl_nil, assign, if_neg (Ne.symm hproto.2),
        JsMap.set_entries, hprev]
      rw [JsMap.keys, hprev]
      intro hmem
      exact hnodup.2.2 p.1 hmem p.1 (List.mem_singleton_self _) rfl

/-- Without `__proto__` everything comes back. -/
theorem undone_of_notMem (hmethod : IsWord method) (hpath : IsWord path)
    (hversion : IsWord version) (hheaders : ∀ p ∈ headers, IsHeader p)
    (hnodup : (headers.map Prod.fst).Nodup) (hproto : protoName ∉ headers.map Prod.fst) :
    Undone method path version headers body := by
  have hentries := assign_entries hnodup hproto
  refine ⟨_, parse_serialize hmethod hpath hversion hheaders, rfl, rfl, rfl, rfl, ?_, ?_, ?_⟩
  · intro p hp
    rw [JsMap.get_eq_some_iff, hentries]
    exact hp
  · intro name hname
    rw [JsMap.get_eq_none_iff, JsMap.keys, hentries]
    exact hname
  · intro hget hheadersPath
    refine ⟨(entries (headers.foldl (fun object p => assign object p.1 p.2) JsMap.empty)).map
      headerLine, ?_, ?_⟩
    · have hperm := entries_perm
        (headers.foldl (fun object p => assign object p.1 p.2) JsMap.empty)
      rw [hentries] at hperm
      exact hperm.map headerLine
    · rw [handleRequest, if_neg, if_pos ⟨hheadersPath, hget⟩]
      rintro ⟨hroot, -⟩
      dsimp only at hroot
      rw [hheadersPath] at hroot
      exact absurd hroot (by decide)

/-- A header of that name is lost. -/
theorem not_undone_of_mem (hmethod : IsWord method) (hpath : IsWord path)
    (hversion : IsWord version) (hheaders : ∀ p ∈ headers, IsHeader p)
    (hproto : protoName ∈ headers.map Prod.fst) :
    ¬ Undone method path version headers body := by
  rintro ⟨req, hparse, -, -, -, -, hown, -⟩
  obtain ⟨p, hp, hname⟩ := List.mem_map.mp hproto
  rw [parse_serialize hmethod hpath hversion hheaders] at hparse
  obtain rfl := Except.ok.inj hparse
  have hget := hown p hp
  rw [hname, get_proto] at hget
  cases hget

end

/-- What was written is parsed back, unless a header is called `__proto__`. -/
theorem undone_iff (method path version : Units) (headers : List (Units × Units)) (body : Units)
    (hmethod : IsWord method) (hpath : IsWord path) (hversion : IsWord version)
    (hheaders : ∀ p ∈ headers, IsHeader p) (hnodup : (headers.map Prod.fst).Nodup) :
    Undone method path version headers body ↔ protoName ∉ headers.map Prod.fst :=
  ⟨fun h hproto => not_undone_of_mem hmethod hpath hversion hheaders hproto h,
    undone_of_notMem hmethod hpath hversion hheaders hnodup⟩

theorem isWord_get : IsWord (units "GET".toList) ∧ IsWord (units "/headers".toList) ∧
    IsWord (units "HTTP/1.1".toList) := by
  unfold IsWord
  decide

/-- An index stands first among the entries, and nothing is lost. -/
theorem undone_index : Undone (units "GET".toList) (units "/headers".toList)
    (units "HTTP/1.1".toList) [(units "x-a".toList, units "b: c".toList), (units "7".toList, [])]
    crlfcrlf := by
  obtain ⟨hmethod, hpath, hversion⟩ := isWord_get
  refine (undone_iff _ _ _ _ _ hmethod hpath hversion ?_ (by decide)).mpr (by decide)
  intro p hp
  rcases List.mem_pair.mp hp with rfl | rfl
  · exact ⟨by decide, by decide, by decide, by decide⟩
  · exact ⟨by decide, by decide, by decide, by decide⟩

/-- `__proto__: x`. -/
theorem proto_lost : IsHeader (protoName, units "x".toList) ∧
    ¬ Undone (units "GET".toList) (units "/headers".toList) (units "HTTP/1.1".toList)
      [(protoName, units "x".toList)] [] := by
  obtain ⟨hmethod, hpath, hversion⟩ := isWord_get
  have hheader : IsHeader (protoName, units "x".toList) :=
    ⟨by decide, by decide, by decide, by decide⟩
  refine ⟨hheader, not_undone_of_mem hmethod hpath hversion ?_ (by decide)⟩
  intro p hp
  rw [List.mem_singleton.mp hp]
  exact hheader

end Marketplace.RawHttp

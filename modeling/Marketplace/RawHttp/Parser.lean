import Marketplace.Core.JsMap
import Marketplace.Core.Substring
import Marketplace.Core.UnitText
import Mathlib.Data.List.Sort

/-!
# RawHttp.Parser — the HTTP/1.1 parser of hw-03

`hw-03/src/parser.js`. `headers` is an object literal: `__proto__` is no property of it but a
setter that ignores strings, and its entries are its array indices first, then the other names in
the order they were assigned. Names of headers are Latin-1, as the socket's text is.
-/

namespace Marketplace.RawHttp

open Core Core.JsString Core.UnitText

def crlf : Units := [13, 10]
def crlfcrlf : Units := [13, 10, 13, 10]
def colon : Units := [58]
def space : Units := [32]

/-! ## Object literals -/

/-- The own properties, in the order of their first assignments. -/
abbrev Object := JsMap Units Units

def protoName : Units := units "__proto__".toList

/-- `object[name] = value`. -/
def assign (object : Object) (name value : Units) : Object :=
  if name = protoName then object else object.set name value

/-- A name that is the index of an array element. -/
def isArrayIndex (name : Units) : Bool :=
  name.all isDigit && name ≠ [] && (name.head? ≠ some 48 || name = [48]) &&
    value name < 2 ^ 32 - 1

def IndexLe (p q : Units × Units) : Prop := value p.1 ≤ value q.1

instance : DecidableRel IndexLe := fun p q => inferInstanceAs (Decidable (value p.1 ≤ value q.1))

/-- `Object.entries(object)`. -/
def entries (object : Object) : List (Units × Units) :=
  (object.entries.filter fun p => isArrayIndex p.1).insertionSort IndexLe ++
    object.entries.filter fun p => ¬ isArrayIndex p.1

/-- Entries are the own properties in another order. -/
theorem entries_perm (object : Object) : (entries object).Perm object.entries := by
  have hsplit := List.filter_append_perm (fun p : Units × Units => isArrayIndex p.1) object.entries
  refine List.Perm.trans ?_ hsplit
  have hsort := List.perm_insertionSort IndexLe
    (object.entries.filter fun p => isArrayIndex p.1)
  simpa [entries] using hsort.append_right (object.entries.filter fun p => ¬ isArrayIndex p.1)

/-! ## parseHttpRequest -/

structure HttpRequest where
  method : Units
  path : Units
  version : Units
  headers : Object
  body : Units

inductive ParseError where
  | emptyRequestLine
  | invalidRequestLine

def ParseError.message : ParseError → String
  | .emptyRequestLine => "Empty request line"
  | .invalidRequestLine => "Invalid request line: expected METHOD PATH VERSION"

/-- The name and the value of a line with a colon. -/
def field (line : Units) : Option (Units × Units) :=
  (Substring.indexOf colon line).map fun i =>
    (toLowerCase (trim (line.take i)), trim (line.drop (i + 1)))

/-- The body of the loop over the lines. -/
def readLine (headers : Object) (line : Units) : Object :=
  if trim line = [] then headers
  else
    match field line with
    | none => headers
    | some (key, value) => assign headers key value

def parseHttpRequest (rawData : Units) : Except ParseError HttpRequest :=
  let parts := Substring.cut crlfcrlf rawData
  let body := crlfcrlf.intercalate parts.tail
  let lines := Substring.cut crlf (parts.headD [])
  let requestLine := lines.headD []
  if requestLine = [] then .error .emptyRequestLine
  else
    match Substring.cut space requestLine with
    | method :: path :: version :: _ =>
        if method = [] ∨ path = [] ∨ version = [] then .error .invalidRequestLine
        else .ok ⟨method, path, version, lines.tail.foldl readLine JsMap.empty, body⟩
    | _ => .error .invalidRequestLine

/-! ## buildHttpResponse -/

/-- `${key}: ${val}`. -/
def headerLine (p : Units × Units) : Units := p.1 ++ units ": ".toList ++ p.2

def contentType : Units := units "Content-Type".toList
def textPlain : Units := units "text/plain".toList

/-- `{ 'Content-Type': …, 'Content-Length': …, 'Connection': …, ...headers }`. -/
def allHeaders (headers : List (Units × Units)) (body : Units) : Object :=
  headers.foldl (fun object p => object.set p.1 p.2)
    (((JsMap.empty.set contentType textPlain).set (units "Content-Length".toList)
      (decimal (byteLength body))).set (units "Connection".toList) (units "close".toList))

def buildHttpResponse (statusCode : ℕ) (statusText : Units) (headers : List (Units × Units))
    (body : Units) : Units :=
  units "HTTP/1.1 ".toList ++ decimal statusCode ++ space ++ statusText ++ crlf ++
    crlf.intercalate ((entries (allHeaders headers body)).map headerLine) ++ crlfcrlf ++ body

/-! ## Reading lines -/

/-- The values of the fields of that name. -/
def lineValues (name : Units) (lines : List Units) : List Units :=
  (lines.filterMap field).filterMap fun p => if p.1 = name then some p.2 else none

/-- The values of the fields of that name in a header block. -/
def fieldValues (name headersPart : Units) : List Units :=
  lineValues name (Substring.cut crlf headersPart).tail

section

variable {rawData name value : Units} {headerEnd : ℕ}

/-- The header block of a request that has one, and what comes behind it. -/
theorem cut_head (h : Substring.indexOf crlfcrlf rawData = some headerEnd) :
    (Substring.cut crlfcrlf rawData).headD [] = rawData.take headerEnd ∧
      crlfcrlf.intercalate (Substring.cut crlfcrlf rawData).tail = rawData.drop (headerEnd + 4) := by
  rw [Substring.cut_of_some (by decide) h]
  exact ⟨rfl, Substring.intercalate_cut (by decide) _⟩

/-- A line that was written is read. -/
theorem field_headerLine (hname : 58 ∉ name) :
    field (headerLine (name, value)) = some (toLowerCase (trim name), trim value) := by
  have hline : headerLine (name, value) = name ++ (colon ++ 32 :: value) := by
    rw [headerLine, List.append_assoc]
    rfl
  have hindex : Substring.indexOf colon (headerLine (name, value)) = some name.length := by
    rw [hline, colon, Substring.indexOf_skip _ hname,
      Substring.indexOf_start (List.prefix_append _ _)]
    simp
  have hdrop : (headerLine (name, value)).drop (name.length + 1) = 32 :: value := by
    rw [hline, ← List.append_assoc]
    exact List.drop_left' (by simp [colon])
  rw [field, hindex, Option.map_some, hdrop, trim_cons (by decide), hline, List.take_left]

/-- A line that was written is not blank. -/
theorem trim_headerLine : trim (headerLine (name, value)) ≠ [] :=
  trim_ne_nil (u := 58) (by simp [headerLine, units]) (by decide)

end

/-! ## What a response looks like -/

end Marketplace.RawHttp

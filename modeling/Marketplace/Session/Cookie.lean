import Marketplace.Core.Base64
import Marketplace.Session.Store

/-!
# Session.Cookie — the session of a request

`src/session/session.middleware.ts`. `use` guards the call of the store with a `try`, but
`readCookie` stands before it: a percent escape that does not decode is a URIError, and then
`next` is never called. The only other way to fail is inside the `catch`, which reads
`message` of whatever the store rejected with.
-/

namespace Marketplace.Session

open Core JsText

def SESSION_COOKIE : String := "sid"

/-- The loop of `readCookie`. -/
def readParts (name : List Char) : List (List Char) → Except Thrown (Option String)
  | [] => .ok none
  | part :: parts =>
      match part.dropWhile (· ≠ '=') with
      -- `indexOf` is −1
      | [] => readParts name parts
      | _ :: value =>
          if trim (part.takeWhile (· ≠ '=')) = name then
            match decodeURIComponent (trim value) with
            | none => .error (.error "URIError")
            | some text => .ok (some (String.ofList text))
          else readParts name parts

def readCookie (header : Option String) (name : String) : Except Thrown (Option String) :=
  match header.filter (· ≠ "") with
  | none => .ok none
  | some header => readParts name.toList (split ';' header.toList)

/-- What the middleware reads of a request. -/
structure SessionRequest where
  cookie : Option String
  secure : Bool
  hostname : String

def LOOPBACK_HOSTS : List String := ["localhost", "127.0.0.1", "::1", "[::1]"]

def cookieAttributes (req : SessionRequest) : String :=
  let local' := !req.secure && decide (req.hostname ∈ LOOPBACK_HOSTS)
  "Path=/; HttpOnly; SameSite=Lax" ++ (if local' then "" else "; Secure")

/-- The `Set-Cookie` that carries `sid`. -/
def setSessionCookie (req : SessionRequest) (sid : String) : String :=
  SESSION_COOKIE ++ "=" ++ sid ++ "; " ++ cookieAttributes req

def clearSessionCookie (req : SessionRequest) : String :=
  SESSION_COOKIE ++ "=; " ++ cookieAttributes req ++ "; Max-Age=0"

/-- How the promise of `touch` settles. The reason of a rejection is its `message`, or `none`
where the reason is `null` or `undefined` and has no property at all. -/
inductive Outcome where
  | data (data : SessionData)
  | null
  | rejected (reason : Option String)
deriving DecidableEq

/-- What `use` has done when its promise settles. -/
structure Handled where
  nexts : ℕ := 0
  session : Option ReqSession := none
  setCookie : Option String := none
  rejects : Option Thrown := none

def SessionMiddleware.use (touch : String → Outcome) (req : SessionRequest) : Handled :=
  match readCookie req.cookie SESSION_COOKIE with
  | .error err => { rejects := some err }
  | .ok cookie =>
      match cookie.filter (· ≠ "") with
      | none => { nexts := 1 }
      | some sid =>
          match touch sid with
          | .data data => { nexts := 1, session := some { sid, data } }
          | .null => { nexts := 1, setCookie := some (clearSessionCookie req) }
          | .rejected (some _) => { nexts := 1 }
          -- `(err as Error).message`
          | .rejected none => { rejects := some (.error "TypeError") }

/-! ## A header that does no harm -/

/-- The name and the value of one pair of a `Cookie` header. -/
def pair (part : List Char) : Option (List Char × List Char) :=
  match part.dropWhile (· ≠ '=') with
  | [] => none
  | _ :: value => some (trim (part.takeWhile (· ≠ '=')), trim value)

/-- The value of the first cookie of this name. -/
def firstCookie (header : Option String) (name : String) : Option (List Char) :=
  (((split ';' (header.getD "").toList).filterMap pair).find? (·.1 = name.toList)).map (·.2)

/-- The request goes on, with the session that its cookie names and the store knows. -/
structure NeverFails (touch : String → Outcome) (req : SessionRequest) : Prop where
  next : (SessionMiddleware.use touch req).nexts = 1
  resolves : (SessionMiddleware.use touch req).rejects = none
  session : ∀ s, (SessionMiddleware.use touch req).session = some s ↔
    ∃ value text, firstCookie req.cookie SESSION_COOKIE = some value ∧ value ≠ [] ∧
      decodeURIComponent value = some text ∧ s.sid = String.ofList text ∧
      touch s.sid = .data s.data

/-- The value of the cookie decodes, and the store does not reject what it names with `null` or
`undefined`. -/
def Harmless (touch : String → Outcome) (req : SessionRequest) : Prop :=
  ∀ value ∈ firstCookie req.cookie SESSION_COOKIE,
    ∃ text, decodeURIComponent value = some text ∧
      (text ≠ [] → touch (String.ofList text) ≠ .rejected none)

/-- The `Cookie` header of these pairs. -/
def cookieHeader (pairs : List (List Char)) : String := String.ofList ("; ".toList.intercalate pairs)

/-- The pair that a client keeps of a `Set-Cookie` header. -/
def keptPair (setCookie : String) : List Char := setCookie.toList.takeWhile (· ≠ ';')

/-! ## Reading the header -/

section

variable {header : Option String} {name : String} {touch : String → Outcome}
  {req : SessionRequest}

/-- What becomes of the value that was found. -/
def decoded : Option (List Char) → Except Thrown (Option String)
  | none => .ok none
  | some value =>
      match decodeURIComponent value with
      | none => .error (.error "URIError")
      | some text => .ok (some (String.ofList text))

/-- The value of a cookie is that of the first part with its name. -/
theorem readParts_eq {name : List Char} (parts : List (List Char)) :
    readParts name parts = decoded (((parts.filterMap pair).find? (·.1 = name)).map (·.2)) := by
  induction parts with
  | nil => rfl
  | cons part parts ih =>
      unfold readParts
      rw [List.filterMap_cons]
      unfold pair
      cases part.dropWhile (· ≠ '=') with
      | nil => exact ih
      | cons c value =>
          dsimp only
          by_cases hname : trim (part.takeWhile (· ≠ '=')) = name
          · rw [if_pos hname, List.find?_cons_of_pos (by simpa using hname)]
            rfl
          · rw [if_neg hname, List.find?_cons_of_neg (by simpa using hname)]
            exact ih

/-- The first cookie of the name decides. -/
theorem readCookie_eq : readCookie header name = decoded (firstCookie header name) := by
  unfold readCookie
  cases header with
  | none => rfl
  | some header =>
      rw [Option.filter_some]
      by_cases hempty : header = ""
      · subst hempty
        rfl
      · rw [if_pos (by simpa using hempty)]
        exact readParts_eq _

theorem ofList_eq_empty {text : List Char} : String.ofList text = "" ↔ text = [] := by
  rw [← String.toList_inj, String.toList_ofList]
  rfl

/-- What `use` does with a value that decodes and is not empty. -/
theorem use_of_decodes {value text : List Char}
    (hfirst : firstCookie req.cookie SESSION_COOKIE = some value)
    (htext : decodeURIComponent value = some text) (hne : text ≠ []) :
    SessionMiddleware.use touch req =
      match touch (String.ofList text) with
      | .data data => { nexts := 1, session := some { sid := String.ofList text, data } }
      | .null => { nexts := 1, setCookie := some (clearSessionCookie req) }
      | .rejected (some _) => { nexts := 1 }
      | .rejected none => { rejects := some (.error "TypeError") } := by
  have hread : readCookie req.cookie SESSION_COOKIE = .ok (some (String.ofList text)) := by
    rw [readCookie_eq, hfirst]
    simp [decoded, htext]
  have hfilter : (some (String.ofList text)).filter (fun t => decide (t ≠ "")) =
      some (String.ofList text) := by
    rw [Option.filter_some, decide_eq_true (mt ofList_eq_empty.mp hne), if_pos rfl]
  unfold SessionMiddleware.use
  rw [hread]
  dsimp only
  rw [hfilter]

/-- Without a value there is nothing to look up. -/
theorem use_of_nothing (h : ∀ value ∈ firstCookie req.cookie SESSION_COOKIE, value = []) :
    SessionMiddleware.use touch req = { nexts := 1 } := by
  unfold SessionMiddleware.use
  rw [readCookie_eq]
  cases hfirst : firstCookie req.cookie SESSION_COOKIE with
  | none => rfl
  | some value =>
      obtain rfl := h value hfirst
      rfl

/-- A value that does not decode ends the request. -/
theorem use_of_malformed {value : List Char}
    (hfirst : firstCookie req.cookie SESSION_COOKIE = some value)
    (htext : decodeURIComponent value = none) :
    SessionMiddleware.use touch req = { rejects := some (.error "URIError") } := by
  unfold SessionMiddleware.use
  rw [readCookie_eq, hfirst]
  simp [decoded, htext]

/-- A value is empty, does not decode, or decodes to a text that is not empty. -/
theorem first_cases (header : Option String) (name : String) :
    (∀ value ∈ firstCookie header name, value = []) ∨
    (∃ value, firstCookie header name = some value ∧ decodeURIComponent value = none) ∨
    ∃ value text, firstCookie header name = some value ∧ decodeURIComponent value = some text ∧
      value ≠ [] ∧ text ≠ [] := by
  cases hfirst : firstCookie header name with
  | none => exact Or.inl (by simp)
  | some value =>
      by_cases hvalue : value = []
      · exact Or.inl (by simpa using hvalue)
      · right
        cases htext : decodeURIComponent value with
        | none => exact Or.inl ⟨value, rfl, htext⟩
        | some text =>
            exact Or.inr ⟨value, text, rfl, htext, hvalue, fun h =>
              decodeURIComponent_ne_nil hvalue (h ▸ htext)⟩

/-- A request has a session exactly if its first cookie of the name is not empty, decodes, and the
store knows the text. -/
theorem session_iff (s : ReqSession) : (SessionMiddleware.use touch req).session = some s ↔
    ∃ value text, firstCookie req.cookie SESSION_COOKIE = some value ∧ value ≠ [] ∧
      decodeURIComponent value = some text ∧ s.sid = String.ofList text ∧
      touch s.sid = .data s.data := by
  -- no cookie of the name, one that does not decode, or one that does
  rcases first_cases req.cookie SESSION_COOKIE with hnone | ⟨value, hfirst, htext⟩ |
    ⟨value, text, hfirst, htext, hvalue, hne⟩
  · rw [use_of_nothing hnone]
    constructor
    · intro h
      cases h
    · rintro ⟨value, text, hfirst, hvalue, -⟩
      exact absurd (hnone value hfirst) hvalue
  · rw [use_of_malformed hfirst htext]
    constructor
    · intro h
      cases h
    · rintro ⟨value', text, hfirst', -, htext', -⟩
      rw [hfirst, Option.some.injEq] at hfirst'
      rw [hfirst', htext'] at htext
      cases htext
  · rw [use_of_decodes hfirst htext hne]
    constructor
    · intro h
      refine ⟨value, text, hfirst, hvalue, htext, ?_⟩
      split at h <;> cases h
      next htouch => exact ⟨rfl, htouch⟩
    · rintro ⟨value', text', hfirst', -, htext', hsid, htouch⟩
      rw [hfirst, Option.some.injEq] at hfirst'
      subst hfirst'
      rw [htext, Option.some.injEq] at htext'
      subst htext'
      obtain ⟨sid, data⟩ := s
      obtain rfl : sid = String.ofList text := hsid
      simp only [htouch]

/-- A request fails through a value that does not decode and through a rejection without a
reason, and through nothing else. -/
theorem neverFails_iff : NeverFails touch req ↔ Harmless touch req := by
  rcases first_cases req.cookie SESSION_COOKIE with hnone | ⟨value, hfirst, htext⟩ |
    ⟨value, text, hfirst, htext, hvalue, hne⟩
  · refine iff_of_true ⟨?_, ?_, session_iff⟩ ?_
    · rw [use_of_nothing hnone]
    · rw [use_of_nothing hnone]
    · intro value hfirst
      obtain rfl := hnone value hfirst
      exact ⟨[], rfl, fun hne => absurd rfl hne⟩
  -- a value that does not decode makes the middleware throw
  · refine iff_of_false ?_ ?_
    · intro h
      have hnext := h.next
      rw [use_of_malformed hfirst htext] at hnext
      cases hnext
    · intro h
      obtain ⟨text, htext', -⟩ := h value hfirst
      rw [htext] at htext'
      cases htext'
  · have huse : SessionMiddleware.use touch req = _ := use_of_decodes hfirst htext hne
    constructor
    · intro h value' hfirst'
      rw [hfirst, Option.mem_some_iff] at hfirst'
      subst hfirst'
      refine ⟨text, htext, fun _ htouch => ?_⟩
      have hnext := h.next
      rw [huse, htouch] at hnext
      cases hnext
    · intro h
      obtain ⟨text', htext', htouch⟩ := h value hfirst
      rw [htext, Option.some.injEq] at htext'
      subst htext'
      have htouch := htouch hne
      refine ⟨?_, ?_, session_iff⟩
      · rw [huse]
        split
        · rfl
        · rfl
        · rfl
        · next hnull => exact absurd hnull htouch
      · rw [huse]
        split
        · rfl
        · rfl
        · rfl
        · next hnull => exact absurd hnull htouch

/-! ## A cookie that was set comes back -/

theorem trim_space (s : List Char) : trim (' ' :: s) = trim s := by
  unfold trim
  rw [List.dropWhile_cons_of_pos (by decide)]

/-- A blank in front of a part is trimmed off. -/
theorem pair_space (part : List Char) : pair (' ' :: part) = pair part := by
  unfold pair
  rw [List.dropWhile_cons_of_pos (by decide), List.takeWhile_cons_of_pos (by decide)]
  cases part.dropWhile (· ≠ '=') with
  | nil => rfl
  | cons c value =>
      dsimp only
      rw [trim_space]

/-- A blank in front of a header makes no difference. -/
theorem pairs_space (text : List Char) :
    (split ';' (' ' :: text)).filterMap pair = (split ';' text).filterMap pair := by
  rw [split, if_neg (by decide)]
  cases split ';' text with
  | nil => rfl
  | cons part parts =>
      dsimp only
      rw [List.filterMap_cons, List.filterMap_cons, pair_space]

theorem separator (text : List Char) : "; ".toList ++ text = ';' :: ' ' :: text := rfl

/-- The pairs of a header, one after the other. -/
theorem pairs_intercalate {before : List (List Char)} {mine : List Char}
    (after : List (List Char)) (hbefore : ∀ part ∈ before, ';' ∉ part) (hmine : ';' ∉ mine) :
    ∃ rest, (split ';' ("; ".toList.intercalate (before ++ mine :: after))).filterMap pair =
      before.filterMap pair ++ ((pair mine).toList ++ rest) := by
  induction before with
  | nil =>
      have hcons : ∀ parts, (mine :: parts).filterMap pair =
          (pair mine).toList ++ parts.filterMap pair := by
        intro parts
        rw [List.filterMap_cons]
        cases pair mine <;> rfl
      cases after with
      | nil =>
          refine ⟨[], ?_⟩
          rw [List.nil_append, List.intercalate_singleton, split_of_notMem hmine, hcons]
          rfl
      | cons next after =>
          refine ⟨(split ';' (' ' :: "; ".toList.intercalate (next :: after))).filterMap pair, ?_⟩
          rw [List.nil_append, List.intercalate_cons_cons, List.append_assoc,
            separator, split_cons_sep hmine, hcons]
          rfl
  | cons part before ih =>
      obtain ⟨rest, hrest⟩ := ih fun p hp => hbefore p (List.mem_cons_of_mem _ hp)
      refine ⟨rest, ?_⟩
      rw [List.cons_append, List.intercalate_cons_of_ne_nil (by simp), List.append_assoc,
        separator, split_cons_sep (hbefore part List.mem_cons_self), List.filterMap_cons, pairs_space, hrest,
        List.filterMap_cons]
      cases pair part <;> rfl

/-- What a browser sends beside the session cookie: no `;`, and another name. -/
def Other (name : String) (part : List Char) : Prop :=
  ';' ∉ part ∧ ∀ value, pair part ≠ some (name.toList, value)

/-- Among other cookies the first one of the name is found, whatever stands behind it. -/
theorem first_intercalate {before after : List (List Char)} {mine value : List Char}
    (hbefore : ∀ part ∈ before, Other name part) (hsemi : ';' ∉ mine)
    (hmine : pair mine = some (name.toList, value)) :
    firstCookie (some (cookieHeader (before ++ mine :: after))) name = some value := by
  obtain ⟨rest, hrest⟩ := pairs_intercalate after (fun part hp => (hbefore part hp).1) hsemi
  have hnone : (before.filterMap pair).find? (·.1 = name.toList) = none := by
    rw [List.find?_eq_none]
    intro p hp hname
    obtain ⟨part, hpart, hpair⟩ := List.mem_filterMap.mp hp
    have hname' : p.1 = name.toList := of_decide_eq_true hname
    exact (hbefore part hpart).2 p.2 (by rw [hpair, ← hname'])
  unfold firstCookie cookieHeader
  rw [Option.getD_some, String.toList_ofList, hrest, hmine, List.find?_append, hnone]
  simp

/-- A browser sends back what `Set-Cookie` said before its first `;`. -/
theorem keptPair_set {sid : List Char} (h : ';' ∉ sid) :
    keptPair (setSessionCookie req (String.ofList sid)) = "sid=".toList ++ sid := by
  have htext : (setSessionCookie req (String.ofList sid)).toList =
      ("sid=".toList ++ sid) ++ ';' :: ' ' :: (cookieAttributes req).toList := by
    simp [setSessionCookie, SESSION_COOKIE, String.toList_append, String.toList_ofList]
  have hall : ∀ c ∈ "sid=".toList ++ sid, decide (c ≠ ';') = true := by
    intro c hc
    rcases List.mem_append.mp hc with hc | hc
    · exact List.all_eq_true.mp (by decide : ("sid=".toList.all fun c => c ≠ ';') = true) c hc
    · exact decide_eq_true fun heq => h (heq ▸ hc)
  rw [keptPair, htext, List.takeWhile_append_of_pos hall, List.takeWhile_cons_of_neg (by decide),
    List.append_nil]

/-- The random id is read back as it was set. -/
theorem readCookie_set {before after : List (List Char)} (buffer : List UInt8)
    (hbefore : ∀ part ∈ before, Other SESSION_COOKIE part) :
    readCookie (some (cookieHeader (before ++
      keptPair (setSessionCookie req (String.ofList (Base64.encode buffer))) :: after)))
      SESSION_COOKIE = .ok (some (String.ofList (Base64.encode buffer))) := by
  have hsemi : ';' ∉ Base64.encode buffer := by
    intro hin
    exact absurd (Base64.encode_forall (p := (· ≠ ';')) (by decide) _ hin) (by decide)
  have hpercent : '%' ∉ Base64.encode buffer := by
    intro hin
    exact absurd (Base64.encode_forall (p := (· ≠ '%')) (by decide) _ hin) (by decide)
  have hspace : ∀ c ∈ Base64.encode buffer, isSpace c = false := by
    intro c hc
    simpa using Base64.encode_forall (p := (! isSpace ·)) (by decide) c hc
  have hpair : pair ("sid=".toList ++ Base64.encode buffer) =
      some (SESSION_COOKIE.toList, Base64.encode buffer) := by
    show some (trim "sid".toList, trim (Base64.encode buffer)) = _
    rw [trim_of_notSpace hspace]
    rfl
  rw [readCookie_eq, keptPair_set hsemi, first_intercalate hbefore ?_ hpair]
  · simp [decoded, decodeURIComponent_of_notMem hpercent]
  · simp [hsemi]

end

/-- When a session cookie cannot fail a request; the session it gives; and the cookie that is
set is read back. -/
theorem cookie_harmless_iff (touch : String → Outcome) (req : SessionRequest) :
    (NeverFails touch req ↔ Harmless touch req) ∧
    (∀ s, (SessionMiddleware.use touch req).session = some s ↔
      ∃ value text, firstCookie req.cookie SESSION_COOKIE = some value ∧ value ≠ [] ∧
        decodeURIComponent value = some text ∧ s.sid = String.ofList text ∧
        touch s.sid = .data s.data) ∧
    ∀ (buffer : List UInt8) (before after : List (List Char)),
      (∀ part ∈ before, Other SESSION_COOKIE part) →
      readCookie (some (cookieHeader (before ++
        keptPair (setSessionCookie req (String.ofList (Base64.encode buffer))) :: after)))
        SESSION_COOKIE = .ok (some (String.ofList (Base64.encode buffer))) := by
  refine ⟨neverFails_iff, session_iff, ?_⟩
  intro buffer before after hbefore
  exact readCookie_set buffer hbefore

/-- The cookie set for a session is read back beside a theme cookie. -/
theorem cookie_harmless_theme :
    (∀ part ∈ ["theme=dark".toList], Other SESSION_COOKIE part) ∧
    readCookie (some (cookieHeader (["theme=dark".toList] ++
      keptPair (setSessionCookie ⟨none, false, "localhost"⟩
        (String.ofList (Base64.encode (List.replicate 32 0)))) :: [])))
      SESSION_COOKIE = .ok (some (String.ofList (Base64.encode (List.replicate 32 0)))) := by
  have hother : ∀ part ∈ ["theme=dark".toList], Other SESSION_COOKIE part := by
    intro part hpart
    rw [List.mem_singleton.mp hpart]
    refine ⟨by decide, fun value hpair => ?_⟩
    have hname : (pair "theme=dark".toList).map Prod.fst = some "sid".toList := by
      rw [hpair]
      rfl
    exact absurd hname (by decide)
  exact ⟨hother, (cookie_harmless_iff (fun _ => .null) ⟨none, false, "localhost"⟩).2.2
    (List.replicate 32 0) ["theme=dark".toList] [] hother⟩

/-- `Cookie: sid=%` ends a request with a URIError. -/
theorem malformed_cookie_fails :
    ¬ NeverFails (fun _ => .null) ⟨some "sid=%", true, "example.com"⟩ := by
  intro h
  have hnext := h.next
  exact absurd hnext (by decide)

end Marketplace.Session

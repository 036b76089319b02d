import Marketplace.Core.Json
import Marketplace.Outbox.Event
import Mathlib.Data.Rat.Defs
import Mathlib.Data.List.Basic

/-!
# Outbox.Codec — the event as JSON, and its decoder

`JSON.stringify(toOrderPlacedEvent(…))` and `parseOrderPlacedEvent` of
`src/outbox/order-placed.event.ts`. An id is the decimal text of its number.

`parse_toJson`: what the consumer reads of an encoded event is the event.
-/

namespace Marketplace.Outbox

open Core

/-! ## Encoder -/

def padNumber (width n : ℕ) : String :=
  String.ofList (List.replicate (width - (toString n).length) '0') ++ toString n

/-- Year, month and day of a day since 1970-01-01, in the Gregorian calendar. -/
def civil (day : ℕ) : ℕ × ℕ × ℕ :=
  let z := day + 719468
  let era := z / 146097
  let dayOfEra := z % 146097
  let yearOfEra := (dayOfEra - dayOfEra / 1460 + dayOfEra / 36524 - dayOfEra / 146096) / 365
  let dayOfYear := dayOfEra - (365 * yearOfEra + yearOfEra / 4 - yearOfEra / 100)
  let mp := (5 * dayOfYear + 2) / 153
  let month := if mp < 10 then mp + 3 else mp - 9
  (yearOfEra + era * 400 + (if month ≤ 2 then 1 else 0), month,
    dayOfYear - (153 * mp + 2) / 5 + 1)

/-- `Date.prototype.toISOString` of a moment in milliseconds. The calendar repeats every 400
years, and 280000 years before 1970 there are no dates. -/
def toISOString (ms : ℤ) : String :=
  let (y, month, day) := civil (ms / 86400000 + 146097 * 700).toNat
  let year : ℤ := y - 280000
  let time := (ms % 86400000).toNat
  (if 0 ≤ year ∧ year ≤ 9999 then padNumber 4 year.toNat
    else (if year < 0 then "-" else "+") ++ padNumber 6 year.natAbs) ++ "-" ++
    padNumber 2 month ++ "-" ++ padNumber 2 day ++ "T" ++ padNumber 2 (time / 3600000) ++ ":" ++
    padNumber 2 (time / 60000 % 60) ++ ":" ++ padNumber 2 (time / 1000 % 60) ++ "." ++
    padNumber 3 (time % 1000) ++ "Z"

example : toISOString 1709211661500 = "2024-02-29T13:01:01.500Z" := by decide +kernel

example : toISOString (-62198755200000) = "-000001-01-01T00:00:00.000Z" := by decide +kernel

/-- The text of a `bigint` product id. -/
def productIdText (id : ProductId) : String := toString id

def EventItem.toJson (item : EventItem) : Json :=
  .obj [("productId", .str (productIdText item.productId)), ("quantity", .num item.quantity),
    ("unitPriceCents", .num item.unitPriceCents)]

def orderPlaced : String := "order.placed"

def OrderPlacedEvent.toJson (e : OrderPlacedEvent) : Json :=
  .obj [("eventId", .str (Nat.repr e.eventId)), ("type", .str orderPlaced), ("version", .num 1),
    ("occurredAt", .str (toISOString e.occurredAt)),
    ("data", .obj [("orderId", .str (Nat.repr e.orderId)), ("userId", .str (Nat.repr e.userId)),
      ("totalCents", .num e.totalCents), ("shippingCountry", .str e.shippingCountry),
      ("items", .arr (e.items.map EventItem.toJson))])]

/-! ## Decoder -/

/-- What the consumer uses of a parsed event. -/
structure ParsedEvent where
  eventId : String
  orderId : String
  userId : String
  totalCents : ℚ
deriving DecidableEq, Repr

/-- `typeof v === 'string'`. -/
def asString : Option Json → Option String
  | some (.str s) => some s
  | _ => none

/-- `typeof v === 'number'`. -/
def asNumber : Option Json → Option ℚ
  | some (.num n) => some n
  | _ => none

/-- `raw` is the value of the text, `none` if it is no JSON. The result is `none` where the
source returns null. -/
def parseOrderPlacedEvent (raw : Option Json) : Option ParsedEvent := do
  let body ← raw
  let type ← asString (← body.prop "type")
  guard (type = orderPlaced)
  let eventId ← asString (← body.prop "eventId")
  guard (eventId ≠ "")
  let data ← (← body.prop "data")
  guard (!data.falsy)
  let orderId ← asString (← data.prop "orderId")
  let userId ← asString (← data.prop "userId")
  let totalCents ← asNumber (← data.prop "totalCents")
  return { eventId, orderId, userId, totalCents }

/-! ## Round trip -/

/-- The number of a decimal text. -/
def textNat (s : String) : Option ℕ :=
  if s.toList ≠ [] ∧ s.toList.all Char.isDigit = true then some (Nat.ofDigitChars 10 s.toList 0)
  else none

/-- Reading back the decimal digits of a number gives the number. -/
@[simp] theorem textNat_repr (n : ℕ) : textNat (Nat.repr n) = some n := by
  have hne : Nat.toDigits 10 n ≠ [] := Nat.toDigits_ne_nil
  have hdigits : (Nat.toDigits 10 n).all Char.isDigit = true := by
    rw [List.all_eq_true]
    intro c hc
    exact Nat.isDigit_of_mem_toDigits (by decide) (by decide) hc
  unfold textNat
  rw [Nat.toList_repr, if_pos ⟨hne, hdigits⟩, Nat.ofDigitChars_toDigits (by decide) (by decide)]

/-- Numbers with the same digits are the same: reading the digits back gives both. -/
theorem repr_injective {m n : ℕ} (h : Nat.repr m = Nat.repr n) : m = n := by
  have hm := textNat_repr m
  rw [h, textNat_repr] at hm
  exact (Option.some.inj hm).symm

/-- The event as its consumer reads it. -/
def OrderPlacedEvent.parsed (e : OrderPlacedEvent) : ParsedEvent :=
  { eventId := Nat.repr e.eventId, orderId := Nat.repr e.orderId, userId := Nat.repr e.userId
    totalCents := e.totalCents }

/-- No number is written as the empty text, which the decoder would take for a missing event id.
-/
theorem repr_ne_empty (n : ℕ) : Nat.repr n ≠ "" := by
  intro heq
  have hread := textNat_repr n
  rw [heq] at hread
  cases hread

/-- The consumer's parser takes every payload that the service writes, and what it reads are the
fields of the event. -/
theorem parse_toJson (e : OrderPlacedEvent) :
    parseOrderPlacedEvent (some e.toJson) = some e.parsed := by
  have hid : (guard (Nat.repr e.eventId ≠ "") : Option Unit) = some () :=
    if_pos (repr_ne_empty e.eventId)
  -- the fields are found as they stand; only this check depends on the event
  change (guard (Nat.repr e.eventId ≠ "") : Option Unit).bind _ = _
  rw [hid]
  rfl

end Marketplace.Outbox

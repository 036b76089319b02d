import Marketplace.Core.JsonRoundTrip
import Marketplace.Core.Utf8
import Marketplace.Outbox.Codec

/-!
# Outbox.Wire — the event as octets

`src/outbox/order-placed.event.ts` again, with the types as it declares them, and the content
that `publishRow` of `src/outbox/relay.ts` makes of a row. On the way the event is in a `jsonb`
column, which keeps a value up to the order of names.

`published_decoded`: the relay's octets are decoded to the event. `sound_iff`: what the decoder
returns is an event exactly if the fields it does not look at are there as well.
-/

namespace Marketplace.Outbox.Wire

open Core JsonText

/-! ## Types -/

structure Item where
  productId : String
  quantity : Number
  unitPriceCents : Number

structure Data where
  orderId : String
  userId : String
  totalCents : Number
  shippingCountry : String
  items : List Item

/-- `type` and `version` are constants. -/
structure OrderPlacedEvent where
  eventId : String
  occurredAt : String
  data : Data

abbrev SafeInteger := {n : ℤ // |n| < 2 ^ 53}

/-- A valid `Date`, in milliseconds. -/
abbrev Date := {ms : ℤ // |ms| ≤ 8640000000000000}

/-- What `randomUUID` returns; all that matters is that it is not empty. -/
abbrev EventId := {s : String // s ≠ ""}

structure Line where
  productId : String
  quantity : SafeInteger
  unitPriceCents : SafeInteger
  lineTotalCents : SafeInteger

structure PlacedOrder where
  orderId : String
  userId : String
  totalCents : SafeInteger
  shippingCountry : String
  createdAt : Date
  items : List Line

/-! ## Encoder -/

def SafeInteger.number (n : SafeInteger) : Number := .finite n.val

def toOrderPlacedEvent (eventId : EventId) (order : PlacedOrder) : OrderPlacedEvent where
  eventId := eventId
  occurredAt := toISOString order.createdAt.val
  data :=
    { orderId := order.orderId
      userId := order.userId
      totalCents := order.totalCents.number
      shippingCountry := order.shippingCountry
      items := order.items.map fun l =>
        ⟨l.productId, l.quantity.number, l.unitPriceCents.number⟩ }

def Item.value (item : Item) : Value :=
  .obj [("productId", .str item.productId), ("quantity", .num item.quantity),
    ("unitPriceCents", .num item.unitPriceCents)]

def Data.value (data : Data) : Value :=
  .obj [("orderId", .str data.orderId), ("userId", .str data.userId),
    ("totalCents", .num data.totalCents), ("shippingCountry", .str data.shippingCountry),
    ("items", .arr (data.items.map Item.value))]

def OrderPlacedEvent.value (e : OrderPlacedEvent) : Value :=
  .obj [("eventId", .str e.eventId), ("type", .str orderPlaced), ("version", .num (.finite 1)),
    ("occurredAt", .str e.occurredAt), ("data", e.data.value)]

/-- `Buffer.from(JSON.stringify(row.payload))`. -/
def content (dec : Decimals) (payload : Value) : List UInt8 := Utf8.encode (text dec payload)

/-! ## Decoder -/

/-- `v.name`: `none` throws, and `some none` is undefined. -/
def prop (name : String) : Value → Option (Option Value)
  | .null => none
  | .obj fields => some (fields.lookup name)
  | _ => some none

def falsy : Value → Bool
  | .null => true
  | .bool b => !b
  | .num n => n = .finite 0
  | .str s => s = ""
  | .arr _ => false
  | .obj _ => false

def asString : Option Value → Option String
  | some (.str s) => some s
  | _ => none

def asNumber : Option Value → Option Number
  | some (.num n) => some n
  | _ => none

/-- The checks of `parseOrderPlacedEvent`; `none` where it returns null. -/
def accept (body : Value) : Option Value := do
  let type ← asString (← prop "type" body)
  guard (type = orderPlaced)
  let eventId ← asString (← prop "eventId" body)
  guard (eventId ≠ "")
  let data ← (← prop "data" body)
  guard (!falsy data)
  let _ ← asString (← prop "orderId" data)
  let _ ← asString (← prop "userId" data)
  let _ ← asNumber (← prop "totalCents" data)
  return body

def parseOrderPlacedEvent (dbl : Doubles) (raw : List UInt8) : Option Value :=
  (parse dbl (Utf8.decode raw)).bind accept

/-! ## The declared type -/

/-- The value under a path of names. -/
def find : List String → Value → Option Value
  | [], v => some v
  | name :: path, .obj fields => (fields.lookup name).bind (find path)
  | _ :: _, _ => none

def asItems : Option Value → Option (List Value)
  | some (.arr vs) => some vs
  | _ => none

def readItem (v : Value) : Option Item := do
  let productId ← asString (find ["productId"] v)
  let quantity ← asNumber (find ["quantity"] v)
  let unitPriceCents ← asNumber (find ["unitPriceCents"] v)
  return { productId, quantity, unitPriceCents }

/-- The event that a value is, if it has all the fields that `OrderPlacedEvent` declares. -/
def readEvent (v : Value) : Option OrderPlacedEvent := do
  let type ← asString (find ["type"] v)
  guard (type = orderPlaced)
  let version ← asNumber (find ["version"] v)
  guard (version = .finite 1)
  let eventId ← asString (find ["eventId"] v)
  let occurredAt ← asString (find ["occurredAt"] v)
  let orderId ← asString (find ["data", "orderId"] v)
  let userId ← asString (find ["data", "userId"] v)
  let totalCents ← asNumber (find ["data", "totalCents"] v)
  let shippingCountry ← asString (find ["data", "shippingCountry"] v)
  let items ← (← asItems (find ["data", "items"] v)).mapM readItem
  return { eventId, occurredAt, data := { orderId, userId, totalCents, shippingCountry, items } }

/-! ## What is sound, and what is checked -/

/-- For these octets: what is returned is an event. -/
def Sound (dbl : Doubles) (raw : List UInt8) : Prop :=
  ∀ v, parseOrderPlacedEvent dbl raw = some v → ∃ e, readEvent v = some e

/-- What the decoder looks at. -/
structure Checked (body : Value) : Prop where
  type : find ["type"] body = some (.str orderPlaced)
  eventId : ∃ s, find ["eventId"] body = some (.str s) ∧ s ≠ ""
  orderId : ∃ s, find ["data", "orderId"] body = some (.str s)
  userId : ∃ s, find ["data", "userId"] body = some (.str s)
  totalCents : ∃ n, find ["data", "totalCents"] body = some (.num n)

structure IsItem (v : Value) : Prop where
  productId : ∃ s, find ["productId"] v = some (.str s)
  quantity : ∃ n, find ["quantity"] v = some (.num n)
  unitPriceCents : ∃ n, find ["unitPriceCents"] v = some (.num n)

/-- What it does not look at. -/
structure Unchecked (body : Value) : Prop where
  version : find ["version"] body = some (.num (.finite 1))
  occurredAt : ∃ s, find ["occurredAt"] body = some (.str s)
  shippingCountry : ∃ s, find ["data", "shippingCountry"] body = some (.str s)
  items : ∃ vs, find ["data", "items"] body = some (.arr vs) ∧ ∀ v ∈ vs, IsItem v

/-! ## What the decoder accepts -/

section

variable {v body : Value} {name : String} {path : List String}

theorem find_nil : find [] v = some v := by rw [find]

theorem find_obj {fields : List (String × Value)} :
    find (name :: path) (.obj fields) = (fields.lookup name).bind (find path) := by rw [find]

/-- To look up a path is to look up its first name, and the rest of the path in what is there. -/
theorem find_cons : find (name :: path) v = (find [name] v).bind (find path) := by
  cases v with
  | obj fields =>
      rw [find_obj, find_obj]
      cases fields.lookup name with
      | none => rfl
      | some w => rw [Option.bind_some, Option.bind_some, find_nil, Option.bind_some]
  | _ => rfl

/-- Reading a property and finding a name agree where there is something; they differ where the
value is no object. -/
theorem prop_eq_some {w : Value} : prop name v = some (some w) ↔ find [name] v = some w := by
  cases v with
  | obj fields =>
      have hfind : find [name] (.obj fields) = fields.lookup name := by
        unfold find
        cases fields.lookup name <;> rfl
      rw [hfind, prop, Option.some.injEq]
  | _ => simp [prop, find]

theorem asString_eq_some {o : Option Value} {s : String} :
    asString o = some s ↔ o = some (.str s) := by
  unfold asString
  split <;> simp_all

theorem asNumber_eq_some {o : Option Value} {n : Number} :
    asNumber o = some n ↔ o = some (.num n) := by
  unfold asNumber
  split <;> simp_all

theorem asItems_eq_some {o : Option Value} {vs : List Value} :
    asItems o = some vs ↔ o = some (.arr vs) := by
  unfold asItems
  split <;> simp_all

/-- A property that passes `typeof v === 'string'` is a string under that name. -/
theorem prop_string {o : Option Value} {s : String} (hprop : prop name v = some o)
    (h : asString o = some s) : find [name] v = some (.str s) := by
  rw [asString_eq_some] at h
  rw [← prop_eq_some, hprop, h]

/-- And one that passes `typeof v === 'number'` a number. -/
theorem prop_number {o : Option Value} {n : Number} (hprop : prop name v = some o)
    (h : asNumber o = some n) : find [name] v = some (.num n) := by
  rw [asNumber_eq_some] at h
  rw [← prop_eq_some, hprop, h]

theorem find_data {data : Value} (h : find ["data"] body = some data) :
    find ["data", name] body = find [name] data := by
  rw [find_cons, h, Option.bind_some]

/-- `accept` returns what it got, or nothing. -/
theorem accept_iff : accept body = some v ↔ v = body ∧ Checked body := by
  unfold accept
  simp only [Option.bind_eq_bind, Option.bind_eq_some_iff, guard]
  constructor
  · rintro ⟨_, hptype, type, htype, _, hguard, _, hpevent, eventId, heventId, _, hne, _, hpdata,
      data, rfl, _, -, _, hporder, orderId, horderId, _, hpuser, userId, huserId, _, hptotal,
      total, htotal, heq⟩
    have hdata : find ["data"] body = some data := prop_eq_some.mp hpdata
    refine ⟨(Option.some.inj heq).symm, ?_⟩
    constructor
    · have hplaced : type = orderPlaced := by
        by_contra hnot
        rw [if_neg hnot] at hguard
        cases hguard
      rw [prop_string hptype htype, hplaced]
    · refine ⟨eventId, prop_string hpevent heventId, ?_⟩
      intro hnil
      rw [if_neg (not_not.mpr hnil)] at hne
      cases hne
    · exact ⟨orderId, by rw [find_data hdata, prop_string hporder horderId]⟩
    · exact ⟨userId, by rw [find_data hdata, prop_string hpuser huserId]⟩
    · exact ⟨total, by rw [find_data hdata, prop_number hptotal htotal]⟩
  · rintro ⟨rfl, h⟩
    obtain ⟨eventId, heventId, hne⟩ := h.eventId
    obtain ⟨orderId, horderId⟩ := h.orderId
    obtain ⟨userId, huserId⟩ := h.userId
    obtain ⟨total, htotal⟩ := h.totalCents
    obtain ⟨data, hdata, horder⟩ : ∃ data, find ["data"] v = some data ∧
        find ["orderId"] data = some (.str orderId) := by
      rw [find_cons, Option.bind_eq_some_iff] at horderId
      exact horderId
    -- an object is never falsy, and only an object has these fields
    have htruthy : falsy data = false := by
      cases data with
      | obj fields => rfl
      | _ => cases horder
    rw [find_data hdata] at huserId htotal
    exact ⟨_, prop_eq_some.mpr h.type, _, rfl, (), if_pos rfl, _, prop_eq_some.mpr heventId, _,
      rfl, (), if_pos hne, _, prop_eq_some.mpr hdata, data, rfl, (), by rw [htruthy]; rfl, _,
      prop_eq_some.mpr horder, _, rfl, _, prop_eq_some.mpr huserId, _, rfl, _,
      prop_eq_some.mpr htotal, _, rfl, rfl⟩

/-- A value can be read as an order line exactly if the three fields are there with their types.
-/
theorem readItem_iff : (∃ item, readItem v = some item) ↔ IsItem v := by
  unfold readItem
  simp only [Option.bind_eq_bind, Option.bind_eq_some_iff, Option.pure_def, Option.some.injEq,
    asString_eq_some, asNumber_eq_some]
  constructor
  · rintro ⟨-, productId, hproduct, quantity, hquantity, price, hprice, -⟩
    exact ⟨⟨productId, hproduct⟩, ⟨quantity, hquantity⟩, ⟨price, hprice⟩⟩
  · rintro ⟨⟨productId, hproduct⟩, ⟨quantity, hquantity⟩, ⟨price, hprice⟩⟩
    exact ⟨_, productId, hproduct, quantity, hquantity, price, hprice, rfl⟩

/-- A list can be read exactly if each of its elements can. -/
theorem mapM_isSome {α β : Type} {f : α → Option β} {as : List α} :
    (∃ bs, as.mapM f = some bs) ↔ ∀ a ∈ as, ∃ b, f a = some b := by
  induction as with
  | nil => simp
  | cons a as ih =>
      rw [List.mapM_cons]
      simp only [Option.bind_eq_bind, Option.bind_eq_some_iff, Option.pure_def,
        Option.some.injEq, List.forall_mem_cons, ← ih]
      constructor
      · rintro ⟨-, b, hb, bs, hbs, -⟩
        exact ⟨⟨b, hb⟩, ⟨bs, hbs⟩⟩
      · rintro ⟨⟨b, hb⟩, ⟨bs, hbs⟩⟩
        exact ⟨_, b, hb, bs, hbs, rfl⟩

/-- A value that is accepted is an event if the other fields are there. -/
theorem readEvent_iff (h : Checked body) : (∃ e, readEvent body = some e) ↔ Unchecked body := by
  obtain ⟨eventId, heventId, -⟩ := h.eventId
  obtain ⟨orderId, horderId⟩ := h.orderId
  obtain ⟨userId, huserId⟩ := h.userId
  obtain ⟨total, htotal⟩ := h.totalCents
  unfold readEvent
  simp only [Option.bind_eq_bind, Option.bind_eq_some_iff, Option.pure_def, Option.some.injEq,
    asString_eq_some, asNumber_eq_some, asItems_eq_some, guard]
  constructor
  · rintro ⟨_, _, _, _, _, version, hversion, _, hone, _, _, occurredAt, hoccurred, _, _, _, _, _,
      _, country, hcountry, vs, hvs, items, hitems, -⟩
    constructor
    · have heq : version = .finite 1 := by
        by_contra hnot
        rw [if_neg hnot] at hone
        cases hone
      rw [hversion, heq]
    · exact ⟨occurredAt, hoccurred⟩
    · exact ⟨country, hcountry⟩
    · refine ⟨vs, hvs, ?_⟩
      intro v hv
      exact readItem_iff.mp (mapM_isSome.mp ⟨items, hitems⟩ v hv)
  · intro hrest
    obtain ⟨occurredAt, hoccurred⟩ := hrest.occurredAt
    obtain ⟨country, hcountry⟩ := hrest.shippingCountry
    obtain ⟨vs, hvs, hall⟩ := hrest.items
    obtain ⟨items, hitems⟩ := mapM_isSome.mpr fun v hv => readItem_iff.mpr (hall v hv)
    exact ⟨_, _, h.type, (), if_pos rfl, _, hrest.version, (), if_pos rfl, eventId, heventId,
      occurredAt, hoccurred, orderId, horderId, userId, huserId, total, htotal, country, hcountry,
      vs, hvs, items, hitems, rfl⟩

/-- Octets are decoded soundly exactly if their value, where it passes the checks, has the other
fields as well. -/
theorem sound_iff (dbl : Doubles) (raw : List UInt8) : Sound dbl raw ↔
    ∀ body, parse dbl (Utf8.decode raw) = some body → Checked body → Unchecked body := by
  constructor
  · intro h body hbody hchecked
    rw [← readEvent_iff hchecked]
    apply h
    rw [parseOrderPlacedEvent, hbody, Option.bind_some, accept_iff]
    exact ⟨rfl, hchecked⟩
  · intro h v hv
    obtain ⟨body, hbody, hv⟩ := Option.bind_eq_some_iff.mp hv
    obtain ⟨rfl, hchecked⟩ := accept_iff.mp hv
    exact (readEvent_iff hchecked).mpr (h v hbody hchecked)

end

/-! ## Round trip -/

section

variable {dec : Decimals} {id : EventId} {order : PlacedOrder} {payload : Value}

theorem SafeInteger.safe (n : SafeInteger) : Safe (.num n.number) := Safe.num n.property.le

/-- The payload that the service writes has no name twice, whatever the order is. -/
theorem value_safe (id : EventId) (order : PlacedOrder) :
    Safe (toOrderPlacedEvent id order).value := by
  have hitem : ∀ item ∈ (toOrderPlacedEvent id order).data.items, Safe item.value := by
    intro item hin
    obtain ⟨line, -, rfl⟩ := List.mem_map.mp hin
    refine Safe.obj ?_ (by simp)
    simp only [List.forall_mem_cons, List.not_mem_nil, false_implies, implies_true, and_true]
    exact ⟨Safe.str _, line.quantity.safe, line.unitPriceCents.safe⟩
  have hdata : Safe (toOrderPlacedEvent id order).data.value := by
    refine Safe.obj ?_ (by simp)
    simp only [List.forall_mem_cons, List.not_mem_nil, false_implies, implies_true, and_true]
    refine ⟨Safe.str _, Safe.str _, order.totalCents.safe, Safe.str _, Safe.arr ?_⟩
    intro v hv
    obtain ⟨item, hin, rfl⟩ := List.mem_map.mp hv
    exact hitem item hin
  refine Safe.obj ?_ (by simp)
  simp only [List.forall_mem_cons, List.not_mem_nil, false_implies, implies_true, and_true]
  exact ⟨Safe.str _, Safe.str _, Safe.num (n := 1) (by decide), Safe.str _, hdata⟩

/-- Values that differ in the order of names only have the same under every path, again up to the
order of names. -/
theorem find_same {v w x : Value} {path : List String} (h : Same v w)
    (hfind : find path v = some x) : ∃ y, find path w = some y ∧ Same x y := by
  induction path generalizing v w with
  | nil =>
      rw [find_nil, Option.some.injEq] at hfind
      exact ⟨w, find_nil, hfind ▸ h⟩
  | cons name path ih =>
      cases v with
      | obj fields =>
          rw [find_obj, Option.bind_eq_some_iff] at hfind
          obtain ⟨u, hu, hfind⟩ := hfind
          obtain ⟨gs, rfl, hlookup⟩ := h.lookup
          obtain ⟨u', hu', hsame⟩ := hlookup name u hu
          obtain ⟨y, hy, hxy⟩ := ih hsame hfind
          exact ⟨y, by rw [find_obj, hu', Option.bind_some, hy], hxy⟩
      | _ => cases hfind

/-- So a string under a path is the same string in both. -/
theorem find_string {v w : Value} {path : List String} {s : String} (h : Same v w)
    (hfind : find path v = some (.str s)) : find path w = some (.str s) := by
  obtain ⟨y, hy, hsame⟩ := find_same h hfind
  cases hsame
  exact hy

/-- And a number the same number. -/
theorem find_number {v w : Value} {path : List String} {n : Number} (h : Same v w)
    (hfind : find path v = some (.num n)) : find path w = some (.num n) := by
  obtain ⟨y, hy, hsame⟩ := find_same h hfind
  cases hsame
  exact hy

/-- A line reads the same in any order of its names. -/
theorem readItem_same {item : Item} {w : Value} (h : Same item.value w) :
    readItem w = some item := by
  unfold readItem
  rw [find_string h (s := item.productId) rfl, find_number h (n := item.quantity) rfl,
    find_number h (n := item.unitPriceCents) rfl]
  rfl

/-- So do all lines of an order, one by one; their own order is kept. -/
theorem mapM_same {items : List Item} {ws : List Value}
    (hlength : (items.map Item.value).length = ws.length)
    (h : ∀ (i : ℕ) v w, (items.map Item.value)[i]? = some v → ws[i]? = some w → Same v w) :
    ws.mapM readItem = some items := by
  induction items generalizing ws with
  | nil =>
      obtain rfl : ws = [] := List.eq_nil_of_length_eq_zero hlength.symm
      rfl
  | cons item items ih =>
      cases ws with
      | nil => cases hlength
      | cons w ws =>
          have hone : readItem w = some item := readItem_same (h 0 _ _ rfl rfl)
          have hmore : ws.mapM readItem = some items := by
            refine ih (Nat.succ.inj hlength) ?_
            intro i v w hv hw
            exact h (i + 1) v w hv hw
          rw [List.mapM_cons, hone, hmore]
          rfl

/-- A value that is the event's, up to the order of names, is read as the event. -/
theorem readEvent_same (h : Same (toOrderPlacedEvent id order).value payload) :
    Checked payload ∧ readEvent payload = some (toOrderPlacedEvent id order) := by
  have htype : find ["type"] payload = some (.str orderPlaced) := find_string h rfl
  have hevent : find ["eventId"] payload = some (.str id) := find_string h rfl
  have horder : find ["data", "orderId"] payload = some (.str order.orderId) := find_string h rfl
  have huser : find ["data", "userId"] payload = some (.str order.userId) := find_string h rfl
  have htotal : find ["data", "totalCents"] payload = some (.num order.totalCents.number) :=
    find_number h rfl
  have hversion : find ["version"] payload = some (.num (.finite 1)) := find_number h rfl
  have hoccurred : find ["occurredAt"] payload = some (.str (toISOString order.createdAt.val)) :=
    find_string h rfl
  have hcountry : find ["data", "shippingCountry"] payload = some (.str order.shippingCountry) :=
    find_string h rfl
  obtain ⟨y, hitems, hsame⟩ : ∃ y, find ["data", "items"] payload = some y ∧
      Same (.arr ((toOrderPlacedEvent id order).data.items.map Item.value)) y := find_same h rfl
  cases hsame with
  | arr length hall =>
      refine ⟨⟨htype, ⟨id, hevent, id.property⟩, ⟨_, horder⟩, ⟨_, huser⟩, ⟨_, htotal⟩⟩, ?_⟩
      unfold readEvent
      rw [htype, hevent, horder, huser, htotal, hversion, hoccurred, hcountry, hitems]
      simp only [asString, asNumber, asItems, guard, if_true, Option.pure_def,
        Option.bind_eq_bind, Option.bind_some, mapM_same length hall]
      rfl

/-- What the relay publishes of a placed order is decoded to the event, whatever order the column
has brought the names in. -/
theorem published_decoded (dec : Decimals) (id : EventId) (order : PlacedOrder) (payload : Value)
    (h : Same (toOrderPlacedEvent id order).value payload) :
    parseOrderPlacedEvent dec.toDoubles (content dec payload) = some payload ∧
      readEvent payload = some (toOrderPlacedEvent id order) := by
  obtain ⟨hchecked, hevent⟩ := readEvent_same h
  refine ⟨?_, hevent⟩
  rw [parseOrderPlacedEvent, content, Utf8.decode_encode, parse_text (h.safe (value_safe id order)),
    Option.bind_some, accept_iff]
  exact ⟨rfl, hchecked⟩

end

/-! ## The values of the other modules -/

section

mutual

/-- A value that has no infinite number. -/
def ofJson : Json → Value
  | .null => .null
  | .bool b => .bool b
  | .num q => .num (.finite q)
  | .str s => .str s
  | .arr items => .arr (ofItems items)
  | .obj fields => .obj (ofFields fields)

def ofItems : List Json → List Value
  | [] => []
  | j :: items => ofJson j :: ofItems items

def ofFields : List (String × Json) → List (String × Value)
  | [] => []
  | (k, j) :: fields => (k, ofJson j) :: ofFields fields

end

variable {j : Json} {o : Option Json} {name : String}

/-- The elements of an array are translated one by one. -/
theorem ofItems_eq (items : List Json) : ofItems items = items.map ofJson := by
  induction items with
  | nil => rw [ofItems, List.map_nil]
  | cons j items ih => rw [ofItems, List.map_cons, ih]

/-- The field of a translated object is the translated field. -/
theorem lookup_ofFields (fields : List (String × Json)) :
    (ofFields fields).lookup name = (fields.lookup name).map ofJson := by
  induction fields with
  | nil => rw [ofFields]; rfl
  | cons f fields ih =>
      rw [ofFields, List.lookup_cons, List.lookup_cons]
      cases name == f.1 with
      | true => rfl
      | false => exact ih

/-- Reading a property commutes with the translation. -/
theorem prop_ofJson : prop name (ofJson j) = (j.prop name).map (Option.map ofJson) := by
  cases j with
  | obj fields => rw [ofJson, prop, lookup_ofFields]; rfl
  | _ => rw [ofJson]; rfl

theorem falsy_ofJson : falsy (ofJson j) = j.falsy := by
  cases j <;> simp [ofJson, falsy, Json.falsy, beq_eq_decide]

/-- So does the test for a string. -/
theorem asString_ofJson : asString (o.map ofJson) = Outbox.asString o := by
  cases o with
  | none => rfl
  | some j => cases j <;> simp [ofJson, asString, Outbox.asString]

/-- And the test for a number, which is a finite one in the other model. -/
theorem asNumber_ofJson : asNumber (o.map ofJson) = (Outbox.asNumber o).map Number.finite := by
  cases o with
  | none => rfl
  | some j => cases j <;> simp [ofJson, asNumber, Outbox.asNumber]

/-- The decoder of `Outbox.Codec` accepts what this one does. -/
theorem accept_ofJson :
    accept (ofJson j) = (Outbox.parseOrderPlacedEvent (some j)).map fun _ => ofJson j := by
  simp only [accept, Outbox.parseOrderPlacedEvent, Option.bind_eq_bind, prop_ofJson,
    Option.bind_map, Function.comp_def, asString_ofJson, asNumber_ofJson, falsy_ofJson,
    Option.map_bind, Option.bind_some, Option.pure_def, Option.map_some]

/-- The amounts and the moment of a stored order are numbers and a date that JavaScript has. -/
structure Fits (order : Outbox.PlacedOrder) : Prop where
  totalCents : |order.totalCents| < 2 ^ 53
  createdAt : |(order.createdAt : ℤ)| ≤ 8640000000000000
  items : ∀ l ∈ order.items,
    |l.quantity| < 2 ^ 53 ∧ |l.unitPriceCents| < 2 ^ 53 ∧ |l.lineTotalCents| < 2 ^ 53

variable {id : Outbox.EventId} {order : Outbox.PlacedOrder}

/-- An order of the other modules, with the texts of its ids. -/
def ofOrder (order : Outbox.PlacedOrder) (h : Fits order) : PlacedOrder where
  orderId := Nat.repr order.orderId
  userId := Nat.repr order.userId
  totalCents := ⟨order.totalCents, h.totalCents⟩
  shippingCountry := order.shippingCountry
  createdAt := ⟨order.createdAt, h.createdAt⟩
  items := order.items.attach.map fun l =>
    { productId := productIdText l.val.productId
      quantity := ⟨l.val.quantity, (h.items l.val l.property).1⟩
      unitPriceCents := ⟨l.val.unitPriceCents, (h.items l.val l.property).2.1⟩
      lineTotalCents := ⟨l.val.lineTotalCents, (h.items l.val l.property).2.2⟩ }

def eventIdText (id : Outbox.EventId) : EventId := ⟨Nat.repr id, repr_ne_empty id⟩

/-- The two encoders agree. -/
theorem ofJson_toJson (id : Outbox.EventId) (h : Fits order) :
    ofJson (Outbox.toOrderPlacedEvent id order).toJson =
      (toOrderPlacedEvent (eventIdText id) (ofOrder order h)).value := by
  have hitem : ∀ item : EventItem, ofJson item.toJson =
      Item.value ⟨productIdText item.productId, .finite item.quantity,
        .finite item.unitPriceCents⟩ := by
    intro item
    simp [EventItem.toJson, ofJson, ofFields, Item.value]
  have hitems : (ofOrder order h).items.map (fun l =>
        (⟨l.productId, l.quantity.number, l.unitPriceCents.number⟩ : Item)) =
      order.items.map fun l =>
        ⟨productIdText l.productId, .finite l.quantity, .finite l.unitPriceCents⟩ := by
    rw [ofOrder, List.map_map]
    exact List.attach_map_val (f := fun l : Outbox.Line =>
      (⟨productIdText l.productId, .finite l.quantity, .finite l.unitPriceCents⟩ : Item))
  simp only [toOrderPlacedEvent, hitems]
  simp [Outbox.toOrderPlacedEvent, Outbox.OrderPlacedEvent.toJson, ofJson, ofFields, ofItems_eq,
    OrderPlacedEvent.value, Data.value, hitem, eventIdText, ofOrder, SafeInteger.number]

/-- A string that the one decoder reads under a name is found there by the other. -/
theorem find_string_ofJson {s : String} (hprop : j.prop name = some o)
    (h : Outbox.asString o = some s) : find [name] (ofJson j) = some (.str s) := by
  have hprop' : prop name (ofJson j) = some (o.map ofJson) := by
    rw [prop_ofJson, hprop]
    rfl
  exact prop_string hprop' (by rw [asString_ofJson, h])

/-- And so is a number. -/
theorem find_number_ofJson {q : ℚ} (hprop : j.prop name = some o)
    (h : Outbox.asNumber o = some q) : find [name] (ofJson j) = some (.num (.finite q)) := by
  have hprop' : prop name (ofJson j) = some (o.map ofJson) := by
    rw [prop_ofJson, hprop]
    rfl
  exact prop_number hprop' (by rw [asNumber_ofJson, h]; rfl)

/-- What the handler takes from a payload is what stands there. -/
theorem find_parsed {p : ParsedEvent} (h : Outbox.parseOrderPlacedEvent (some j) = some p) :
    find ["eventId"] (ofJson j) = some (.str p.eventId) ∧
    find ["data", "orderId"] (ofJson j) = some (.str p.orderId) ∧
    find ["data", "userId"] (ofJson j) = some (.str p.userId) ∧
    find ["data", "totalCents"] (ofJson j) = some (.num (.finite p.totalCents)) := by
  unfold Outbox.parseOrderPlacedEvent at h
  simp only [Option.bind_eq_bind, Option.bind_eq_some_iff, guard] at h
  obtain ⟨body, hbody, _, -, type, -, _, -, _, hpevent, eventId, heventId, _, -, _, hpdata, data, rfl,
    _, -, _, hporder, orderId, horderId, _, hpuser, userId, huserId, _, hptotal, total, htotal,
    heq⟩ := h
  cases hbody
  have hdata : find ["data"] (ofJson j) = some (ofJson data) := by
    rw [← prop_eq_some, prop_ofJson, hpdata]
    rfl
  cases heq
  refine ⟨find_string_ofJson hpevent heventId, ?_, ?_, ?_⟩
  · rw [find_data hdata, find_string_ofJson hporder horderId]
  · rw [find_data hdata, find_string_ofJson hpuser huserId]
  · rw [find_data hdata, find_number_ofJson hptotal htotal]

/-- What the relay publishes of a stored order, with the names of the payload in any order, the
consumer decodes, and its handler takes the event's own fields from it. -/
theorem relayed_parsed (dec : Decimals) (h : Fits order)
    (hj : Same (ofJson (Outbox.toOrderPlacedEvent id order).toJson) (ofJson j)) :
    parseOrderPlacedEvent dec.toDoubles (content dec (ofJson j)) = some (ofJson j) ∧
    readEvent (ofJson j) = some (toOrderPlacedEvent (eventIdText id) (ofOrder order h)) ∧
    Outbox.parseOrderPlacedEvent (some j) =
      some (Outbox.toOrderPlacedEvent id order).parsed := by
  have hj' := hj
  rw [ofJson_toJson id h] at hj
  obtain ⟨hchecked, hevent⟩ := readEvent_same hj
  have haccept : accept (ofJson j) = some (ofJson j) := accept_iff.mpr ⟨rfl, hchecked⟩
  refine ⟨(published_decoded dec _ _ _ hj).1, hevent, ?_⟩
  rw [accept_ofJson] at haccept
  obtain ⟨p, hp, -⟩ := Option.map_eq_some_iff.mp haccept
  obtain ⟨heventId, horderId, huserId, htotal⟩ := find_parsed hp
  have hs : Outbox.parseOrderPlacedEvent (some (Outbox.toOrderPlacedEvent id order).toJson) =
      some (Outbox.toOrderPlacedEvent id order).parsed := parse_toJson _
  obtain ⟨heventId', horderId', huserId', htotal'⟩ := find_parsed hs
  have heq : p = (Outbox.toOrderPlacedEvent id order).parsed := by
    rw [find_string hj' heventId'] at heventId
    rw [find_string hj' horderId'] at horderId
    rw [find_string hj' huserId'] at huserId
    rw [find_number hj' htotal'] at htotal
    cases p
    rw [ParsedEvent.mk.injEq]
    exact ⟨(Value.str.inj (Option.some.inj heventId)).symm,
      (Value.str.inj (Option.some.inj horderId)).symm,
      (Value.str.inj (Option.some.inj huserId)).symm,
      (Number.finite.inj (Value.num.inj (Option.some.inj htotal))).symm⟩
  rw [hp, heq]

end

/-! ## What is published is decoded -/

/-- What the relay publishes is decoded to the event; and of any octets, what the decoder returns
is an event exactly if the fields it does not look at are there. -/
theorem accepts_exactly_iff (dec : Decimals) :
    (∀ (id : EventId) (order : PlacedOrder) (payload : Value),
      Same (toOrderPlacedEvent id order).value payload →
      ∃ v, parseOrderPlacedEvent dec.toDoubles (content dec payload) = some v ∧
        Same (toOrderPlacedEvent id order).value v ∧
        readEvent v = some (toOrderPlacedEvent id order)) ∧
    ∀ raw : List UInt8, Sound dec.toDoubles raw ↔
      ∀ body, parse dec.toDoubles (Utf8.decode raw) = some body → Checked body →
        Unchecked body := by
  constructor
  · intro id order payload h
    obtain ⟨hparse, hevent⟩ := published_decoded dec id order payload h
    exact ⟨payload, hparse, h, hevent⟩
  · exact sound_iff dec.toDoubles

/-- An order of one line. -/
def oneLine : PlacedOrder :=
  ⟨"1", "2", ⟨500, by decide⟩, "UA", ⟨0, by decide⟩,
    [⟨"7", ⟨2, by decide⟩, ⟨250, by decide⟩, ⟨500, by decide⟩⟩]⟩

/-- Its event as `jsonb` returns it: shorter names first. -/
def reordered : Value :=
  .obj [("data", .obj [("items", .arr [.obj [("quantity", .num (.finite 2)),
        ("productId", .str "7"), ("unitPriceCents", .num (.finite 250))]]), ("userId", .str "2"),
      ("orderId", .str "1"), ("totalCents", .num (.finite 500)), ("shippingCountry", .str "UA")]),
    ("type", .str orderPlaced), ("eventId", .str "e"), ("version", .num (.finite 1)),
    ("occurredAt", .str (toISOString 0))]

/-- The payload of the example with its names in another order is the same value. -/
theorem reordered_same : Same (toOrderPlacedEvent ⟨"e", by decide⟩ oneLine).value reordered := by
  refine Same.of_fields (by decide) ?_
  simp only [List.forall_mem_cons, List.not_mem_nil, false_implies, implies_true, and_true]
  refine ⟨?_, ?_, ?_, ?_, ?_⟩ <;> intro w hw <;> cases hw
  case refine_5 =>
    refine Same.of_fields (by decide) ?_
    simp only [List.forall_mem_cons, List.not_mem_nil, false_implies, implies_true, and_true]
    refine ⟨?_, ?_, ?_, ?_, ?_⟩ <;> intro w hw <;> cases hw
    case refine_5 =>
      refine Same.arr rfl ?_
      intro i v w hv hw
      obtain rfl : i = 0 := by
        have hlt := (List.getElem?_eq_some_iff.mp hw).1
        simpa using hlt
      cases hv
      cases hw
      refine Same.of_fields (by decide) ?_
      simp only [List.forall_mem_cons, List.not_mem_nil, false_implies, implies_true, and_true]
      refine ⟨?_, ?_, ?_⟩ <;> intro w hw <;> cases hw <;> exact Same.refl _
    all_goals exact Same.refl _
  all_goals exact Same.refl _

/-- An order with a line, whose payload the column has put in another order. -/
theorem accepts_exactly_reordered :
    ∃ v, parseOrderPlacedEvent Doubles.unrounded (content Decimals.unrounded reordered) = some v ∧
    readEvent v = some (toOrderPlacedEvent ⟨"e", by decide⟩ oneLine) ∧
    find ["data", "totalCents"] v = some (.num (.finite 500)) := by
  obtain ⟨v, hv, hsame, hevent⟩ := (accepts_exactly_iff Decimals.unrounded).1 ⟨"e", by decide⟩
    oneLine reordered reordered_same
  exact ⟨v, hv, hevent, find_number hsame rfl⟩

/-- Nothing but the fields that are looked at. -/
def bare : Value :=
  .obj [("type", .str orderPlaced), ("eventId", .str "e"),
    ("data", .obj [("orderId", .str "1"), ("userId", .str "2"), ("totalCents", .num (.finite 3))])]

/-- It is returned, and is no event. -/
theorem bare_accepted : ¬ Sound Doubles.unrounded (Utf8.encode
    ("\x7b\"type\":\"order.placed\",\"eventId\":\"e\",\"data\":" ++
      "\x7b\"orderId\":\"1\",\"userId\":\"2\",\"totalCents\":3\x7d\x7d").toList) := by
  have htext : text Decimals.unrounded bare =
      ("\x7b\"type\":\"order.placed\",\"eventId\":\"e\",\"data\":" ++
        "\x7b\"orderId\":\"1\",\"userId\":\"2\",\"totalCents\":3\x7d\x7d").toList := by
    decide +kernel
  have hsafe : Safe bare := by
    refine Safe.obj ?_ (by simp)
    simp only [List.forall_mem_cons, List.not_mem_nil, false_implies, implies_true, and_true]
    refine ⟨Safe.str _, Safe.str _, Safe.obj ?_ (by simp)⟩
    simp only [List.forall_mem_cons, List.not_mem_nil, false_implies, implies_true, and_true]
    exact ⟨Safe.str _, Safe.str _, Safe.num (n := 3) (by decide)⟩
  have hchecked : Checked bare := ⟨rfl, ⟨"e", rfl, by decide⟩, ⟨_, rfl⟩, ⟨_, rfl⟩, ⟨_, rfl⟩⟩
  rw [← htext, sound_iff, Utf8.decode_encode]
  intro h
  have hparse : parse Decimals.unrounded.toDoubles (text Decimals.unrounded bare) = some bare :=
    parse_text hsafe
  have hversion := (h bare hparse hchecked).version
  cases hversion

end Marketplace.Outbox.Wire

import Mathlib.Data.List.Basic

/-!
# Core.JsObject — property lookup on a plain object

`o[name]` on an object literal finds an own property if there is one, else what
`Object.prototype` has under that name, else `undefined`. An object used as a
dictionary answers to twelve names that nobody put into it.
-/

namespace Core.JsObject

universe u

/-- The members of `Object.prototype`. -/
inductive ProtoMember where
  | constructor | defineGetter | defineSetter | hasOwnProperty | lookupGetter | lookupSetter
  | isPrototypeOf | propertyIsEnumerable | toString | valueOf | proto | toLocaleString
deriving DecidableEq, Repr

def protoMembers : List (String × ProtoMember) :=
  [("constructor", .constructor), ("__defineGetter__", .defineGetter),
    ("__defineSetter__", .defineSetter), ("hasOwnProperty", .hasOwnProperty),
    ("__lookupGetter__", .lookupGetter), ("__lookupSetter__", .lookupSetter),
    ("isPrototypeOf", .isPrototypeOf), ("propertyIsEnumerable", .propertyIsEnumerable),
    ("toString", .toString), ("valueOf", .valueOf), ("__proto__", .proto),
    ("toLocaleString", .toLocaleString)]

/-- The names every plain object answers to. -/
def protoNames : List String := protoMembers.map Prod.fst

/-- What `o[name]` evaluates to. -/
inductive Lookup (α : Type u) where
  | own (a : α)
  | inherited (m : ProtoMember)
  | undefined
deriving Repr

variable {α : Type u}

/-- `o[name]`, for an object with the own properties `own`. -/
def lookup (own : List (String × α)) (name : String) : Lookup α :=
  match own.lookup name with
  | some a => .own a
  | none =>
      match protoMembers.lookup name with
      | some m => .inherited m
      | none => .undefined

/-- `o[name](arg)` where `o[name]` is inherited: the call throws a TypeError, or gives a
value that is truthy or not. `o` has the own properties `keys`, all of them data
properties; `argIs s` says that `arg`, an object, converts to the property name `s`. -/
def ProtoMember.call (keys : List String) (argIs : String → Bool) :
    ProtoMember → Except Unit Bool
  -- `Object(arg)` is `arg`
  | .constructor => .ok true
  | .toString | .toLocaleString | .valueOf => .ok true
  | .hasOwnProperty | .propertyIsEnumerable => .ok (keys.any argIs)
  | .lookupGetter | .lookupSetter =>
      .ok (argIs "__proto__" && !keys.contains "__proto__")
  | .isPrototypeOf => .ok false
  -- no accessor function is passed
  | .defineGetter | .defineSetter => .error ()
  -- `Object.prototype` is no function
  | .proto => .error ()

/-! ## Rules -/

/-- `List.lookup` finds a key exactly when it is there. -/
theorem lookup_eq_none_iff {β : Type u} {l : List (String × β)} {name : String} :
    l.lookup name = none ↔ name ∉ l.map Prod.fst := by
  induction l with
  | nil => simp
  | cons p l ih =>
      obtain ⟨k, b⟩ := p
      rw [List.lookup_cons]
      by_cases h : name = k
      · simp [h]
      · have hb : (name == k) = false := by simpa using h
        simp [hb, ih, h]

variable {own : List (String × α)} {name : String}

/-- A name that is not the object's own is looked up on the prototype. -/
theorem lookup_of_not_own (h : name ∉ own.map Prod.fst) : lookup own name =
    match protoMembers.lookup name with
    | some m => .inherited m
    | none => .undefined := by
  unfold lookup
  rw [lookup_eq_none_iff.mpr h]

/-- A member is the object's own exactly if its name is among the own names. -/
theorem lookup_own_iff : (∃ a, lookup own name = .own a) ↔ name ∈ own.map Prod.fst := by
  constructor
  · rintro ⟨a, ha⟩
    by_contra hout
    rw [lookup_of_not_own hout] at ha
    cases hm : protoMembers.lookup name <;> rw [hm] at ha <;> cases ha
  · intro hin
    cases h : own.lookup name with
    | some a => exact ⟨a, by unfold lookup; rw [h]⟩
    | none => exact absurd hin (lookup_eq_none_iff.mp h)

theorem lookup_undefined (h : name ∉ own.map Prod.fst) (hp : name ∉ protoNames) :
    lookup own name = .undefined := by
  rw [lookup_of_not_own h, lookup_eq_none_iff.mpr hp]

/-- A name of the prototype that the object does not shadow gives the inherited member. -/
theorem lookup_inherited (h : name ∉ own.map Prod.fst) (hp : name ∈ protoNames) :
    ∃ m, lookup own name = .inherited m := by
  rw [lookup_of_not_own h]
  cases hm : protoMembers.lookup name with
  | some m => exact ⟨m, rfl⟩
  | none => exact absurd hp (lookup_eq_none_iff.mp hm)

/-- An inherited member has a name of the prototype that the object does not shadow. -/
theorem lookup_inherited_mem {m : ProtoMember} (h : lookup own name = .inherited m) :
    name ∉ own.map Prod.fst ∧ name ∈ protoNames := by
  have hout : name ∉ own.map Prod.fst := by
    intro hin
    obtain ⟨a, ha⟩ := lookup_own_iff.mpr hin
    rw [h] at ha
    cases ha
  refine ⟨hout, ?_⟩
  by_contra hp
  rw [lookup_undefined hout hp] at h
  cases h

end Core.JsObject

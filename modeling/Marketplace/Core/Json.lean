import Mathlib.Data.Rat.Defs

/-!
# Core.Json — JSON values

What `JSON.parse` makes of a text and a `jsonb` column holds. A text is its value:
`JSON.parse (JSON.stringify v)` is `v`, and a text that is no JSON has no value.
-/

namespace Core

inductive Json where
  | null
  | bool (b : Bool)
  | num (n : ℚ)
  | str (s : String)
  | arr (items : List Json)
  | obj (fields : List (String × Json))

namespace Json

/-- `v.name` of JavaScript: `none` throws, and `some none` is undefined. Arrays, strings,
numbers and booleans have none of the names the sources ask for. -/
def prop (name : String) : Json → Option (Option Json)
  | null => none
  | obj fields => some (fields.lookup name)
  | _ => some none

/-- A value that `!v` rejects. -/
def falsy : Json → Bool
  | null => true
  | bool b => !b
  | num n => n == 0
  | str s => s == ""
  | arr _ => false
  | obj _ => false

end Json

end Core

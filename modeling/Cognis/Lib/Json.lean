/-
  JSON values (`serde_json::Value`). A number is kept as its literal.
-/
import Mathlib.Tactic.Common

namespace Cognis

/-- `serde_json::Value`; the keys of an object are distinct. -/
inductive Json
  | null
  | bool (b : Bool)
  | number (literal : String)
  | string (s : String)
  | array (items : List Json)
  | object (entries : List (String × Json))

namespace Json

/-- `Value::get` -/
def get (key : String) : Json → Option Json
  | object entries => entries.lookup key
  | _ => none

/-- `Value::as_str` -/
def asStr : Json → Option String
  | string s => some s
  | _ => none

/-- `Value::as_bool` -/
def asBool : Json → Option Bool
  | bool b => some b
  | _ => none

/-- `Value::as_array` -/
def asArray : Json → Option (List Json)
  | array items => some items
  | _ => none

/-- An optional value: `null` counts as absent. -/
def nonNull : Json → Option Json
  | null => none
  | v => some v

end Json

end Cognis

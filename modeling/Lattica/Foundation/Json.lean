import Mathlib.Data.Int.Basic
import Mathlib.Data.List.Basic

/-!
# JSON values

What `serde_json` makes of a text, and the ways it is taken apart: a member
that is not there is `null`, and every coercion may fail.
-/

namespace Lattica.Foundation

/-- `serde_json::Number`. -/
inductive JsonNumber where
  | posInt (n : UInt64)
  | negInt (z : ℤ)
  | float

/-- `serde_json::Value`. -/
inductive Json where
  | null
  | bool (b : Bool)
  | number (n : JsonNumber)
  | string (s : String)
  | array (values : List Json)
  | object (members : List (String × Json))

namespace Json

/-- `Value::get` of a key. -/
def get? : Json → String → Option Json
  | object members, key => members.lookup key
  | _, _ => none

/-- `value[key]`. -/
def member (v : Json) (key : String) : Json := (v.get? key).getD null

def isNull : Json → Bool
  | null => true
  | _ => false

def asU64 : Json → Option UInt64
  | number (.posInt n) => some n
  | _ => none

def asStr : Json → Option String
  | string s => some s
  | _ => none

def asBool : Json → Option Bool
  | bool b => some b
  | _ => none

def asArray : Json → Option (List Json)
  | array values => some values
  | _ => none

theorem asU64_eq_some_iff {v : Json} {n : UInt64} : v.asU64 = some n ↔ v = number (.posInt n) := by
  unfold asU64
  split
  · simp
  · next h =>
      constructor
      · intro hnone
        cases hnone
      · rintro rfl
        exact absurd rfl (h n)

theorem asStr_eq_some_iff {v : Json} {s : String} : v.asStr = some s ↔ v = string s := by
  cases v with
  | string s' => simp [asStr]
  | _ => simp [asStr]

theorem asArray_eq_some_iff {v : Json} {values : List Json} :
    v.asArray = some values ↔ v = array values := by
  cases v with
  | array values' => simp [asArray]
  | _ => simp [asArray]

end Json

end Lattica.Foundation

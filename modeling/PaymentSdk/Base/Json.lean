import Mathlib.Data.List.Basic
import Mathlib.Tactic.Common

/-! # JSON values, as the indexers read them -/

namespace PaymentSdk

/-- A number keeps its text, and the `u64` that it is. -/
inductive Json where
  | null
  | bool (value : Bool)
  | number (lexical : String) (value : Option UInt64)
  | string (text : String)
  | array (items : List Json)
  | object (fields : List (String × Json))

namespace Json

abbrev Map := List (String × Json)

def asObject : Json → Option Map
  | object fields => some fields
  | _ => none

def asArray : Json → Option (List Json)
  | array items => some items
  | _ => none

def asStr : Json → Option String
  | string text => some text
  | _ => none

def asU64 : Json → Option UInt64
  | number _ value => value
  | _ => none

def asBool : Json → Option Bool
  | bool value => some value
  | _ => none

def isNull : Json → Bool
  | null => true
  | _ => false

def Map.get (m : Map) (field : String) : Option Json := m.lookup field

def Map.remove (m : Map) (field : String) : Map := m.filter fun entry => entry.1 ≠ field

def Map.insert (m : Map) (field : String) (value : Json) : Map := (field, value) :: m.remove field

@[simp]
theorem get_insert_self (m : Map) (field : String) (value : Json) :
    (m.insert field value).get field = some value := by
  simp [Map.get, Map.insert]

theorem get_remove (m : Map) {field other : String} (h : other ≠ field) :
    (m.remove field).get other = m.get other := by
  unfold Map.get Map.remove
  induction m with
  | nil => rfl
  | cons entry m ih =>
    obtain ⟨key, value⟩ := entry
    by_cases hkey : key = field
    · subst hkey
      rw [List.filter_cons_of_neg (by simp), ih, List.lookup_cons, beq_false_of_ne h]
    · rw [List.filter_cons_of_pos (by simpa using hkey), List.lookup_cons, List.lookup_cons, ih]

theorem get_insert (m : Map) {field other : String} (h : other ≠ field) (value : Json) :
    (m.insert field value).get other = m.get other := by
  rw [← get_remove m h, Map.get, Map.insert, List.lookup_cons, beq_false_of_ne h]
  rfl

end Json

end PaymentSdk

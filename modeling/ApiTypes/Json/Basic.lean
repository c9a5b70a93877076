import ApiTypes.Entries

/-!
  JSON values.

  * **Objects keep the order of their keys**, and equality ignores it (`same`).
  * **Integers and floats are two kinds of number**: `1` is not `1.0`. An integer lies between
    -2^63 and 2^64 - 1; every other number is a 64-bit float.
-/

namespace ApiTypes

/-- A JSON value. An object is the list of its members in the order of their keys. -/
inductive Json where
  | null
  | bool (b : Bool)
  | int (n : Int)
  | float (x : Float)
  | str (s : String)
  | arr (items : List Json)
  | obj (members : List (String × Json))
  deriving Inhabited

namespace Json

/-! ## 1. Views -/

/-- The name of the value's kind, as messages give it. -/
def kindName : Json → String
  | .null => "null"
  | .bool _ => "boolean"
  | .int _ | .float _ => "number"
  | .str _ => "string"
  | .arr _ => "array"
  | .obj _ => "object"

/-- The members of an object. -/
def members? : Json → Option (List (String × Json))
  | .obj members => some members
  | _ => none

/-- The elements of an array. -/
def items? : Json → Option (List Json)
  | .arr items => some items
  | _ => none

/-- The text of a string. -/
def string? : Json → Option String
  | .str s => some s
  | _ => none

/-- The value of a boolean. -/
def bool? : Json → Option Bool
  | .bool b => some b
  | _ => none

/-- The value of an integer that is not negative. -/
def nat? : Json → Option Nat
  | .int n => if 0 ≤ n then some n.toNat else none
  | _ => none

/-- The value of an integer as a float, rounded to the nearest one. -/
def floatOfInt (n : Int) : Float :=
  let size := (UInt64.ofNat n.natAbs).toFloat
  if n < 0 then -size else size

/-- The value of a number as a float. -/
def float? : Json → Option Float
  | .int n => some (floatOfInt n)
  | .float x => some x
  | _ => none

/-- Whether this is an object. -/
def isObject (value : Json) : Bool := value.members?.isSome

/-- Whether this is null. -/
def isNull : Json → Bool
  | .null => true
  | _ => false

/-- The member of an object under this key; nothing when the value is no object. -/
def get? (key : String) (value : Json) : Option Json :=
  value.members?.bind (Entries.get? key)

/-- The element of an array at this place. -/
def item? (index : Nat) (value : Json) : Option Json :=
  value.items?.bind (·[index]?)

/-- Rewrites the members of an object; any other value stays as it is. -/
def mapMembers (f : List (String × Json) → List (String × Json)) : Json → Json
  | .obj members => .obj (f members)
  | value => value

/-- Rewrites the elements of an array; any other value stays as it is. -/
def mapItems (f : Json → Json) : Json → Json
  | .arr items => .arr (items.map f)
  | value => value

/-! ## 2. Deep equality -/

mutual

/-- Deep equality: objects by their members whatever the order, arrays in order, floats as
    floats, and never an integer with a float. -/
def same : Json → Json → Bool
  | .null, .null => true
  | .bool a, .bool b => a == b
  | .int a, .int b => a == b
  | .float a, .float b => a == b
  | .str a, .str b => a == b
  | .arr a, .arr b => sameItems a b
  | .obj a, .obj b => a.length == b.length && sameMembers a b
  | _, _ => false
termination_by structural value => value

/-- Element by element. -/
def sameItems : List Json → List Json → Bool
  | [], [] => true
  | a :: as, b :: bs => same a b && sameItems as bs
  | _, _ => false
termination_by structural items => items

/-- Each member of the first list has an equal one in the second. -/
def sameMembers : List (String × Json) → List (String × Json) → Bool
  | [], _ => true
  | (key, value) :: rest, others =>
    (match Entries.get? key others with
      | some other => same value other
      | none => false) && sameMembers rest others
termination_by structural members => members

end

instance : BEq Json := ⟨same⟩

/-- Optional values are equal when both are missing or both are there and equal. -/
def sameOption : Option Json → Option Json → Bool
  | none, none => true
  | some a, some b => same a b
  | _, _ => false

end Json

end ApiTypes

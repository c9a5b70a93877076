import ApiTypes.Schema.Keywords

/-!
  Merging the members of an `allOf`.

  `merge left right` is the schema that both members describe, as the members of an object.

  * **Opinions must agree**: the types, unless one side declares none; the format; the keywords
    `uniqueItems`, `readOnly` and `writeOnly`, where missing is false; the exclusive bounds; and
    only one side may have a default.
  * **Lists are appended**: `required` and `enum`.
  * **Properties are united**, and the right side wins a property of both.
  * `additionalProperties: false` on either side wins; two different schemas do not merge.
  * The result is nullable when either side is.
  * Any other keyword is taken from the right side when both have it.
-/

namespace ApiTypes.Schema

/-! ## 1. Conflicts -/

/-- Why two members do not merge. -/
inductive MergeConflict where
  | types (left right : List String)
  | formats (left right : String)
  | defaults
  | uniqueItems
  | exclusiveMinimum
  | exclusiveMaximum
  | readOnly
  | writeOnly
  | additionalProperties
  deriving DecidableEq, Repr

/-- The wording of a conflict. -/
def MergeConflict.message : MergeConflict → String
  | .types left right =>
    "can not merge incompatible types: " ++ ",".intercalate left ++ " vs " ++
      ",".intercalate right
  | .formats left right => "can not merge incompatible formats: " ++ left ++ " vs " ++ right
  | .defaults => "can not merge two schemas that both set default"
  | .uniqueItems => "can not merge schemas with different uniqueItems"
  | .exclusiveMinimum => "can not merge schemas with different exclusiveMinimum"
  | .exclusiveMaximum => "can not merge schemas with different exclusiveMaximum"
  | .readOnly => "can not merge schemas with different readOnly"
  | .writeOnly => "can not merge schemas with different writeOnly"
  | .additionalProperties =>
    "can not merge two different schema-valued additionalProperties"

/-! ## 2. Opinions -/

/-- Whether two lists of types contradict each other. -/
def typesClash (left right : List String) : Bool :=
  !left.isEmpty && !right.isEmpty && left ≠ right

/-- What a schema says of an exclusive bound: a flag, a number, or false when missing. -/
def exclusiveBound (key : String) (schema : Json) : Json :=
  match schema.get? key with
  | none | some .null => .bool false
  | some value => value

/-- Whether both schemas say the same of an exclusive bound. -/
def agreeOnBound (key : String) (left right : Json) : Bool :=
  Json.same (exclusiveBound key left) (exclusiveBound key right)

/-- Whether both schemas say the same of a flag. -/
def agreeOnFlag (key : String) (left right : Json) : Bool := flag key left == flag key right

/-- The formats, where both schemas have one and they differ. -/
def formatClash? (left right : Json) : Option (String × String) :=
  match text? "format" left, text? "format" right with
  | some l, some r => if l = r then none else some (l, r)
  | _, _ => none

/-- The first opinion on which two members differ. -/
def conflict? (left right : Json) : Option MergeConflict :=
  if typesClash (types left) (types right) then some (.types (types left) (types right))
  else match formatClash? left right with
  | some (l, r) => some (.formats l r)
  | none =>
    if (left.get? "default").isSome && (right.get? "default").isSome then some .defaults
    else if !agreeOnFlag "uniqueItems" left right then some .uniqueItems
    else if !agreeOnFlag "readOnly" left right then some .readOnly
    else if !agreeOnFlag "writeOnly" left right then some .writeOnly
    else if !agreeOnBound "exclusiveMinimum" left right then some .exclusiveMinimum
    else if !agreeOnBound "exclusiveMaximum" left right then some .exclusiveMaximum
    else none

/-! ## 3. Additional properties -/

/-- What a schema says of properties that it does not name. -/
inductive Openness where
  | unsaid
  | closed
  | open
  | restricted (schema : Json)

/-- What this value of `additionalProperties` says. -/
def Openness.ofKeyword : Option Json → Openness
  | some (.bool false) => .closed
  | some (.bool true) => .open
  | some (.obj members) => if members.isEmpty then .open else .restricted (.obj members)
  | _ => .unsaid

/-- The value of `additionalProperties` that says this. -/
def Openness.keyword? : Openness → Option Json
  | .unsaid => none
  | .closed => some (.bool false)
  | .open => some (.bool true)
  | .restricted schema => some schema

/-- What two members say together; nothing when they contradict each other. -/
def Openness.merge? : Openness → Openness → Option Openness
  | .closed, _ | _, .closed => some .closed
  | .restricted l, .restricted r => if Json.same l r then some (.restricted l) else none
  | .restricted s, _ | _, .restricted s => some (.restricted s)
  | .open, _ | _, .open => some .open
  | .unsaid, .unsaid => some .unsaid

/-! ## 4. The merge -/

/-- Two values of `properties` together. -/
def unitedProperties (old new : Json) : Json :=
  match old, new with
  | .obj old, .obj new =>
    .obj (new.foldl (fun acc entry => Entries.insert entry.1 entry.2 acc) old)
  | _, _ => new

/-- Two values of a list keyword together. A value that is no list adds nothing. -/
def appendList (key : String) (value : Json) (into : List (String × Json)) :
    List (String × Json) :=
  match value with
  | .arr extra =>
    match Entries.get? key into with
    | some (.arr existing) => Entries.insert key (.arr (existing ++ extra)) into
    | _ => Entries.insert key (.arr extra) into
  | _ => into

/-- Takes one keyword of the right side into the left side. -/
def takeKeyword (keepType : Bool) (into : List (String × Json)) (entry : String × Json) :
    List (String × Json) :=
  let (key, value) := entry
  if key = "type" && keepType then into
  else if key = "required" || key = "enum" then appendList key value into
  else if key = "properties" then
    let old := (Entries.get? key into).getD (.obj [])
    Entries.insert key (unitedProperties old value) into
  else if key = "additionalProperties" || key = "nullable" || key = "allOf" then into
  else Entries.insert key value into

/-- Writes a keyword or takes it away. -/
def setKeyword (key : String) (value : Option Json) (into : List (String × Json)) :
    List (String × Json) :=
  match value with
  | some value => Entries.insert key value into
  | none => Entries.erase key into

/-- Merges a member into what the members before it describe. -/
def mergeInto (left : List (String × Json)) (right : Json) :
    Except MergeConflict (List (String × Json)) :=
  let leftNode := Json.obj left
  match conflict? leftNode right with
  | some conflict => .error conflict
  | none =>
    let openness := Openness.ofKeyword (leftNode.get? "additionalProperties")
    match openness.merge? (Openness.ofKeyword (right.get? "additionalProperties")) with
    | none => .error .additionalProperties
    | some openness =>
      let nullable := isNullable leftNode || isNullable right
      let keepType := (leftNode.get? "type").isSome
      let united := (right.members?.getD []).foldl (takeKeyword keepType) left
      .ok <| setKeyword "nullable" (if nullable then some (.bool true) else none) <|
        setKeyword "additionalProperties" openness.keyword? <|
        Entries.erase "allOf" united

/-- Merges a member into what the members before it describe; the first member is taken as it
    is. -/
def merge (left : Option (List (String × Json))) (right : Json) :
    Except MergeConflict (List (String × Json)) :=
  match left with
  | none => .ok (right.members?.getD [])
  | some left => mergeInto left right

end ApiTypes.Schema

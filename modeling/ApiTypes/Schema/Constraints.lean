import ApiTypes.Decimal.Notation
import ApiTypes.Schema.Keywords

/-!
  What a schema asks of its values, beside their type.

  * `ofSchema` and `ofProperty` read the bounds of a schema.
  * `absorb` takes over what another set of constraints asks and this one leaves open.
  * The **tags** are a short text of the bounds. A tag belongs to a family (the lower bound, the
    upper bound, `min`, `max`), and there is at most one of each. `required` comes first when it
    holds, or else `omitempty` when there is any other tag; the others are sorted.
-/

namespace ApiTypes

/-- A bound of numbers, and whether it excludes its value. -/
structure Bound where
  value : Float
  exclusive : Bool

/-- What a schema asks of its values. -/
structure Constraints where
  required : Bool := false
  nullable : Bool := false
  readOnly : Bool := false
  writeOnly : Bool := false
  minLength : Option Nat := none
  maxLength : Option Nat := none
  minimum : Option Bound := none
  maximum : Option Bound := none
  minItems : Option Nat := none
  maxItems : Option Nat := none
  pattern : Option String := none
  tags : List String := []

/-- Equal as numbers, and exclusive alike. -/
def Bound.same (a b : Bound) : Bool := a.value == b.value && a.exclusive == b.exclusive

/-- Bounds that are both missing or both there and the same. -/
def Bound.sameOption : Option Bound → Option Bound → Bool
  | none, none => true
  | some a, some b => a.same b
  | _, _ => false

namespace Constraints

/-- Field by field. -/
def same (a b : Constraints) : Bool :=
  a.required == b.required && a.nullable == b.nullable && a.readOnly == b.readOnly &&
    a.writeOnly == b.writeOnly && a.minLength == b.minLength && a.maxLength == b.maxLength &&
    Bound.sameOption a.minimum b.minimum && Bound.sameOption a.maximum b.maximum &&
    a.minItems == b.minItems && a.maxItems == b.maxItems && a.pattern == b.pattern &&
    a.tags == b.tags

/-! ## 1. Tags -/

/-- How the bounds of a schema are written in tags: as integers, as numbers, or not at all. -/
inductive Numeric where
  | integer
  | number
  | other
  deriving DecidableEq, Repr

/-- How the bounds of this schema are written. -/
def Numeric.ofSchema (schema : Json) : Numeric :=
  let types := Schema.declaredTypes schema
  if types.contains "integer" then .integer
  else if types.contains "number" then .number
  else .other

/-- The text of a bound's value. An integer is cut at the point and kept within 64 bits. -/
def Numeric.boundText? (numeric : Numeric) (value : Float) : Option String :=
  match numeric with
  | .integer => some (toString value.toInt64.toInt)
  | .number => some (Decimal.tagForm.write value)
  | .other => none

/-- Whether a tag says that a value must be there or may be missing. -/
def isPresenceTag (tag : String) : Bool := tag = "required" || tag = "omitempty"

/-- The family of a tag: what stands before `=`, with the two lower and the two upper bounds as
    one family each. -/
def tagFamily (tag : String) : String :=
  let name := String.ofList (Text.before '=' tag.toList)
  if name = "gt" || name = "gte" then "lower"
  else if name = "lt" || name = "lte" then "upper"
  else name

/-- Tags in order: the presence tag, then the others sorted and without repetition. -/
def orderTags (required : Bool) (tags : List String) : List String :=
  let sorted := Entries.sortedDistinct tags
  if required then "required" :: sorted
  else if sorted.isEmpty then []
  else "omitempty" :: sorted

/-- The tag of a numeric bound. -/
def boundTag? (numeric : Numeric) (exclusiveName inclusiveName : String) :
    Option Bound → Option String
  | none => none
  | some bound =>
    (numeric.boundText? bound.value).map fun text =>
      (if bound.exclusive then exclusiveName else inclusiveName) ++ "=" ++ text

/-- The tag of a count. -/
def countTag? (name : String) (count : Option Nat) : Option String :=
  count.map fun n => name ++ "=" ++ toString n

/-- The tags of the bounds. A length stands before a number of items. -/
def renderTags (c : Constraints) (numeric : Numeric) : List String :=
  orderTags c.required <| List.filterMap id
    [boundTag? numeric "gt" "gte" c.minimum, boundTag? numeric "lt" "lte" c.maximum,
      countTag? "min" (c.minLength.or c.minItems), countTag? "max" (c.maxLength.or c.maxItems)]

/-! ## 2. Reading a schema -/

/-- A bound in either of two forms: a value with a flag that makes it exclusive, or a number of
    its own for the exclusive bound. -/
def bound? (schema : Json) (key exclusiveKey : String) : Option Bound :=
  let inclusive := (schema.get? key).bind Json.float?
  match schema.get? exclusiveKey with
  | some (.bool exclusive) => inclusive.map (⟨·, exclusive⟩)
  | some other =>
    match other.float? with
    | some value => some ⟨value, true⟩
    | none => inclusive.map (⟨·, false⟩)
  | none => inclusive.map (⟨·, false⟩)

/-- The count under a keyword. -/
def count? (schema : Json) (key : String) : Option Nat := (schema.get? key).bind Json.nat?

/-- The constraints of a schema, given whether a value must be there and may be null. -/
def extract (schema : Json) (required nullable : Bool) : Constraints :=
  let c : Constraints :=
    { required, nullable
      readOnly := Schema.flag "readOnly" schema
      writeOnly := Schema.flag "writeOnly" schema
      minLength := count? schema "minLength"
      maxLength := count? schema "maxLength"
      minimum := bound? schema "minimum" "exclusiveMinimum"
      maximum := bound? schema "maximum" "exclusiveMaximum"
      minItems := count? schema "minItems"
      maxItems := count? schema "maxItems"
      pattern := Schema.text? "pattern" schema }
  { c with tags := c.renderTags (Numeric.ofSchema schema) }

/-- The constraints of a property. A property that need not be there is nullable. -/
def ofProperty (schema : Json) (required null : Bool) : Constraints :=
  extract schema required (!required || null || Schema.isNullable schema)

/-- The constraints of a schema that stands for itself. -/
def ofSchema (schema : Json) : Constraints := extract schema false (Schema.isNullable schema)

/-! ## 3. Combining -/

/-- How many bounds are set. -/
def strictness (c : Constraints) : Nat :=
  [c.minLength.isSome, c.maxLength.isSome, c.minimum.isSome, c.maximum.isSome, c.minItems.isSome,
    c.maxItems.isSome, c.pattern.isSome].countP id

/-- The tags of the left side, and those of the right side whose family the left side lacks. -/
def absorbTags (left right : List String) : List String :=
  right.foldl
    (fun tags tag =>
      if tags.any (fun t => tagFamily t = tagFamily tag) then tags else tags ++ [tag]) left

/-- Takes over what the other side asks and this one leaves open. -/
def absorb (c other : Constraints) : Constraints :=
  { required := c.required
    nullable := c.nullable || other.nullable
    readOnly := c.readOnly || other.readOnly
    writeOnly := c.writeOnly || other.writeOnly
    minLength := c.minLength.or other.minLength
    maxLength := c.maxLength.or other.maxLength
    minimum := c.minimum.or other.minimum
    maximum := c.maximum.or other.maximum
    minItems := c.minItems.or other.minItems
    maxItems := c.maxItems.or other.maxItems
    pattern := c.pattern.or other.pattern
    tags :=
      let proper (tags : List String) := tags.filter fun tag => !isPresenceTag tag
      orderTags c.required (absorbTags (proper c.tags) (proper other.tags)) }

end Constraints

end ApiTypes

import ApiTypes.Compile.Union

/-!
  Schemas without combinators: records, arrays, enumerations and scalars.

  * An object with properties is a record; without any it is a map, a record without fields, or
    accepts anything.
  * Each value of an enumeration has a name of its own; null is no value of it but makes it
    nullable.
  * Records and unions that stand inside become definitions of their own.
-/

namespace ApiTypes

/-! ## 1. Scalars -/

/-- The primitive of a scalar type with a format. -/
def scalarDecl? (type : String) (format : Option String) : Option String :=
  let refined (formats : List (String × String)) : String :=
    (format.bind fun name => Entries.get? name formats).getD type
  if type = "string" then
    some (refined [("date", "date"), ("date-time", "date-time"), ("time", "time"),
      ("uuid", "uuid"), ("email", "email"), ("uri", "uri"), ("url", "uri"), ("binary", "binary"),
      ("byte", "bytes")])
  else if type = "integer" then some (refined [("int32", "int32"), ("int64", "int64")])
  else if type = "number" then some (refined [("float", "float"), ("double", "double")])
  else if type = "boolean" then some type
  else none

/-- The scalar type of a value. -/
def scalarType? : Json → Option String
  | .str _ => some "string"
  | .bool _ => some "boolean"
  | .int _ => some "integer"
  | .float _ => some "number"
  | .null | .arr _ | .obj _ => none

/-! ## 2. Enumerations -/

/-- The wanted name of a value: the one given for its place, or else one made from the value. -/
def choiceBase (given : Option String) (value : Json) : String :=
  match given, value with
  | some name, _ => name
  | none, .str s => TypeName.ofText s
  | none, other => TypeName.ofText ("value " ++ other.compact)

/-- Adds a value under a name that no value before it has. Null is passed over. -/
def addChoice (names : List String) (choices : List Choice) (value : Json × Nat) : List Choice :=
  if value.1.isNull then choices
  else
    let base := choiceBase names[value.2]? value.1
    choices ++ [⟨TypeName.fresh (choices.map (·.name)) base [], value.1⟩]

/-- The values of an enumeration with their names. The places of given names count nulls. -/
def choicesOf (names : List String) (values : List Json) : List Choice :=
  values.zipIdx.foldl (addChoice names) []

/-- The shape of an enumeration. Without a declared type the first value that is not null
    decides. -/
def enumShape (node : Json) (declared : Option String) (extensions : Extensions) : Shape :=
  let values := Schema.membersOf "enum" node
  let type := declared.or ((values.find? (!·.isNull)).bind scalarType?)
  let decl := (type.bind (scalarDecl? · (Schema.text? "format" node))).getD anyDecl
  { decl, choices := choicesOf extensions.enumNames values
    constraints := { nullable := values.any Json.isNull } }

namespace Env

/-! ## 3. Records -/

/-- Resolves a property. -/
def field (env : Env) (resolve : Resolver) (required : List String) (site : Site)
    (property : String × Json) : Resolve Field := do
  let (name, node) := property
  let site := site.child name
  let shape ← env.hoist (← resolve node site) site .property
  let resolved ← Resolve.ask (env.deref node site)
  let extensions ← Resolve.ask (extensionsAt node site.display)
  let null := shape.constraints.nullable || Schema.isNullable node || Schema.admitsNull resolved
  let own := Constraints.ofProperty resolved (required.contains name) null
  return {
    name := extensions.typeName.getD (TypeName.ofText name)
    wireName := some name
    description := (Schema.description? node).or (Schema.description? resolved)
    deprecated := Schema.flag "deprecated" node || Schema.flag "deprecated" resolved
    shape
    constraints := own.absorb shape.constraints
    extensions }

/-- Resolves what an object says of the fields that it does not name. -/
def additionalFields (env : Env) (resolve : Resolver) (node : Json) (site : Site) :
    Resolve (Option Shape) := do
  match node.get? "additionalProperties" with
  | some (.bool true) => return some Shape.any
  | some (.obj []) => return some Shape.any
  | some (.obj members) =>
    let site := site.child "AdditionalProperties"
    return some (← env.hoist (← resolve (.obj members) site) site .property)
  | _ => return none

/-- The shape of an object without properties. -/
def fieldlessShape (node : Json) (additional : Option Shape) : Shape :=
  let map (value : Shape) : Shape :=
    { decl := mapDecl value, isOpen := true, additional := some value }
  match additional with
  | some value => map value
  | none =>
    let closed := match node.get? "additionalProperties" with
      | some (.bool false) => true
      | _ => false
    if closed || (node.get? "properties").isSome then Shape.ofDecl emptyRecordDecl
    else if Schema.declaredTypes node = ["object"] then map Shape.any
    else Shape.any

/-- Resolves an object. -/
def objectShape (env : Env) (resolve : Resolver) (node : Json) (site : Site) : Resolve Shape := do
  let required := Schema.requiredNames node
  let fields ← ((Schema.properties? node).getD []).mapM (env.field resolve required site)
  let additional ← env.additionalFields resolve node site
  if fields.isEmpty then return fieldlessShape node additional
  return { decl := recordDecl fields additional, fields, isOpen := additional.isSome, additional }

/-! ## 4. By type -/

/-- Resolves an array. Items that are not described accept anything. -/
def arrayShape (env : Env) (resolve : Resolver) (node : Json) (site : Site) : Resolve Shape := do
  let site := site.child "Item"
  let item ← match node.get? "items" with
    | none => pure Shape.any
    | some items => resolve items site
  let item ← env.hoist item site .property
  return { decl := arrayDecl item, item := some item }

/-- Resolves a schema of one type that is not `object`. -/
def typedShape (env : Env) (resolve : Resolver) (node : Json) (type : String) (site : Site) :
    Resolve Shape :=
  if type = "array" then env.arrayShape resolve node site
  else match scalarDecl? type (Schema.text? "format" node) with
    | some decl => return Shape.ofDecl decl
    | none => throw (.unsupportedType site.display type)

/-- Resolves a schema by its types. Several types together accept anything. -/
def plainShape (env : Env) (resolve : Resolver) (node : Json) (extensions : Extensions)
    (site : Site) : Resolve Shape :=
  let isEnum := (node.get? "enum").isSome
  match Schema.types node with
  | [] =>
    if isEnum then return enumShape node none extensions else env.objectShape resolve node site
  | [type] =>
    if type = "object" then env.objectShape resolve node site
    else if isEnum then return enumShape node (some type) extensions
    else env.typedShape resolve node type site
  | _ => return Shape.any

end Env

end ApiTypes

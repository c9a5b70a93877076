import ApiTypes.Json.Basic
import ApiTypes.Text.Basic

/-!
  The keywords of a schema.

  A schema is any JSON value; a value of the wrong kind under a keyword counts as missing. Types
  are declared by one name or by a list of names, and `null` among them is no type but makes the
  schema nullable.
-/

namespace ApiTypes.Schema

/-- Keywords that describe a schema and do not constrain it. -/
def metadataKeys : List String :=
  ["description", "title", "summary", "example", "examples", "deprecated", "externalDocs",
    "$comment"]

/-- Whether a key is an extension of the document's author. -/
def isExtensionKey (key : String) : Bool := Text.startsWith "x-" key

/-- Whether a key describes a schema and does not constrain it. -/
def isMetadataKey (key : String) : Bool := metadataKeys.contains key || isExtensionKey key

/-- The text under a keyword. -/
def text? (key : String) (schema : Json) : Option String := (schema.get? key).bind Json.string?

/-- The truth of a keyword; a missing one is false. -/
def flag (key : String) (schema : Json) : Bool :=
  ((schema.get? key).bind Json.bool?).getD false

/-- The description. -/
def description? (schema : Json) : Option String := text? "description" schema

/-- The target of `$ref`. -/
def reference? (schema : Json) : Option String := text? "$ref" schema

/-! ## 1. Types -/

/-- The declared types without null. -/
def declaredTypes (schema : Json) : List String :=
  match schema.get? "type" with
  | some (.str name) => if name = "null" then [] else [name]
  | some (.arr names) => (names.filterMap Json.string?).filter (· ≠ "null")
  | _ => []

/-- The declared types, or else the type that properties or items imply. -/
def types (schema : Json) : List String :=
  let declared := declaredTypes schema
  if !declared.isEmpty then declared
  else if (schema.get? "properties").isSome then ["object"]
  else if (schema.get? "items").isSome then ["array"]
  else []

/-- Whether null is among the declared types. -/
def admitsNull (schema : Json) : Bool :=
  match schema.get? "type" with
  | some (.str name) => name = "null"
  | some (.arr names) => (names.filterMap Json.string?).contains "null"
  | _ => false

/-- Whether null is the only declared type. -/
def isNullOnly (schema : Json) : Bool := admitsNull schema && (declaredTypes schema).isEmpty

/-- Whether null is a value of the schema, by a declared type or by the keyword. -/
def isNullable (schema : Json) : Bool := admitsNull schema || flag "nullable" schema

/-! ## 2. Parts -/

/-- The names of the required properties. -/
def requiredNames (schema : Json) : List String :=
  match schema.get? "required" with
  | some (.arr names) => names.filterMap Json.string?
  | _ => []

/-- The properties. -/
def properties? (schema : Json) : Option (List (String × Json)) :=
  (schema.get? "properties").bind Json.members?

/-- The members of a combinator; none without it. -/
def membersOf (combinator : String) (schema : Json) : List Json :=
  ((schema.get? combinator).bind Json.items?).getD []

/-- Whether the schema is a union, by `anyOf` or `oneOf`. -/
def hasUnion (schema : Json) : Bool :=
  !(membersOf "anyOf" schema).isEmpty || !(membersOf "oneOf" schema).isEmpty

/-! ## 3. Shapes of nodes -/

/-- Whether a node declares nothing but metadata. -/
def isMetadataOnly (schema : Json) : Bool :=
  match schema with
  | .obj members => members.all fun entry => isMetadataKey entry.1
  | _ => false

/-- Whether a node with `$ref` leaves the referenced type as it is. Being nullable only widens
    the reference. -/
def isBareReference (schema : Json) : Bool :=
  match schema with
  | .obj members =>
    members.all fun entry =>
      entry.1 = "$ref" || entry.1 = "nullable" || isMetadataKey entry.1
  | _ => false

end ApiTypes.Schema

import ApiTypes.Schema.Constraints
import ApiTypes.Schema.Extensions

/-!
  The type model.

  A **shape** is a resolved schema: a primitive, an array, a map, a record of fields, a union of
  variants, or the name of another type. A **definition** is a shape with a name. Shapes refer to
  other definitions by name, so the model is a flat list of definitions.

  * `decl` is the short text of a shape: its primitive, the name it refers to, or its structure.
    `refreshDecl` renders it from the structure.
  * A shape `needsName` when it is a record or a union that stands where only names and primitives
    may stand.
-/

namespace ApiTypes

/-- A value of an enumeration and its name. -/
structure Choice where
  name : String
  value : Json

/-- The property that tells the variants of a union apart, and the type that each of its values
    selects. The table is sorted. -/
structure Discriminator where
  property : String
  mapping : List (String × String) := []
  deriving DecidableEq, Repr

/-- Where a definition was declared. -/
inductive Location where
  | schema
  | property
  | pathParameter
  | queryParameter
  | headerParameter
  | requestBody
  | response
  | union
  | merge
  deriving DecidableEq, Repr

mutual

/-- A resolved schema. -/
structure Shape where
  /-- The short text of the shape. -/
  decl : String := ""
  /-- The definition that this shape stands for. -/
  target : Option String := none
  /-- The elements of an array. -/
  item : Option Shape := none
  /-- The values of an enumeration. -/
  choices : List Choice := []
  /-- The fields of a record. -/
  fields : List Field := []
  /-- Whether a record takes fields that it does not name. -/
  isOpen : Bool := false
  /-- The fields that a record does not name. -/
  additional : Option Shape := none
  /-- The variants of a union. -/
  variants : List Variant := []
  discriminator : Option Discriminator := none
  /-- Whether this is only another name for its target. -/
  isAlias : Bool := false
  /-- The definitions that were made while this shape was. -/
  hoisted : List Definition := []
  constraints : Constraints := {}
  description : Option String := none
  /-- The schema that this shape was made from. -/
  source : Option Json := none

/-- A field of a record. -/
structure Field where
  name : String
  /-- The key on the wire. A field without one embeds the fields of its type. -/
  wireName : Option String := none
  description : Option String := none
  deprecated : Bool := false
  shape : Shape
  constraints : Constraints := {}
  extensions : Extensions := {}

/-- A variant of a union. -/
structure Variant where
  typeName : String
  shape : Shape

/-- A named shape. -/
structure Definition where
  name : String
  /-- The name in the document, where it differs. -/
  jsonName : Option String := none
  shape : Shape
  location : Location

end

instance : Inhabited Shape := ⟨{}⟩

/-! ## 1. Primitives -/

/-- The text of a shape that accepts anything. -/
def anyDecl : String := "any"

/-- The text of a record without fields. -/
def emptyRecordDecl : String := "record \x7b\x7d"

/-- The texts that name a primitive and no definition. -/
def primitiveDecls : List String :=
  ["any", "string", "date", "date-time", "time", "uuid", "email", "uri", "binary", "bytes",
    "integer", "int32", "int64", "number", "float", "double", "boolean"]

/-- Whether a text names a primitive. -/
def isPrimitive (decl : String) : Bool := primitiveDecls.contains decl

/-! ## 2. Shapes -/

/-- Whether a field holds sensitive data. -/
def Field.isSensitive (field : Field) : Bool := field.extensions.sensitiveData.isSome

namespace Shape

/-- The shape with this text alone. -/
def ofDecl (decl : String) : Shape := { decl }

/-- The shape that accepts anything. -/
def any : Shape := ofDecl anyDecl

/-- The use of a definition. -/
def reference (name : String) : Shape := { decl := name, target := some name }

/-- Another name for a definition. -/
def aliasOf (name : String) : Shape := { decl := name, target := some name, isAlias := true }

/-- Whether nothing is known of the shape. -/
def isBlank (shape : Shape) : Bool :=
  shape.decl = "" && shape.target.isNone && shape.fields.isEmpty && shape.variants.isEmpty

/-- Whether the shape stands for a definition. -/
def isReference (shape : Shape) : Bool := shape.target.isSome

/-- Whether the shape accepts anything. -/
def isAny (shape : Shape) : Bool := shape.decl = anyDecl

/-- Whether the shape is a record or a union without a name. -/
def needsName (shape : Shape) : Bool :=
  shape.target.isNone && (!shape.fields.isEmpty || !shape.variants.isEmpty)

/-- Whether a field holds sensitive data. -/
def hasSensitiveData (shape : Shape) : Bool := shape.fields.any Field.isSensitive

/-- Whether values are written in a way of their own: with sensitive data, or with embedded
    fields outside a union. -/
def needsCustomSerializer (shape : Shape) : Bool :=
  shape.item.isNone &&
    (shape.hasSensitiveData ||
      (shape.fields.any (·.wireName.isNone) && shape.variants.isEmpty))

end Shape

/-- A field that embeds the fields of a definition. -/
def Field.mixin (typeName : String) (nullable : Bool) : Field :=
  { name := typeName, shape := Shape.reference typeName, constraints := { nullable } }

/-! ## 3. Texts -/

/-- The text of a field. -/
def Field.text (field : Field) : String :=
  match field.wireName with
  | none => ".." ++ field.shape.decl
  | some wire =>
    wire ++ (if field.constraints.required then ": " else "?: ") ++ field.shape.decl

/-- The text of a record. -/
def recordDecl (fields : List Field) (additional : Option Shape) : String :=
  let parts := fields.map Field.text ++
    (additional.map fun shape => "[key: string]: " ++ shape.decl).toList
  if parts.isEmpty then emptyRecordDecl else "record \x7b " ++ ", ".intercalate parts ++ " \x7d"

/-- The text of a union. -/
def unionDecl (variants : List Variant) : String :=
  "union \x7b " ++ " | ".intercalate (variants.map (·.typeName)) ++ " \x7d"

/-- The text of an array. -/
def arrayDecl (item : Shape) : String := "array<" ++ item.decl ++ ">"

/-- The text of a map. -/
def mapDecl (value : Shape) : String := "map<string, " ++ value.decl ++ ">"

/-- The shape with its text rendered from its fields, or else from its variants. -/
def Shape.refreshDecl (shape : Shape) : Shape :=
  if !shape.fields.isEmpty then { shape with decl := recordDecl shape.fields shape.additional }
  else if !shape.variants.isEmpty then { shape with decl := unionDecl shape.variants }
  else shape

/-! ## 4. Definitions -/

/-- The name of a location. -/
def Location.name : Location → String
  | .schema => "schema"
  | .property => "property"
  | .pathParameter => "path-parameter"
  | .queryParameter => "query-parameter"
  | .headerParameter => "header-parameter"
  | .requestBody => "request-body"
  | .response => "response"
  | .union => "union"
  | .merge => "merge"

/-- Records the name in the document, where it differs. -/
def Definition.withJsonName (definition : Definition) (name : String) : Definition :=
  if name = definition.name then definition else { definition with jsonName := some name }

end ApiTypes

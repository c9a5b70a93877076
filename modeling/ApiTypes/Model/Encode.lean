import ApiTypes.Model.Basic

/-!
  The type model as JSON.

  Members come in a fixed order. What is missing, empty or false is left out, but for the text and
  the constraints of a shape. Sources and hoisted definitions are not written.
-/

namespace ApiTypes

open Extensions (member nat)

/-! ## 1. Leaves -/

/-- A member that is there when it is true. -/
def trueMember (key : String) (value : Bool) : List (String × Json) :=
  if value then [(key, .bool true)] else []

/-- A member that is there when the list has elements. -/
def listMember {α : Type} (key : String) (write : α → Json) (values : List α) :
    List (String × Json) :=
  if values.isEmpty then [] else [(key, .arr (values.map write))]

/-- A bound as an object. -/
def Bound.toJson (bound : Bound) : Json :=
  .obj [("value", .float bound.value), ("exclusive", .bool bound.exclusive)]

/-- Constraints as an object. -/
def Constraints.toJson (c : Constraints) : Json :=
  .obj <| [("required", .bool c.required), ("nullable", .bool c.nullable)] ++
    trueMember "read_only" c.readOnly ++ trueMember "write_only" c.writeOnly ++
    member "min_length" nat c.minLength ++ member "max_length" nat c.maxLength ++
    member "minimum" Bound.toJson c.minimum ++ member "maximum" Bound.toJson c.maximum ++
    member "min_items" nat c.minItems ++ member "max_items" nat c.maxItems ++
    member "pattern" .str c.pattern ++ listMember "validation_tags" .str c.tags

/-- A value of an enumeration as an object. -/
def Choice.toJson (choice : Choice) : Json :=
  .obj [("name", .str choice.name), ("value", choice.value)]

/-- A table of texts as an object. -/
def textTableJson (table : List (String × String)) : Json :=
  .obj (table.map fun entry => (entry.1, .str entry.2))

/-- A discriminator as an object. -/
def Discriminator.toJson (d : Discriminator) : Json :=
  .obj [("property", .str d.property), ("mapping", textTableJson d.mapping)]

/-! ## 2. Shapes -/

mutual

/-- A shape as an object. -/
def Shape.toJson : Shape → Json
  | ⟨decl, target, item, choices, fields, isOpen, additional, variants, discriminator, isAlias,
      _, constraints, description, _⟩ =>
    .obj <| [("type_decl", .str decl)] ++ member "ref_type" .str target ++
      shapeMember "array_type" item ++ listMember "enum_values" Choice.toJson choices ++
      (if fields.isEmpty then [] else [("properties", .arr (fieldsJson fields))]) ++
      trueMember "has_additional_properties" isOpen ++
      shapeMember "additional_properties" additional ++
      (if variants.isEmpty then [] else [("union_elements", .arr (variantsJson variants))]) ++
      member "discriminator" Discriminator.toJson discriminator ++
      trueMember "define_via_alias" isAlias ++ [("constraints", constraints.toJson)] ++
      member "description" .str description
termination_by structural shape => shape

/-- A member that is there when the shape is. -/
def shapeMember (key : String) : Option Shape → List (String × Json)
  | none => []
  | some shape => [(key, shape.toJson)]
termination_by structural shape => shape

/-- Fields as objects. -/
def fieldsJson : List Field → List Json
  | [] => []
  | ⟨name, wireName, description, deprecated, shape, constraints, extensions⟩ :: rest =>
    .obj ([("field_name", .str name)] ++ member "wire_name" .str wireName ++
      member "description" .str description ++ trueMember "deprecated" deprecated ++
      [("schema", shape.toJson), ("constraints", constraints.toJson)] ++
      (if extensions.isEmpty then [] else [("extensions", extensions.toJson)])) ::
      fieldsJson rest
termination_by structural fields => fields

/-- Variants as objects. -/
def variantsJson : List Variant → List Json
  | [] => []
  | ⟨typeName, shape⟩ :: rest =>
    .obj [("type_name", .str typeName), ("schema", shape.toJson)] :: variantsJson rest
termination_by structural variants => variants

end

/-! ## 3. Definitions -/

/-- A definition as an object. -/
def Definition.toJson (d : Definition) : Json :=
  .obj <| [("name", .str d.name)] ++ member "json_name" .str d.jsonName ++
    [("schema", d.shape.toJson), ("location", .str d.location.name),
      ("needs_custom_serializer", .bool d.shape.needsCustomSerializer),
      ("has_sensitive_data", .bool d.shape.hasSensitiveData)]

/-- Definitions as a list of objects. -/
def definitionsJson (definitions : List Definition) : Json :=
  .arr (definitions.map Definition.toJson)

end ApiTypes

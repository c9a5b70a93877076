import ApiTypes.Filter
import ApiTypes.Schema.Keywords

/-!
  Taking away what no compilation reads.

  Webhooks, security, example values and extensions that are not on the list of allowed ones go.
  A document is walked by the **parts** it is made of, so that a name that an author chose is never
  mistaken for a keyword: `childPart` says which part stands under which key of which part.
-/

namespace ApiTypes.Prune

/-- What a value is, by where it stands in a document. -/
inductive Part where
  /-- The whole document. -/
  | document
  | paths
  | pathItem
  | operation
  | callback
  | requestBody
  | responses
  | response
  /-- Parameters and headers have one form. -/
  | parameter
  | mediaType
  | encoding
  | schema
  | components
  | link
  /-- An object that maps names to parts. -/
  | mapOf (part : Part)
  /-- A list of parts. -/
  | listOf (part : Part)
  /-- Anything that stays as it is. -/
  | other
  deriving DecidableEq, Repr

/-! ## 1. How parts hold parts -/

/-- The collections of components. -/
def componentPart (key : String) : Part :=
  if key = "schemas" then .mapOf .schema
  else if key = "parameters" || key = "headers" then .mapOf .parameter
  else if key = "requestBodies" then .mapOf .requestBody
  else if key = "responses" then .mapOf .response
  else if key = "links" then .mapOf .link
  else if key = "callbacks" then .mapOf .callback
  else .other

/-- The parts of a schema. -/
def schemaPart (key : String) : Part :=
  if key = "properties" then .mapOf .schema
  else if key = "items" || key = "additionalProperties" || key = "not" then .schema
  else if key = "allOf" || key = "anyOf" || key = "oneOf" then .listOf .schema
  else .other

/-- The parts of an operation. -/
def operationPart (key : String) : Part :=
  if key = "parameters" then .listOf .parameter
  else if key = "requestBody" then .requestBody
  else if key = "responses" then .responses
  else if key = "callbacks" then .mapOf .callback
  else .other

/-- Which part stands under a key of a part. -/
def childPart (part : Part) (key : String) : Part :=
  match part with
  | .document =>
    if key = "paths" then .paths else if key = "components" then .components else .other
  | .paths | .callback => .pathItem
  | .pathItem =>
    if key = "parameters" then .listOf .parameter
    else if httpMethods.contains key then .operation
    else .other
  | .operation => operationPart key
  | .requestBody => if key = "content" then .mapOf .mediaType else .other
  | .responses => .response
  | .response =>
    if key = "headers" then .mapOf .parameter
    else if key = "links" then .mapOf .link
    else if key = "content" then .mapOf .mediaType
    else .other
  | .parameter =>
    if key = "schema" then .schema else if key = "content" then .mapOf .mediaType else .other
  | .mediaType =>
    if key = "schema" then .schema else if key = "encoding" then .mapOf .encoding else .other
  | .encoding => if key = "headers" then .mapOf .parameter else .other
  | .schema => schemaPart key
  | .components => componentPart key
  | .mapOf inner => inner
  | .link | .listOf _ | .other => .other

/-! ## 2. What goes -/

/-- The keywords that a part loses. -/
def droppedKeys : Part → List String
  | .document => ["webhooks", "security", "callbacks"]
  | .components => ["securitySchemes", "examples"]
  | .parameter | .mediaType | .schema => ["example", "examples"]
  | _ => []

/-- Whether the keys of a part are keywords, so that extensions are among them. -/
def hasKeywords : Part → Bool
  | .mapOf _ | .listOf _ | .other => false
  | _ => true

/-- Whether a member of a part stays. -/
def keepsKey (allowed : List String) (part : Part) (key : String) : Bool :=
  !hasKeywords part ||
    ((!Schema.isExtensionKey key || allowed.contains key) && !(droppedKeys part).contains key)

/-! ## 3. The walk -/

mutual

/-- A part without what goes, at every depth. -/
def clean (allowed : List String) (part : Part) : Json → Json
  | .obj members => .obj (cleanMembers allowed part members)
  | .arr items =>
    match part with
    | .listOf inner => .arr (cleanItems allowed inner items)
    | _ => .arr items
  | .null => .null
  | .bool b => .bool b
  | .int n => .int n
  | .float x => .float x
  | .str s => .str s
termination_by structural value => value

/-- The parts of a list, each without what goes. -/
def cleanItems (allowed : List String) (part : Part) : List Json → List Json
  | [] => []
  | item :: rest => clean allowed part item :: cleanItems allowed part rest
termination_by structural items => items

/-- The members of a part that stay, each without what goes. -/
def cleanMembers (allowed : List String) (part : Part) :
    List (String × Json) → List (String × Json)
  | [] => []
  | (key, value) :: rest =>
    if keepsKey allowed part key then
      (key, clean allowed (childPart part key) value) :: cleanMembers allowed part rest
    else cleanMembers allowed part rest
termination_by structural members => members

end

end ApiTypes.Prune

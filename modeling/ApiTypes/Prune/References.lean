import ApiTypes.Document

/-!
  The references that a part of a document makes.

  `collect` walks a value and lists every `$ref` and every target of a discriminator mapping. With
  a reference to a place inside a component it lists the component too.

  * The walk goes everywhere but into **instance data**: the values of `example`, `default` and
    the like.
  * Under some keywords the keys are **names** chosen by the author. A name is never read as a
    keyword, so a property called `default` is walked like any other.
-/

namespace ApiTypes.Prune

/-- Keywords that hold instance data. -/
def dataKeys : List String := ["example", "examples", "default", "const", "enum"]

/-- Keywords under which the keys are names. -/
def nameKeys : List String :=
  ["properties", "patternProperties", "definitions", "$defs", "dependentSchemas", "responses",
    "content", "headers", "encoding", "links", "callbacks"]

/-! ## 1. One node -/

/-- A reference, and before it the component that it reaches into. -/
def withParent (reference : String) : List String :=
  (Reference.parent? reference).toList ++ [reference]

/-- The targets of the mapping, where a node is a discriminator. -/
def mappingTargets (members : List (String × Json)) : List String :=
  match Entries.get? "propertyName" members, Entries.get? "mapping" members with
  | some (.str _), some (.obj mapping) =>
    ((Entries.values mapping).filterMap Json.string?).map Reference.ofMappingTarget
  | _, _ => []

/-- The references that a node itself makes. -/
def ownReferences (members : List (String × Json)) : List String :=
  (((Entries.get? "$ref" members).bind Json.string?).toList ++ mappingTargets members).flatMap
    withParent

/-! ## 2. The walk -/

mutual

/-- The references made in a value. `named` says that the keys of the value are names. -/
def collect (named : Bool) : Json → List String
  | .obj members =>
    (if named then [] else ownReferences members) ++ collectMembers named members
  | .arr items => collectItems items
  | .null | .bool _ | .int _ | .float _ | .str _ => []
termination_by structural value => value

/-- The references made in the elements of an array. -/
def collectItems : List Json → List String
  | [] => []
  | item :: rest => collect false item ++ collectItems rest
termination_by structural items => items

/-- The references made in the members of an object. -/
def collectMembers (named : Bool) : List (String × Json) → List String
  | [] => []
  | (key, value) :: rest =>
    (if named then collect false value
      else if dataKeys.contains key then []
      else collect (nameKeys.contains key) value) ++ collectMembers named rest
termination_by structural members => members

end

/-- The references made in a value whose keys are keywords. -/
def references (value : Json) : List String := collect false value

mutual

/-- The references that any node inside a value makes, whether the walk comes there or not. -/
def everyReference : Json → List String
  | .obj members => ownReferences members ++ everyInMembers members
  | .arr items => everyInItems items
  | .null | .bool _ | .int _ | .float _ | .str _ => []
termination_by structural value => value

/-- The references that any node inside the elements makes. -/
def everyInItems : List Json → List String
  | [] => []
  | item :: rest => everyReference item ++ everyInItems rest
termination_by structural items => items

/-- The references that any node inside the members makes. -/
def everyInMembers : List (String × Json) → List String
  | [] => []
  | (_, value) :: rest => everyReference value ++ everyInMembers rest
termination_by structural members => members

end

end ApiTypes.Prune

import ApiTypes.Entries
import ApiTypes.Yaml.Node.Grammar
import ApiTypes.Yaml.Scalar

/-!
  The value of a YAML document.

  * Mappings are objects. A key is the text of its scalar, whatever that stands for; a key that
    comes again keeps its place and takes the last value, and `<<` is a key like any other.
  * Collections may be nested `nestingLimit` deep, counted through aliases.
  * Aliases may be followed a hundred times for each part of the document, so that a short text
    cannot stand for an enormous value.
-/

namespace ApiTypes.Yaml

/-- How deep collections may be nested. -/
def nestingLimit : Nat := 128

/-- How often aliases may be followed, for each part of a document. -/
def aliasUses : Nat := 100

/-- A step of reading values; the state is how often aliases may still be followed. -/
abbrev Valuing := StateT Nat Option

namespace Node

/-! ## 1. Aliases -/

/-- The last node with a number. -/
def anchoredAt? (number : Nat) (anchors : List (Nat × Node)) : Option Node :=
  anchors.reverse.lookup number

/-- The node itself, or the one that an alias stands for. -/
def followed (anchors : List (Nat × Node)) : Node → Valuing Node
  | .alias number => do
    match ← get with
    | 0 => failure
    | uses + 1 =>
      set uses
      anchoredAt? number anchors
  | node => return node

/-! ## 2. Values -/

/-- The key that a node stands for, which must be a scalar. -/
def keyText (anchors : List (Nat × Node)) (key : Node) : Valuing String := do
  match ← followed anchors key with
  | .scalar _ text _ => return text
  | _ => failure

/-- Whether a collection may have this tag: one that no program defines for itself. -/
def allowsTag (properties : Properties) : Bool := !properties.tag.any (Text.startsWith "!")

/-- Goes on only if a collection may have its tag. -/
def checkTag (properties : Properties) : Valuing Unit :=
  if allowsTag properties then pure () else failure

/-- The value of a node, given how its parts are read if it may have any. -/
def valueOf (anchors : List (Nat × Node)) (part : Option (Node → Valuing Json)) (node : Node) :
    Valuing Json := do
  match ← followed anchors node with
  | .scalar properties text plain => Scalar.value? properties.tag text plain
  | .sequence properties items =>
    checkTag properties
    let part ← part
    return .arr (← items.mapM part)
  | .mapping properties entries =>
    checkTag properties
    let part ← part
    let members ← entries.foldlM (fun members entry => do
      let key ← keyText anchors entry.1
      return Entries.insert key (← part entry.2) members) []
    return .obj members
  | .alias _ => failure

/-- The value of a node whose collections may be nested so deep. -/
def value (anchors : List (Nat × Node)) : Nat → Node → Valuing Json
  | 0 => valueOf anchors none
  | depth + 1 => valueOf anchors (some (value anchors depth))

/-- The value of a document with this root. -/
def toJson? (root : Node) : Option Json :=
  ((value root.anchored nestingLimit root).run (aliasUses * root.size)).map (·.1)

end Node

/-- The value of a text: null when it holds no document, nothing when it is no YAML. -/
def parse? (text : String) : Option Json := do
  match ← Node.ofTokens? (← Token.scan? text) with
  | none => return .null
  | some root => root.toJson?

end ApiTypes.Yaml

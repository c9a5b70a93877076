/-!
  The nodes of a YAML document.

  A node is a scalar, a sequence or a mapping; an alias stands for a node with an anchor.

  * **Anchors are numbers.** A new anchor gets the number of names in use before it, and an alias
    the number that its name has then. A name that is used again can leave two nodes with one
    number; the later one in the text counts.
-/

namespace ApiTypes.Yaml

/-- What may stand before the content of a node. -/
structure Properties where
  anchor : Option Nat := none
  tag : Option String := none
  deriving DecidableEq, Repr

/-- A node. -/
inductive Node where
  | alias (number : Nat)
  | scalar (properties : Properties) (text : String) (plain : Bool)
  | sequence (properties : Properties) (items : List Node)
  | mapping (properties : Properties) (entries : List (Node × Node))

namespace Node

/-- A scalar that is not written. -/
def empty (properties : Properties) : Node := .scalar properties "" true

/-! ## 1. Size -/

mutual

/-- How many marks the structure of a node has: one for a scalar or alias, two for a collection
    besides those of its parts. -/
def size : Node → Nat
  | .alias _ | .scalar .. => 1
  | .sequence _ items => 2 + itemsSize items
  | .mapping _ entries => 2 + entriesSize entries
termination_by structural node => node

/-- The size of the elements of a sequence. -/
def itemsSize : List Node → Nat
  | [] => 0
  | item :: rest => item.size + itemsSize rest
termination_by structural items => items

/-- The size of the entries of a mapping. -/
def entriesSize : List (Node × Node) → Nat
  | [] => 0
  | entry :: rest => entrySize entry + entriesSize rest
termination_by structural entries => entries

/-- The size of an entry of a mapping. -/
def entrySize : Node × Node → Nat
  | (key, value) => key.size + value.size
termination_by structural entry => entry

end

/-! ## 2. Anchors -/

/-- A node under its number, if it has one. -/
def own (properties : Properties) (node : Node) : List (Nat × Node) :=
  match properties.anchor with
  | some number => [(number, node)]
  | none => []

mutual

/-- The nodes with anchors in the order of the text. -/
def anchored : Node → List (Nat × Node)
  | .alias _ => []
  | .scalar properties text plain => own properties (.scalar properties text plain)
  | .sequence properties items => own properties (.sequence properties items) ++ itemsAnchored items
  | .mapping properties entries =>
    own properties (.mapping properties entries) ++ entriesAnchored entries
termination_by structural node => node

/-- The nodes with anchors among the elements of a sequence. -/
def itemsAnchored : List Node → List (Nat × Node)
  | [] => []
  | item :: rest => item.anchored ++ itemsAnchored rest
termination_by structural items => items

/-- The nodes with anchors among the entries of a mapping. -/
def entriesAnchored : List (Node × Node) → List (Nat × Node)
  | [] => []
  | entry :: rest => entryAnchored entry ++ entriesAnchored rest
termination_by structural entries => entries

/-- The nodes with anchors in an entry of a mapping. -/
def entryAnchored : Node × Node → List (Nat × Node)
  | (key, value) => key.anchored ++ value.anchored
termination_by structural entry => entry

end

end Node

end ApiTypes.Yaml

import ApiTypes.Compile.Site
import ApiTypes.Document
import ApiTypes.Options
import ApiTypes.Registry

/-!
  What a compilation knows while it runs.

  * The **environment** stays: the document and the options. Looking up references needs nothing
    else.
  * The **session** changes: the definitions so far, the references that are being expanded, and
    how deep the resolution is. It also changes when a resolution fails, so that whoever goes on
    after a failure can see what was done and undo it.
-/

namespace ApiTypes

/-- How deep schemas may nest. -/
def maxDepth : Nat := 256

/-- How many references a reference may lead through. -/
def maxHops : Nat := 64

/-! ## 1. The environment -/

mutual

/-- How many values a value consists of. -/
def Json.size : Json → Nat
  | .arr items => 1 + sizeOfItems items
  | .obj members => 1 + sizeOfMembers members
  | .null | .bool _ | .int _ | .float _ | .str _ => 1
termination_by structural value => value

/-- How many values the elements consist of. -/
def Json.sizeOfItems : List Json → Nat
  | [] => 0
  | item :: rest => item.size + sizeOfItems rest
termination_by structural items => items

/-- How many values the members consist of. -/
def Json.sizeOfMembers : List (String × Json) → Nat
  | [] => 0
  | (_, value) :: rest => value.size + sizeOfMembers rest
termination_by structural members => members

end

/-- What stays the same during a compilation. -/
structure Env where
  doc : Document
  options : Options := {}
  /-- The size of the document, which bounds how far a search through it can go. -/
  size : Nat := doc.root.size

namespace Env

/-- The target of a reference. -/
def resolve (env : Env) (reference : String) (site : Site) : Except CompileError Json :=
  match env.doc.resolve? reference with
  | some target => .ok target
  | none => .error (.unresolvableReference reference site.display)

/-- Follows references, at most so many. -/
def follow (env : Env) (site : Site) : Nat → Json → Except CompileError Json
  | hops, node =>
    match Schema.reference? node with
    | none => .ok node
    | some reference =>
      match hops with
      | 0 => .error (.unresolvableReference reference (site.display ++ " (reference cycle)"))
      | hops + 1 => do follow env site hops (← env.resolve reference site)

/-- The schema that a node stands for once no reference is left. -/
def deref (env : Env) (node : Json) (site : Site) : Except CompileError Json :=
  env.follow site maxHops node

/-- The extensions of a node at a path. -/
def extensionsAt (node : Json) (path : String) : Except CompileError Extensions :=
  match Extensions.ofNode node with
  | .ok extensions => .ok extensions
  | .error fault => .error (.invalidExtension path fault)

/-- The name of the type of a component schema: the one that it asks for, or else its own. -/
def componentTypeName (env : Env) (reference : String) (site : Site) :
    Except CompileError String := do
  let target ← env.resolve reference site
  let extensions ← extensionsAt target reference
  return extensions.typeName.getD (TypeName.ofReference reference)

end Env

/-! ## 2. The session -/

/-- What changes during a compilation. -/
structure Session where
  registry : Registry := {}
  /-- The references that are being expanded, the latest first. -/
  expanding : List String := []
  depth : Nat := 0

/-- A resolution: a result or an error, and the session after it in either case. -/
abbrev Resolve := ExceptT CompileError (StateM Session)

namespace Resolve

/-- Runs a resolution in a changed session and changes the session back, whatever the outcome. -/
def within {α : Type} (before after : Session → Session) (act : Resolve α) : Resolve α :=
  ExceptT.mk fun session =>
    let (outcome, session) := act.run.run (before session)
    (outcome, after session)

/-- One level deeper. -/
def deeper {α : Type} (site : Site) (act : Resolve α) : Resolve α := do
  if maxDepth ≤ (← get).depth then throw (.nestingTooDeep site.display maxDepth)
  within (fun s => { s with depth := s.depth + 1 }) (fun s => { s with depth := s.depth - 1 }) act

/-- While a reference is being expanded. -/
def expanding {α : Type} (reference : String) (act : Resolve α) : Resolve α :=
  within (fun s => { s with expanding := reference :: s.expanding })
    (fun s => { s with expanding := s.expanding.erase reference }) act

/-- A look-up, which changes nothing. -/
def ask {α : Type} (result : Except CompileError α) : Resolve α := ExceptT.mk (pure result)

/-- Registers a definition. -/
def register (definition : Definition) : Resolve Unit := do
  let session ← get
  let registry ← ask (session.registry.register definition)
  set { session with registry := registry }

end Resolve

namespace Env

/-- Registers a shape under a name from its site, and gives back the use of the definition. -/
def define (env : Env) (shape : Shape) (site : Site) (location : Location) : Resolve Shape := do
  let registry := (← get).registry
  let name := registry.nameFor site.typeName shape env.options.nameSuffixes
  let definition : Definition := { name, shape, location }
  Resolve.register definition
  return { Shape.reference name with constraints := shape.constraints, hoisted := [definition] }

/-- Gives a name to a shape that needs one. -/
def hoist (env : Env) (shape : Shape) (site : Site) (location : Location) : Resolve Shape :=
  if shape.needsName then env.define shape site location else return shape

end Env

end ApiTypes

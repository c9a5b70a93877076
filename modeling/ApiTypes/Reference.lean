import ApiTypes.Text.Basic

/-!
  References: JSON pointers inside one document.

  A reference is a `#` and a pointer, whose tokens are separated by `/`. In a token `~` is written
  `~0` and `/` is written `~1`.

  * `tokens` reads the tokens of a reference; `ofComponent` writes the reference of a component.
  * A **standard** reference names a component directly: `#/components/<kind>/<name>`.
  * `parent?` leads from a place inside a component to the component.
-/

namespace ApiTypes.Reference

/-! ## 1. Tokens -/

/-- One character of a token as it is written. -/
def escapeChar (c : Char) : List Char :=
  if c = '~' then ['~', '0'] else if c = '/' then ['~', '1'] else [c]

/-- A key as a token. -/
def escape (key : List Char) : List Char := key.flatMap escapeChar

/-- The key that a token stands for. A `~` before any other character stands for itself. -/
def unescape : List Char → List Char
  | [] => []
  | [c] => [c]
  | c :: d :: rest =>
    if c = '~' ∧ d = '0' then '~' :: unescape rest
    else if c = '~' ∧ d = '1' then '/' :: unescape rest
    else c :: unescape (d :: rest)

/-- The keys that the tokens of a pointer stand for. -/
def pointerTokens (pointer : List Char) : List String :=
  (pointer.splitOn '/').map fun token => String.ofList (unescape token)

/-- The keys that a reference passes. Leading `#` and `/` do not count, so the whole document
    has none. -/
def tokens (reference : String) : List String :=
  let pointer := (reference.toList.dropWhile (· = '#')).dropWhile (· = '/')
  if pointer.isEmpty then [] else pointerTokens pointer

/-- The last key that a reference passes. -/
def objectName (reference : String) : String := (tokens reference).getLastD ""

/-! ## 2. Components -/

/-- How every reference to a component starts. -/
def componentsStart : String := "#/components/"

/-- The reference of a component. -/
def ofComponent (kind name : String) : String :=
  componentsStart ++ kind ++ "/" ++ String.ofList (escape name.toList)

/-- The parts of a reference after the start that all components share. -/
def componentParts? (reference : String) : Option (List (List Char)) :=
  (Text.after? componentsStart.toList reference.toList).map (·.splitOn '/')

/-- Whether a reference names a component directly. -/
def isStandard (reference : String) : Bool :=
  match componentParts? reference with
  | some [kind, name] => !kind.isEmpty && !name.isEmpty
  | _ => false

/-- The component that a reference reaches into, as a reference. -/
def parent? (reference : String) : Option String :=
  match componentParts? reference with
  | some (kind :: name :: _ :: _) =>
    some (componentsStart ++ String.ofList kind ++ "/" ++ String.ofList name)
  | _ => none

/-- The name of the component schema that a reference names directly. -/
def schemaName? (reference : String) : Option String :=
  match Text.after? "#/components/schemas/".toList reference.toList with
  | none => none
  | some token =>
    if token.isEmpty || token.contains '/' then none else some (String.ofList (unescape token))

/-- The reference that a discriminator mapping means: a reference as it is, and anything else as
    the name of a component schema. -/
def ofMappingTarget (target : String) : String :=
  if Text.startsWith "#" target then target else ofComponent "schemas" target

end ApiTypes.Reference

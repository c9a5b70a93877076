import ApiTypes.Json.Basic
import ApiTypes.Reference

/-!
  A document and what its references point at.

  The root of a document is an object. A reference points at a place of the same document: its
  tokens are keys of objects and places of arrays. A reference into another document points
  nowhere.
-/

namespace ApiTypes

namespace Json

/-- The place in an array that a token names: digits alone, without a leading zero. -/
def index? (token : String) : Option Nat :=
  match token.toList with
  | [] => none
  | c :: rest =>
    if c = '0' ∧ rest ≠ [] then none
    else if (c :: rest).all Char.isDigit then some (Nat.ofDigitChars 10 (c :: rest) 0) else none

/-- One step into a value. -/
def child? (token : String) : Json → Option Json
  | .obj members => Entries.get? token members
  | .arr items => (index? token).bind (items[·]?)
  | _ => none

/-- The value at the end of a path. -/
def at? : List String → Json → Option Json
  | [], value => some value
  | token :: path, value => (value.child? token).bind (at? path)

theorem at?_append (path more : List String) (value : Json) :
    value.at? (path ++ more) = (value.at? path).bind (at? more) := by
  induction path generalizing value with
  | nil => rfl
  | cons token path ih =>
    simp only [List.cons_append, at?]
    cases value.child? token with
    | none => rfl
    | some next => simp [ih]

/-- The value that a reference points at. -/
def resolve? (root : Json) (reference : String) : Option Json :=
  match reference.toList with
  | ['#'] => some root
  | '#' :: '/' :: pointer => root.at? (Reference.pointerTokens pointer)
  | _ => none

end Json

/-- A document: an object at the root. -/
structure Document where
  members : List (String × Json)

namespace Document

/-- The whole document as a value. -/
def root (doc : Document) : Json := .obj doc.members

/-- The document with this root, which must be an object. -/
def ofJson? : Json → Option Document
  | .obj members => some ⟨members⟩
  | _ => none

/-- The value that a reference points at. -/
def resolve? (doc : Document) (reference : String) : Option Json := doc.root.resolve? reference

/-- The components of a kind, in the order of the document. -/
def components (doc : Document) (kind : String) : List (String × Json) :=
  match (doc.root.get? "components").bind (Json.get? kind) with
  | some (.obj entries) => entries
  | _ => []

end Document

end ApiTypes

import ApiTypes.Decode

/-!
  Choosing operations.

  A filter keeps or drops the operations of a document by path, by tag and by name, before
  anything else looks at the document.

  * A path item whose path is not kept goes as a whole.
  * An operation of a path item that stays goes when it has a dropped tag or name, or none of the
    kept tags or names where some are given. Its path item stays, even without operations.
-/

namespace ApiTypes

/-- The methods under which a path item holds operations. -/
def httpMethods : List String :=
  ["get", "put", "post", "delete", "options", "head", "patch", "trace"]

/-- Operations named by their paths, tags or own names. -/
structure Selection where
  paths : List String := []
  tags : List String := []
  operationIds : List String := []
  deriving DecidableEq, Repr

/-- Whether nothing is named. -/
def Selection.isEmpty (s : Selection) : Bool :=
  s.paths.isEmpty && s.tags.isEmpty && s.operationIds.isEmpty

/-- What to keep and what to drop. An empty list of what to keep keeps everything. -/
structure Filter where
  keep : Selection := {}
  drop : Selection := {}
  deriving DecidableEq, Repr

namespace Filter

/-- Whether the filter changes nothing. -/
def isEmpty (f : Filter) : Bool := f.keep.isEmpty && f.drop.isEmpty

/-! ## 1. Which operations stay -/

/-- Whether something with these labels stays: none of them dropped, and one of them kept where
    some are given. -/
def admits (keep drop labels : List String) : Bool :=
  !labels.any drop.contains && (keep.isEmpty || labels.any keep.contains)

/-- Whether a path item stays. -/
def keepsPath (f : Filter) (path : String) : Bool := admits f.keep.paths f.drop.paths [path]

/-- The tags of an operation. -/
def operationTags (operation : Json) : List String :=
  (((operation.get? "tags").bind Json.items?).getD []).filterMap Json.string?

/-- The name of an operation, if it has one. -/
def operationNames (operation : Json) : List String :=
  ((operation.get? "operationId").bind Json.string?).toList

/-- Whether an operation of a path item that stays, stays too. -/
def keepsOperation (f : Filter) (operation : Json) : Bool :=
  admits f.keep.tags f.drop.tags (operationTags operation) &&
    admits f.keep.operationIds f.drop.operationIds (operationNames operation)

/-- Whether a member of a path item stays: every operation that does, and all that is none. -/
def keepsMember (f : Filter) (entry : String × Json) : Bool :=
  !httpMethods.contains entry.1 || f.keepsOperation entry.2

/-! ## 2. Applying a filter -/

/-- What is counted in each of the entries, all together. -/
def total (count : String × Json → Nat) : List (String × Json) → Nat
  | [] => 0
  | entry :: rest => count entry + total count rest

/-- How many operations a path item has. -/
def operationCount (item : Json) : Nat := httpMethods.countP fun method => (item.get? method).isSome

/-- How many operations go with a path item, or from it. -/
def droppedCount (f : Filter) (entry : String × Json) : Nat :=
  if f.keepsPath entry.1 then
    httpMethods.countP fun method => (entry.2.get? method).any (!f.keepsOperation ·)
  else operationCount entry.2

/-- The path items that stay, without the operations that do not. -/
def applyToPaths (f : Filter) (paths : List (String × Json)) : List (String × Json) :=
  (paths.filter fun entry => f.keepsPath entry.1).map fun entry =>
    (entry.1, entry.2.mapMembers (·.filter f.keepsMember))

/-- The document after the filter, and how many operations went. -/
def apply (f : Filter) (document : Json) : Json × Nat :=
  match document with
  | .obj members =>
    match f.isEmpty, Entries.get? "paths" members with
    | false, some (.obj paths) =>
      (.obj (Entries.insert "paths" (.obj (f.applyToPaths paths)) members),
        total f.droppedCount paths)
    | _, _ => (document, 0)
  | _ => (document, 0)

/-! ## 3. Reading and writing -/

/-- The fields of a selection. -/
def selectionFields : List (Decode.Field Selection) :=
  [Decode.field ["paths"] (Decode.list Decode.text) fun s v => { s with paths := v },
   Decode.field ["tags"] (Decode.list Decode.text) fun s v => { s with tags := v },
   Decode.field ["operation-ids"] (Decode.list Decode.text) fun s v => { s with operationIds := v }]

/-- A selection; keys that name nothing are left alone. -/
def decodeSelection : Decode Selection :=
  Decode.record "struct FilterParams" false selectionFields {}

/-- The fields of a filter. -/
def fields : List (Decode.Field Filter) :=
  [Decode.field ["include"] decodeSelection fun f v => { f with keep := v },
   Decode.field ["exclude"] decodeSelection fun f v => { f with drop := v }]

/-- A filter; keys that name nothing are left alone. -/
def decode : Decode Filter := Decode.record "struct FilterConfig" false fields {}

/-- A list of texts as a value. -/
def textsJson (texts : List String) : Json := .arr (texts.map .str)

/-- A selection as an object. -/
def selectionJson (s : Selection) : Json :=
  .obj [("paths", textsJson s.paths), ("tags", textsJson s.tags),
    ("operation-ids", textsJson s.operationIds)]

/-- A filter as an object. -/
def toJson (f : Filter) : Json :=
  .obj [("include", selectionJson f.keep), ("exclude", selectionJson f.drop)]

end Filter

end ApiTypes

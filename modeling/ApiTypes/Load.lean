import ApiTypes.Files.Basic
import ApiTypes.Json.Reader
import ApiTypes.Options
import ApiTypes.Yaml.Document

/-!
  Loading documents and options.

  A document is JSON or YAML. The extension of its file says which; without a known one the first
  character decides: JSON documents are objects or arrays.
-/

namespace ApiTypes

/-- Why a document is not loaded. -/
inductive LoadError where
  | notFound (path : String)
  | unreadable (path reason : String)
  | invalidJson (fault : Json.SyntaxError)
  | invalidYaml
  | invalidOptions (path : String) (fault : DecodeError)

namespace LoadError

/-- The wording of a cause. -/
def message : LoadError → String
  | .notFound path => "file not found: " ++ path
  | .unreadable path reason => "cannot read " ++ path ++ ": " ++ reason
  | .invalidJson fault => "invalid JSON: " ++ fault.message
  | .invalidYaml => "invalid YAML"
  | .invalidOptions path fault => "invalid options in " ++ path ++ ": " ++ fault.message

/-- The exit status of a program that stops for a cause: 3 when a file cannot be read, 2 when its
    content is wrong. -/
def exitStatus : LoadError → Nat
  | .notFound _ | .unreadable .. => 3
  | .invalidJson _ | .invalidYaml | .invalidOptions .. => 2

end LoadError

/-! ## 1. Formats -/

/-- How a document is written. -/
inductive Format where
  | json
  | yaml
  deriving DecidableEq, Repr

namespace Format

/-- The format that the extension of a path names. -/
def ofPath? (path : String) : Option Format :=
  match Path.extension? path with
  | some "json" => some .json
  | some "yaml" | some "yml" => some .yaml
  | _ => none

/-- The format of a text by its first character that is no white space. -/
def ofText (text : String) : Format :=
  match Text.trimStart text.toList with
  | '\x7b' :: _ | '[' :: _ => .json
  | _ => .yaml

/-- Reads a text in a format. -/
def read : Format → String → Except LoadError Json
  | .json, text => (Json.parse Json.documentLevels text).mapError .invalidJson
  | .yaml, text =>
    match Yaml.parse? text with
    | some value => .ok value
    | none => .error .invalidYaml

end Format

/-! ## 2. Documents -/

/-- Whether a source is an address rather than a file. -/
def isUrl (source : String) : Bool :=
  Text.startsWith "http://" source || Text.startsWith "https://" source

/-- The document in a text. -/
def loadText (text : String) : Except LoadError Json := (Format.ofText text).read text

/-- The document in what is at a path. -/
def loadEntry (path : String) : Option FileEntry → Except LoadError Json
  | none => .error (.notFound path)
  | some (.unreadable reason) => .error (.unreadable path reason)
  | some (.directory _) => .error (.unreadable path FileFault.isDirectory.message)
  | some (.text content) => ((Format.ofPath? path).getD (.ofText content)).read content

/-- The document in a file. -/
def loadFile (files : Files) (path : String) : Except LoadError Json :=
  loadEntry path (files path)

/-- The document of a source. Nothing is fetched from addresses. -/
def load (files : Files) (source : String) : Except LoadError Json :=
  if isUrl source then .error (.notFound source) else loadFile files source

/-! ## 3. Options -/

/-- The options in a file. -/
def loadOptions (files : Files) (path : String) : Except LoadError Options := do
  let document ← loadFile files path
  (Options.decode document).mapError (.invalidOptions path)

end ApiTypes

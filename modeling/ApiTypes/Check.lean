import ApiTypes.Compile.Basic
import ApiTypes.Load

/-!
  Checking documents.

  Every document under a path is compiled past its errors, so that one wrong schema is one
  diagnostic and the rest of its document is still checked.

  * A document that loads fails its check when and only when it does not compile.
  * A missing version is only a warning.
  * Results come in the order of the components of their paths.
-/

namespace ApiTypes

/-! ## 1. Diagnostics -/

/-- How grave a diagnostic is. -/
inductive Severity where
  | error
  | warning
  deriving DecidableEq, Repr

/-- The name of a severity. -/
def Severity.name : Severity → String
  | .error => "error"
  | .warning => "warning"

/-- Something that was found. `path` is the place in the document. -/
structure Diagnostic where
  severity : Severity
  code : String
  path : String
  message : String
  deriving DecidableEq, Repr

namespace Diagnostic

/-- The path of what concerns the whole document. -/
def wholeDocument : String := "/"

/-- A document that does not load. -/
def ofLoadError (e : LoadError) : Diagnostic := ⟨.error, "L001", wholeDocument, e.message⟩

/-- An error of a compilation. -/
def ofCompileError (e : CompileError) : Diagnostic :=
  ⟨.error, e.code, e.path?.getD wholeDocument, e.message⟩

/-- A document that does not say its version. -/
def missingVersion : Diagnostic :=
  ⟨.warning, "W001", wholeDocument, "document missing openapi version field"⟩

end Diagnostic

/-! ## 2. One document -/

/-- The outcome of a check. -/
inductive FileStatus where
  | ok
  | error
  | warning
  deriving DecidableEq, Repr

/-- The name of an outcome. -/
def FileStatus.name : FileStatus → String
  | .ok => "ok"
  | .error => "error"
  | .warning => "warning"

/-- The outcome that diagnostics amount to. -/
def FileStatus.ofDiagnostics (diagnostics : List Diagnostic) : FileStatus :=
  if diagnostics.any (·.severity = .error) then .error
  else if diagnostics.isEmpty then .ok
  else .warning

/-- What the check of a document found. `types` counts the definitions of the sites that
    compiled. -/
structure FileResult where
  file : String
  types : Nat
  diagnostics : List Diagnostic

/-- The outcome of a check. -/
def FileResult.status (result : FileResult) : FileStatus := .ofDiagnostics result.diagnostics

/-- The diagnostics of a document's version. -/
def checkVersion (document : Json) : List Diagnostic :=
  if (document.get? "openapi").isSome then [] else [.missingVersion]

/-- Checks a document, which is shown under this name. -/
def checkDocument (file : String) (document : Json) (options : Options) : FileResult :=
  let version := checkVersion document
  match compileAll document options with
  | .ok report =>
    ⟨file, report.compilation.types.length, version ++ report.errors.map .ofCompileError⟩
  | .error e => ⟨file, 0, version ++ [.ofCompileError e]⟩

/-- Checks what loading gave, which is shown under this name. -/
def checkLoaded (file : String) (options : Options) : Except LoadError Json → FileResult
  | .ok document => checkDocument file document options
  | .error e => ⟨file, 0, [.ofLoadError e]⟩

/-- Checks a file, which is shown as seen from a directory. -/
def checkFile (files : Files) (path base : String) (options : Options) : FileResult :=
  checkLoaded (Path.relativeTo base path) options (loadFile files path)

/-! ## 3. Documents under a path -/

/-- Whether a name is that of a document. -/
def isDocumentName (name : String) : Bool :=
  ["json", "yaml", "yml"].any fun extension => Path.extensionOf name = some extension

mutual

/-- The documents in an entry of a directory with their paths from there. -/
def documentsIn (name : String) : FileEntry → List (String × FileEntry)
  | .directory entries =>
    (documentsAmong entries).map fun found => (name ++ "/" ++ found.1, found.2)
  | entry => if isDocumentName name then [(name, entry)] else []
termination_by structural entry => entry

/-- The documents among the entries of a directory with their paths. -/
def documentsAmong : List (String × FileEntry) → List (String × FileEntry)
  | [] => []
  | entry :: rest => documentsOf entry ++ documentsAmong rest
termination_by structural entries => entries

/-- The documents in a named entry. -/
def documentsOf : String × FileEntry → List (String × FileEntry)
  | (name, entry) => documentsIn name entry
termination_by structural entry => entry

end

/-- What the checks of documents found. -/
structure CheckResult where
  path : String
  results : List FileResult

/-- Checks the document at a path, or those in the directory there. -/
def check (files : Files) (path : String) (options : Options) : CheckResult :=
  match files path with
  | none => ⟨path, []⟩
  | some (.directory entries) =>
    ⟨path, (documentsAmong entries).map fun found =>
      checkLoaded found.1 options (loadEntry (Path.join path found.1) (some found.2))⟩
  | some entry =>
    match Path.fileName? path with
    | some name =>
      if isDocumentName name then ⟨path, [checkLoaded name options (loadEntry path (some entry))]⟩
      else ⟨path, []⟩
    | none => ⟨path, []⟩

namespace CheckResult

/-- How many documents were checked. -/
def checked (result : CheckResult) : Nat := result.results.length

/-- How many documents failed. -/
def failed (result : CheckResult) : Nat :=
  (result.results.filter (·.status = .error)).length

/-- How many documents did not fail. -/
def passed (result : CheckResult) : Nat := result.checked - result.failed

/-- How many diagnostics there are of a severity. -/
def count (result : CheckResult) (severity : Severity) : Nat :=
  ((result.results.flatMap (·.diagnostics)).filter (·.severity = severity)).length

/-- Whether there is no error. -/
def isOk (result : CheckResult) : Bool := result.count .error = 0

end CheckResult

/-! ## 4. Results as values -/

/-- A diagnostic as an object. -/
def Diagnostic.toJson (file : String) (d : Diagnostic) : Json :=
  .obj [("severity", .str d.severity.name), ("code", .str d.code), ("file", .str file),
    ("path", .str d.path), ("message", .str d.message)]

/-- What was found in a document as an object. -/
def FileResult.toJson (result : FileResult) : Json :=
  .obj ([("file", .str result.file), ("status", .str result.status.name),
    ("types", .int result.types)] ++
    (if result.diagnostics.isEmpty then []
      else [("diagnostics", .arr (result.diagnostics.map (Diagnostic.toJson result.file)))]))

/-- The members of what was found, with the counts first. -/
def CheckResult.members (result : CheckResult) : List (String × Json) :=
  [("path", .str result.path), ("files_checked", .int result.checked),
    ("passed", .int result.passed), ("failed", .int result.failed),
    ("errors", .int (result.count .error)), ("warnings", .int (result.count .warning)),
    ("results", .arr (result.results.map FileResult.toJson))]

/-- What was found as an object. -/
def CheckResult.toJson (result : CheckResult) : Json := .obj result.members

end ApiTypes

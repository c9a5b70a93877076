import ApiTypes.Check
import ApiTypes.CommandLine.Command
import ApiTypes.Compile.Encode
import ApiTypes.Json.Text

/-!
  Running commands.

  What a command does is a value: what it prints, the file it writes, and its exit status. The
  status is 0 when all is well, 1 when a check or a compilation that went on found errors, 3 when
  a file cannot be read or written, and else 2.
-/

namespace ApiTypes.CommandLine

/-- What a command does. -/
structure Outcome where
  status : Nat := 0
  stdout : String := ""
  stderr : String := ""
  /-- The file that is written, with its content. -/
  output : Option (String × String) := none
  deriving DecidableEq, Repr

namespace Outcome

/-- Stops with a message. -/
def failure (status : Nat) (message : String) : Outcome :=
  { status, stderr := message ++ "\n" }

/-- The outcome when the file cannot be written. -/
def writeFailed (outcome : Outcome) (path reason : String) : Outcome :=
  { status := 3, stderr := outcome.stderr ++ "Error writing to " ++ path ++ ": " ++ reason ++ "\n" }

/-- Writes the file of an outcome into a tree of files. -/
def settle (outcome : Outcome) (root : FileEntry) : Outcome × FileEntry :=
  match outcome.output with
  | none => (outcome, root)
  | some (path, content) =>
    match root.write path content with
    | .ok after => (outcome, after)
    | .error fault => (outcome.writeFailed path fault.message, root)

/-- Writes a value. A line break follows it on the standard output, and none in a file. -/
def value (destination : Destination) (status : Nat) (stderr : String) (value : Json) : Outcome :=
  let text := if destination.pretty then value.indented else value.compact
  match destination.path with
  | some path => { status, stderr, output := some (path, text) }
  | none => { status, stderr, stdout := text ++ "\n" }

end Outcome

/-! ## 1. Compiling -/

/-- Adds a selection to another. -/
def addSelection (s more : Selection) : Selection :=
  ⟨s.paths ++ more.paths, s.tags ++ more.tags, s.operationIds ++ more.operationIds⟩

/-- The options of a compilation: those of the file, with the settings of the command line. -/
def CompileCommand.options (command : CompileCommand) (base : Options) : Options :=
  { base with
    filter := ⟨addSelection base.filter.keep command.filter.keep,
      addSelection base.filter.drop command.filter.drop⟩
    nameSuffixes := if command.nameSuffixes.isEmpty then base.nameSuffixes else command.nameSuffixes
    prune := base.prune && !command.noPrune }

/-- The options that a command starts from. -/
def CompileCommand.baseOptions (command : CompileCommand) (files : Files) :
    Except Outcome Options :=
  match command.config with
  | none => .ok {}
  | some path =>
    (loadOptions files path).mapError fun e => .failure e.exitStatus ("Error: " ++ e.message)

/-- The documents of a command, each with its source. -/
def CompileCommand.documents (command : CompileCommand) (files : Files) :
    Except Outcome (List (String × Json)) :=
  command.sources.mapM fun source =>
    match load files source with
    | .ok document => .ok (source, document)
    | .error e =>
      .error (.failure e.exitStatus ("Error loading " ++ source ++ ": " ++ e.message))

/-- The message of an error in a document. -/
def errorLine (source : String) (e : CompileError) : String :=
  "Error in " ++ source ++ ": " ++ e.message ++ "\n"

/-- Several values as one: a single one stands for itself. -/
def together : List Json → Json
  | [value] => value
  | values => .arr values

/-- Compiles documents and stops at the first error. -/
def compileStrictly (options : Options) (documents : List (String × Json)) :
    Except Outcome (List Json) :=
  documents.mapM fun (source, document) =>
    match compile document options with
    | .ok compilation => .ok compilation.toJson
    | .error e => .error { status := e.exitStatus, stderr := errorLine source e }

/-- What has been compiled of several documents. -/
structure Progress where
  values : List Json := []
  stderr : String := ""
  failed : Bool := false

/-- Compiles a document and goes on past the sites that fail. -/
def Progress.add (options : Options) (progress : Progress) (entry : String × Json) :
    Except Outcome Progress :=
  let (source, document) := entry
  match compileAll document options with
  | .ok report =>
    .ok {
      values := progress.values ++ [report.toJson]
      stderr := progress.stderr ++ String.join (report.errors.map (errorLine source))
      failed := progress.failed || !report.errors.isEmpty }
  | .error e =>
    .error { status := e.exitStatus, stderr := progress.stderr ++ errorLine source e }

/-- Runs `compile`. -/
def CompileCommand.run (command : CompileCommand) (files : Files) : Except Outcome Outcome := do
  let options := command.options (← command.baseOptions files)
  let documents ← command.documents files
  if command.keepGoing then
    let progress ← documents.foldlM (Progress.add options) {}
    return .value command.destination (if progress.failed then 1 else 0) progress.stderr
      (together progress.values)
  else
    let values ← compileStrictly options documents
    return .value command.destination 0 "" (together values)

/-! ## 2. Pruning -/

/-- Runs `prune`. -/
def PruneCommand.run (command : PruneCommand) (files : Files) : Outcome :=
  match PruneStrategy.ofName? command.strategy with
  | none =>
    .failure 2 ("Error: unknown strategy '" ++ command.strategy ++
      "' (expected fixed-point or reachability)")
  | some strategy =>
    match load files command.source with
    | .error e => .failure e.exitStatus ("Error: " ++ e.message)
    | .ok document =>
      let options : PruneOptions :=
        { strategy, maxPasses := command.maxPasses.getD defaultMaxPasses }
      match Prune.prune options document with
      | (_, .error e) => .failure e.exitStatus ("Error: " ++ e.message)
      | (pruned, .ok _) => .value command.destination 0 "" pruned

/-! ## 3. Checking -/

/-- The colours of a terminal. -/
inductive Colour where
  | red
  | green
  | yellow
  deriving DecidableEq, Repr

/-- The text that switches to a colour. -/
def Colour.code : Colour → String
  | .red => "\x1b[31m"
  | .green => "\x1b[32m"
  | .yellow => "\x1b[33m"

/-- A text in a colour. -/
def Colour.paint (colour : Colour) (text : String) : String := colour.code ++ text ++ "\x1b[0m"

/-- The mark of an outcome. -/
def FileStatus.mark : FileStatus → String
  | .ok => Colour.green.paint "✓"
  | .warning => Colour.yellow.paint "⚠"
  | .error => Colour.red.paint "✗"

/-- The colour of a severity. -/
def Severity.colour : Severity → Colour
  | .error => .red
  | .warning => .yellow

/-- The line of a diagnostic. -/
def diagnosticLine (d : Diagnostic) : String :=
  "    " ++ (Severity.colour d.severity).paint (d.severity.name ++ "[" ++ d.code ++ "]") ++ ": " ++
    d.path ++ " - " ++ d.message ++ "\n"

/-- The line of a document. -/
def resultLine (result : FileResult) : String :=
  "  " ++ FileStatus.mark result.status ++ " " ++ result.file ++ " (" ++ toString result.types ++
    " types)\n"

/-- The lines of a document with its diagnostics; `quiet` shows errors only. -/
def resultLines (quiet : Bool) (result : FileResult) : String :=
  let diagnostics := result.diagnostics.filter fun d => !quiet || d.severity = .error
  (if !quiet || result.status = .error then resultLine result else "") ++
    String.join (diagnostics.map diagnosticLine)

/-- The last line of a check. -/
def summaryLine (result : CheckResult) : String :=
  let checked := toString result.checked ++ " files checked"
  if result.isOk then Colour.green.paint ("✓ " ++ checked ++ ", all passed") ++ "\n"
  else
    Colour.red.paint ("✗ " ++ checked ++ ": " ++ toString result.passed ++ " passed, " ++
      toString result.failed ++ " failed (" ++ toString (result.count .error) ++ " errors, " ++
      toString (result.count .warning) ++ " warnings)") ++ "\n"

/-- What a check prints as text. -/
def checkText (quiet : Bool) (result : CheckResult) : String :=
  (if quiet then "" else "Checking " ++ result.path ++ " ...\n\n") ++
    String.join (result.results.map (resultLines quiet)) ++ "\n" ++ summaryLine result

/-- Runs `check`. Every component is checked, whether anything uses it or not. -/
def CheckCommand.run (command : CheckCommand) (files : Files) : Outcome :=
  if (files command.path).isNone then
    .failure 2 ("Error: path not found: " ++ command.path)
  else
    let result := ApiTypes.check files command.path { prune := false }
    let status := if result.isOk then 0 else 1
    if command.format = "json" then .value { pretty := true } status "" result.toJson
    else { status, stdout := checkText command.quiet result }

/-! ## 4. Command lines -/

/-- Runs a command. -/
def Command.run (files : Files) : Command → Outcome
  | .compile command =>
    match command.run files with
    | .ok outcome | .error outcome => outcome
  | .prune command => command.run files
  | .check command => command.run files

/-- The name of the program and its version. -/
def versionLine : String := "oas-ir 0.1.0\n"

/-- What the program answers when it is asked for help. -/
def helpText : String :=
  String.join (["Compile OpenAPI schemas into a canonical type model", "",
    "Usage: oas-ir [OPTIONS] <COMMAND>", "", "Commands:",
    "  compile  Compile one or more documents and print their type definitions as JSON",
    "  prune    Remove components no operation can reach and print the document",
    "  check    Check documents for schemas that do not compile",
    "  help     Print this message or the help of the given subcommand(s)", "", "Options:",
    "  -v, --verbose  Log pipeline decisions to stderr (RUST_LOG takes precedence)",
    "  -h, --help     Print help", "  -V, --version  Print version"].map (· ++ "\n"))

/-- The outcome of a command line that asks for no command. -/
def Stop.outcome : Stop → Outcome
  | .help => { stdout := helpText }
  | .version => { stdout := versionLine }
  | .usage message =>
    .failure 2 ("error: " ++ message ++ "\n\nFor more information, try '--help'.")

/-- Runs a command line. -/
def run (files : Files) (arguments : List String) : Outcome :=
  match Command.read arguments with
  | .ok command => command.run files
  | .error stop => stop.outcome

end ApiTypes.CommandLine

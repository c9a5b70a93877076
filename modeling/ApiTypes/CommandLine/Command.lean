import ApiTypes.CommandLine.Arguments
import ApiTypes.Options

/-!
  Commands.

  The first operand names a command, and what follows belongs to it. `--verbose` may stand on
  both sides of that name.
-/

namespace ApiTypes.CommandLine

/-! ## 1. What commands are asked -/

/-- Where a command writes its value, and how. Without a path it goes to the standard output. -/
structure Destination where
  path : Option String := none
  pretty : Bool := false
  deriving DecidableEq, Repr

/-- Compile documents. -/
structure CompileCommand where
  sources : List String
  /-- A file of options, to which the other settings are added. -/
  config : Option String := none
  filter : Filter := {}
  nameSuffixes : List String := []
  noPrune : Bool := false
  /-- Go on past the sites that fail. -/
  keepGoing : Bool := false
  destination : Destination := {}
  deriving DecidableEq, Repr

/-- Prune a document. -/
structure PruneCommand where
  source : String
  strategy : String := "fixed-point"
  maxPasses : Option Nat := none
  destination : Destination := {}
  deriving DecidableEq, Repr

/-- Check documents. -/
structure CheckCommand where
  path : String
  format : String := "text"
  /-- Show errors only. -/
  quiet : Bool := false
  deriving DecidableEq, Repr

/-- A command. -/
inductive Command where
  | compile (command : CompileCommand)
  | prune (command : PruneCommand)
  | check (command : CheckCommand)
  deriving DecidableEq, Repr

/-! ## 2. Values -/

/-- Whether a value may be a path. -/
def isPath (value : String) : Bool := value ≠ ""

/-- The value of a count: digits after at most one plus sign, of at most 64 bits. -/
def count? (value : String) : Option Nat :=
  let digits := match value.toList with
    | '+' :: rest => rest
    | digits => digits
  if digits.isEmpty || !digits.all Char.isDigit then none
  else (digits.foldl (fun n c => n * 10 + (c.toNat - '0'.toNat)) 0 |> some).filter
    (· < Nat.pow 2 64)

/-! ## 3. Options -/

/-- The options that every command has. -/
def commonOptions : List OptionSpec :=
  [⟨"verbose", some 'v', .flag, fun _ => true⟩, ⟨"help", some 'h', .help, fun _ => true⟩]

/-- What may stand before the name of a command. -/
def programSpec : Spec :=
  { options := commonOptions ++ [⟨"version", some 'V', .version, fun _ => true⟩], limit := some 0 }

/-- An option that is given once with a path. -/
def pathOption (name : String) : OptionSpec := ⟨name, none, .single, isPath⟩

/-- An option without a value. -/
def flagOption (name : String) : OptionSpec := ⟨name, none, .flag, fun _ => true⟩

/-- An option that may be given several times. -/
def repeatedOption (name : String) : OptionSpec := ⟨name, none, .repeated, fun _ => true⟩

/-- What `compile` takes. -/
def compileSpec : Spec :=
  { options := commonOptions ++ [pathOption "config", repeatedOption "include-tag",
      repeatedOption "exclude-tag", repeatedOption "include-path", repeatedOption "exclude-path",
      repeatedOption "include-operation-id", repeatedOption "exclude-operation-id",
      repeatedOption "name-suffix", flagOption "no-prune", flagOption "keep-going",
      pathOption "output", flagOption "pretty"] }

/-- What `prune` takes. -/
def pruneSpec : Spec :=
  { options := commonOptions ++ [⟨"strategy", none, .single, fun _ => true⟩,
      ⟨"max-iterations", none, .single, fun value => (count? value).isSome⟩,
      pathOption "output", flagOption "pretty"]
    limit := some 1 }

/-- What `check` takes. -/
def checkSpec : Spec :=
  { options := commonOptions ++ [⟨"format", none, .single, fun _ => true⟩,
      ⟨"quiet", some 'q', .flag, fun _ => true⟩]
    limit := some 1, accepts := isPath }

/-! ## 4. Reading a command -/

/-- The first operand, which must be there. -/
def Arguments.operand (arguments : Arguments) (name : String) : Except Stop String :=
  match arguments.operands with
  | first :: _ => .ok first
  | [] => .error (.usage ("the following required arguments were not provided: <" ++ name ++ ">"))

/-- Where a command writes. -/
def Arguments.destination (arguments : Arguments) : Destination :=
  { path := arguments.value? "output", pretty := arguments.has "pretty" }

/-- The operations that options choose. -/
def Arguments.selection (arguments : Arguments) (mode : String) : Selection :=
  { paths := arguments.values (mode ++ "-path")
    tags := arguments.values (mode ++ "-tag")
    operationIds := arguments.values (mode ++ "-operation-id") }

/-- Reads what follows `compile`. -/
def CompileCommand.read (rest : List String) : Except Stop CompileCommand := do
  let arguments ← Arguments.read compileSpec none rest {}
  let _ ← arguments.operand "SOURCES"
  return {
    sources := arguments.operands
    config := arguments.value? "config"
    filter := ⟨arguments.selection "include", arguments.selection "exclude"⟩
    nameSuffixes := arguments.values "name-suffix"
    noPrune := arguments.has "no-prune"
    keepGoing := arguments.has "keep-going"
    destination := arguments.destination }

/-- Reads what follows `prune`. -/
def PruneCommand.read (rest : List String) : Except Stop PruneCommand := do
  let arguments ← Arguments.read pruneSpec none rest {}
  let source ← arguments.operand "SOURCE"
  return {
    source
    strategy := (arguments.value? "strategy").getD "fixed-point"
    maxPasses := (arguments.value? "max-iterations").bind count?
    destination := arguments.destination }

/-- Reads what follows `check`. -/
def CheckCommand.read (rest : List String) : Except Stop CheckCommand := do
  let arguments ← Arguments.read checkSpec none rest {}
  let path ← arguments.operand "PATH"
  return { path, format := (arguments.value? "format").getD "text", quiet := arguments.has "quiet" }

/-- Answers a question for help about commands. -/
def helpFor (names : List String) : Stop :=
  match names with
  | [] => .help
  | [name] =>
    if ["compile", "prune", "check", "help"].contains name then .help
    else .usage ("unrecognized subcommand '" ++ name ++ "'")
  | _ :: name :: _ => .usage ("unrecognized subcommand '" ++ name ++ "'")

/-- Reads a command after its name. -/
def Command.readNamed (name : String) (rest : List String) : Except Stop Command :=
  match name with
  | "compile" => (CompileCommand.read rest).map .compile
  | "prune" => (PruneCommand.read rest).map .prune
  | "check" => (CheckCommand.read rest).map .check
  | "help" => .error (helpFor rest)
  | _ => .error (.usage ("unrecognized subcommand '" ++ name ++ "'"))

/-- Reads a command line. -/
def Command.read (arguments : List String) : Except Stop Command := do
  let leading := arguments.takeWhile fun argument => Arguments.formOf argument ≠ .operand
  let _ ← Arguments.read programSpec none leading {}
  if leading.contains "--" then throw (.usage "unexpected argument '--' found")
  match arguments.drop leading.length with
  | name :: rest => Command.readNamed name rest
  | [] => throw (.usage "a subcommand is required but one was not provided")

/-- The files that a command reads, or the directory. -/
def Command.inputs : Command → List String
  | .compile command => command.config.toList ++ command.sources
  | .prune command => [command.source]
  | .check command => [command.path]

end ApiTypes.CommandLine

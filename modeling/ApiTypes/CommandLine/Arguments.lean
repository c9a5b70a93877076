import ApiTypes.Text.Basic

/-!
  Arguments of a command line.

  Arguments are read from left to right, and the first thing that is wrong, or a question for help
  or the version, ends the reading.

  * An argument that starts with two dashes is an option by its name; its value follows an equals
    sign or is the next argument, which must not look like an option.
  * One dash starts options of one letter each, which take no values.
  * After `--` every argument is an operand, and so is a lone dash.
-/

namespace ApiTypes.CommandLine

/-- What an option takes. -/
inductive OptionKind where
  /-- Nothing; it may be given once. -/
  | flag
  /-- One value; it may be given once. -/
  | single
  /-- One value each time it is given. -/
  | repeated
  /-- It asks for help. -/
  | help
  /-- It asks for the version. -/
  | version
  deriving DecidableEq, Repr

/-- An option. `accepts` says which values it takes. -/
structure OptionSpec where
  name : String
  letter : Option Char := none
  kind : OptionKind
  accepts : String → Bool := fun _ => true

/-- What a command takes: its options and operands. -/
structure Spec where
  options : List OptionSpec
  /-- How many operands there may be, if that is limited. -/
  limit : Option Nat := none
  /-- Which operands there may be. -/
  accepts : String → Bool := fun _ => true

/-- What was given: options with their values, which are empty for flags, and operands. -/
structure Arguments where
  options : List (String × String) := []
  operands : List String := []

/-- Why the reading of arguments ends early. -/
inductive Stop where
  | usage (message : String)
  | help
  | version
  deriving DecidableEq, Repr

namespace Arguments

/-! ## 1. What was given -/

/-- Whether an option was given. -/
def has (arguments : Arguments) (name : String) : Bool :=
  arguments.options.any (·.1 = name)

/-- The values of an option. -/
def values (arguments : Arguments) (name : String) : List String :=
  (arguments.options.filter (·.1 = name)).map (·.2)

/-- The first value of an option. -/
def value? (arguments : Arguments) (name : String) : Option String :=
  (arguments.values name).head?

/-! ## 2. Single arguments -/

/-- Adds an option with its value. -/
def addOption (arguments : Arguments) (spec : OptionSpec) (value : String) :
    Except Stop Arguments :=
  if spec.kind ≠ .repeated && arguments.has spec.name then
    .error (.usage ("the argument '--" ++ spec.name ++ "' cannot be used multiple times"))
  else if spec.accepts value then
    .ok { arguments with options := arguments.options ++ [(spec.name, value)] }
  else .error (.usage ("invalid value '" ++ value ++ "' for '--" ++ spec.name ++ "'"))

/-- Adds an option without a value. -/
def addFlag (arguments : Arguments) (spec : OptionSpec) : Except Stop Arguments :=
  match spec.kind with
  | .help => .error .help
  | .version => .error .version
  | _ => arguments.addOption spec ""

/-- Adds an operand. -/
def addOperand (spec : Spec) (arguments : Arguments) (operand : String) :
    Except Stop Arguments :=
  if spec.limit.any (· ≤ arguments.operands.length) then
    .error (.usage ("unexpected argument '" ++ operand ++ "' found"))
  else if spec.accepts operand then
    .ok { arguments with operands := arguments.operands ++ [operand] }
  else .error (.usage ("invalid value '" ++ operand ++ "'"))

/-- Whether an option takes a value. -/
def takesValue (spec : OptionSpec) : Bool := spec.kind = .single || spec.kind = .repeated

/-- Adds an option by name. When its value is still to come, the option is given back. -/
def addNamed (spec : Spec) (arguments : Arguments) (name : String) (value : Option String) :
    Except Stop (Arguments × Option OptionSpec) :=
  match spec.options.find? (·.name = name), value with
  | none, _ => .error (.usage ("unexpected argument '--" ++ name ++ "' found"))
  | some option, some value =>
    if takesValue option then (arguments.addOption option value).map (·, none)
    else .error (.usage ("unexpected value '" ++ value ++ "' for '--" ++ name ++ "' found"))
  | some option, none =>
    if takesValue option then .ok (arguments, some option)
    else (arguments.addFlag option).map (·, none)

/-- Adds options by their letters. -/
def addLetters (spec : Spec) (arguments : Arguments) : List Char → Except Stop Arguments
  | [] => .ok arguments
  | letter :: rest =>
    match spec.options.find? (·.letter = some letter) with
    | none => .error (.usage ("unexpected argument '-" ++ letter.toString ++ "' found"))
    | some option => do addLetters spec (← arguments.addFlag option) rest

/-! ## 3. All arguments -/

/-- How an argument looks. -/
inductive Form where
  | endOfOptions
  | named (name : String) (value : Option String)
  | letters (letters : List Char)
  | operand
  deriving DecidableEq, Repr

/-- How an argument looks. -/
def formOf (argument : String) : Form :=
  match argument.toList with
  | ['-', '-'] => .endOfOptions
  | '-' :: '-' :: rest =>
    let name := rest.takeWhile (· ≠ '=')
    match rest.drop name.length with
    | [] => .named (String.ofList name) none
    | _ :: value => .named (String.ofList name) (some (String.ofList value))
  | '-' :: c :: rest => .letters (c :: rest)
  | _ => .operand

/-- The missing value of an option. -/
def missingValue (option : OptionSpec) : Stop :=
  .usage ("a value is required for '--" ++ option.name ++ "' but none was supplied")

/-- Goes on only if no option waits for its value. -/
def settled : Option OptionSpec → Except Stop Unit
  | none => .ok ()
  | some option => .error (missingValue option)

/-- Reads arguments. `pending` is the option whose value comes next. -/
def read (spec : Spec) : Option OptionSpec → List String → Arguments → Except Stop Arguments
  | pending, [], arguments => do
    settled pending
    return arguments
  | pending, argument :: rest, arguments =>
    match formOf argument with
    | .endOfOptions => do
      settled pending
      rest.foldlM (addOperand spec) arguments
    | .named name value => do
      settled pending
      let (arguments, pending) ← addNamed spec arguments name value
      read spec pending rest arguments
    | .letters letters => do
      settled pending
      read spec none rest (← addLetters spec arguments letters)
    | .operand => do
      match pending with
      | some option => read spec none rest (← arguments.addOption option argument)
      | none => read spec none rest (← addOperand spec arguments argument)

end Arguments

end ApiTypes.CommandLine

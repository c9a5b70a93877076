import ApiTypes.Json.Text
import ApiTypes.Text.Quoted

/-!
  Reading typed values out of JSON.

  A reader takes a value of one kind and refuses any other with a cause.

  * A **record** is an object of named fields. Fields that are missing keep their defaults, a
    field may have further names, and no field may come twice under any of its names. A record may
    also be written as the array of its first fields.
  * A **choice** is a name from a list, as a string or as the only key of an object that holds
    null.
-/

namespace ApiTypes

/-- Why a value is refused. -/
inductive DecodeError where
  | wrongKind (found : Json) (expected : String)
  | outOfRange (found : Int) (expected : String)
  | unknownField (name : String) (known : List String)
  | unknownChoice (name : String) (known : List String)
  | repeatedField (name : String)
  | tooManyElements (count : Nat)
  | notOneKey
  | notFlagText (text : String)
  | notFlag (kindName : String)

namespace DecodeError

/-- How a value that was found is described. -/
def describe : Json → String
  | .null => "null"
  | .bool b => "boolean `" ++ (if b then "true" else "false") ++ "`"
  | .int n => "integer `" ++ toString n ++ "`"
  | .float x => "floating point `" ++ Decimal.jsonForm.write x ++ "`"
  | .str s => "string " ++ Text.quoted s
  | .arr _ => "sequence"
  | .obj _ => "map"

/-- How the known names are listed. -/
def oneOf (names : List String) : String :=
  let marked := names.map fun name => "`" ++ name ++ "`"
  match marked with
  | [] => "there are no fields"
  | [only] => "expected " ++ only
  | [first, second] => "expected " ++ first ++ " or " ++ second
  | _ => "expected one of " ++ ", ".intercalate marked

/-- The wording of a cause. -/
def message : DecodeError → String
  | .wrongKind found expected => "invalid type: " ++ describe found ++ ", expected " ++ expected
  | .outOfRange found expected =>
    "invalid value: integer `" ++ toString found ++ "`, expected " ++ expected
  | .unknownField name known => "unknown field `" ++ name ++ "`, " ++ oneOf known
  | .unknownChoice name known => "unknown variant `" ++ name ++ "`, " ++ oneOf known
  | .repeatedField name => "duplicate field `" ++ name ++ "`"
  | .tooManyElements count =>
    "invalid length " ++ toString count ++ ", expected fewer elements in array"
  | .notOneKey => "invalid value: map, expected map with a single key"
  | .notFlagText text => "expected boolean or \"true\"/\"false\", got \"" ++ text ++ "\""
  | .notFlag kindName => "expected boolean, got " ++ kindName

end DecodeError

/-- A reader of one type. -/
abbrev Decode (α : Type) := Json → Except DecodeError α

namespace Decode

/-! ## 1. Single values -/

/-- A text. -/
def text : Decode String
  | .str s => .ok s
  | found => .error (.wrongKind found "a string")

/-- A truth value. -/
def truth : Decode Bool
  | .bool b => .ok b
  | found => .error (.wrongKind found "a boolean")

/-- A number from zero up to a limit; `kind` names the range in messages. -/
def natBelow (limit : Nat) (kind : String) : Decode Nat
  | .int n => if 0 ≤ n ∧ n.toNat < limit then .ok n.toNat else .error (.outOfRange n kind)
  | found => .error (.wrongKind found kind)

/-- A value that may be null. -/
def optional {α : Type} (decode : Decode α) : Decode (Option α)
  | .null => .ok none
  | found => (decode found).map some

/-- A truth value, also as a text in any case. Null is nothing. -/
def flag : Decode (Option Bool)
  | .bool b => .ok (some b)
  | .str s =>
    let lower := String.ofList (s.toList.map Char.toLower)
    if lower = "true" then .ok (some true)
    else if lower = "false" then .ok (some false)
    else .error (.notFlagText s)
  | .null => .ok none
  | found => .error (.notFlag found.kindName)

/-! ## 2. Lists and tables -/

/-- A list. -/
def list {α : Type} (decode : Decode α) : Decode (List α)
  | .arr items => items.mapM decode
  | found => .error (.wrongKind found "a sequence")

/-- A set of texts, sorted. -/
def textSet : Decode (List String) := fun found => (list text found).map Entries.sortedDistinct

/-- A table of texts, sorted by key. -/
def textTable : Decode (List (String × String))
  | .obj members =>
    List.foldlM (fun table (entry : String × Json) => do
      return Entries.insertSorted entry.1 (← text entry.2) table) [] members
  | found => .error (.wrongKind found "a map")

/-! ## 3. Choices -/

/-- The choice of this name. -/
def named {α : Type} (choices : List (String × α)) (name : String) : Except DecodeError α :=
  match Entries.get? name choices with
  | some choice => .ok choice
  | none => .error (.unknownChoice name (Entries.keys choices))

/-- One of several named choices. -/
def choice {α : Type} (choices : List (String × α)) : Decode α
  | .str name => named choices name
  | .obj [(name, value)] => do
    let chosen ← named choices name
    if value.isNull then return chosen else throw (.wrongKind value "unit")
  | .obj _ => .error .notOneKey
  | found => .error (.wrongKind found "string or map")

/-! ## 4. Records -/

/-- A field of a record: its names, the first of which is its own, and how it is read into the
    record. -/
structure Field (σ : Type) where
  names : List String
  read : Json → σ → Except DecodeError σ

/-- The field of these names that holds a value of one type. -/
def field {σ α : Type} (names : List String) (decode : Decode α) (set : σ → α → σ) : Field σ :=
  ⟨names, fun found record => (decode found).map (set record)⟩

/-- The own name of a field. -/
def Field.name {σ : Type} (field : Field σ) : String := field.names.headD ""

/-- Reads the members of an object in their order. `seen` holds the own names of the fields that
    have come. -/
def members {σ : Type} (strict : Bool) (fields : List (Field σ)) :
    List String → List (String × Json) → σ → Except DecodeError σ
  | _, [], record => .ok record
  | seen, (key, value) :: rest, record =>
    match fields.find? (·.names.contains key) with
    | none =>
      if strict then .error (.unknownField key (fields.flatMap (·.names)))
      else members strict fields seen rest record
    | some field =>
      if seen.contains field.name then .error (.repeatedField field.name)
      else do members strict fields (field.name :: seen) rest (← field.read value record)

/-- Reads the elements of an array as the fields in their order. -/
def elements {σ : Type} (count : Nat) : List (Field σ) → List Json → σ → Except DecodeError σ
  | _, [], record => .ok record
  | [], _ :: _, _ => .error (.tooManyElements count)
  | field :: fields, item :: items, record => do
    elements count fields items (← field.read item record)

/-- A record with these fields. `strict` refuses keys that name no field; `title` names the
    record in messages. -/
def record {σ : Type} (title : String) (strict : Bool) (fields : List (Field σ)) (defaults : σ) :
    Decode σ
  | .obj entries => members strict fields [] entries defaults
  | .arr items => elements items.length fields items defaults
  | found => .error (.wrongKind found title)

end Decode

end ApiTypes

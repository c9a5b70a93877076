import ApiTypes.Decode

/-!
  The extensions of a schema that change how it compiles.

  An extension is a key that starts with `x-`. Nine of them are understood; any other is left
  alone, so a document may carry extensions for other tools. An understood extension whose value
  does not fit is refused, and the first such extension of the node is the one reported.

  * `ofNode` reads the extensions of a node one by one, in the order of the document.
  * `members` writes them back as the members of an object.
-/

namespace ApiTypes

/-! ## 1. What extensions say -/

/-- How a sensitive value is hidden: whole, where a pattern matches, as a hash, or all but its
    ends. -/
inductive MaskKind where
  | full
  | regex
  | hash
  | partly
  deriving DecidableEq, Repr

/-- The kinds of mask by name. -/
def MaskKind.choices : List (String × MaskKind) :=
  [("full", .full), ("regex", .regex), ("hash", .hash), ("partial", .partly)]

/-- The name of a kind of mask. -/
def MaskKind.name : MaskKind → String
  | .full => "full"
  | .regex => "regex"
  | .hash => "hash"
  | .partly => "partial"

/-- How a property with sensitive data is hidden. -/
structure SensitiveData where
  mask : MaskKind := .full
  pattern : Option String := none
  algorithm : Option String := none
  keepStart : Option Nat := none
  keepEnd : Option Nat := none
  deriving DecidableEq, Repr

/-- What the extensions of a node say. -/
structure Extensions where
  typeOverride : Option String := none
  typeName : Option String := none
  skipOptionalWrapper : Option Bool := none
  omitEmpty : Option Bool := none
  jsonIgnore : Option Bool := none
  deprecatedReason : Option String := none
  extraTags : List (String × String) := []
  sensitiveData : Option SensitiveData := none
  enumNames : List String := []
  deriving DecidableEq, Repr

/-- An extension whose value does not fit. -/
structure ExtensionFault where
  key : String
  cause : DecodeError
  found : Json

/-- The wording of a fault without its key. -/
def ExtensionFault.message (fault : ExtensionFault) : String :=
  fault.cause.message ++ " (got " ++ fault.found.kindName ++ ")"

/-! ## 2. Reading -/

/-- The fields that say how sensitive data is hidden. -/
def SensitiveData.fields : List (Decode.Field SensitiveData) :=
  [Decode.field ["mask", "type"] (Decode.choice MaskKind.choices) fun s v => { s with mask := v },
   Decode.field ["pattern"] (Decode.optional Decode.text) fun s v => { s with pattern := v },
   Decode.field ["algorithm"] (Decode.optional Decode.text) fun s v => { s with algorithm := v },
   Decode.field ["keep-start", "keepStart"] (Decode.optional (Decode.natBelow (Nat.pow 2 32) "u32"))
     fun s v => { s with keepStart := v },
   Decode.field ["keep-end", "keepEnd"] (Decode.optional (Decode.natBelow (Nat.pow 2 32) "u32"))
     fun s v => { s with keepEnd := v }]

/-- How sensitive data is hidden. -/
def SensitiveData.decode : Decode SensitiveData :=
  Decode.record "struct SensitiveData" true SensitiveData.fields {}

namespace Extensions

/-- The extensions that are understood, and how each is read. -/
def fields : List (Decode.Field Extensions) :=
  [Decode.field ["x-type-override"] (Decode.optional Decode.text)
     fun e v => { e with typeOverride := v },
   Decode.field ["x-type-name"] (Decode.optional Decode.text) fun e v => { e with typeName := v },
   Decode.field ["x-skip-optional-wrapper"] Decode.flag
     fun e v => { e with skipOptionalWrapper := v },
   Decode.field ["x-omitempty"] Decode.flag fun e v => { e with omitEmpty := v },
   Decode.field ["x-json-ignore"] Decode.flag fun e v => { e with jsonIgnore := v },
   Decode.field ["x-deprecated-reason"] (Decode.optional Decode.text)
     fun e v => { e with deprecatedReason := v },
   Decode.field ["x-extra-tags"] Decode.textTable fun e v => { e with extraTags := v },
   Decode.field ["x-sensitive-data"] (Decode.optional SensitiveData.decode)
     fun e v => { e with sensitiveData := v },
   Decode.field ["x-enum-names"] (Decode.list Decode.text) fun e v => { e with enumNames := v }]

/-- The keys that are understood. -/
def recognized : List String := fields.map Decode.Field.name

/-- Reads one member of a node into what the members before it said. -/
def readMember (known : Extensions) (entry : String × Json) : Except ExtensionFault Extensions :=
  let (key, value) := entry
  match fields.find? (·.name = key) with
  | none => .ok known
  | some field =>
    match field.read value known with
    | .ok known => .ok known
    | .error cause => .error ⟨key, cause, value⟩

/-- The extensions of a node; a node that is no object has none. -/
def ofNode (node : Json) : Except ExtensionFault Extensions :=
  (node.members?.getD []).foldlM readMember {}

/-- Whether nothing is said. -/
def isEmpty (e : Extensions) : Bool := e = {}

/-! ## 3. Writing -/

/-- A member that is there when the value is. -/
def member {α : Type} (key : String) (write : α → Json) (value : Option α) :
    List (String × Json) :=
  match value with
  | some value => [(key, write value)]
  | none => []

/-- A natural number as a value. -/
def nat (n : Nat) : Json := .int n

/-- What is said of sensitive data, as an object. -/
def sensitiveJson (s : SensitiveData) : Json :=
  .obj <| [("mask", .str s.mask.name)] ++ member "pattern" .str s.pattern ++
    member "algorithm" .str s.algorithm ++ member "keep-start" nat s.keepStart ++
    member "keep-end" nat s.keepEnd

/-- What the extensions say, as the members of a node. What is not said is left out. -/
def members (e : Extensions) : List (String × Json) :=
  member "x-type-override" .str e.typeOverride ++ member "x-type-name" .str e.typeName ++
    member "x-skip-optional-wrapper" .bool e.skipOptionalWrapper ++
    member "x-omitempty" .bool e.omitEmpty ++ member "x-json-ignore" .bool e.jsonIgnore ++
    member "x-deprecated-reason" .str e.deprecatedReason ++
    member "x-extra-tags" (fun tags => .obj (tags.map fun tag => (tag.1, .str tag.2)))
      (if e.extraTags.isEmpty then none else some e.extraTags) ++
    member "x-sensitive-data" sensitiveJson e.sensitiveData ++
    member "x-enum-names" (fun names => .arr (names.map .str))
      (if e.enumNames.isEmpty then none else some e.enumNames)

/-- What the extensions say, as a node. -/
def toJson (e : Extensions) : Json := .obj e.members

end Extensions

end ApiTypes

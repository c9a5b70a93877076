import ApiTypes.Schema.Extensions
import ApiTypes.Schema.Merge

/-!
  Why a document does not compile.

  Each cause has a short code that stays the same between releases, a message, and the place where
  it arose if it has one.
-/

namespace ApiTypes

/-- Why a document does not compile. `path` is the declaration path of the schema. -/
inductive CompileError where
  | unresolvableReference (reference path : String)
  | incompatibleMerge (path : String) (conflict : Schema.MergeConflict)
  | ambiguousDiscriminator (path property : String)
  | unmappedMembers (path : String) (members : List String)
  | duplicateTypeName (name : String)
  | pruneLimitExceeded (limit : Nat)
  | unsupportedType (path typeName : String)
  | invalidExtension (path : String) (fault : ExtensionFault)
  | nestingTooDeep (path : String) (limit : Nat)
  | rootNotObject (kindName : String)

namespace CompileError

/-- The wording of a cause. -/
def message : CompileError → String
  | .unresolvableReference reference path =>
    "unresolvable reference \"" ++ reference ++ "\" at " ++ path
  | .incompatibleMerge path conflict =>
    "incompatible allOf members at " ++ path ++ ": " ++ conflict.message
  | .ambiguousDiscriminator path property =>
    "ambiguous discriminator \"" ++ property ++ "\" at " ++ path ++
      ": inline member has no single enum value and a mapping is declared"
  | .unmappedMembers path members =>
    "discriminator at " ++ path ++ " does not map " ++ ", ".intercalate members
  | .duplicateTypeName name =>
    "type name \"" ++ name ++
      "\" is declared by two different schemas; set x-type-name on one of them"
  | .pruneLimitExceeded limit => "pruning did not settle after " ++ toString limit ++ " passes"
  | .unsupportedType path typeName => "unsupported type \"" ++ typeName ++ "\" at " ++ path
  | .invalidExtension path fault =>
    "invalid " ++ fault.key ++ " at " ++ path ++ ": " ++ fault.message
  | .nestingTooDeep path limit =>
    "schema nesting at " ++ path ++ " exceeds " ++ toString limit ++ " levels"
  | .rootNotObject kindName => "invalid document: expected an object at the root, got " ++ kindName

/-- The short code of a cause. -/
def code : CompileError → String
  | .unresolvableReference .. => "E001"
  | .incompatibleMerge .. => "E002"
  | .ambiguousDiscriminator .. => "E003"
  | .unmappedMembers .. => "E004"
  | .duplicateTypeName .. => "E005"
  | .pruneLimitExceeded .. => "E006"
  | .unsupportedType .. => "E007"
  | .invalidExtension .. => "E008"
  | .nestingTooDeep .. => "E009"
  | .rootNotObject .. => "E010"

/-- The place of a cause. -/
def path? : CompileError → Option String
  | .unresolvableReference _ path | .incompatibleMerge path _ | .ambiguousDiscriminator path _
  | .unmappedMembers path _ | .unsupportedType path _ | .invalidExtension path _
  | .nestingTooDeep path _ => some path
  | .duplicateTypeName _ | .pruneLimitExceeded _ | .rootNotObject _ => none

/-- The exit status of a program that stops for a cause. -/
def exitStatus (_ : CompileError) : Nat := 2

end CompileError

end ApiTypes

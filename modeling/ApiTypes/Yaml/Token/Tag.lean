import ApiTypes.Yaml.Token.Scalar

/-!
  Tags and directives of a YAML text.

  A tag is written out between angle brackets, or as a **handle** and a **suffix**. A directive
  says what a handle stands for. In a suffix a percent sign and two digits stand for a byte.
-/

namespace ApiTypes.Yaml.Lex

/-! ## 1. Names of tags -/

/-- The characters of a tag that stand for themselves. `wide` adds the ones that would end a tag
    in a flow collection. -/
def isTagChar (wide : Bool) (c : Char) : Bool :=
  isWordChar c || ";/?:@&=+$.!~*'()".toList.contains c || (wide && ",[]".toList.contains c)

/-- Reads a byte. -/
def escapedByte : Lex Nat := do
  match ← rest with
  | '%' :: high :: low :: _ =>
    let value ← hexNumber? [high, low]
    skip
    skip
    skip
    return value
  | _ => failure

/-- How many bytes a character has, by its first one. -/
def byteLength? (first : Nat) : Option Nat :=
  if first < 0x80 then some 1
  else if first / 0x20 = 6 then some 2
  else if first / 0x10 = 14 then some 3
  else if first / 8 = 30 then some 4
  else none

/-- Reads so many bytes. -/
def escapedBytes : Nat → Lex (List UInt8)
  | 0 => return []
  | n + 1 => do
    let byte ← escapedByte
    return UInt8.ofNat byte :: (← escapedBytes n)

/-- Reads the bytes of a character. -/
def escapedChar : Lex (List Char) := do
  let first ← escapedByte
  let length ← byteLength? first
  let bytes := UInt8.ofNat first :: (← escapedBytes (length - 1))
  let text ← String.fromUTF8? ⟨bytes.toArray⟩
  return text.toList

/-- Reads the characters of a tag. -/
def takeTagChars (wide : Bool) : Nat → List Char → Lex (List Char)
  | 0, taken => return taken
  | fuel + 1, taken => do
    match ← rest with
    | [] => return taken
    | c :: _ =>
      if c = '%' then
        let escaped ← escapedChar
        takeTagChars wide fuel (taken ++ escaped)
      else if isTagChar wide c then
        skip
        takeTagChars wide fuel (taken ++ [c])
      else return taken

/-- Reads the characters of a tag; there is at least one. -/
def tagName (wide : Bool) : Lex (List Char) := do
  let name ← takeTagChars wide (← bound) []
  require !name.isEmpty
  return name

/-- Reads what may be a handle. -/
def tagHandle : Lex (List Char) := do
  require ((← rest).head? = some '!')
  skip
  let name ← takeRun isWordChar
  if (← rest).head? = some '!' then
    skip
    return '!' :: name ++ ['!']
  else return '!' :: name

/-! ## 2. Tags -/

/-- Reads a tag that is written out. -/
def verbatimTag : Lex Token := do
  skip
  skip
  let name ← tagName true
  require ((← rest).head? = some '>')
  skip
  return .tag "" (String.ofList name)

/-- Reads a tag with a handle. Without a second mark the name is a part of the suffix. -/
def shortTag : Lex Token := do
  let handle ← tagHandle
  if 1 < handle.length && handle.getLast? = some '!' then
    let name ← tagName false
    return .tag (String.ofList handle) (String.ofList name)
  else
    let name ← takeTagChars false (← bound) (handle.drop 1)
    return if name.isEmpty then .tag "" "!" else .tag "!" (String.ofList name)

/-- Reads a tag. It ends at a space, or at a comma in a flow collection. -/
def tag : Lex Unit := do
  saveCandidate
  allowKey false
  let verbatim := (← rest)[1]? = some '<'
  let token ← if verbatim then verbatimTag else shortTag
  let s ← get
  require (atSpace s.rest || (s.inFlow && s.rest.head? = some ','))
  emit token

/-! ## 3. Directives -/

/-- Reads a part of a version, of at most nine digits. -/
def versionPart : Lex Nat := do
  let digits ← takeRun Char.isDigit
  require (0 < digits.length && digits.length ≤ 9)
  return digits.foldl (fun n c => n * 10 + (c.toNat - '0'.toNat)) 0

/-- Reads the version of a directive. -/
def versionDirective : Lex Token := do
  let major ← versionPart
  require ((← rest).head? = some '.')
  skip
  let minor ← versionPart
  return .versionDirective major minor

/-- Reads the handle of a directive and what it stands for. -/
def tagDirective : Lex Token := do
  let handle ← tagHandle
  require (handle.getLast? = some '!')
  require ((← rest).head?.any isBlank)
  skipRun isBlank
  let start ← tagName true
  require (atSpace (← rest))
  return .tagDirective (String.ofList handle) (String.ofList start)

/-- Reads a directive. -/
def directive : Lex Unit := do
  closeBlocks (-1)
  dropCandidate
  allowKey false
  skip
  let name ← takeRun isWordChar
  require (atSpace (← rest))
  skipRun isBlank
  let token ←
    if name = "YAML".toList then versionDirective
    else if name = "TAG".toList then tagDirective
    else failure
  emit token
  skipRun isBlank
  skipComment
  require (atLineEnd (← rest))
  modify Lexer.skipLine

end ApiTypes.Yaml.Lex

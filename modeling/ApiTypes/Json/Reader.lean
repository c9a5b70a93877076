import ApiTypes.Json.Number

/-!
  Reading JSON text.

  `parse` reads one value and nothing after it but blanks. A text that is not JSON is refused
  with a cause and a place.

  * A place is a line, counted from one, and a column, which counts the bytes of that line up to
    and including the offending byte; at the end of the text it counts the bytes of the last line.
  * Objects keep the first place of a repeated key and its last value.
  * Containers nest at most `levels` deep.
-/

namespace ApiTypes.Json

/-! ## 1. Errors -/

/-- Why a text is not JSON. -/
inductive SyntaxCause where
  | endInValue
  | endInObject
  | endInList
  | endInString
  | expectedValue
  | expectedWord
  | expectedColon
  | expectedCommaOrBrace
  | expectedCommaOrBracket
  | keyNotString
  | trailingComma
  | trailingCharacters
  | invalidNumber
  | numberOutOfRange
  | invalidEscape
  | unpairedSurrogate
  | loneSurrogate
  | controlCharacter
  | tooDeep
  deriving DecidableEq, Repr

/-- The wording of a cause. -/
def SyntaxCause.message : SyntaxCause → String
  | .endInValue => "EOF while parsing a value"
  | .endInObject => "EOF while parsing an object"
  | .endInList => "EOF while parsing a list"
  | .endInString => "EOF while parsing a string"
  | .expectedValue => "expected value"
  | .expectedWord => "expected ident"
  | .expectedColon => "expected `:`"
  | .expectedCommaOrBrace => "expected `,` or `\x7d`"
  | .expectedCommaOrBracket => "expected `,` or `]`"
  | .keyNotString => "key must be a string"
  | .trailingComma => "trailing comma"
  | .trailingCharacters => "trailing characters"
  | .invalidNumber => "invalid number"
  | .numberOutOfRange => "number out of range"
  | .invalidEscape => "invalid escape"
  | .unpairedSurrogate => "unexpected end of hex escape"
  | .loneSurrogate => "lone leading surrogate in hex escape"
  | .controlCharacter => "control character (\\u0000-\\u001F) found while parsing a string"
  | .tooDeep => "recursion limit exceeded"

/-- A place in a text. -/
structure Place where
  line : Nat := 1
  column : Nat := 0
  deriving DecidableEq, Repr

/-- Why and where a text is not JSON. -/
structure SyntaxError where
  cause : SyntaxCause
  place : Place
  deriving DecidableEq, Repr

/-- The wording of an error with its place. -/
def SyntaxError.message (e : SyntaxError) : String :=
  e.cause.message ++ " at line " ++ toString e.place.line ++ " column " ++ toString e.place.column

/-! ## 2. Places -/

/-- The place after `count` more bytes of the text. -/
def Place.afterBytes (place : Place) : Nat → List Char → Place
  | _, [] => place
  | count, c :: rest =>
    if count = 0 then place
    else if c = '\n' then Place.afterBytes ⟨place.line + 1, 0⟩ (count - 1) rest
    else if c.utf8Size ≤ count then
      Place.afterBytes ⟨place.line, place.column + c.utf8Size⟩ (count - c.utf8Size) rest
    else ⟨place.line, place.column + count⟩

/-- The place after a whole character. -/
def Place.after (place : Place) (c : Char) : Place :=
  if c = '\n' then ⟨place.line + 1, 0⟩ else ⟨place.line, place.column + c.utf8Size⟩

/-- What is left of a text, and the place reached. -/
structure Cursor where
  rest : List Char
  place : Place := {}

/-- A step of reading. -/
abbrev Read := StateT Cursor (Except SyntaxError)

/-- Refuses the text at the place reached. -/
def failHere {α : Type} (cause : SyntaxCause) : Read α := do
  throw ⟨cause, (← get).place⟩

/-- Refuses the text because of its next byte. -/
def failNext {α : Type} (cause : SyntaxCause) : Read α := do
  let cursor ← get
  throw ⟨cause, cursor.place.afterBytes 1 cursor.rest⟩

/-- The next character. -/
def peek : Read (Option Char) := do
  return (← get).rest.head?

/-- Passes the next character. -/
def advance : Read Unit :=
  modify fun cursor => match cursor.rest with
    | [] => cursor
    | c :: rest => ⟨rest, cursor.place.after c⟩

/-- Takes the longest run of characters of a class. -/
def Cursor.span (p : Char → Bool) (taken : List Char) (place : Place) :
    List Char → List Char × Cursor
  | [] => (taken.reverse, ⟨[], place⟩)
  | c :: rest =>
    if p c then Cursor.span p (c :: taken) (place.after c) rest
    else (taken.reverse, ⟨c :: rest, place⟩)

/-- Takes the longest run of characters of a class. -/
def takeRun (p : Char → Bool) : Read (List Char) := do
  let cursor ← get
  let (taken, cursor) := Cursor.span p [] cursor.place cursor.rest
  set cursor
  return taken

/-- The blanks between the parts of a JSON text. -/
def isBlank (c : Char) : Bool := c = ' ' || c = '\n' || c = '\t' || c = '\r'

/-- Passes blanks and shows the next character. -/
def peekPart : Read (Option Char) := do
  let _ ← takeRun isBlank
  peek

/-! ## 3. Words, numbers and strings -/

/-- Reads the letters that must follow the first letter of a word. -/
def readLetters : List Char → Read Unit
  | [] => return
  | expected :: letters => do
    match ← peek with
    | none => failHere .endInValue
    | some c =>
      if c = expected then
        advance
        readLetters letters
      else failNext .expectedWord

/-- Reads a word that stands for a value. -/
def readWord (letters : List Char) (value : Json) : Read Json := do
  advance
  readLetters letters
  return value

/-- A float that must be in range. -/
def inRange (value : Option Json) : Read Json :=
  match value with
  | some value => return value
  | none => failHere .numberOutOfRange

/-- The digits of an exponent up to the place where it outgrows 32 bits, and its value; `false`
    when it does. -/
def Cursor.exponentDigits (value : Nat) (place : Place) : List Char → Nat × Bool × Cursor
  | [] => (value, true, ⟨[], place⟩)
  | c :: rest =>
    if c.isDigit then
      let next := value * 10 + digitValue c
      if next < 2 ^ 31 then Cursor.exponentDigits next (place.after c) rest
      else (value, false, ⟨rest, place.after c⟩)
    else (value, true, ⟨c :: rest, place⟩)

/-- Reads what follows the exponent mark. An exponent beyond 32 bits is zero, or out of range if
    it is positive and the significand is not zero. -/
def readExponent (m : Magnitude) (negative : Bool) : Read Json := do
  advance
  let sign ← peek
  if sign = some '+' || sign = some '-' then advance
  let down := sign = some '-'
  match ← peek with
  | none => failHere .endInValue
  | some c =>
    if !c.isDigit then failNext .invalidNumber
    let cursor ← get
    let (size, fits, cursor) := Cursor.exponentDigits 0 cursor.place cursor.rest
    set cursor
    if fits then
      let exponent := if down then m.exponent - size else m.exponent + size
      inRange ({ m with exponent := exponent }.signed? negative)
    else if m.significand ≠ 0 && !down then failHere .numberOutOfRange
    else
      let _ ← takeRun Char.isDigit
      return .float (if negative then -0.0 else 0.0)

/-- Reads what follows the digits before the point. -/
def readAfterWhole (m : Magnitude) (negative : Bool) : Read Json := do
  match ← peek with
  | some '.' =>
    advance
    let digits ← takeRun Char.isDigit
    if digits.isEmpty then
      if (← peek).isNone then failHere .endInValue else failNext .invalidNumber
    let m := m.addFraction digits
    match ← peek with
    | some 'e' | some 'E' => readExponent m negative
    | _ => inRange (m.signed? negative)
  | some 'e' | some 'E' => readExponent m negative
  | _ => inRange (m.integerValue? negative)

/-- Reads a number from its first digit on. A leading zero stands alone. -/
def readNumber (negative : Bool) : Read Json := do
  match ← peek with
  | none => failHere .endInValue
  | some '0' =>
    advance
    if (← peek).any Char.isDigit then failNext .invalidNumber
    readAfterWhole {} negative
  | some c =>
    if !c.isDigit then failNext .invalidNumber
    let digits ← takeRun Char.isDigit
    readAfterWhole (Magnitude.ofWhole digits) negative

/-- The value of a hexadecimal digit. -/
def hexValue? (c : Char) : Option Nat :=
  if c.isDigit then some (c.toNat - '0'.toNat)
  else if 'a' ≤ c ∧ c ≤ 'f' then some (c.toNat - 'a'.toNat + 10)
  else if 'A' ≤ c ∧ c ≤ 'F' then some (c.toNat - 'A'.toNat + 10)
  else none

/-- The value of four hexadecimal digits at the start of a text. -/
def fourHex? : List Char → Option Nat
  | a :: b :: c :: d :: _ => do
    let a ← hexValue? a
    let b ← hexValue? b
    let c ← hexValue? c
    let d ← hexValue? d
    return ((a * 16 + b) * 16 + c) * 16 + d
  | _ => none

/-- How many bytes a text has. -/
def byteCount (text : List Char) : Nat := (text.map Char.utf8Size).foldl (· + ·) 0

/-- Reads the four digits of an escape. -/
def readHex : Read Nat := do
  let cursor ← get
  match fourHex? cursor.rest with
  | some value =>
    set (⟨cursor.rest.drop 4, cursor.place.afterBytes 4 cursor.rest⟩ : Cursor)
    return value
  | none =>
    let size := byteCount cursor.rest
    if size < 4 then throw ⟨.endInString, cursor.place.afterBytes size cursor.rest⟩
    else throw ⟨.invalidEscape, cursor.place.afterBytes 4 cursor.rest⟩

/-- Reads one of the two characters that join the halves of a surrogate pair. -/
def readJoint (joint : Char) : Read Unit := do
  match ← peek with
  | none => failHere .endInString
  | some c => if c = joint then advance else failNext .unpairedSurrogate

/-- Reads a numbered escape after its letter; a pair of surrogates is one character. -/
def readNumbered : Read Char := do
  let first ← readHex
  if 0xDC00 ≤ first ∧ first ≤ 0xDFFF then failHere .loneSurrogate
  if first < 0xD800 ∨ 0xDBFF < first then return Char.ofNat first
  readJoint '\\'
  readJoint 'u'
  let second ← readHex
  if second < 0xDC00 ∨ 0xDFFF < second then failHere .loneSurrogate
  return Char.ofNat (0x10000 + (first - 0xD800) * 0x400 + (second - 0xDC00))

/-- Reads an escape after its backslash. -/
def readEscape : Read Char := do
  match ← peek with
  | none => failHere .endInString
  | some c =>
    let simple (value : Char) : Read Char := do
      advance
      return value
    if c = '"' || c = '\\' || c = '/' then simple c
    else if c = 'b' then simple '\x08'
    else if c = 'f' then simple '\x0c'
    else if c = 'n' then simple '\n'
    else if c = 'r' then simple '\r'
    else if c = 't' then simple '\t'
    else if c = 'u' then
      advance
      readNumbered
    else failNext .invalidEscape

/-- Reads a string after its opening quote; `fuel` exceeds the characters that are left. -/
def readStringRest : Nat → List Char → Read String
  | 0, _ => failHere .endInString
  | fuel + 1, taken => do
    match ← peek with
    | none => failHere .endInString
    | some c =>
      if c = '"' then
        advance
        return String.ofList taken.reverse
      else if c = '\\' then
        advance
        let value ← readEscape
        readStringRest fuel (value :: taken)
      else if c.toNat < 32 then failNext .controlCharacter
      else
        advance
        readStringRest fuel (c :: taken)

/-- Reads a string from its opening quote on. -/
def readString : Read String := do
  advance
  let cursor ← get
  readStringRest (cursor.rest.length + 1) []

/-! ## 4. Values -/

/-- Reads the colon between a key and its value. -/
def readColon : Read Unit := do
  match ← peekPart with
  | none => failHere .endInObject
  | some ':' => advance
  | some _ => failNext .expectedColon

mutual

/-- Reads a value. `levels` counts the containers that may still be opened; `fuel` exceeds twice
    the number of characters that are left. -/
def readValue : Nat → Nat → Read Json
  | 0, _ => failHere .endInValue
  | fuel + 1, levels => do
    match ← peekPart with
    | none => failHere .endInValue
    | some c =>
      if c = 'n' then readWord ['u', 'l', 'l'] .null
      else if c = 't' then readWord ['r', 'u', 'e'] (.bool true)
      else if c = 'f' then readWord ['a', 'l', 's', 'e'] (.bool false)
      else if c = '-' then
        advance
        readNumber true
      else if c.isDigit then readNumber false
      else if c = '"' then return .str (← readString)
      else if c = '[' || c = '\x7b' then
        match levels with
        | 0 => failNext .tooDeep
        | levels + 1 =>
          advance
          if c = '[' then return .arr (← readItems fuel levels true)
          else return .obj (← readMembers fuel levels true [])
      else failNext .expectedValue

/-- Reads the elements of an array up to its bracket; `first` before the first one. -/
def readItems : Nat → Nat → Bool → Read (List Json)
  | 0, _, _ => failHere .endInList
  | fuel + 1, levels, first => do
    match ← peekPart with
    | none => failHere .endInList
    | some c =>
      if c = ']' then
        advance
        return []
      if !first then
        if c ≠ ',' then failNext .expectedCommaOrBracket
        advance
        match ← peekPart with
        | none => failHere .endInValue
        | some ']' => failNext .trailingComma
        | some _ => pure ()
      let item ← readValue fuel levels
      return item :: (← readItems fuel levels false)

/-- Reads the members of an object up to its brace; `first` before the first one. -/
def readMembers : Nat → Nat → Bool → List (String × Json) → Read (List (String × Json))
  | 0, _, _, _ => failHere .endInObject
  | fuel + 1, levels, first, members => do
    match ← peekPart with
    | none => failHere .endInObject
    | some c =>
      if c = '\x7d' then
        advance
        return members
      if !first then
        if c ≠ ',' then failNext .expectedCommaOrBrace
        advance
      match ← peekPart with
      | none => failHere .endInValue
      | some '"' =>
        let key ← readString
        readColon
        let value ← readValue fuel levels
        readMembers fuel levels false (Entries.insert key value members)
      | some '\x7d' => failNext .trailingComma
      | some _ => failNext .keyNotString

end

/-- Reads one value and refuses anything after it. -/
def readText (fuel levels : Nat) : Read Json := do
  let value ← readValue fuel levels
  if (← peekPart).isSome then failNext .trailingCharacters
  return value

/-- The value of a JSON text whose containers nest at most `levels` deep. -/
def parse (levels : Nat) (text : String) : Except SyntaxError Json :=
  let chars := text.toList
  match readText (2 * chars.length + 2) levels |>.run ⟨chars, {}⟩ with
  | .ok (value, _) => .ok value
  | .error e => .error e

/-- How deep the containers of a document may nest. -/
def documentLevels : Nat := 127

end ApiTypes.Json

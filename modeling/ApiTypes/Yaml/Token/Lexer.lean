import ApiTypes.Yaml.Token.Tag

/-!
  Reading the tokens of a YAML text.

  Between two tokens stand blanks, comments and line breaks. The first characters of a token say
  what it is; a column less than that of an open block ends the block first.
-/

namespace ApiTypes.Yaml

namespace Lex

/-! ## 1. Between tokens -/

/-- Passes what stands between tokens. A byte order mark may start a line, and a tab must not
    stand where it could be taken for indentation. -/
def skipToToken : Nat → Lex Unit
  | 0 => pure ()
  | fuel + 1 => do
    let s ← get
    if s.column = 0 && s.rest.head? = some '\ufeff' then skip
    skipRun fun c => c = ' ' || (c = '\t' && (s.inFlow || !s.keyAllowed))
    skipComment
    if (← rest).head?.any isBreak then
      modify Lexer.skipLine
      if !s.inFlow then allowKey true
      skipToToken fuel

/-! ## 2. Marks -/

/-- Reads the mark of a document's start or end. -/
def documentMark (token : Token) : Lex Unit := do
  closeBlocks (-1)
  dropCandidate
  allowKey false
  skip
  skip
  skip
  emit token

/-- Reads the opening mark of a flow collection. -/
def openFlow (token : Token) : Lex Unit := do
  saveCandidate
  modify fun s => { s with candidates := none :: s.candidates }
  allowKey true
  skip
  emit token

/-- Reads the closing mark of a flow collection. -/
def closeFlow (token : Token) : Lex Unit := do
  dropCandidate
  modify fun s => { s with candidates := if s.inFlow then s.candidates.drop 1 else s.candidates }
  allowKey false
  skip
  emit token

/-- Reads the comma between two entries. -/
def flowEntry : Lex Unit := do
  dropCandidate
  allowKey true
  skip
  emit .flowEntry

/-- In a block, opens one at this column, where a key is allowed. -/
def openBlockHere (token : Token) : Lex Unit := do
  let s ← get
  require (s.inFlow || s.keyAllowed)
  openBlock s.column Lexer.count token

/-- Reads the dash of an element. -/
def blockEntry : Lex Unit := do
  openBlockHere .blockSequenceStart
  dropCandidate
  allowKey true
  skip
  emit .blockEntry

/-- Reads the mark of a key. -/
def keyMark : Lex Unit := do
  openBlockHere .blockMappingStart
  dropCandidate
  allowKey !(← get).inFlow
  skip
  emit .key

/-- Reads the colon before a value. It makes a key of the candidate, if there is one. -/
def valueMark : Lex Unit := do
  match ← candidate? with
  | some candidate =>
    modify (Lexer.emitAt candidate.number .key)
    openBlock candidate.column (fun _ => candidate.number) .blockMappingStart
    modify fun s => { s with candidates := none :: s.candidates.drop 1 }
    allowKey false
  | none =>
    openBlockHere .blockMappingStart
    allowKey !(← get).inFlow
  skip
  emit .value

/-- Reads the name of an anchor or alias. -/
def anchor (token : String → Token) : Lex Unit := do
  saveCandidate
  allowKey false
  skip
  let name ← takeRun isWordChar
  require !name.isEmpty
  let after := (← rest)
  require (atSpace after || after.head?.any ("?:,]\x7d%@\x60".toList.contains ·))
  emit (token (String.ofList name))

/-! ## 3. Tokens -/

/-- The characters that start no plain scalar. -/
def indicators : List Char := "-?:,[]\x7b\x7d#&*!|>'\"%@\x60".toList

/-- Whether a plain scalar starts here: not with an indicator, but a dash, and outside flow
    collections also a question mark or colon, may stand right before the rest of it. -/
def startsPlain (inFlow : Bool) : List Char → Bool
  | [] => false
  | c :: after =>
    !(isSpace c || indicators.contains c) || (c = '-' && !after.head?.any isBlank) ||
      (!inFlow && (c = '?' || c = ':') && !atSpace after)

/-- Reads a token of more than marks by its first characters. -/
def contentToken (inFlow : Bool) (text : List Char) : Lex Unit :=
  match text with
  | '*' :: _ => anchor .alias
  | '&' :: _ => anchor .anchor
  | '!' :: _ => tag
  | '\'' :: _ => quotedScalar '\''
  | '"' :: _ => quotedScalar '"'
  | '|' :: _ => if inFlow then failure else blockScalar true
  | '>' :: _ => if inFlow then failure else blockScalar false
  | _ => if startsPlain inFlow text then plainScalar else failure

/-- Reads a token by its first characters. -/
def tokenAt (inFlow : Bool) (text : List Char) : Lex Unit :=
  match text with
  | '[' :: _ => openFlow .flowSequenceStart
  | '\x7b' :: _ => openFlow .flowMappingStart
  | ']' :: _ => closeFlow .flowSequenceEnd
  | '\x7d' :: _ => closeFlow .flowMappingEnd
  | ',' :: _ => flowEntry
  | '-' :: after => if atSpace after then blockEntry else contentToken inFlow text
  | '?' :: after => if inFlow || atSpace after then keyMark else contentToken inFlow text
  | ':' :: after => if inFlow || atSpace after then valueMark else contentToken inFlow text
  | _ => contentToken inFlow text

/-- Ends the blocks that are still open. -/
def endOfText : Lex Unit := do
  closeBlocks (-1)
  dropCandidate

/-- Reads a token, and says whether there was one. -/
def token : Lex Bool := do
  skipToToken (← bound)
  closeBlocks (← get).column
  let s ← get
  if s.rest.isEmpty then
    endOfText
    return false
  if s.column = 0 && s.rest.head? = some '%' then directive
  else if ← atDocumentMark then
    documentMark (if s.rest.head? = some '-' then .documentStart else .documentEnd)
  else tokenAt s.inFlow s.rest
  return true

/-- Reads all tokens. -/
def tokens : Nat → Lex Unit
  | 0 => failure
  | fuel + 1 => do
    if ← token then tokens fuel

end Lex

/-- The tokens of a text. -/
def Token.scan? (text : String) : Option (List Token) :=
  let chars := text.toList
  if chars.all isAllowed then
    let bound := chars.length + 1
    ((Lex.tokens (bound + 1)).run { rest := chars, bound }).map fun result =>
      result.2.tokens.reverse
  else none

end ApiTypes.Yaml

/-!
  The tokens of a YAML text, and the state of reading them.

  Structure by indentation becomes visible as tokens: a block opens where a line is indented
  deeper than the block around it, and it ends where a line is indented less.

  * A **candidate** is a token that turns out to be a key when a colon follows it on its line. The
    token that announces the key is then put before it, so tokens are kept newest first and a
    candidate remembers its place among them.
  * Reading fails without a reason: a text either is YAML or is not.
-/

namespace ApiTypes.Yaml

/-- A token. Handles of tags are `!`, `!!`, `!name!`, or empty for a tag that is written out. -/
inductive Token where
  | versionDirective (major minor : Nat)
  | tagDirective (handle start : String)
  | documentStart
  | documentEnd
  | blockSequenceStart
  | blockMappingStart
  | blockEnd
  | flowSequenceStart
  | flowSequenceEnd
  | flowMappingStart
  | flowMappingEnd
  | blockEntry
  | flowEntry
  | key
  | value
  | alias (name : String)
  | anchor (name : String)
  | tag (handle suffix : String)
  | scalar (text : String) (plain : Bool)
  deriving DecidableEq, Repr

/-! ## 1. Characters -/

/-- The characters that a YAML text may hold. -/
def isAllowed (c : Char) : Bool :=
  let n := c.toNat
  n = 9 || n = 10 || n = 13 || (0x20 ≤ n && n ≤ 0x7E) || n = 0x85 || (0xA0 ≤ n && n ≤ 0xD7FF) ||
    (0xE000 ≤ n && n ≤ 0xFFFD) || 0x10000 ≤ n

/-- Line breaks. -/
def isBreak (c : Char) : Bool :=
  c = '\n' || c = '\r' || c = '\x85' || c = '\u2028' || c = '\u2029'

/-- Blanks inside a line. -/
def isBlank (c : Char) : Bool := c = ' ' || c = '\t'

/-- Blanks and line breaks. -/
def isSpace (c : Char) : Bool := isBlank c || isBreak c

/-- The characters of words: anchors, handles and directives. -/
def isWordChar (c : Char) : Bool := c.isAlphanum || c = '_' || c = '-'

/-- Whether a text is at its end or at a line break. -/
def atLineEnd : List Char → Bool
  | [] => true
  | c :: _ => isBreak c

/-- Whether a text is at its end or at a blank or line break. -/
def atSpace : List Char → Bool
  | [] => true
  | c :: _ => isSpace c

/-- Whether a text is at a blank or line break, and not at its end. -/
def atSomeSpace : List Char → Bool
  | [] => false
  | c :: _ => isSpace c

/-! ## 2. The state -/

/-- A token that may turn out to be a key. -/
structure Candidate where
  /-- A line of a block mapping must hold a key. -/
  required : Bool
  /-- How many tokens came before. -/
  number : Nat
  index : Nat
  line : Nat
  column : Nat

/-- What is left of a text, and what is known of its structure so far. -/
structure Lexer where
  rest : List Char
  /-- A bound on the number of steps: more than the text has characters. -/
  bound : Nat
  index : Nat := 0
  line : Nat := 0
  column : Nat := 0
  /-- The columns of the open blocks, the innermost first. -/
  indents : List Int := [-1]
  /-- The candidates of the block and of each open flow collection, the innermost first. -/
  candidates : List (Option Candidate) := [none]
  /-- Whether a key may start here. -/
  keyAllowed : Bool := true
  /-- The tokens so far, the newest first, and their number. -/
  tokens : List Token := []
  count : Nat := 0

/-- A step of reading. -/
abbrev Lex := StateT Lexer Option

namespace Lexer

/-- Whether some flow collection is open. -/
def inFlow (s : Lexer) : Bool := 1 < s.candidates.length

/-- The column of the innermost open block. -/
def indent (s : Lexer) : Int := s.indents.headD (-1)

/-- The state after one character that is no line break. -/
def skip (s : Lexer) : Lexer :=
  { s with rest := s.rest.drop 1, index := s.index + 1, column := s.column + 1 }

/-- The state after a line break; a carriage return and a line feed are one. -/
def skipLine (s : Lexer) : Lexer :=
  match s.rest with
  | '\r' :: '\n' :: rest =>
    { s with rest := rest, index := s.index + 2, line := s.line + 1, column := 0 }
  | _ :: rest => { s with rest := rest, index := s.index + 1, line := s.line + 1, column := 0 }
  | [] => s

/-- The text of the line break here. All breaks are line feeds but the two separators. -/
def breakText (s : Lexer) : List Char :=
  match s.rest with
  | [] => []
  | c :: _ => if c = '\u2028' || c = '\u2029' then [c] else if isBreak c then ['\n'] else []

/-- Adds a token. -/
def emit (token : Token) (s : Lexer) : Lexer :=
  { s with tokens := token :: s.tokens, count := s.count + 1 }

/-- Puts a token before the ones that came after so many. -/
def emitAt (number : Nat) (token : Token) (s : Lexer) : Lexer :=
  let later := s.count - number
  { s with
    tokens := s.tokens.take later ++ token :: s.tokens.drop later, count := s.count + 1 }

end Lexer

namespace Lex

/-! ## 3. Steps -/

/-- What is left of the text. -/
def rest : Lex (List Char) := return (← get).rest

/-- A bound on the number of steps. -/
def bound : Lex Nat := return (← get).bound

/-- Goes on only if this holds. -/
def require (condition : Bool) : Lex Unit := if condition then pure () else failure

/-- Passes one character that is no line break. -/
def skip : Lex Unit := modify Lexer.skip

/-- Adds a token. -/
def emit (token : Token) : Lex Unit := modify (Lexer.emit token)

/-- Passes the longest run of characters of a class, which holds no line breaks, and gives it
    back. -/
def takeRun (p : Char → Bool) : Lex (List Char) := do
  let s ← get
  let taken := s.rest.takeWhile p
  let n := taken.length
  set { s with rest := s.rest.drop n, index := s.index + n, column := s.column + n }
  return taken

/-- Passes the longest run of characters of a class. -/
def skipRun (p : Char → Bool) : Lex Unit := do
  let _ ← takeRun p

/-- Passes a line break and gives back its text. -/
def takeBreak : Lex (List Char) := do
  let s ← get
  set s.skipLine
  return s.breakText

/-- Passes a comment, if there is one. -/
def skipComment : Lex Unit := do
  if (← rest).head? = some '#' then skipRun (!isBreak ·)

/-- Whether a line starts here with the mark of a document's start or end. -/
def atDocumentMark : Lex Bool := do
  let s ← get
  return s.column = 0 && match s.rest with
    | '-' :: '-' :: '-' :: rest | '.' :: '.' :: '.' :: rest => atSpace rest
    | _ => false

/-- Allows or forbids a key. -/
def allowKey (allowed : Bool) : Lex Unit := modify fun s => { s with keyAllowed := allowed }

/-- Gives up the candidate here, which must not be required. -/
def dropCandidate : Lex Unit := do
  let s ← get
  match s.candidates with
  | some candidate :: outer =>
    require !candidate.required
    set { s with candidates := none :: outer }
  | _ => pure ()

/-- Makes the next token a candidate, where a key may start. -/
def saveCandidate : Lex Unit := do
  if (← get).keyAllowed then
    dropCandidate
    modify fun s =>
      let required := !s.inFlow && s.indent = s.column
      let candidate : Candidate := ⟨required, s.count, s.index, s.line, s.column⟩
      { s with candidates := some candidate :: s.candidates.drop 1 }

/-- The candidate here, if a key can still be made of it: on this line, and not more than 1024
    characters ago. -/
def candidate? : Lex (Option Candidate) := do
  let s ← get
  match s.candidates.head?.join with
  | none => return none
  | some candidate =>
    if candidate.line < s.line || candidate.index + 1024 < s.index then
      require !candidate.required
      return none
    else return some candidate

/-- Ends the blocks that are indented deeper than a column. -/
def closeBlocks (column : Int) : Lex Unit :=
  modify fun s =>
    if s.inFlow then s
    else
      let closed := s.indents.takeWhile (column < ·)
      { closed.foldl (fun s _ => s.emit .blockEnd) s with indents := s.indents.drop closed.length }

/-- Opens a block at a column that is deeper than the block around it, with the token that
    announces it at the given place. -/
def openBlock (column : Nat) (place : Lexer → Nat) (token : Token) : Lex Unit :=
  modify fun s =>
    if s.inFlow || (column : Int) ≤ s.indent then s
    else { s.emitAt (place s) token with indents := (column : Int) :: s.indents }

end Lex

end ApiTypes.Yaml

import ApiTypes.Yaml.Token

/-!
  Scalars of a YAML text: plain, quoted and block scalars.

  Line breaks inside a scalar are **folded** unless it is a literal block: one break becomes a
  space, and of several the first is dropped.
-/

namespace ApiTypes.Yaml.Lex

/-! ## 1. Folding -/

/-- Blanks and breaks between two parts of a scalar: blanks on the line, or else the first break
    and the ones after it. -/
structure Gap where
  blanks : List Char := []
  first : List Char := []
  more : List Char := []
  /-- Whether a line ended in this gap. -/
  lineEnded : Bool := false

/-- What stands for a gap in the value of a scalar. -/
def Gap.fold (gap : Gap) : List Char :=
  if gap.lineEnded then
    if gap.first.head? = some '\n' then (if gap.more.isEmpty then [' '] else gap.more)
    else gap.first ++ gap.more
  else gap.blanks

/-- Passes blanks and breaks. `tabLimit` is a column before which no tab may stand at the start of
    a line. -/
def takeGap (tabLimit : Int) : Nat → Gap → Lex Gap
  | 0, gap => return gap
  | fuel + 1, gap => do
    let s ← get
    match s.rest with
    | [] => return gap
    | c :: _ =>
      if isBlank c then
        require !(gap.lineEnded && (s.column : Int) < tabLimit && c = '\t')
        skip
        takeGap tabLimit fuel
          (if gap.lineEnded then gap else { gap with blanks := gap.blanks ++ [c] })
      else if isBreak c then
        let text ← takeBreak
        takeGap tabLimit fuel
          (if gap.lineEnded then { gap with more := gap.more ++ text }
            else { gap with blanks := [], first := text, lineEnded := true })
      else return gap

/-! ## 2. Plain scalars -/

/-- Whether a plain scalar ends here, given whether it stands in a flow collection. -/
def endsPlain (inFlow : Bool) : List Char → Bool
  | [] => true
  | c :: rest =>
    isSpace c || (c = ':' && atSpace rest) ||
      (inFlow && (c = ',' || c = '[' || c = ']' || c = '\x7b' || c = '\x7d'))

/-- Whether a colon stands here that must not be in a flow collection: one before an indicator. -/
def isStrayColon : List Char → Bool
  | ':' :: c :: _ => c = ',' || c = '?' || c = '[' || c = ']' || c = '\x7b' || c = '\x7d'
  | _ => false

/-- Passes the characters of a plain scalar up to a space or its end. -/
def takePlainRun (inFlow : Bool) : Nat → List Char → Lex (List Char)
  | 0, taken => return taken.reverse
  | fuel + 1, taken => do
    match ← rest with
    | [] => return taken.reverse
    | c :: after =>
      if isSpace c then return taken.reverse
      require !(inFlow && isStrayColon (c :: after))
      if endsPlain inFlow (c :: after) then return taken.reverse
      skip
      takePlainRun inFlow fuel (c :: taken)

/-- Reads the runs of a plain scalar; the gap before a run belongs to the value only when a run
    follows. The value is kept backwards. Gives back whether a line ended after the last run. -/
def takePlain (limit : Int) : Nat → Gap → List Char → Lex (List Char × Bool)
  | 0, gap, value => return (value, gap.lineEnded)
  | fuel + 1, gap, value => do
    let inFlow := (← get).inFlow
    if ← atDocumentMark then return (value, gap.lineEnded)
    if (← rest).head? = some '#' then return (value, gap.lineEnded)
    let run ← takePlainRun inFlow (← bound) []
    let (value, gap) :=
      if run.isEmpty then (value, gap) else (run.reverseAux (gap.fold.reverseAux value), {})
    if !atSomeSpace (← rest) then return (value, gap.lineEnded)
    let gap ← takeGap limit (← bound) gap
    if !inFlow && ((← get).column : Int) < limit then return (value, gap.lineEnded)
    takePlain limit fuel gap value

/-- Reads a plain scalar. A key may follow when it ends with its line. -/
def plainScalar : Lex Unit := do
  saveCandidate
  allowKey false
  let s ← get
  let (value, lineEnded) ← takePlain (s.indent + 1) s.bound {} []
  if lineEnded then allowKey true
  emit (.scalar (String.ofList value.reverse) true)

/-! ## 3. Quoted scalars -/

/-- The value of a hexadecimal digit. -/
def hexValue? (c : Char) : Option Nat :=
  if c.isDigit then some (c.toNat - '0'.toNat)
  else if 'a' ≤ c ∧ c ≤ 'f' then some (c.toNat - 'a'.toNat + 10)
  else if 'A' ≤ c ∧ c ≤ 'F' then some (c.toNat - 'A'.toNat + 10)
  else none

/-- The value of a number of hexadecimal digits. -/
def hexNumber? (digits : List Char) : Option Nat :=
  digits.foldlM (fun value c => (hexValue? c).map (value * 16 + ·)) 0

/-- Reads a code point of so many digits. -/
def codePoint (length : Nat) : Lex Char := do
  let digits := (← rest).take length
  require (digits.length = length)
  let value ← hexNumber? digits
  require !((0xD800 ≤ value && value ≤ 0xDFFF) || 0x10FFFF < value)
  skipRunOf length
  return Char.ofNat value
where
  /-- Passes so many characters. -/
  skipRunOf : Nat → Lex Unit
    | 0 => pure ()
    | n + 1 => do
      skip
      skipRunOf n

/-- The escapes that stand for one character. -/
def simpleEscapes : List (Char × Char) :=
  [('0', '\x00'), ('a', '\x07'), ('b', '\x08'), ('t', '\t'), ('\t', '\t'), ('n', '\n'),
    ('v', '\x0b'), ('f', '\x0c'), ('r', '\r'), ('e', '\x1b'), (' ', ' '), ('"', '"'), ('/', '/'),
    ('\\', '\\'), ('N', '\x85'), ('_', '\xa0'), ('L', '\u2028'), ('P', '\u2029')]

/-- Reads an escape after its backslash. -/
def escape : Lex Char := do
  match ← rest with
  | [] => failure
  | c :: _ =>
    skip
    match simpleEscapes.lookup c with
    | some value => return value
    | none =>
      if c = 'x' then codePoint 2
      else if c = 'u' then codePoint 4
      else if c = 'U' then codePoint 8
      else failure

/-- Passes the characters of a quoted scalar up to a space or its closing quote. Gives back
    whether an escaped line break ended the run. -/
def takeQuotedRun (quote : Char) : Nat → List Char → Lex (List Char × Bool)
  | 0, taken => return (taken.reverse, false)
  | fuel + 1, taken => do
    match ← rest with
    | [] => return (taken.reverse, false)
    | c :: after =>
      if isSpace c then return (taken.reverse, false)
      if c = quote then
        if quote = '\'' && after.head? = some '\'' then
          skip
          skip
          takeQuotedRun quote fuel (c :: taken)
        else return (taken.reverse, false)
      else if quote = '"' && c = '\\' then
        skip
        if after.head?.any isBreak then
          modify Lexer.skipLine
          return (taken.reverse, true)
        else
          let value ← escape
          takeQuotedRun quote fuel (value :: taken)
      else
        skip
        takeQuotedRun quote fuel (c :: taken)

/-- Reads the runs of a quoted scalar and the gaps between them up to the closing quote. The value
    is kept backwards. -/
def takeQuoted (quote : Char) : Nat → List Char → Lex (List Char)
  | 0, _ => failure
  | fuel + 1, value => do
    require !(← atDocumentMark)
    require !(← rest).isEmpty
    let (run, broken) ← takeQuotedRun quote (← bound) []
    let value := run.reverseAux value
    if (← rest).head? = some quote then
      skip
      return value.reverse
    let gap ← takeGap (-1) (← bound) { lineEnded := broken }
    takeQuoted quote fuel (gap.fold.reverseAux value)

/-- Reads a quoted scalar. -/
def quotedScalar (quote : Char) : Lex Unit := do
  saveCandidate
  allowKey false
  skip
  let value ← takeQuoted quote (← bound) []
  emit (.scalar (String.ofList value) false)

/-! ## 4. Block scalars -/

/-- What happens to the breaks at the end of a block scalar. -/
inductive Chomping where
  | strip
  | clip
  | keep
  deriving DecidableEq, Repr

/-- Reads a mark of chomping, if there is one. -/
def chompingMark : Lex (Option Chomping) := do
  match (← rest).head? with
  | some '+' =>
    skip
    return some .keep
  | some '-' =>
    skip
    return some .strip
  | _ => return none

/-- Reads a mark of indentation, if there is one; it is not zero. -/
def indentMark : Lex (Option Nat) := do
  match (← rest).head? with
  | none => return none
  | some c =>
    if !c.isDigit then return none
    require (c ≠ '0')
    skip
    return some (c.toNat - '0'.toNat)

/-- Reads the marks of a block scalar, in either order. -/
def blockMarks : Lex (Chomping × Option Nat) := do
  match ← chompingMark with
  | some chomping => return (chomping, ← indentMark)
  | none =>
    let indent ← indentMark
    let chomping ← if indent.isSome then chompingMark else pure none
    return (chomping.getD .clip, indent)

/-- Passes empty lines and indentation. Gives back the breaks and the deepest column reached. An
    indent of zero is still to be found. -/
def takeBlockBreaks (indent : Nat) : Nat → List Char → Nat → Lex (List Char × Nat)
  | 0, breaks, deepest => return (breaks, deepest)
  | fuel + 1, breaks, deepest => do
    let s ← get
    let spaces := (s.rest.takeWhile (· = ' ')).length
    let n := if indent = 0 then spaces else min spaces (indent - s.column)
    set { s with rest := s.rest.drop n, index := s.index + n, column := s.column + n }
    let s ← get
    let deepest := max deepest s.column
    require !((indent = 0 || s.column < indent) && s.rest.head? = some '\t')
    if s.rest.head?.any isBreak then
      let text ← takeBreak
      takeBlockBreaks indent fuel (breaks ++ text) deepest
    else return (breaks, deepest)

/-- The indent of a block scalar that gives none itself: the deepest column of its first lines,
    but deeper than the block around it. -/
def foundIndent (outer : Int) (deepest : Nat) : Nat := max deepest (max (outer + 1).toNat 1)

/-- What stands between two lines of a block scalar: the break after the first, and the empty
    lines. In a folded scalar a single break between lines that do not start with a blank becomes
    a space. -/
def joinLines (literal : Bool) (blankBefore blankAfter : Bool) (first more : List Char) :
    List Char :=
  if !literal && first.head? = some '\n' && !blankBefore && !blankAfter then
    (if more.isEmpty then [' '] else more)
  else first ++ more

/-- Reads the lines of a block scalar. Gives back the value backwards, and the break and the empty
    lines after the last line. -/
def takeBlockLines (literal : Bool) (indent : Nat) :
    Nat → List Char → Bool → List Char → List Char → Lex (List Char × List Char × List Char)
  | 0, value, _, first, more => return (value, first, more)
  | fuel + 1, value, blankBefore, first, more => do
    let s ← get
    if s.column ≠ indent || s.rest.isEmpty then return (value, first, more)
    let blank := s.rest.head?.any isBlank
    let value := (joinLines literal blankBefore blank first more).reverseAux value
    let line ← takeRun (!isBreak ·)
    let first ← takeBreak
    let (more, _) ← takeBlockBreaks indent (← bound) [] 0
    takeBlockLines literal indent fuel (line.reverseAux value) blank first more

/-- Reads a block scalar. -/
def blockScalar (literal : Bool) : Lex Unit := do
  dropCandidate
  allowKey true
  skip
  let (chomping, mark) ← blockMarks
  skipRun isBlank
  skipComment
  require (atLineEnd (← rest))
  modify Lexer.skipLine
  let outer := (← get).indent
  let given := match mark with
    | some n => if 0 ≤ outer then outer.toNat + n else n
    | none => 0
  let (breaks, deepest) ← takeBlockBreaks given (← bound) [] 0
  let indent := if given = 0 then foundIndent outer deepest else given
  let (value, first, more) ←
    takeBlockLines literal indent (← bound) [] false [] breaks
  let tail := match chomping with
    | .strip => []
    | .clip => first
    | .keep => first ++ more
  emit (.scalar (String.ofList (value.reverse ++ tail)) false)

end ApiTypes.Yaml.Lex

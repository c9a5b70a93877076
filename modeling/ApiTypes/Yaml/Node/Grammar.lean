import ApiTypes.Yaml.Node
import ApiTypes.Yaml.Token.Lexer

/-!
  Building the node of a YAML document from its tokens.

  * A text holds at most one document.
  * A part that is not written is an empty scalar: a missing value, a missing key, an element of a
    block sequence, or what an anchor or tag stands before.
  * **Handles** of tags are resolved here; a handle that nothing declares is an error.
-/

namespace ApiTypes.Yaml

/-- The tokens that are left, what handles stand for, and the numbers of the anchors. -/
structure Builder where
  tokens : List Token
  handles : List (String × String) := []
  anchors : List (String × Nat) := []

/-- A step of building. -/
abbrev Build := StateT Builder Option

namespace Build

/-! ## 1. Steps -/

/-- The next token. -/
def next : Build (Option Token) := return (← get).tokens.head?

/-- Passes a token. -/
def pass : Build Unit := modify fun s => { s with tokens := s.tokens.drop 1 }

/-- Passes the next token if it is this one, and says whether it was. -/
def passIf (token : Token) : Build Bool := do
  if (← next) = some token then
    pass
    return true
  else return false

/-- Passes the next token, which must be this one. -/
def expect (token : Token) : Build Unit := do
  if !(← passIf token) then failure

/-- Whether the next token is one of these. The end of the text is none. -/
def nextIn (tokens : List Token) : Build Bool := return (← next).any tokens.contains

/-! ## 2. Properties -/

/-- Gives a number to an anchor. -/
def declare (name : String) : Build Nat := do
  let s ← get
  let number := s.anchors.length
  set { s with anchors := (name, number) :: s.anchors.filter (·.1 ≠ name) }
  return number

/-- The number of an alias. -/
def numberOf (name : String) : Build Nat := do (← get).anchors.lookup name

/-- The full name of a tag. -/
def tagOf (handle suffix : String) : Build String := do
  if handle.isEmpty then return suffix
  let start ← (← get).handles.lookup handle
  return start ++ suffix

/-- Reads an anchor, if there is one. -/
def anchor? : Build (Option Nat) := do
  match ← next with
  | some (.anchor name) =>
    pass
    return some (← declare name)
  | _ => return none

/-- Reads a tag, if there is one. -/
def tag? : Build (Option String) := do
  match ← next with
  | some (.tag handle suffix) =>
    pass
    return some (← tagOf handle suffix)
  | _ => return none

/-- Reads the properties of a node, in either order. -/
def properties : Build Properties := do
  match ← anchor? with
  | some number => return ⟨some number, ← tag?⟩
  | none =>
    let tag ← tag?
    let anchor ← if tag.isSome then anchor? else pure none
    return ⟨anchor, tag⟩

/-- A node without content, which must have properties. -/
def absent (properties : Properties) : Build Node :=
  if properties = {} then failure else return .empty properties

/-! ## 3. Nodes -/

/-- Where a node stands, which says what collections may be written there. -/
inductive Place where
  /-- In a flow collection. -/
  | flow
  /-- As a document or an element of a block sequence. -/
  | block
  /-- As a key or value of a block mapping; a sequence may start at its column. -/
  | entry
  deriving DecidableEq, Repr

mutual

/-- Reads a node. -/
def node (place : Place) : Nat → Build Node
  | 0 => failure
  | fuel + 1 => do
    match ← next with
    | some (.alias name) =>
      pass
      return .alias (← numberOf name)
    | _ =>
      let properties ← properties
      match ← next with
      | some (.scalar text plain) =>
        pass
        return .scalar properties text plain
      | some .flowSequenceStart =>
        pass
        return .sequence properties (← flowItems fuel true [])
      | some .flowMappingStart =>
        pass
        return .mapping properties (← flowEntries fuel true [])
      | some .blockSequenceStart =>
        if place = .flow then absent properties
        else
          pass
          return .sequence properties (← blockItems fuel [])
      | some .blockMappingStart =>
        if place = .flow then absent properties
        else
          pass
          return .mapping properties (← blockEntries fuel [])
      | some .blockEntry =>
        if place = .entry then return .sequence properties (← entryItems fuel [])
        else absent properties
      | _ => absent properties
termination_by structural fuel => fuel

/-- Reads a node, or an empty one before these tokens. -/
def nodeUnless (stops : List Token) (place : Place) : Nat → Build Node
  | 0 => failure
  | fuel + 1 => do
    if ← nextIn stops then return .empty {} else node place fuel
termination_by structural fuel => fuel

/-- Reads a value after its mark, or an empty one where there is no mark. -/
def value (stops : List Token) (place : Place) : Nat → Build Node
  | 0 => failure
  | fuel + 1 => do
    if ← passIf .value then nodeUnless stops place fuel else return .empty {}
termination_by structural fuel => fuel

/-- Reads the elements of a block sequence; `items` are those before, the last first. -/
def blockItems : Nat → List Node → Build (List Node)
  | 0, _ => failure
  | fuel + 1, items => do
    if ← passIf .blockEntry then
      let item ← nodeUnless [.blockEntry, .blockEnd] .block fuel
      blockItems fuel (item :: items)
    else
      expect .blockEnd
      return items.reverse
termination_by structural fuel => fuel

/-- Reads the elements of a block sequence at the column of the mapping around it. -/
def entryItems : Nat → List Node → Build (List Node)
  | 0, _ => failure
  | fuel + 1, items => do
    if ← passIf .blockEntry then
      let item ← nodeUnless [.blockEntry, .key, .value, .blockEnd] .block fuel
      entryItems fuel (item :: items)
    else return items.reverse
termination_by structural fuel => fuel

/-- Reads the entries of a block mapping; `entries` are those before, the last first. -/
def blockEntries : Nat → List (Node × Node) → Build (List (Node × Node))
  | 0, _ => failure
  | fuel + 1, entries => do
    if ← passIf .key then
      let key ← nodeUnless [.key, .value, .blockEnd] .entry fuel
      let value ← value [.key, .value, .blockEnd] .entry fuel
      blockEntries fuel ((key, value) :: entries)
    else
      expect .blockEnd
      return entries.reverse
termination_by structural fuel => fuel

/-- Reads the elements of a flow sequence; one with the mark of a key is a mapping of one
    entry. -/
def flowItems : Nat → Bool → List Node → Build (List Node)
  | 0, _, _ => failure
  | fuel + 1, first, items => do
    if ← passIf .flowSequenceEnd then return items.reverse
    if !first then expect .flowEntry
    if ← passIf .flowSequenceEnd then return items.reverse
    if ← passIf .key then
      let item ← flowPair fuel
      flowItems fuel false (item :: items)
    else
      let item ← node .flow fuel
      flowItems fuel false (item :: items)
termination_by structural fuel => fuel

/-- Reads a mapping of one entry after the mark of its key. Where the key is missing, the token
    that shows it is passed as well. -/
def flowPair : Nat → Build Node
  | 0 => failure
  | fuel + 1 => do
    if ← nextIn [.value, .flowEntry, .flowSequenceEnd] then
      pass
      let value ← value [.flowEntry, .flowSequenceEnd] .flow fuel
      return .mapping {} [(.empty {}, value)]
    else
      let key ← node .flow fuel
      let value ← value [.flowEntry, .flowSequenceEnd] .flow fuel
      return .mapping {} [(key, value)]
termination_by structural fuel => fuel

/-- Reads the entries of a flow mapping. An entry without the mark of a key has no value. -/
def flowEntries : Nat → Bool → List (Node × Node) → Build (List (Node × Node))
  | 0, _, _ => failure
  | fuel + 1, first, entries => do
    if ← passIf .flowMappingEnd then return entries.reverse
    if !first then expect .flowEntry
    if ← passIf .flowMappingEnd then return entries.reverse
    if ← passIf .key then
      let key ← nodeUnless [.value, .flowEntry, .flowMappingEnd] .flow fuel
      let value ← value [.flowEntry, .flowMappingEnd] .flow fuel
      flowEntries fuel false ((key, value) :: entries)
    else
      let key ← node .flow fuel
      flowEntries fuel false ((key, .empty {}) :: entries)
termination_by structural fuel => fuel

end

/-! ## 4. Documents -/

/-- The handles that need no directive. -/
def defaultHandles : List (String × String) := [("!", "!"), ("!!", "tag:yaml.org,2002:")]

/-- Reads directives: at most one version, which is 1.1 or 1.2, and each handle at most once.
    `versioned` says whether there was a version. -/
def directives : Bool → List Token → Build Unit
  | versioned, .versionDirective major minor :: rest => do
    if versioned || major ≠ 1 || (minor ≠ 1 && minor ≠ 2) then failure
    pass
    directives true rest
  | versioned, .tagDirective handle start :: rest => do
    let s ← get
    if (s.handles.lookup handle).isSome then failure
    set { s with handles := s.handles ++ [(handle, start)] }
    pass
    directives versioned rest
  | _, _ => modify fun s => { s with handles := s.handles ++ defaultHandles }

/-- Whether the next token starts a document with directives or a mark. -/
def atDocumentStart : Build Bool := do
  match ← next with
  | some (.versionDirective ..) | some (.tagDirective ..) | some .documentStart => return true
  | _ => return false

/-- Reads the content of a document after its start mark. -/
def content (fuel : Nat) : Build Node := do
  if (← next).isNone || (← atDocumentStart) || (← next) = some .documentEnd then
    return .empty {}
  else node .block fuel

/-- Reads the document of a text, if there is one. -/
def document (fuel : Nat) : Build (Option Node) := do
  if (← next).isNone then return none
  let explicit ← atDocumentStart
  directives false (← get).tokens
  if explicit then expect .documentStart
  let root ← if explicit then content fuel else node .block fuel
  modify fun s => { s with tokens := s.tokens.dropWhile (· = .documentEnd) }
  if (← next).isSome then failure
  return some root

end Build

/-- The root of the document in these tokens, if there is a document. -/
def Node.ofTokens? (tokens : List Token) : Option (Option Node) :=
  ((Build.document (4 * tokens.length + 8)).run { tokens }).map (·.1)

end ApiTypes.Yaml

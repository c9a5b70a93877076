import ApiTypes.Reference

/-!
  Names of types.

  A name is derived from what the document says and is always an identifier: an upper-case letter
  followed by letters and digits, in words that a path joins by `_`.

  * `ofText` is the name of a free text, `ofPath` of a declaration path, `ofReference` of the
    target of a reference: every reference to one path has one name.
  * `fresh` gives the first name that is not taken.
-/

namespace ApiTypes.TypeName

/-! ## 1. Identifiers -/

/-- Letters and digits alone, with the first of each run in upper case. `start` says that the
    next character begins a run. -/
def capitalize (start : Bool) : List Char → List Char
  | [] => []
  | c :: rest =>
    if c.isAlphanum then (if start then c.toUpper else c) :: capitalize false rest
    else capitalize true rest

/-- The words of a text, each capitalized, without anything between them. -/
def pascal (text : String) : String := String.ofList (capitalize true text.toList)

/-- Makes an identifier of letters, digits and underscores: nothing becomes `Empty`, and a
    leading digit stands behind an `N`. -/
def identifier (name : String) : String :=
  match name.toList with
  | [] => "Empty"
  | c :: _ => if c.isDigit then "N" ++ name else name

/-- The name of a free text. -/
def ofText (text : String) : String := identifier (pascal text)

/-- The name of a declaration path. Parts without letters and digits are left out. -/
def ofPath (path : List String) : String :=
  identifier ("_".intercalate ((path.map pascal).filter (· ≠ "")))

/-! ## 2. Targets of references -/

/-- The part of a name that a media type contributes. -/
def mediaPart (media : String) : String :=
  if Text.isJsonMedia media then "JSON" else pascal (Text.mediaEssence media)

/-- The parts of a name that the keys of a pointer contribute. A response and a media type are
    named with the key after them, and `schema` adds nothing. -/
def pointerParts : List String → List String
  | [] => []
  | token :: rest =>
    if token = "schema" then pointerParts rest
    else if token = "responses" then
      match rest with
      | [] => ["Responses"]
      | code :: rest => ("Response" ++ pascal code) :: pointerParts rest
    else if token = "content" then
      match rest with
      | [] => []
      | media :: rest => mediaPart media :: pointerParts rest
    else pascal token :: pointerParts rest

/-- The keys of a pointer that count for a name: the paths do not, and neither do the components
    with their kind. -/
def namedTokens : List String → List String
  | [] => []
  | token :: rest =>
    if token = "paths" then rest
    else if token = "components" then rest.drop 1
    else token :: rest

/-- The name of the target of a reference: the component's own name, or else a name from the
    pointer. -/
def ofReference (reference : String) : String :=
  if Reference.isStandard reference then ofText (Reference.objectName reference)
  else ofPath (pointerParts (namedTokens (Reference.tokens reference)))

/-! ## 3. Free names -/

/-- The suffixes that are tried; without any the empty one is. -/
def triedSuffixes (suffixes : List String) : List String :=
  if suffixes.isEmpty then [""] else suffixes

/-- The names of one round: every suffix, with the number of the round behind it. -/
def numbered (base : String) (suffixes : List String) (round : Nat) : List String :=
  suffixes.map fun suffix => base ++ suffix ++ toString round

/-- The first name that is not taken: the base itself, then the base with each suffix, then with
    each suffix and 1, 2, and so on. There is a free name in one of as many numbered rounds as
    there are taken names plus one. -/
def fresh (taken : List String) (base : String) (suffixes : List String) : String :=
  let isFree (name : String) : Bool := !taken.contains name
  let suffixes := triedSuffixes suffixes
  if isFree base then base
  else
    match (suffixes.map (base ++ ·)).find? isFree with
    | some name => name
    | none =>
      match (List.range (taken.length + 1)).findSome?
          fun round => (numbered base suffixes (round + 1)).find? isFree with
      | some name => name
      | none => base

end ApiTypes.TypeName

import ApiTypes.Document
import ApiTypes.TypeName
import Mathlib.Data.List.Basic

/-!
  What a component's reference says.

  * Writing a key as a token and reading it back gives the key: `unescape_escape`.
  * The reference of a component points at it: `resolve?_ofComponent`.
  * No two components have one reference: `ofComponent_inj`.
  * A reference that points at a component schema names it: `schemaName?_of_pointerTokens`.

  A kind is **plain** when it is a token as it stands, as all kinds with a meaning are.
-/

namespace ApiTypes.Reference

/-! ## 1. Tokens -/

@[simp] theorem escape_nil : escape [] = [] := rfl

theorem escape_cons (c : Char) (rest : List Char) :
    escape (c :: rest) = escapeChar c ++ escape rest := rfl

theorem unescape_cons_of_ne {c : Char} (h : c ≠ '~') (rest : List Char) :
    unescape (c :: rest) = c :: unescape rest := by
  cases rest with
  | nil => rfl
  | cons d rest => simp [unescape, h]

/-- **A key that is written as a token is read back.** -/
theorem unescape_escape (key : List Char) : unescape (escape key) = key := by
  induction key with
  | nil => rfl
  | cons c rest ih =>
    rw [escape_cons, escapeChar]
    by_cases htilde : c = '~'
    · subst htilde
      simp [unescape, ih]
    · by_cases hslash : c = '/'
      · subst hslash
        simp [unescape, ih]
      · simp [htilde, hslash, unescape_cons_of_ne htilde, ih]

theorem slash_not_mem_escape (key : List Char) : '/' ∉ escape key := by
  induction key with
  | nil => simp
  | cons c rest ih =>
    rw [escape_cons, escapeChar]
    by_cases htilde : c = '~'
    · subst htilde
      simpa using ih
    · by_cases hslash : c = '/'
      · subst hslash
        simpa using ih
      · simpa [htilde, hslash] using ⟨fun e => hslash e.symm, ih⟩

/-! ## 2. Pointers -/

theorem pointerTokens_escape (key : String) : pointerTokens (escape key.toList) = [key] := by
  have hsingle : (escape key.toList).splitOn '/' = [escape key.toList] :=
    List.splitOn_eq_singleton (slash_not_mem_escape _)
  simp [pointerTokens, hsingle, unescape_escape]

theorem pointerTokens_escape_append (key : String) (pointer : List Char) :
    pointerTokens (escape key.toList ++ '/' :: pointer) = key :: pointerTokens pointer := by
  have hsplit : (escape key.toList ++ '/' :: pointer).splitOn '/' =
      escape key.toList :: pointer.splitOn '/' :=
    List.splitOn_append_cons_self_of_not_mem (slash_not_mem_escape _) pointer
  simp [pointerTokens, hsplit, unescape_escape]

/-! ## 3. Components -/

/-- A kind of components that is a token as it stands. -/
def IsPlain (kind : String) : Prop := escape kind.toList = kind.toList

instance (kind : String) : Decidable (IsPlain kind) :=
  inferInstanceAs (Decidable (escape kind.toList = kind.toList))

/-- The characters of a component's reference after its `#/`. -/
def componentPointer (kind name : String) : List Char :=
  escape "components".toList ++ '/' :: (escape kind.toList ++ '/' :: escape name.toList)

theorem pointerTokens_componentPointer (kind name : String) :
    pointerTokens (componentPointer kind name) = ["components", kind, name] := by
  rw [componentPointer, pointerTokens_escape_append, pointerTokens_escape_append,
    pointerTokens_escape]

theorem toList_ofComponent {kind : String} (hkind : IsPlain kind) (name : String) :
    (ofComponent kind name).toList = '#' :: '/' :: componentPointer kind name := by
  have hstart : componentsStart.toList = '#' :: '/' :: (escape "components".toList ++ ['/']) := by
    decide
  simp [ofComponent, componentPointer, hstart, show escape kind.toList = kind.toList from hkind]

/-- **No two components have one reference.** -/
theorem ofComponent_inj {kind other : String} (hkind : IsPlain kind) (hother : IsPlain other)
    {name otherName : String} (h : ofComponent kind name = ofComponent other otherName) :
    kind = other ∧ name = otherName := by
  have hlist := congrArg String.toList h
  rw [toList_ofComponent hkind, toList_ofComponent hother] at hlist
  have hpointer : componentPointer kind name = componentPointer other otherName := by
    simpa using hlist
  have htokens := congrArg pointerTokens hpointer
  rw [pointerTokens_componentPointer, pointerTokens_componentPointer] at htokens
  simpa using htokens

/-- **A component's reference points at the component.** -/
theorem resolve?_ofComponent {kind : String} (hkind : IsPlain kind) (name : String)
    (document : Json) :
    document.resolve? (ofComponent kind name) = document.at? ["components", kind, name] := by
  have hlist := toList_ofComponent hkind name
  simp [Json.resolve?, hlist, pointerTokens_componentPointer]

/-! ## 4. Component schemas -/

/-- What comes before the token of a component schema. -/
def schemasStart : List Char := "#/components/schemas/".toList

/-- The token of a reference that names a component schema directly. -/
theorem exists_token_of_schemaName? {reference key : String}
    (h : schemaName? reference = some key) :
    ∃ token, reference.toList = schemasStart ++ token ∧ token ≠ [] ∧ '/' ∉ token ∧
      key = String.ofList (unescape token) := by
  unfold schemaName? at h
  split at h
  · simp at h
  · rename_i token htoken
    split at h
    · simp at h
    · rename_i hplain
      simp only [Bool.or_eq_true, not_or, List.isEmpty_iff, List.contains_iff_mem] at hplain
      exact ⟨token, Text.eq_append_of_after? htoken, hplain.1, hplain.2,
        (Option.some.inj h).symm⟩

theorem pointerTokens_schemas {token : List Char} (h : '/' ∉ token) :
    pointerTokens ("components/schemas/".toList ++ token) =
      ["components", "schemas", String.ofList (unescape token)] := by
  have hstart : "components/schemas/".toList =
      "components".toList ++ '/' :: ("schemas".toList ++ ['/']) := by decide
  have hcomponents : '/' ∉ "components".toList := by decide
  have hschemas : '/' ∉ "schemas".toList := by decide
  have hcomponentsKey : String.ofList (unescape "components".toList) = "components" := by decide
  have hschemasKey : String.ofList (unescape "schemas".toList) = "schemas" := by decide
  rw [pointerTokens, hstart]
  simp only [List.append_assoc, List.cons_append, List.nil_append]
  rw [List.splitOn_append_cons_self_of_not_mem hcomponents,
    List.splitOn_append_cons_self_of_not_mem hschemas, List.splitOn_eq_singleton h]
  simp only [List.map_cons, List.map_nil, hcomponentsKey, hschemasKey]

/-- **A reference to a component schema points at the schema of that key.** -/
theorem resolve?_of_schemaName? {reference key : String} (h : schemaName? reference = some key)
    (document : Json) :
    document.resolve? reference = document.at? ["components", "schemas", key] := by
  obtain ⟨token, htext, -, hslash, rfl⟩ := exists_token_of_schemaName? h
  have hlist : reference.toList = '#' :: '/' :: ("components/schemas/".toList ++ token) := htext
  rw [Json.resolve?, hlist]
  exact congrArg (Json.at? · document) (pointerTokens_schemas hslash)

/-- **A reference to a component schema has a name that depends on the key alone.** -/
theorem ofReference_of_schemaName? {reference key : String} (h : schemaName? reference = some key) :
    TypeName.ofReference reference = TypeName.ofText key := by
  obtain ⟨token, htext, htoken, hslash, rfl⟩ := exists_token_of_schemaName? h
  have hlist : reference.toList = '#' :: '/' :: ("components/schemas/".toList ++ token) := htext
  have hparts : componentParts? reference = some ["schemas".toList, token] := by
    have hstart : reference.toList = componentsStart.toList ++ ("schemas".toList ++ '/' :: token) :=
      htext
    have hschemas : '/' ∉ "schemas".toList := by decide
    rw [componentParts?, hstart, Text.after?_append, Option.map_some,
      List.splitOn_append_cons_self_of_not_mem hschemas, List.splitOn_eq_singleton hslash]
  have hstandard : isStandard reference = true := by
    have hempty : token.isEmpty = false := by simpa using htoken
    rw [isStandard, hparts]
    simp [hempty]
  have htokens : tokens reference =
      ["components", "schemas", String.ofList (unescape token)] := by
    have hdrop : ((reference.toList.dropWhile (· = '#')).dropWhile (· = '/')) =
        "components/schemas/".toList ++ token := by
      rw [hlist]
      rfl
    rw [tokens, hdrop, pointerTokens_schemas hslash]
    rfl
  rw [TypeName.ofReference, if_pos hstandard, objectName, htokens]
  rfl

theorem unescape_ne_nil {token : List Char} (h : token ≠ []) : unescape token ≠ [] := by
  rcases token with _ | ⟨c, _ | ⟨d, rest⟩⟩
  · exact absurd rfl h
  · simp [unescape]
  · rw [unescape]
    split
    · simp
    · split <;> simp

/-- A component schema is named by its reference. -/
theorem schemaName?_ofComponent_of_ne {name : String} (h : name ≠ "") :
    schemaName? (ofComponent "schemas" name) = some name := by
  have hstart : (componentsStart ++ "schemas" ++ "/").toList = schemasStart := by decide
  have htext : (ofComponent "schemas" name).toList = schemasStart ++ escape name.toList := by
    rw [ofComponent, String.toList_append, hstart, String.toList_ofList]
  have hempty : (escape name.toList).isEmpty = false := by
    rcases hcons : name.toList with _ | ⟨c, rest⟩
    · exact absurd (String.toList_inj.mp hcons) h
    · rw [escape_cons, escapeChar]
      split
      · rfl
      · split <;> rfl
  have hslash : (escape name.toList).contains '/' = false :=
    Bool.eq_false_iff.mpr fun h => slash_not_mem_escape name.toList (List.contains_iff_mem.mp h)
  rw [schemaName?, htext, show "#/components/schemas/".toList = schemasStart from rfl,
    Text.after?_append]
  simp only [hempty, hslash, Bool.or_self, Bool.false_eq_true, if_false, unescape_escape,
    String.ofList_toList]

/-- The reference of the component schema that a reference names. -/
theorem schemaName?_ofComponent {reference key : String} (h : schemaName? reference = some key) :
    schemaName? (ofComponent "schemas" key) = some key := by
  obtain ⟨token, -, htoken, -, rfl⟩ := exists_token_of_schemaName? h
  refine schemaName?_ofComponent_of_ne fun hempty => unescape_ne_nil htoken ?_
  rw [← String.toList_ofList (l := unescape token), hempty]
  rfl

/-! ## 5. Pointers to component schemas -/

/-- **A token that stands for a key without `~` and `/` is the key itself.** -/
theorem eq_of_unescape {token key : List Char} (h : unescape token = key) (htilde : '~' ∉ key)
    (hslash : '/' ∉ key) : token = key := by
  subst h
  induction token using unescape.induct with
  | case1 => rfl
  | case2 c => rfl
  | case3 c d rest hescape ih => simp [unescape, hescape] at htilde
  | case4 c d rest htilde' hescape ih => simp [unescape, hescape] at hslash
  | case5 c d rest hzero hone ih =>
    rw [unescape, if_neg hzero, if_neg hone, List.mem_cons, not_or] at htilde hslash
    rw [unescape, if_neg hzero, if_neg hone]
    exact congrArg (c :: ·) (ih htilde.2 hslash.2)

/-- A pointer is one token, or a token with a pointer after it. -/
theorem splitOn_slash (pointer : List Char) :
    ('/' ∉ pointer ∧ pointer.splitOn '/' = [pointer]) ∨
      ∃ token rest, pointer = token ++ '/' :: rest ∧ '/' ∉ token ∧
        pointer.splitOn '/' = token :: rest.splitOn '/' := by
  by_cases hslash : '/' ∈ pointer
  · obtain ⟨token, rest, rfl, htoken⟩ := List.eq_append_cons_of_mem hslash
    exact .inr ⟨token, rest, rfl, htoken,
      List.splitOn_append_cons_self_of_not_mem htoken rest⟩
  · exact .inl ⟨hslash, List.splitOn_eq_singleton hslash⟩

theorem pointerTokens_eq (pointer : List Char) :
    ('/' ∉ pointer ∧ pointerTokens pointer = [String.ofList (unescape pointer)]) ∨
      ∃ token rest, pointer = token ++ '/' :: rest ∧ '/' ∉ token ∧
        pointerTokens pointer = String.ofList (unescape token) :: pointerTokens rest := by
  rcases splitOn_slash pointer with ⟨hslash, h⟩ | ⟨token, rest, hpointer, htoken, h⟩
  · exact .inl ⟨hslash, by rw [pointerTokens, h]; rfl⟩
  · exact .inr ⟨token, rest, hpointer, htoken, by rw [pointerTokens, h]; rfl⟩

theorem pointerTokens_ne_nil (pointer : List Char) : pointerTokens pointer ≠ [] := by
  rcases pointerTokens_eq pointer with ⟨-, h⟩ | ⟨token, rest, -, -, h⟩ <;> simp [h]

/-- A pointer that starts with a plain key is written in one way. -/
theorem eq_append_of_pointerTokens {pointer : List Char} {key : String} {more : List String}
    (h : pointerTokens pointer = key :: more) (hmore : more ≠ []) (htilde : '~' ∉ key.toList)
    (hslash : '/' ∉ key.toList) :
    ∃ rest, pointer = key.toList ++ '/' :: rest ∧ pointerTokens rest = more := by
  rcases pointerTokens_eq pointer with ⟨-, hlast⟩ | ⟨token, rest, rfl, -, htokens⟩
  · rw [hlast] at h
    exact absurd (List.cons.inj h).2.symm hmore
  · rw [htokens] at h
    obtain ⟨htoken, hrest⟩ := List.cons.inj h
    have hplain : token = key.toList :=
      eq_of_unescape (by rw [← htoken, String.toList_ofList]) htilde hslash
    exact ⟨rest, by rw [hplain], hrest⟩

/-- **A reference that points at a component schema names it.** -/
theorem schemaName?_of_pointerTokens {reference key : String} {pointer : List Char}
    (hreference : reference.toList = '#' :: '/' :: pointer)
    (h : pointerTokens pointer = ["components", "schemas", key]) (hkey : key ≠ "") :
    schemaName? reference = some key := by
  obtain ⟨after, rfl, hafter⟩ := eq_append_of_pointerTokens h (by simp) (by decide) (by decide)
  obtain ⟨token, rfl, hlast⟩ := eq_append_of_pointerTokens hafter (by simp) (by decide) (by decide)
  rcases pointerTokens_eq token with ⟨hslash, htoken⟩ | ⟨_, rest, _, _, htokens⟩
  · obtain rfl : String.ofList (unescape token) = key := by simpa [htoken] using hlast
    have hne : token ≠ [] := by
      rintro rfl
      exact hkey rfl
    have htext : reference.toList = schemasStart ++ token := hreference
    rw [schemaName?, htext, show "#/components/schemas/".toList = schemasStart from rfl,
      Text.after?_append]
    simp [hne, hslash]
  · rw [htokens] at hlast
    exact absurd (List.cons.inj hlast).2 (pointerTokens_ne_nil rest)

/-! ## 6. Places inside components -/

/-- The keys that a reference passes from the root, if it points into the document. -/
def path? (reference : String) : Option (List String) :=
  match reference.toList with
  | ['#'] => some []
  | '#' :: '/' :: pointer => some (pointerTokens pointer)
  | _ => none

/-- **A reference points at the end of its path.** -/
theorem resolve?_eq (document : Json) (reference : String) :
    document.resolve? reference = (path? reference).bind (Json.at? · document) := by
  unfold Json.resolve? path?
  split <;> simp_all [Json.at?]

/-- Whether a reference to a component, or to a place inside one, writes the name as `ofComponent`
    does. -/
def isCanonical (reference : String) : Bool :=
  match componentParts? reference with
  | some (_ :: name :: _) => escape (unescape name) == name
  | _ => true

theorem componentParts?_of_toList {reference : String} {pointer : List Char}
    (h : reference.toList = componentsStart.toList ++ pointer) :
    componentParts? reference = some (pointer.splitOn '/') := by
  rw [componentParts?, h, Text.after?_append, Option.map_some]

/-- **The component that a reference reaches into is named directly.** -/
theorem parent?_parent? {reference component : String} (h : parent? reference = some component) :
    parent? component = none := by
  unfold parent? at h
  split at h
  · rename_i kind name next more hparts
    obtain rfl := Option.some.inj h
    obtain ⟨pointer, -, hsplit⟩ := Option.map_eq_some_iff.mp hparts
    -- Neither the kind nor the name has a slash, since both are tokens of the reference.
    rcases splitOn_slash pointer with ⟨-, hone⟩ | ⟨_, rest, -, hkind, hmany⟩
    · simp [hone] at hsplit
    · obtain ⟨hfirst, hrest⟩ := List.cons.inj (hmany.symm.trans hsplit)
      rw [hfirst] at hkind
      rcases splitOn_slash rest with ⟨-, hone⟩ | ⟨_, _, -, hname, hmany⟩
      · simp [hone] at hrest
      · rw [(List.cons.inj (hmany.symm.trans hrest)).1] at hname
        have hcomponent :
            (componentsStart ++ String.ofList kind ++ "/" ++ String.ofList name).toList =
              componentsStart.toList ++ (kind ++ '/' :: name) := by
          simp
        rw [parent?, componentParts?_of_toList hcomponent,
          List.splitOn_append_cons_self_of_not_mem hkind, List.splitOn_eq_singleton hname]
  · simp at h

/-- **A reference that leads through a component names it or reaches into it**, if the reference is
    canonical. -/
theorem eq_or_parent?_of_path? {reference kind name : String} {more : List String}
    (hcanonical : isCanonical reference = true) (htilde : '~' ∉ kind.toList)
    (hslash : '/' ∉ kind.toList)
    (h : path? reference = some ("components" :: kind :: name :: more)) :
    reference = ofComponent kind name ∨ parent? reference = some (ofComponent kind name) := by
  unfold path? at h
  split at h
  · simp at h
  · rename_i pointer hreference
    have htokens := Option.some.inj h
    obtain ⟨after, rfl, hafter⟩ :=
      eq_append_of_pointerTokens htokens (by simp) (by decide) (by decide)
    obtain ⟨rest, rfl, hrest⟩ := eq_append_of_pointerTokens hafter (by simp) htilde hslash
    have hparts : componentParts? reference = some (kind.toList :: rest.splitOn '/') := by
      have hpointer : reference.toList = componentsStart.toList ++ (kind.toList ++ '/' :: rest) :=
        hreference
      rw [componentParts?_of_toList hpointer, List.splitOn_append_cons_self_of_not_mem hslash]
    cases hsplit : rest.splitOn '/' with
    | nil => exact absurd hsplit (List.splitOn_ne_nil _ _)
    | cons token tokens =>
      have hname : String.ofList (unescape token) = name := by
        rw [pointerTokens, hsplit] at hrest
        exact (List.cons.inj hrest).1
      have hwritten : escape name.toList = token := by
        rw [isCanonical, hparts, hsplit] at hcanonical
        rw [← hname, String.toList_ofList]
        exact eq_of_beq hcanonical
      have hcomponent : ofComponent kind name =
          componentsStart ++ kind ++ "/" ++ String.ofList token := by
        rw [ofComponent, hwritten]
      rw [hcomponent]
      cases tokens with
      | nil =>
        left
        rcases splitOn_slash rest with ⟨-, hone⟩ | ⟨_, last, -, -, hmany⟩
        · obtain ⟨rfl, -⟩ := List.cons.inj (hone.symm.trans hsplit)
          refine String.toList_inj.mp (hreference.trans ?_)
          simp [componentsStart]
        · exact absurd (List.cons.inj (hmany.symm.trans hsplit)).2 (List.splitOn_ne_nil _ _)
      | cons next tokens =>
        right
        rw [parent?, hparts, hsplit]
        simp
  · simp at h

end ApiTypes.Reference

import ApiTypes.Proofs.Compile.Merged

/-!
  What a merge leaves of one of its members.

  The substance of a schema is what its type is made of: declared types, format, values, items and
  what it says of properties that it does not name. Bounds and metadata are no part of it.

  * `Onto base part whole`: merging a list onto `base` makes `whole`, and merging it alone `part`.
  * `Narrows component node`: the node adds no substance to the component. Types and formats that
    both sides have need not be compared: a merge of different ones fails.
  * **Where all other members narrow one of them, the merge has the substance of that member**
    (`substance_mergeAll`), wherever the member stands.
-/

namespace ApiTypes.Schema

variable {left merged : List (String × Json)} {start : Option (List (String × Json))}
  {component node : Json}

/-- What the type of a schema is made of. -/
structure Substance where
  types : List String
  format : Option String
  values : List Json
  const : Option Json
  items : Option Json
  openness : Openness

/-- What a schema says of properties that it does not name. -/
def openness (node : Json) : Openness := .ofKeyword (node.get? "additionalProperties")

/-- What the type of this schema is made of. -/
def substance (node : Json) : Substance :=
  ⟨declaredTypes node, text? "format" node, membersOf "enum" node, node.get? "const",
    node.get? "items", openness node⟩

/-! ## 1. One member more -/

/-- Whether a member takes a keyword from the members before it. -/
def isOverwritten (key : String) : Bool :=
  isTaken key && key ≠ "type" && key ≠ "properties"

section Step

variable (hkeys : node.hasDistinctKeys = true) (h : merge start node = .ok merged)
include h

theorem conflict?_of_merge (hstart : start = some left) : conflict? (.obj left) node = none := by
  subst hstart
  cases hconflict : conflict? (.obj left) node with
  | none => rfl
  | some conflict =>
    have herror : mergeInto left node = .error conflict := by simp [mergeInto, hconflict]
    simp [merge, herror] at h

theorem openness_merge :
    (openness (soFar start)).merge? (openness node) = some (openness (.obj merged)) := by
  cases start with
  | none =>
    obtain rfl := Except.ok.inj h
    have hsame : openness (.obj (node.members?.getD [])) = openness node := by
      simp [openness, get?_getD_members]
    rw [hsame]
    exact Openness.unsaid_merge? _
  | some left => exact openness_mergeInto h

include hkeys

theorem get?_merge_type : (Json.obj merged).get? "type" =
    ((soFar start).get? "type").or (node.get? "type") := by
  cases start with
  | none =>
    obtain rfl := Except.ok.inj h
    exact get?_getD_members _ node
  | some left =>
    rw [Json.get?_obj, get?_mergeInto (by decide) (by decide) (by decide)
      (nodup_keys_getD_members hkeys) h]
    simp only [soFar, Option.getD_some, Json.get?_obj]
    cases node.get? "type" <;> cases Entries.get? "type" left <;> simp [takenValue]

theorem get?_merge_of_isOverwritten {key : String} (hkey : isOverwritten key = true) :
    (Json.obj merged).get? key = (node.get? key).or ((soFar start).get? key) := by
  cases start with
  | none =>
    obtain rfl := Except.ok.inj h
    rw [Json.get?_obj, get?_getD_members]
    simp [soFar, Json.get?_obj]
  | some left =>
    simp only [isOverwritten, Bool.and_eq_true, decide_eq_true_eq] at hkey
    exact get?_mergeInto_of_other hkey.1.2 hkey.1.1 hkey.2 (nodup_keys_getD_members hkeys) h

theorem membersOf_enum_merge : membersOf "enum" (.obj merged) =
    membersOf "enum" (soFar start) ++ membersOf "enum" node := by
  cases start with
  | none =>
    obtain rfl := Except.ok.inj h
    simp [membersOf, soFar, get?_getD_members]
  | some left =>
    have hget : Entries.get? "enum" merged = _ :=
      get?_mergeInto (by decide) (by decide) (by decide) (nodup_keys_getD_members hkeys) h
    have henum : takenValue (Entries.get? "type" left).isSome "enum" = appendedValue := by
      funext old value
      simp [takenValue]
    simp only [membersOf, Json.get?_obj, soFar, Option.getD_some, hget, henum]
    cases node.get? "enum" with
    | none => simp
    | some value =>
      cases Entries.get? "enum" left with
      | none => cases value <;> simp [appendedValue, Json.items?]
      | some old => cases value <;> cases old <;> simp [appendedValue, Json.items?]

end Step

theorem mergeAll_append_eq_ok {result : Option (List (String × Json))} {nodes more : List Json} :
    mergeAll start (nodes ++ more) = .ok result ↔
      ∃ between, mergeAll start nodes = .ok between ∧ mergeAll between more = .ok result := by
  have hbind : mergeAll start (nodes ++ more) =
      mergeAll start nodes >>= fun between => mergeAll between more := List.foldlM_append
  rw [hbind]
  cases mergeAll start nodes <;> simp [bind, Except.bind]

/-! ## 2. Opinions that meet -/

theorem types_of_declared (h : declaredTypes node ≠ []) : types node = declaredTypes node := by
  simp [types, h]

/-- Declared types that meet in a merge are the same. -/
theorem declaredTypes_eq_of_merge (h : merge (some left) node = .ok merged)
    (hleft : declaredTypes (.obj left) ≠ []) (hnode : declaredTypes node ≠ []) :
    declaredTypes (.obj left) = declaredTypes node := by
  have hnone := conflict?_of_merge h rfl
  by_contra hne
  have hclash : typesClash (types (.obj left)) (types node) = true := by
    simp [typesClash, types_of_declared hleft, types_of_declared hnode, hleft, hnode, hne]
  simp [conflict?, hclash] at hnone

/-- Formats that meet in a merge are the same. -/
theorem format_eq_of_merge {f g : String} (h : merge (some left) node = .ok merged)
    (hleft : text? "format" (.obj left) = some f) (hnode : text? "format" node = some g) :
    f = g := by
  have hnone := conflict?_of_merge h rfl
  by_contra hne
  simp only [conflict?, formatClash?, hleft, hnode, hne, if_false] at hnone
  split at hnone <;> simp at hnone

/-- A merge of three opinions may begin with the last two, where both ways come to an end. -/
theorem Openness.merge?_assoc {first second third before after both : Openness}
    (hbefore : first.merge? second = some before) (hboth : before.merge? third = some both)
    (hafter : second.merge? third = some after) : first.merge? after = some both := by
  cases first with
  | closed =>
    obtain rfl := Option.some.inj hbefore
    exact hboth
  | unsaid =>
    rw [unsaid_merge?] at hbefore ⊢
    obtain rfl := Option.some.inj hbefore
    rw [← hafter, hboth]
  | _ =>
    cases second <;> cases third <;>
      simp only [merge?, Option.some.injEq, Option.ite_none_right_eq_some] at hbefore hafter <;>
      first | obtain rfl := hbefore | obtain ⟨hsame, rfl⟩ := hbefore
    all_goals first | obtain rfl := hafter | obtain ⟨-, rfl⟩ := hafter
    all_goals simp_all [merge?]

/-- An opinion adds nothing to itself. -/
theorem Openness.merge?_self {opinion both : Openness} (h : opinion.merge? opinion = some both) :
    both = opinion := by
  cases opinion <;> simp_all [Openness.merge?]

/-! ## 3. A list more -/

/-- Merging a list onto `base` makes `whole`, and merging it alone makes `part`. -/
structure Onto (base part whole : Json) : Prop where
  type : whole.get? "type" = (base.get? "type").or (part.get? "type")
  types : declaredTypes base ≠ [] → declaredTypes part ≠ [] →
    declaredTypes base = declaredTypes part
  last : ∀ key, isOverwritten key = true →
    whole.get? key = (part.get? key).or (base.get? key)
  values : membersOf "enum" whole = membersOf "enum" base ++ membersOf "enum" part
  opinion : (openness base).merge? (openness part) = some (openness whole)

theorem declaredTypes_congr {node other : Json} (h : node.get? "type" = other.get? "type") :
    declaredTypes node = declaredTypes other := by
  rw [declaredTypes, h, declaredTypes]

theorem get?_type_of_declaredTypes (h : declaredTypes node ≠ []) :
    ∃ value, node.get? "type" = some value := by
  cases hvalue : node.get? "type" with
  | none => simp [declaredTypes, hvalue] at h
  | some value => exact ⟨value, rfl⟩

/-- Nothing was merged yet. -/
theorem Onto.nil (base : Json) : Onto base (soFar none) base where
  type := by simp [soFar, Json.get?_obj]
  types _ h := absurd (by simp [declaredTypes, soFar, Json.get?_obj]) h
  last key _ := by simp [soFar, Json.get?_obj]
  values := by simp [membersOf, soFar, Json.get?_obj]
  opinion := Openness.merge?_unsaid _

/-- One member more. -/
theorem Onto.step {base : Json} {part whole : Option (List (String × Json))}
    {part' whole' : List (String × Json)} (h : Onto base (soFar part) (soFar whole))
    (hkeys : node.hasDistinctKeys = true) (hpart : merge part node = .ok part')
    (hwhole : merge whole node = .ok whole') : Onto base (.obj part') (.obj whole') where
  type := by
    rw [get?_merge_type hkeys hwhole, get?_merge_type hkeys hpart, h.type, Option.or_assoc]
  types hbase hpart' := by
    obtain ⟨value, hvalue⟩ := get?_type_of_declaredTypes hbase
    have htype := get?_merge_type hkeys hpart
    cases hold : (soFar part).get? "type" with
    | some old =>
      -- The part keeps its type.
      have hsame : declaredTypes (.obj part') = declaredTypes (soFar part) :=
        declaredTypes_congr (by rw [htype, hold, Option.some_or])
      rw [hsame] at hpart' ⊢
      exact h.types hbase hpart'
    | none =>
      -- The type comes from the node, and meets that of the base there.
      have hsame : declaredTypes (.obj part') = declaredTypes node :=
        declaredTypes_congr (by rw [htype, hold, Option.none_or])
      have hbaseSame : declaredTypes (soFar whole) = declaredTypes base :=
        declaredTypes_congr (by rw [h.type, hvalue, Option.some_or])
      rw [hsame] at hpart' ⊢
      rw [← hbaseSame] at hbase ⊢
      cases whole with
      | none => exact absurd (by simp [declaredTypes, soFar, Json.get?_obj]) hbase
      | some left => exact declaredTypes_eq_of_merge hwhole hbase hpart'
  last key hkey := by
    rw [get?_merge_of_isOverwritten hkeys hwhole hkey, get?_merge_of_isOverwritten hkeys hpart hkey,
      h.last key hkey, Option.or_assoc]
  values := by
    rw [membersOf_enum_merge hkeys hwhole, membersOf_enum_merge hkeys hpart, h.values,
      List.append_assoc]
  opinion := Openness.merge?_assoc h.opinion (openness_merge hwhole) (openness_merge hpart)

/-- **A list merged onto a base.** -/
theorem Onto.mergeAll {base : Json} {part whole part' whole' : Option (List (String × Json))}
    {nodes : List Json} (h : Onto base (soFar part) (soFar whole))
    (hkeys : ∀ node ∈ nodes, node.hasDistinctKeys = true)
    (hpart : mergeAll part nodes = .ok part') (hwhole : mergeAll whole nodes = .ok whole') :
    Onto base (soFar part') (soFar whole') := by
  induction nodes generalizing part whole with
  | nil =>
    obtain rfl := Except.ok.inj hpart
    obtain rfl := Except.ok.inj hwhole
    exact h
  | cons node rest ih =>
    obtain ⟨hnode, hrest⟩ := List.forall_mem_cons.mp hkeys
    obtain ⟨nextPart, hnextPart, hpart⟩ := mergeAll_cons_eq_ok.mp hpart
    obtain ⟨nextWhole, hnextWhole, hwhole⟩ := mergeAll_cons_eq_ok.mp hwhole
    refine ih ?_ hrest hpart hwhole
    exact h.step hnode hnextPart hnextWhole

/-! ## 4. Members that narrow another one -/

/-- The node adds nothing to the substance of a component. A type and a format must be well-formed
    and meet one of the component; a value and items must be those of the component. -/
structure Narrows (component node : Json) : Prop where
  type : node.get? "type" = none ∨ declaredTypes node ≠ [] ∧ declaredTypes component ≠ []
  format : node.get? "format" = none ∨
    (text? "format" node).isSome = true ∧ (text? "format" component).isSome = true
  values : membersOf "enum" node = []
  fixed : ∀ key ∈ ["const", "items"], node.get? key = none ∨ node.get? key = component.get? key
  opinion : openness node = .unsaid ∨ openness node = openness component

theorem isOverwritten_of_fixed : ∀ key ∈ ["const", "items"], isOverwritten key = true := by
  decide

theorem Narrows.nil (component : Json) : Narrows component (soFar none) where
  type := .inl rfl
  format := .inl rfl
  values := rfl
  fixed _ _ := .inl (by simp [soFar, Json.get?_obj])
  opinion := .inl rfl

/-- Members that narrow a component narrow it together. -/
theorem Narrows.step (hstart : Narrows component (soFar start)) (hnode : Narrows component node)
    (hkeys : node.hasDistinctKeys = true) (h : merge start node = .ok merged) :
    Narrows component (.obj merged) where
  type := by
    have htype := get?_merge_type hkeys h
    cases hold : (soFar start).get? "type" with
    | none =>
      have hsame : (Json.obj merged).get? "type" = node.get? "type" := by
        rw [htype, hold, Option.none_or]
      rw [hsame, declaredTypes_congr hsame]
      exact hnode.type
    | some old =>
      have hsame : (Json.obj merged).get? "type" = (soFar start).get? "type" := by
        rw [htype, hold, Option.some_or]
      rw [hsame, declaredTypes_congr hsame]
      exact hstart.type
  format := by
    have hformat : (Json.obj merged).get? "format" =
        (node.get? "format").or ((soFar start).get? "format") :=
      get?_merge_of_isOverwritten hkeys h (by decide)
    cases hnew : node.get? "format" with
    | none =>
      rw [hnew, Option.none_or] at hformat
      rw [text?, hformat]
      exact hstart.format
    | some value =>
      rw [hnew, Option.some_or, ← hnew] at hformat
      rw [text?, hformat]
      exact hnode.format
  values := by rw [membersOf_enum_merge hkeys h, hstart.values, hnode.values, List.append_nil]
  fixed key hkey := by
    rw [get?_merge_of_isOverwritten hkeys h (isOverwritten_of_fixed key hkey)]
    cases hnew : node.get? key with
    | none => exact hstart.fixed key hkey
    | some value => exact .inr ((hnode.fixed key hkey).resolve_left (by simp [hnew]) ▸ hnew.symm)
  opinion := by
    have hopenness := openness_merge h
    rcases hstart.opinion with hunsaid | hsame
    · rw [hunsaid, Openness.unsaid_merge?] at hopenness
      rw [← Option.some.inj hopenness]
      exact hnode.opinion
    · rcases hnode.opinion with hunsaid | hsame'
      · rw [hunsaid, Openness.merge?_unsaid] at hopenness
        exact .inr (by rw [← Option.some.inj hopenness, hsame])
      · rw [hsame, hsame'] at hopenness
        exact .inr (Openness.merge?_self hopenness)

/-- **Merged onto members that narrow it, a component keeps its substance.** -/
theorem Onto.substance_eq {base whole : Json} (h : Onto base component whole)
    (hbase : Narrows component base) : substance whole = substance component := by
  have htypes : declaredTypes whole = declaredTypes component := by
    rcases hbase.type with hnone | ⟨hdeclared, hcomponent⟩
    · exact declaredTypes_congr (by rw [h.type, hnone, Option.none_or])
    · obtain ⟨value, hvalue⟩ := get?_type_of_declaredTypes hdeclared
      rw [declaredTypes_congr (show whole.get? "type" = base.get? "type" by
        rw [h.type, hvalue, Option.some_or]), h.types hdeclared hcomponent]
  have hformat : text? "format" whole = text? "format" component := by
    rw [text?, text?, h.last "format" (by decide)]
    cases hvalue : component.get? "format" with
    | some value => rw [Option.some_or]
    | none =>
      rcases hbase.format with hnone | ⟨-, hsome⟩
      · rw [hnone, Option.none_or]
      · simp [text?, hvalue] at hsome
  have hfixed : ∀ key ∈ ["const", "items"], whole.get? key = component.get? key := by
    intro key hkey
    rw [h.last key (isOverwritten_of_fixed key hkey)]
    cases hvalue : component.get? key with
    | some value => rw [Option.some_or]
    | none => exact (hbase.fixed key hkey).elim (·) fun hsame => hsame.trans hvalue
  have hopenness : openness whole = openness component := by
    have hmerge := h.opinion
    rcases hbase.opinion with hunsaid | hsame
    · rw [hunsaid, Openness.unsaid_merge?] at hmerge
      exact (Option.some.inj hmerge).symm
    · rw [hsame] at hmerge
      exact Openness.merge?_self hmerge
  rw [substance, substance, htypes, hformat, h.values, hbase.values, List.nil_append,
    hfixed "const" (by simp), hfixed "items" (by simp), hopenness]

/-- **A member that narrows a component takes nothing from its substance.** -/
theorem substance_merge (hstart : substance (soFar start) = substance component)
    (hnode : Narrows component node) (hkeys : node.hasDistinctKeys = true)
    (h : merge start node = .ok merged) : substance (.obj merged) = substance component := by
  obtain ⟨htypes, hformat, hvalues, hconst, hitems, hopenness⟩ := Substance.mk.inj hstart
  have htypes' : declaredTypes (.obj merged) = declaredTypes component := by
    rw [← htypes]
    have htype := get?_merge_type hkeys h
    rcases hnode.type with hnone | ⟨-, hcomponent⟩
    · exact declaredTypes_congr (by rw [htype, hnone, Option.or_none])
    · obtain ⟨value, hvalue⟩ := get?_type_of_declaredTypes (htypes ▸ hcomponent)
      exact declaredTypes_congr (by rw [htype, hvalue, Option.some_or])
  have hformat' : text? "format" (.obj merged) = text? "format" component := by
    have hget : (Json.obj merged).get? "format" =
        (node.get? "format").or ((soFar start).get? "format") :=
      get?_merge_of_isOverwritten hkeys h (by decide)
    rcases hnode.format with hnone | ⟨hnew, hold⟩
    · rw [← hformat, text?, hget, hnone, Option.none_or, text?]
    · obtain ⟨new, hnew⟩ := Option.isSome_iff_exists.mp hnew
      obtain ⟨old, hold⟩ := Option.isSome_iff_exists.mp hold
      have hmeet : old = new := by
        cases start with
        | none =>
          have hnone : text? "format" (soFar none) = none := rfl
          simp [← hformat, hnone] at hold
        | some left => exact format_eq_of_merge h (hformat.trans hold) hnew
      obtain ⟨value, hvalue, -⟩ := Option.bind_eq_some_iff.mp hnew
      rw [hold, hmeet, ← hnew, text?, hget, hvalue, Option.some_or, text?, hvalue]
  have hfixed : ∀ key ∈ ["const", "items"], (soFar start).get? key = component.get? key →
      (Json.obj merged).get? key = component.get? key := by
    intro key hkey hsame
    rw [get?_merge_of_isOverwritten hkeys h (isOverwritten_of_fixed key hkey), hsame]
    rcases hnode.fixed key hkey with hnone | hequal
    · rw [hnone, Option.none_or]
    · rw [hequal, Option.or_self]
  have hopenness' : openness (.obj merged) = openness component := by
    have hmerge := openness_merge h
    rw [hopenness] at hmerge
    rcases hnode.opinion with hunsaid | hsame
    · rw [hunsaid, Openness.merge?_unsaid] at hmerge
      exact (Option.some.inj hmerge).symm
    · rw [hsame] at hmerge
      exact Openness.merge?_self hmerge
  rw [substance, substance, htypes', hformat', membersOf_enum_merge hkeys h, hvalues, hnode.values,
    List.append_nil, hfixed "const" (by simp) hconst, hfixed "items" (by simp) hitems, hopenness']

/-- **Where all other members narrow one of them, the merge has its substance.** -/
theorem substance_mergeAll {own result part : Option (List (String × Json))}
    {before inside after : List Json}
    (hkeys : ∀ node ∈ before ++ inside ++ after, node.hasDistinctKeys = true)
    (hpart : mergeAll none inside = .ok part)
    (hown : Narrows (soFar part) (soFar own))
    (hothers : ∀ node ∈ before ++ after, Narrows (soFar part) node)
    (h : mergeAll own (before ++ inside ++ after) = .ok result) :
    substance (soFar result) = substance (soFar part) := by
  obtain ⟨hkeys, hkeysAfter⟩ := List.forall_mem_append.mp hkeys
  obtain ⟨hkeysBefore, hkeysInside⟩ := List.forall_mem_append.mp hkeys
  obtain ⟨hbefore, hafter⟩ := List.forall_mem_append.mp hothers
  obtain ⟨whole, hwhole, h⟩ := mergeAll_append_eq_ok.mp h
  obtain ⟨base, hbase, hwhole⟩ := mergeAll_append_eq_ok.mp hwhole
  have hnarrows : Narrows (soFar part) (soFar base) :=
    mergeAll_induction (fun _ _ node hnode hstart hmerge =>
      hstart.step (hbefore node hnode) (hkeysBefore node hnode) hmerge) hown hbase
  have honto := (Onto.nil (soFar base)).mergeAll hkeysInside hpart hwhole
  exact mergeAll_induction (P := fun whole => substance whole = substance (soFar part))
    (fun _ _ node hnode hstart hmerge =>
      substance_merge hstart (hafter node hnode) (hkeysAfter node hnode) hmerge)
    (honto.substance_eq hnarrows) h

end ApiTypes.Schema

import ApiTypes.Compile.Operations
import ApiTypes.Compile.Resolve
import ApiTypes.Proofs.Prune.Places

/-!
  What a cleaned schema says to a compilation.

  A cleanup takes away example values and extensions that are not understood. Whatever a
  compilation reads of a schema, a parameter or a content is there as before, with the schemas
  below cleaned alike.
-/

namespace ApiTypes

open Prune

variable {allowed : List String} {part : Part} {key : String} {node : Json}
  {members : List (String × Json)}

/-! ## 1. Members -/

/-- Whether a key stays in a part whatever is allowed. -/
def isLasting (part : Part) (key : String) : Bool :=
  !Schema.isExtensionKey key && !(droppedKeys part).contains key

theorem keepsKey_of_isLasting (h : isLasting part key = true) :
    keepsKey allowed part key = true := by
  obtain ⟨hextension, hdropped⟩ := Bool.and_eq_true_iff.mp h
  rw [keepsKey, hextension, hdropped]
  simp

theorem get?_clean_of_isLasting (h : isLasting part key = true) :
    (clean allowed part node).get? key =
      (node.get? key).map (clean allowed (childPart part key)) := by
  rw [get?_clean, if_pos (keepsKey_of_isLasting h)]

theorem isSome_get?_clean (h : isLasting part key = true) :
    ((clean allowed part node).get? key).isSome = (node.get? key).isSome := by
  rw [get?_clean_of_isLasting h, Option.isSome_map]

/-- A keyword under which no part stands keeps its value. -/
theorem get?_clean_other (h : isLasting part key = true) (hother : childPart part key = .other) :
    (clean allowed part node).get? key = node.get? key := by
  rw [get?_clean_of_isLasting h, hother]
  cases node.get? key <;> simp [clean_other]

theorem text?_clean (h : isLasting part key = true) (hother : childPart part key = .other) :
    Schema.text? key (clean allowed part node) = Schema.text? key node := by
  rw [Schema.text?, get?_clean_other h hother, Schema.text?]

theorem cleanMembers_append (left right : List (String × Json)) :
    cleanMembers allowed part (left ++ right) =
      cleanMembers allowed part left ++ cleanMembers allowed part right := by
  simp [cleanMembers_eq]

/-- A choice of keys may be made before the cleanup or after it. -/
theorem cleanMembers_filter (p : String → Bool) :
    cleanMembers allowed part (members.filter fun entry => p entry.1) =
      (cleanMembers allowed part members).filter fun entry => p entry.1 := by
  simp only [cleanMembers_eq, List.filter_map, List.filter_filter, Function.comp_def, Bool.and_comm]

theorem cleanMembers_insert (value : Json) :
    cleanMembers allowed part (Entries.insert key value members) =
      if keepsKey allowed part key then
        Entries.insert key (clean allowed (childPart part key) value)
          (cleanMembers allowed part members)
      else cleanMembers allowed part members := by
  induction members with
  | nil => rfl
  | cons entry rest ih =>
    obtain ⟨name, old⟩ := entry
    by_cases hname : name = key
    · subst hname
      by_cases hkeep : keepsKey allowed part name = true <;>
        simp [Entries.insert, cleanMembers, hkeep]
    · by_cases hkeep : keepsKey allowed part name = true <;>
        by_cases hkey : keepsKey allowed part key = true <;>
          simp_all [Entries.insert, cleanMembers]

/-- Names all stay. -/
theorem cleanMembers_mapOf (inner : Part) :
    cleanMembers allowed (.mapOf inner) members =
      members.map fun entry => (entry.1, clean allowed inner entry.2) := by
  simp [cleanMembers_eq, keepsKey, hasKeywords, childPart]

theorem members?_clean :
    (clean allowed part node).members? = node.members?.map (cleanMembers allowed part) := by
  cases node with
  | arr items => cases part <;> rfl
  | _ => rfl

theorem members?_clean_mapOf (inner : Part) :
    (clean allowed (.mapOf inner) node).members? =
      node.members?.map (List.map fun entry => (entry.1, clean allowed inner entry.2)) := by
  rw [members?_clean]
  exact congrArg (Option.map · node.members?) (funext fun _ => cleanMembers_mapOf inner)

theorem items?_clean_listOf (inner : Part) :
    (clean allowed (.listOf inner) node).items? =
      node.items?.map (List.map (clean allowed inner)) := by
  cases node <;> simp [clean, Json.items?, cleanItems_eq]

/-! ## 2. Keywords of schemas -/

/-- What a schema loses describes it and does not constrain it. -/
theorem isMetadataKey_of_dropped (h : keepsKey allowed .schema key = false) :
    Schema.isMetadataKey key = true := by
  have hdropped : ∀ key ∈ droppedKeys .schema, key ∈ Schema.metadataKeys := by decide
  simp only [keepsKey, hasKeywords, Bool.not_true, Bool.false_or, Bool.and_eq_false_iff,
    Bool.or_eq_false_iff, Bool.not_eq_false'] at h
  rw [Schema.isMetadataKey, Bool.or_eq_true]
  rcases h with ⟨hextension, -⟩ | h
  · exact .inr hextension
  · exact .inl (List.contains_iff_mem.mpr (hdropped key (List.contains_iff_mem.mp h)))

/-- No schema stands under a key that describes one. -/
theorem schemaPart_of_isMetadataKey (h : Schema.isMetadataKey key = true) :
    schemaPart key = .other := by
  have hkeys : ∀ key ∈ ["properties", "items", "additionalProperties", "not", "allOf", "anyOf",
      "oneOf"], Schema.isMetadataKey key = false := by decide
  have hne : ∀ keyword ∈ ["properties", "items", "additionalProperties", "not", "allOf", "anyOf",
      "oneOf"], key ≠ keyword := by
    intro keyword hmem heq
    rw [heq, hkeys keyword hmem] at h
    exact Bool.false_ne_true h
  simp_all [schemaPart]

/-- What holds of all keys that a schema may lose holds of all its keys when it holds of those that
    stay. -/
theorem all_cleanMembers {p : String → Bool}
    (h : ∀ key, Schema.isMetadataKey key = true → p key = true) :
    ((cleanMembers allowed .schema members).all fun entry => p entry.1) =
      members.all fun entry => p entry.1 := by
  induction members with
  | nil => rfl
  | cons entry rest ih =>
    obtain ⟨key, value⟩ := entry
    cases hkeep : keepsKey allowed .schema key with
    | true => simp [cleanMembers, hkeep, ih]
    | false => simp [cleanMembers, hkeep, ih, h key (isMetadataKey_of_dropped hkeep)]

theorem any_cleanMembers {p : String → Bool}
    (h : ∀ key, Schema.isMetadataKey key = true → p key = false) :
    ((cleanMembers allowed .schema members).any fun entry => p entry.1) =
      members.any fun entry => p entry.1 := by
  have hall : ((cleanMembers allowed .schema members).all fun entry => !p entry.1) =
      members.all fun entry => !p entry.1 :=
    all_cleanMembers (p := fun key => !p key) fun key hkey => by simp [h key hkey]
  simpa [List.all_eq_not_any_not] using hall

section Keywords

theorem reference?_clean (hkinds : kindsOf part ≠ []) :
    Schema.reference? (clean allowed part node) = Schema.reference? node := by
  cases part <;> first | exact absurd rfl hkinds | exact text?_clean rfl rfl

theorem declaredTypes_clean :
    Schema.declaredTypes (clean allowed .schema node) = Schema.declaredTypes node := by
  rw [Schema.declaredTypes, get?_clean_other rfl rfl, Schema.declaredTypes]

theorem types_clean : Schema.types (clean allowed .schema node) = Schema.types node := by
  rw [Schema.types, declaredTypes_clean, isSome_get?_clean rfl, isSome_get?_clean rfl, Schema.types]

theorem admitsNull_clean :
    Schema.admitsNull (clean allowed .schema node) = Schema.admitsNull node := by
  rw [Schema.admitsNull, get?_clean_other rfl rfl, Schema.admitsNull]

theorem isNullOnly_clean :
    Schema.isNullOnly (clean allowed .schema node) = Schema.isNullOnly node := by
  simp only [Schema.isNullOnly, admitsNull_clean, declaredTypes_clean]

theorem properties?_clean :
    Schema.properties? (clean allowed .schema node) =
      (Schema.properties? node).map
        (List.map fun entry => (entry.1, clean allowed .schema entry.2)) := by
  rw [Schema.properties?, get?_clean_of_isLasting rfl, Schema.properties?]
  cases node.get? "properties" with
  | none => rfl
  | some properties => exact members?_clean_mapOf .schema

/-- The members of a list of parts. -/
theorem membersOf_clean (hkey : isLasting part key = true) {inner : Part}
    (hlist : childPart part key = .listOf inner) :
    Schema.membersOf key (clean allowed part node) =
      (Schema.membersOf key node).map (clean allowed inner) := by
  rw [Schema.membersOf, get?_clean_of_isLasting hkey, hlist, Schema.membersOf]
  cases node.get? key with
  | none => rfl
  | some list =>
    change (Json.items? (clean allowed (.listOf inner) list)).getD [] = _
    rw [items?_clean_listOf]
    cases hitems : list.items? <;> simp [hitems]

theorem hasUnion_clean : Schema.hasUnion (clean allowed .schema node) = Schema.hasUnion node := by
  rw [Schema.hasUnion, membersOf_clean rfl rfl,
    membersOf_clean rfl rfl, Schema.hasUnion]
  simp

theorem isMetadataOnly_clean :
    Schema.isMetadataOnly (clean allowed .schema node) = Schema.isMetadataOnly node := by
  cases node with
  | obj members => exact all_cleanMembers fun _ h => h
  | _ => rfl

theorem isBareReference_clean :
    Schema.isBareReference (clean allowed .schema node) = Schema.isBareReference node := by
  cases node with
  | obj members =>
    exact all_cleanMembers
      (p := fun key => key = "$ref" || key = "nullable" || Schema.isMetadataKey key)
      fun _ h => by simp [h]
  | _ => rfl

theorem ownKeywords_clean :
    Schema.ownKeywords (clean allowed .schema node) =
      (Schema.ownKeywords node).map (cleanMembers allowed .schema) := by
  cases node with
  | obj members =>
    have herase : Entries.erase "allOf" (cleanMembers allowed .schema members) =
        cleanMembers allowed .schema (Entries.erase "allOf" members) :=
      (cleanMembers_filter fun key => key ≠ "allOf").symm
    simp only [clean, Schema.ownKeywords, herase]
    rw [any_cleanMembers (p := fun key =>
      !Schema.isMetadataKey key && decide (key ≠ "nullable") && decide (key ≠ "discriminator"))
      fun _ h => by simp [h]]
    split <;> rfl
  | _ => rfl

theorem discriminatorProperty?_clean :
    discriminatorProperty? (clean allowed .schema node) = discriminatorProperty? node := by
  rw [discriminatorProperty?, get?_clean_other rfl rfl, discriminatorProperty?]

theorem fixedValue?_clean : fixedValue? (clean allowed .schema node) = fixedValue? node := by
  rw [fixedValue?, get?_clean_other rfl rfl,
    get?_clean_other rfl rfl, fixedValue?]

theorem hasFields_clean :
    (Env.fieldKeywords.any fun key => ((clean allowed .schema node).get? key).isSome) =
      Env.fieldKeywords.any fun key => (node.get? key).isSome := by
  have hlasting : ∀ key ∈ Env.fieldKeywords, isLasting .schema key = true := by decide
  rw [Bool.eq_iff_iff]
  simp only [List.any_eq_true]
  exact exists_congr fun key => and_congr_right fun hkey => by
    rw [isSome_get?_clean (hlasting key hkey)]

theorem declaredMapping_clean :
    declaredMapping (clean allowed .schema node) = declaredMapping node := by
  rw [declaredMapping, get?_clean_other rfl rfl, declaredMapping]

/-- A reference may be written as an `allOf` before the cleanup or after it. -/
theorem expandReference_clean :
    Env.expandReference (cleanMembers allowed .schema members) =
      clean allowed .schema (Env.expandReference members) := by
  have hallOf : keepsKey allowed .schema "allOf" = true := keepsKey_of_isLasting rfl
  have hpart : childPart .schema "allOf" = .listOf .schema := rfl
  simp only [Env.expandReference, clean, cleanMembers_append, cleanMembers, cleanItems, hallOf,
    if_true, hpart]
  rw [cleanMembers_filter fun key => key = "$ref",
    cleanMembers_filter fun key => key = "nullable" || Schema.isMetadataKey key,
    cleanMembers_filter fun key =>
      key ≠ "$ref" && !(key = "nullable" || Schema.isMetadataKey key)]

end Keywords

/-! ## 3. Extensions -/

/-- An extension that is not understood says nothing. -/
theorem readMember_of_not_mem (hkey : key ∉ Extensions.recognized) (known : Extensions)
    (value : Json) : Extensions.readMember known (key, value) = .ok known := by
  have hnone : Extensions.fields.find? (·.name = key) = none := by
    refine List.find?_eq_none.mpr fun field hfield hname => hkey ?_
    exact List.mem_map.mpr ⟨field, hfield, of_decide_eq_true hname⟩
  simp [Extensions.readMember, hnone]

/-- **A choice of members that loses no extension that is understood says the same.** -/
theorem ofNode_filter {keep : String × Json → Bool}
    (hkeep : ∀ entry : String × Json, entry.1 ∈ Extensions.recognized → keep entry = true) :
    Extensions.ofNode (.obj (members.filter keep)) = Extensions.ofNode (.obj members) := by
  change (members.filter keep).foldlM Extensions.readMember {} =
    members.foldlM Extensions.readMember {}
  generalize ({} : Extensions) = known
  induction members generalizing known with
  | nil => rfl
  | cons entry rest ih =>
    cases hentry : keep entry with
    | true =>
      rw [List.filter_cons_of_pos hentry, List.foldlM_cons, List.foldlM_cons]
      exact congrArg _ (funext fun known => ih known)
    | false =>
      have hkey : entry.1 ∉ Extensions.recognized := fun hmem => by
        cases (hkeep entry hmem).symm.trans hentry
      rw [List.filter_cons_of_neg (by simp [hentry]), ih, List.foldlM_cons,
        readMember_of_not_mem hkey known entry.2]
      rfl

/-- **The extensions that are understood say the same after a cleanup that allows them.** -/
theorem ofNode_clean (hallowed : Extensions.recognized ⊆ allowed) :
    Extensions.ofNode (clean allowed .schema node) = Extensions.ofNode node := by
  have hrecognized : ∀ key ∈ Extensions.recognized,
      schemaPart key = .other ∧ (droppedKeys .schema).contains key = false := by decide
  cases node with
  | obj members =>
    change (cleanMembers allowed .schema members).foldlM Extensions.readMember {} =
      members.foldlM Extensions.readMember {}
    generalize ({} : Extensions) = known
    induction members generalizing known with
    | nil => rfl
    | cons entry rest ih =>
      obtain ⟨key, value⟩ := entry
      by_cases hkey : key ∈ Extensions.recognized
      · obtain ⟨hpart, hdropped⟩ := hrecognized key hkey
        have hkeep : keepsKey allowed .schema key = true := by
          rw [keepsKey, hdropped, List.contains_iff_mem.mpr (hallowed hkey)]
          simp
        simp only [cleanMembers, hkeep, if_true, childPart, hpart, clean_other, List.foldlM_cons]
        exact congrArg _ (funext fun known => ih known)
      · simp only [cleanMembers]
        split <;> simp only [List.foldlM_cons, readMember_of_not_mem hkey, bind, Except.bind, ih]
  | _ => rfl

/-! ## 4. Parameters and contents -/

theorem firstContentSchema?_eq (node : Json) : firstContentSchema? node =
    (((node.get? "content").bind Json.members?).bind List.head?).bind fun entry =>
      entry.2.get? "schema" := by
  rw [firstContentSchema?]
  rcases (node.get? "content").bind Json.members? with _ | (_ | ⟨entry, rest⟩) <;> rfl

theorem firstContentSchema?_clean :
    firstContentSchema? (clean allowed .parameter node) =
      (firstContentSchema? node).map (clean allowed .schema) := by
  have hmedia : ∀ media : Json, (clean allowed .mediaType media).get? "schema" =
      (media.get? "schema").map (clean allowed .schema) :=
    fun media => get?_clean_of_isLasting rfl
  have hcontent : childPart .parameter "content" = .mapOf .mediaType := rfl
  rw [firstContentSchema?_eq, get?_clean_of_isLasting rfl, hcontent, firstContentSchema?_eq]
  cases node.get? "content" with
  | none => rfl
  | some content =>
    simp only [Option.map_some, Option.bind_some, members?_clean_mapOf]
    rcases hmembers : content.members? with _ | (_ | ⟨entry, rest⟩) <;> simp [hmedia]

theorem contentSchema?_clean {content : Part} (hlasting : isLasting content "content" = true)
    (hcontent : childPart content "content" = .mapOf .mediaType) :
    contentSchema? (clean allowed content node) =
      (contentSchema? node).map (clean allowed .schema) := by
  have hmedia : ∀ media : Json, (clean allowed .mediaType media).get? "schema" =
      (media.get? "schema").map (clean allowed .schema) :=
    fun media => get?_clean_of_isLasting rfl
  simp only [contentSchema?, get?_clean_of_isLasting hlasting, hcontent]
  cases node.get? "content" with
  | none => rfl
  | some value =>
    simp only [Option.map_some, Option.bind_some, bind, members?_clean_mapOf]
    cases value.members? with
    | none => rfl
    | some entries =>
      simp only [List.find?_map, Function.comp_def, List.head?_map, Option.map_some,
        Option.bind_some, ← Option.map_or, Option.map_map]
      cases (entries.find? fun entry => Text.isJsonMedia entry.1).or entries.head? with
      | none => rfl
      | some entry => exact hmedia entry.2

/-- A parameter takes the place of another before the cleanup or after it. -/
theorem overrideParameter_clean (parameters : List Json) (new : Json) :
    overrideParameter (parameters.map (clean allowed .parameter)) (clean allowed .parameter new) =
      (overrideParameter parameters new).map (clean allowed .parameter) := by
  have hkey : ∀ parameter : Json,
      parameterKey (clean allowed .parameter parameter) = parameterKey parameter := by
    intro parameter
    rw [parameterKey, text?_clean rfl rfl, text?_clean rfl rfl, parameterKey]
  induction parameters with
  | nil => rfl
  | cons old rest ih =>
    simp only [List.map_cons, overrideParameter, hkey, ih]
    split <;> rfl

theorem parameterSchema_clean :
    parameterSchema (clean allowed .parameter node) =
      clean allowed .schema (parameterSchema node) := by
  have hschema : (((clean allowed .parameter node).get? "schema").or
      (firstContentSchema? (clean allowed .parameter node))).getD (.obj []) =
      clean allowed .schema
        (((node.get? "schema").or (firstContentSchema? node)).getD (.obj [])) := by
    rw [get?_clean_of_isLasting rfl, firstContentSchema?_clean]
    cases node.get? "schema" with
    | some schema => rfl
    | none => cases firstContentSchema? node <;> rfl
  rw [parameterSchema, hschema, Schema.description?, text?_clean rfl rfl, parameterSchema]
  generalize ((node.get? "schema").or (firstContentSchema? node)).getD (.obj []) = schema
  rw [Schema.description?]
  cases Schema.text? "description" node with
  | none => rfl
  | some text =>
    cases schema with
    | obj members =>
      have hcontains : Entries.contains "description" (cleanMembers allowed .schema members) =
          Entries.contains "description" members :=
        @isSome_get?_clean allowed .schema "description" (.obj members) rfl
      have hkeep : keepsKey allowed .schema "description" = true := keepsKey_of_isLasting rfl
      simp only [clean, Json.mapMembers, hcontains]
      split
      · rfl
      · rw [cleanMembers_insert, if_pos hkeep]
        rfl
    | _ => rfl

theorem mem_of_mem_parametersAt {location : String} {parameters : List Json}
    {entry : String × Json} (h : entry ∈ parametersAt location parameters) :
    entry.2 ∈ parameters := by
  obtain ⟨parameter, hparameter, hname⟩ := List.mem_filterMap.mp h
  obtain ⟨name, -, rfl⟩ := Option.map_eq_some_iff.mp hname
  exact List.mem_of_mem_filter hparameter

theorem parametersAt_clean (location : String) (parameters : List Json) :
    parametersAt location (parameters.map (clean allowed .parameter)) =
      (parametersAt location parameters).map fun p => (p.1, clean allowed .parameter p.2) := by
  have htext : ∀ key, isLasting .parameter key = true → childPart .parameter key = .other →
      ∀ p : Json, Schema.text? key (clean allowed .parameter p) = Schema.text? key p :=
    fun key hlasting hother p => text?_clean hlasting hother
  simp only [parametersAt, List.filter_map, List.filterMap_map, Function.comp_def,
    htext "in" rfl rfl, htext "name" rfl rfl, List.map_filterMap, Option.map_map]

/-- **The record of the parameters may be made before the cleanup or after it.** -/
theorem parameterRecord?_clean (location : String) (parameters : List Json) :
    parameterRecord? location (parameters.map (clean allowed .parameter)) =
      (parameterRecord? location parameters).map (clean allowed .schema) := by
  have hflag : ∀ p : Json, Schema.flag "required" (clean allowed .parameter p) =
      Schema.flag "required" p := fun p => by
    rw [Schema.flag, get?_clean_other rfl rfl, Schema.flag]
  have hproperties : ∀ (found : List (String × Json)) (start : List (String × Json)),
      (found.map fun p => (p.1, clean allowed .parameter p.2)).foldl
          (fun properties p => Entries.insert p.1 (parameterSchema p.2) properties)
          (cleanMembers allowed (.mapOf .schema) start) =
        cleanMembers allowed (.mapOf .schema) (found.foldl
          (fun properties p => Entries.insert p.1 (parameterSchema p.2) properties) start) := by
    intro found
    induction found with
    | nil => exact fun _ => rfl
    | cons p rest ih =>
      intro start
      rw [List.map_cons, List.foldl_cons, List.foldl_cons, ← ih, cleanMembers_insert,
        parameterSchema_clean]
      rfl
  rw [parameterRecord?, parametersAt_clean, parameterRecord?]
  generalize parametersAt location parameters = found
  cases found with
  | nil => rfl
  | cons first rest =>
    have hrequired : (((first :: rest).map fun p => (p.1, clean allowed .parameter p.2)).filter
        fun p => location = "path" || Schema.flag "required" p.2).map (fun p => Json.str p.1) =
        ((first :: rest).filter fun p => location = "path" || Schema.flag "required" p.2).map
          fun p => Json.str p.1 := by
      simp only [List.filter_map, List.map_map, Function.comp_def, hflag]
    have hkeeps : ∀ key ∈ ["type", "required", "properties"],
        keepsKey allowed .schema key = true := by
      have hlasting : ∀ key ∈ ["type", "required", "properties"],
          isLasting .schema key = true := by decide
      exact fun key hkey => keepsKey_of_isLasting (hlasting key hkey)
    change some (Json.obj [("type", .str "object"), ("required", .arr _), ("properties", .obj _)]) =
      some (clean allowed .schema
        (.obj [("type", .str "object"), ("required", .arr _), ("properties", .obj _)]))
    simp only [clean, cleanMembers, hkeeps, List.mem_cons, true_or, or_true, if_true]
    have hprops := hproperties (first :: rest) []
    simp only [cleanMembers] at hprops
    rw [hprops, hrequired]
    rfl

end ApiTypes

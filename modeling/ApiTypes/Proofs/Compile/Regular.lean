import ApiTypes.Proofs.Compile.Cleaned
import ApiTypes.Proofs.Compile.Traversal

/-!
  Regular places, and values of which pruning keeps what they refer to.

  * A place is **regular** when its reference names a component of a kind that may stand there, in
    the standard form and escaped as components are, and when the values of an enumeration are a
    list.
  * A value is **sound** when all its places are regular and all that its cleaned places refer to
    is kept. What a compilation takes out of a sound value, or makes of it, is sound.
-/

namespace ApiTypes

open Prune

/-- Whether a reference names a component of a kind that may stand for a part, in the standard form
    and escaped as components are. -/
def fits (part : Part) (reference : String) : Bool :=
  Reference.isStandard reference &&
    (kindsOf part).any fun kind =>
      reference = Reference.ofComponent kind (Reference.objectName reference)

/-- Whether a place is written as it should be: its reference fits, and the values of an
    enumeration are a list. -/
def isRegular (place : Part × List (String × Json)) : Bool :=
  ((Schema.reference? (.obj place.2)).all (fits place.1)) &&
    (place.1 ≠ .schema || (Entries.get? "enum" place.2).all fun values => values.items?.isSome)

/-- A value with regular places whose references are kept as far as the cleanup leaves them. -/
structure Sound (allowed : List String) (kept : String → Prop) (part : Part) (value : Json) :
    Prop where
  keys : value.hasDistinctKeys = true
  regular : ∀ place ∈ places part value, isRegular place = true
  kept : ∀ place ∈ places part (clean allowed part value), ∀ reference,
    Schema.reference? (.obj place.2) = some reference → kept reference

variable {allowed : List String} {kept : String → Prop} {part : Part} {value : Json}
  {members : List (String × Json)}

namespace Sound

/-! ## 1. Below a sound value -/

theorem member (h : Sound allowed kept part (.obj members)) (hcallback : part ≠ .callback)
    {entry : String × Json} (hentry : entry ∈ members)
    (hkeep : keepsKey allowed part entry.1 = true) :
    Sound allowed kept (childPart part entry.1) entry.2 where
  keys := (Json.hasDistinctKeys_obj.mp h.keys).2 entry hentry
  regular place hplace :=
    h.regular place (mem_places_obj.mpr ⟨hcallback, .inr ⟨entry, hentry, hplace⟩⟩)
  kept place hplace := by
    have hcleaned : (entry.1, clean allowed (childPart part entry.1) entry.2) ∈
        cleanMembers allowed part members := by
      rw [cleanMembers_eq]
      exact List.mem_map.mpr ⟨entry, List.mem_filter.mpr ⟨hentry, hkeep⟩, rfl⟩
    exact h.kept place (mem_places_obj.mpr ⟨hcallback, .inr ⟨_, hcleaned, hplace⟩⟩)

theorem get? {key : String} {child : Json} (h : Sound allowed kept part value)
    (hcallback : part ≠ .callback) (hkey : isLasting part key = true)
    (hget : value.get? key = some child) : Sound allowed kept (childPart part key) child := by
  cases value with
  | obj members =>
    exact h.member hcallback (Entries.mem_of_get? hget) (keepsKey_of_isLasting hkey)
  | _ => simp [Json.get?, Json.members?] at hget

theorem item {inner : Part} {items : List Json}
    (h : Sound allowed kept (.listOf inner) (.arr items)) {item : Json} (hitem : item ∈ items) :
    Sound allowed kept inner item where
  keys := Json.itemsHaveDistinctKeys_iff.mp h.keys item hitem
  regular place hplace := h.regular place (mem_places_arr.mpr ⟨inner, rfl, item, hitem, hplace⟩)
  kept place hplace := by
    refine h.kept place (mem_places_arr.mpr ⟨inner, rfl, _, ?_, hplace⟩)
    rw [cleanItems_eq]
    exact List.mem_map_of_mem hitem

theorem membersOf {key : String} {inner : Part} {item : Json} (h : Sound allowed kept part value)
    (hcallback : part ≠ .callback) (hkey : isLasting part key = true)
    (hlist : childPart part key = .listOf inner) (hitem : item ∈ Schema.membersOf key value) :
    Sound allowed kept inner item := by
  cases hget : value.get? key with
  | none => simp [Schema.membersOf, hget] at hitem
  | some list =>
    have hsound := hlist ▸ h.get? hcallback hkey hget
    cases list with
    | arr items => exact hsound.item (by simpa [Schema.membersOf, hget, Json.items?] using hitem)
    | _ => simp [Schema.membersOf, hget, Json.items?] at hitem

/-- A value under a name. -/
theorem named {inner : Part} (h : Sound allowed kept (.mapOf inner) (.obj members))
    {entry : String × Json} (hentry : entry ∈ members) : Sound allowed kept inner entry.2 :=
  h.member (by simp) hentry rfl

theorem property {properties : List (String × Json)} (h : Sound allowed kept .schema value)
    (hget : Schema.properties? value = some properties) {entry : String × Json}
    (hentry : entry ∈ properties) : Sound allowed kept .schema entry.2 := by
  obtain ⟨object, hobject, hmembers⟩ := Option.bind_eq_some_iff.mp hget
  have hsound := h.get? (by simp) rfl hobject
  cases object with
  | obj found =>
    obtain rfl := Option.some.inj hmembers
    exact hsound.named hentry
  | _ => simp [Json.members?] at hmembers

/-! ## 2. A place itself -/

/-- What a sound place refers to fits and is kept. -/
theorem reference {reference : String} (h : Sound allowed kept part value)
    (hkinds : kindsOf part ≠ []) (hreference : Schema.reference? value = some reference) :
    fits part reference = true ∧ kept reference := by
  have hcallback : part ≠ .callback := fun heq => hkinds (heq ▸ rfl)
  cases value with
  | obj members =>
    constructor
    · have hregular := h.regular (part, members)
        (mem_places_obj.mpr ⟨hcallback, .inl ⟨hkinds, rfl⟩⟩)
      simp only [isRegular, hreference, Option.all_some, Bool.and_eq_true] at hregular
      exact hregular.1
    · refine h.kept (part, cleanMembers allowed part members)
        (mem_places_obj.mpr ⟨hcallback, .inl ⟨hkinds, rfl⟩⟩) reference ?_
      exact (reference?_clean hkinds).trans hreference
  | _ => simp [Schema.reference?, Schema.text?, Json.get?, Json.members?] at hreference

/-- The values of an enumeration of a sound schema are a list. -/
theorem enum {values : Json} (h : Sound allowed kept .schema (.obj members))
    (hget : Entries.get? "enum" members = some values) : ∃ items, values = .arr items := by
  have hregular := h.regular (.schema, members)
    (mem_places_obj.mpr ⟨by simp, .inl ⟨by simp [kindsOf], rfl⟩⟩)
  simp only [isRegular, hget, Option.all_some, Bool.and_eq_true] at hregular
  cases values with
  | arr items => exact ⟨items, rfl⟩
  | _ => simp [Json.items?] at hregular

/-! ## 3. Putting sound values together -/

/-- What stays as it is has no places, so it is sound. -/
theorem of_other (hkeys : value.hasDistinctKeys = true) : Sound allowed kept .other value where
  keys := hkeys
  regular place hplace := by simp [places_other] at hplace
  kept place hplace := by simp [clean_other, places_other] at hplace

theorem of_items {inner : Part} {items : List Json}
    (h : ∀ item ∈ items, Sound allowed kept inner item) :
    Sound allowed kept (.listOf inner) (.arr items) where
  keys := Json.itemsHaveDistinctKeys_iff.mpr fun item hitem => (h item hitem).keys
  regular place hplace := by
    obtain ⟨_, heq, item, hitem, hplace⟩ := mem_places_arr.mp hplace
    obtain rfl := Part.listOf.inj heq
    exact (h item hitem).regular place hplace
  kept place hplace := by
    obtain ⟨_, heq, cleaned, hcleaned, hplace⟩ := mem_places_arr.mp hplace
    obtain rfl := Part.listOf.inj heq
    rw [cleanItems_eq] at hcleaned
    obtain ⟨item, hitem, rfl⟩ := List.mem_map.mp hcleaned
    exact (h item hitem).kept place hplace

/-- **An object is sound** when its members are and it is a sound place itself, if it is one. -/
theorem of_members (hkeys : (Entries.keys members).Nodup)
    (hself : kindsOf part ≠ [] → isRegular (part, members) = true ∧
      ∀ reference, Schema.reference? (.obj members) = some reference → kept reference)
    (hmembers : ∀ entry ∈ members, Sound allowed kept (childPart part entry.1) entry.2) :
    Sound allowed kept part (.obj members) where
  keys := Json.hasDistinctKeys_obj.mpr ⟨hkeys, fun entry hentry => (hmembers entry hentry).keys⟩
  regular place hplace := by
    obtain ⟨-, ⟨hkinds, rfl⟩ | ⟨entry, hentry, hplace⟩⟩ := mem_places_obj.mp hplace
    · exact (hself hkinds).1
    · exact (hmembers entry hentry).regular place hplace
  kept place hplace := by
    obtain ⟨-, ⟨hkinds, rfl⟩ | ⟨entry, hentry, hplace⟩⟩ := mem_places_obj.mp hplace
    · intro reference hreference
      refine (hself hkinds).2 reference ?_
      rwa [← reference?_clean hkinds]
    · rw [cleanMembers_eq] at hentry
      obtain ⟨old, hold, rfl⟩ := List.mem_map.mp hentry
      exact (hmembers old (List.mem_of_mem_filter hold)).kept place hplace

/-- An object is a sound schema when its members are sound and it says no more than a sound schema:
    it refers to what that refers to or to nothing, and its enumeration is the same or none. -/
theorem schema_of_members {found : List (String × Json)}
    (h : Sound allowed kept .schema (.obj found)) (hkeys : (Entries.keys members).Nodup)
    (hreference : ∀ reference, Entries.get? "$ref" members = some reference →
      Entries.get? "$ref" found = some reference)
    (henum : ∀ values, Entries.get? "enum" members = some values →
      Entries.get? "enum" found = some values)
    (hmembers : ∀ entry ∈ members, Sound allowed kept (schemaPart entry.1) entry.2) :
    Sound allowed kept .schema (.obj members) := by
  have hsome : ∀ reference, Schema.reference? (.obj members) = some reference →
      Schema.reference? (.obj found) = some reference := by
    intro reference hsome
    obtain ⟨text, htext, hstring⟩ := Option.bind_eq_some_iff.mp hsome
    exact Option.bind_eq_some_iff.mpr ⟨text, hreference text htext, hstring⟩
  refine of_members hkeys (fun hkinds => ⟨?_, fun reference href => ?_⟩) hmembers
  · simp only [isRegular, Bool.and_eq_true, Option.all_eq_true, ne_eq, not_true_eq_false,
      decide_false, Bool.false_or]
    refine ⟨fun reference href => (h.reference hkinds (hsome reference href)).1,
      fun values hvalues => ?_⟩
    obtain ⟨items, rfl⟩ := h.enum (henum values hvalues)
    rfl
  · exact (h.reference hkinds (hsome reference href)).2

/-- Every member of a sound schema is sound; those that go are no schemas. -/
theorem schemaMember (h : Sound allowed kept .schema (.obj members)) {entry : String × Json}
    (hentry : entry ∈ members) : Sound allowed kept (schemaPart entry.1) entry.2 := by
  cases hkeep : keepsKey allowed .schema entry.1 with
  | true => exact h.member (by simp) hentry hkeep
  | false =>
    rw [schemaPart_of_isMetadataKey (isMetadataKey_of_dropped hkeep)]
    exact of_other ((Json.hasDistinctKeys_obj.mp h.keys).2 entry hentry)

/-- A choice of members of a sound schema is sound. -/
theorem filter (h : Sound allowed kept .schema (.obj members)) (p : String → Bool) :
    Sound allowed kept .schema (.obj (members.filter fun entry => p entry.1)) := by
  have hget : ∀ key value, Entries.get? key (members.filter fun entry => p entry.1) = some value →
      Entries.get? key members = some value := by
    intro key value hsome
    rw [Entries.get?_filter] at hsome
    split at hsome
    · exact hsome
    · simp at hsome
  refine h.schema_of_members ?_ (hget _) (hget _) fun entry hentry =>
    h.schemaMember (List.mem_of_mem_filter hentry)
  exact (Json.hasDistinctKeys_obj.mp h.keys).1.sublist (List.Sublist.map _ List.filter_sublist)

/-- **A sound reference written as an `allOf` is sound.** -/
theorem expandReference (h : Sound allowed kept .schema (.obj members)) :
    Sound allowed kept .schema (Env.expandReference members) := by
  let describes (key : String) : Bool := decide (key = "nullable") || Schema.isMetadataKey key
  have houter := h.filter describes
  have hparts : Sound allowed kept (.listOf .schema)
      (.arr [.obj (members.filter fun entry => entry.1 = "$ref"),
        .obj (members.filter fun entry => entry.1 ≠ "$ref" && !describes entry.1)]) := by
    refine of_items fun item hitem => ?_
    rcases List.mem_cons.mp hitem with rfl | hitem
    · exact h.filter fun key => key = "$ref"
    · obtain rfl := List.mem_singleton.mp hitem
      exact h.filter fun key => key ≠ "$ref" && !describes key
  have hget : ∀ key, key ≠ "allOf" → Entries.get? key
      ((members.filter fun entry => describes entry.1) ++ [("allOf", Json.arr
        [.obj (members.filter fun entry => entry.1 = "$ref"),
          .obj (members.filter fun entry => entry.1 ≠ "$ref" && !describes entry.1)])]) =
      Entries.get? key (members.filter fun entry => describes entry.1) := by
    intro key hkey
    rw [Entries.get?_append, Entries.get?_cons, if_neg (Ne.symm hkey)]
    simp
  refine houter.schema_of_members ?_ ?_ ?_ fun entry hentry => ?_
  · simp only [Entries.keys, List.map_append, List.map_cons, List.map_nil]
    refine List.nodup_append.mpr ⟨(Json.hasDistinctKeys_obj.mp houter.keys).1,
      List.nodup_singleton _, fun key hkey other hother heq => ?_⟩
    obtain ⟨entry, hentry, rfl⟩ := List.mem_map.mp hkey
    have hdescribes := (List.mem_filter.mp hentry).2
    rw [heq, List.mem_singleton.mp hother] at hdescribes
    exact absurd hdescribes (by decide)
  · exact fun reference hreference => (hget "$ref" (by decide)).symm.trans hreference
  · exact fun values hvalues => (hget "enum" (by decide)).symm.trans hvalues
  · rcases List.mem_append.mp hentry with hentry | hentry
    · exact houter.schemaMember hentry
    · obtain rfl := List.mem_singleton.mp hentry
      exact hparts

/-- Writing a value under a name. -/
theorem insertNamed {inner : Part} {name : String} {child : Json}
    (h : Sound allowed kept (.mapOf inner) (.obj members))
    (hchild : Sound allowed kept inner child) :
    Sound allowed kept (.mapOf inner) (.obj (Entries.insert name child members)) := by
  refine of_members (Entries.nodup_keys_insert (Json.hasDistinctKeys_obj.mp h.keys).1)
    (fun hkinds => absurd rfl hkinds) fun entry hentry => ?_
  rcases Entries.mem_insert hentry with rfl | hentry
  · exact hchild
  · exact h.named hentry

/-- No names at all. -/
theorem noNames {inner : Part} : Sound allowed kept (.mapOf inner) (.obj []) :=
  of_members List.nodup_nil (fun hkinds => absurd rfl hkinds) (by simp)

/-! ## 4. Parameters and contents -/

/-- Writing a member of a sound schema that neither refers nor lists values. -/
theorem insert {key : String} {child : Json} (h : Sound allowed kept .schema (.obj members))
    (hchild : Sound allowed kept (schemaPart key) child) (href : key ≠ "$ref")
    (henum : key ≠ "enum") :
    Sound allowed kept .schema (.obj (Entries.insert key child members)) := by
  refine h.schema_of_members (Entries.nodup_keys_insert (Json.hasDistinctKeys_obj.mp h.keys).1)
    (fun reference hget => ?_) (fun values hget => ?_) fun entry hentry => ?_
  · rwa [Entries.get?_insert_of_ne (Ne.symm href)] at hget
  · rwa [Entries.get?_insert_of_ne (Ne.symm henum)] at hget
  · rcases Entries.mem_insert hentry with rfl | hentry
    · exact hchild
    · exact h.schemaMember hentry

theorem firstContentSchema? {schema : Json} (h : Sound allowed kept .parameter value)
    (hschema : firstContentSchema? value = some schema) : Sound allowed kept .schema schema := by
  unfold ApiTypes.firstContentSchema? at hschema
  split at hschema
  · rename_i name media rest hcontent
    obtain ⟨content, hget, hmembers⟩ := Option.bind_eq_some_iff.mp hcontent
    cases content with
    | obj entries =>
      obtain rfl := Option.some.inj hmembers
      have hmedia : Sound allowed kept .mediaType media :=
        (h.get? (by simp) rfl hget).named
          List.mem_cons_self
      exact hmedia.get? (by simp) rfl hschema
    | _ => simp [Json.members?] at hmembers
  · simp at hschema

theorem contentSchema? {schema : Json} (h : Sound allowed kept part value)
    (hcallback : part ≠ .callback) (hlasting : isLasting part "content" = true)
    (hcontent : childPart part "content" = .mapOf .mediaType)
    (hschema : contentSchema? value = some schema) : Sound allowed kept .schema schema := by
  obtain ⟨entries, hentries, hmedia⟩ := Option.bind_eq_some_iff.mp hschema
  obtain ⟨content, hget, hmembers⟩ := Option.bind_eq_some_iff.mp hentries
  obtain ⟨media, hmedia, hfound⟩ := Option.bind_eq_some_iff.mp hmedia
  obtain ⟨entry, hentry, rfl⟩ := Option.map_eq_some_iff.mp hmedia
  have hsound := hcontent ▸ h.get? hcallback hlasting hget
  cases content with
  | obj found =>
    obtain rfl := Option.some.inj hmembers
    have hmem : entry ∈ found := by
      rcases Option.or_eq_some_iff.mp hentry with hfind | ⟨-, hhead⟩
      · exact List.mem_of_find?_eq_some hfind
      · exact List.mem_of_mem_head? hhead
    have hmedia : Sound allowed kept .mediaType entry.2 := hsound.named hmem
    exact hmedia.get? (by simp) rfl hfound
  | _ => simp [Json.members?] at hmembers

/-- A schema that says nothing. -/
theorem empty : Sound allowed kept .schema (.obj []) := by
  refine of_members List.nodup_nil (fun _ => ⟨rfl, fun reference href => ?_⟩) (by simp)
  simp [Schema.reference?, Schema.text?] at href

theorem parameterSchema (h : Sound allowed kept .parameter value) :
    Sound allowed kept .schema (parameterSchema value) := by
  have hschema : Sound allowed kept .schema
      (((value.get? "schema").or (ApiTypes.firstContentSchema? value)).getD (.obj [])) := by
    cases hget : value.get? "schema" with
    | some schema => exact h.get? (by simp) rfl hget
    | none =>
      cases hcontent : ApiTypes.firstContentSchema? value with
      | some schema => exact h.firstContentSchema? hcontent
      | none => exact empty
  unfold ApiTypes.parameterSchema
  generalize ((value.get? "schema").or (ApiTypes.firstContentSchema? value)).getD (.obj []) =
    schema at hschema
  dsimp only
  cases Schema.description? value with
  | none => exact hschema
  | some text =>
    cases schema with
    | obj members =>
      simp only [Json.mapMembers]
      split
      · exact hschema
      · exact hschema.insert (of_other rfl) (by decide) (by decide)
    | _ => exact hschema

/-- **The record of sound parameters is sound.** -/
theorem parameterRecord? {location : String} {parameters : List Json} {record : Json}
    (h : ∀ parameter ∈ parameters, Sound allowed kept .parameter parameter)
    (hrecord : parameterRecord? location parameters = some record) :
    Sound allowed kept .schema record := by
  have hproperties : Sound allowed kept (.mapOf .schema)
      (.obj ((parametersAt location parameters).foldl
        (fun properties p => Entries.insert p.1 (ApiTypes.parameterSchema p.2) properties) [])) :=
    List.foldlRecOn (motive := fun properties => Sound allowed kept (.mapOf .schema)
      (.obj properties)) _ _ noNames fun properties hproperties p hp =>
        hproperties.insertNamed (h p.2 (mem_of_mem_parametersAt hp)).parameterSchema
  unfold ApiTypes.parameterRecord? at hrecord
  split at hrecord
  · simp at hrecord
  · obtain rfl := Option.some.inj hrecord
    refine of_members (by simp [Entries.keys]) (fun _ => ⟨rfl, fun reference href => ?_⟩)
      fun entry hentry => ?_
    · simp [Schema.reference?, Schema.text?, Entries.get?_cons] at href
    · simp only [List.mem_cons, List.not_mem_nil, or_false] at hentry
      rcases hentry with rfl | rfl | rfl
      · exact of_other rfl
      · refine of_other (Json.itemsHaveDistinctKeys_iff.mpr fun item hitem => ?_)
        obtain ⟨p, -, rfl⟩ := List.mem_map.mp hitem
        rfl
      · exact hproperties

end Sound

end ApiTypes

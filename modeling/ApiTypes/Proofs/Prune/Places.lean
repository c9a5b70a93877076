import ApiTypes.Prune.Basic
import ApiTypes.Proofs.Prune.Cleanup

/-!
  The places of a document at which a compilation may meet a reference.

  A **place** is an object that stands for a schema, a parameter, a request body or a response.
  Callbacks are left out, because no compilation reads them.

  **The walk for references covers every place** (`mem_collect_of_place`): it takes keys for names
  exactly where the parts do, and it passes no place over for instance data.
-/

namespace ApiTypes.Prune

/-- The kinds of component that a reference at a part may name. Only the parts that have some may
    stand behind a reference. -/
def kindsOf : Part → List String
  | .schema => ["schemas"]
  | .parameter => ["parameters", "headers"]
  | .requestBody => ["requestBodies"]
  | .response => ["responses"]
  | _ => []

mutual

/-- The objects in a value that may stand behind a reference, each with what it stands for. -/
def places (part : Part) : Json → List (Part × List (String × Json))
  | .obj members =>
    if part = .callback then []
    else (if (kindsOf part).isEmpty then [] else [(part, members)]) ++ placesInMembers part members
  | .arr items =>
    match part with
    | .listOf inner => placesInItems inner items
    | _ => []
  | .null | .bool _ | .int _ | .float _ | .str _ => []
termination_by structural value => value

/-- The places in the elements of a list of parts. -/
def placesInItems (part : Part) : List Json → List (Part × List (String × Json))
  | [] => []
  | item :: rest => places part item ++ placesInItems part rest
termination_by structural items => items

/-- The places in the members of a part. -/
def placesInMembers (part : Part) : List (String × Json) → List (Part × List (String × Json))
  | [] => []
  | (key, value) :: rest => places (childPart part key) value ++ placesInMembers part rest
termination_by structural members => members

end

variable {allowed : List String} {part : Part} {place : Part × List (String × Json)}

/-! ## 1. Places in parts of a part -/

theorem mem_placesInMembers {members : List (String × Json)} :
    place ∈ placesInMembers part members ↔
      ∃ entry ∈ members, place ∈ places (childPart part entry.1) entry.2 := by
  induction members with
  | nil => simp [placesInMembers]
  | cons entry rest ih => simp [placesInMembers, ih]

theorem mem_placesInItems {items : List Json} :
    place ∈ placesInItems part items ↔ ∃ item ∈ items, place ∈ places part item := by
  induction items with
  | nil => simp [placesInItems]
  | cons item rest ih => simp [placesInItems, ih]

/-- The places in an object: itself, if it is one, and those in its members. -/
theorem mem_places_obj {members : List (String × Json)} :
    place ∈ places part (.obj members) ↔
      part ≠ .callback ∧ ((kindsOf part ≠ [] ∧ place = (part, members)) ∨
        ∃ entry ∈ members, place ∈ places (childPart part entry.1) entry.2) := by
  by_cases hcallback : part = .callback
  · simp [places, hcallback]
  · by_cases hkinds : kindsOf part = [] <;>
      simp [places, hcallback, hkinds, mem_placesInMembers]

theorem mem_places_arr {items : List Json} :
    place ∈ places part (.arr items) ↔
      ∃ inner, part = .listOf inner ∧ ∃ item ∈ items, place ∈ places inner item := by
  cases part <;> simp [places, mem_placesInItems]

mutual

/-- What stays as it is has no places. -/
theorem places_other : (value : Json) → places .other value = []
  | .obj members => by simpa [places, kindsOf] using placesInMembers_other members
  | .arr _ | .null | .bool _ | .int _ | .float _ | .str _ => rfl

theorem placesInMembers_other : (members : List (String × Json)) →
    placesInMembers .other members = []
  | [] => rfl
  | (_, value) :: rest =>
    List.append_eq_nil_iff.mpr ⟨places_other value, placesInMembers_other rest⟩

end

/-! ## 2. Cleaned values -/

mutual

/-- What stays as it is is not cleaned. -/
theorem clean_other : (value : Json) → clean allowed .other value = value
  | .obj members => congrArg Json.obj (cleanMembers_other members)
  | .arr _ | .null | .bool _ | .int _ | .float _ | .str _ => rfl

theorem cleanMembers_other : (members : List (String × Json)) →
    cleanMembers allowed .other members = members
  | [] => rfl
  | (key, value) :: rest => by
    simp [cleanMembers, keepsKey, hasKeywords, childPart, clean_other value,
      cleanMembers_other rest]

end

theorem cleanItems_eq (part : Part) (items : List Json) :
    cleanItems allowed part items = items.map (clean allowed part) := by
  induction items with
  | nil => rfl
  | cons item rest ih => simp [cleanItems, ih]

/-! ## 3. The walk for references -/

/-- Whether the keys of a part are names, so that none of them is a keyword. -/
def isNamed : Part → Bool
  | .mapOf _ | .responses => true
  | _ => false

/-- Whether a part has keywords and stands inside an operation or a component. -/
def isKeyed : Part → Bool
  | .pathItem | .operation | .requestBody | .response | .parameter | .mediaType | .encoding
  | .schema | .link | .callback | .other => true
  | _ => false

/-- Whether a part stands inside an operation or a component. -/
def isInner : Part → Bool
  | .responses => true
  | .mapOf inner | .listOf inner => isKeyed inner
  | part => isKeyed part

theorem isInner_of_isKeyed (h : isKeyed part = true) : isInner part = true := by
  cases part <;> simp_all [isKeyed, isInner]

theorem not_isNamed_of_isKeyed (h : isKeyed part = true) : isNamed part = false := by
  cases part <;> simp_all [isKeyed, isNamed]

/-- Under a name stands a part with keywords. -/
theorem isKeyed_childPart_of_isNamed (hinner : isInner part = true) (hnamed : isNamed part = true)
    (key : String) : isKeyed (childPart part key) = true := by
  cases part with
  | mapOf inner => exact hinner
  | responses => rfl
  | _ => simp [isNamed] at hnamed

/-- **The walk and the parts agree on every keyword**: where a part stands under it, the walk goes
    there, and takes the keys that come next for names exactly when they are. -/
theorem walks_childPart (hinner : isInner part = true) (hnamed : isNamed part = false)
    (hcallback : part ≠ .callback) {key : String} (hother : childPart part key ≠ .other) :
    dataKeys.contains key = false ∧ nameKeys.contains key = isNamed (childPart part key) ∧
      isInner (childPart part key) = true := by
  have hmethods : ∀ key ∈ httpMethods,
      dataKeys.contains key = false ∧ nameKeys.contains key = false := by decide
  cases part with
  | pathItem =>
    simp only [childPart] at hother ⊢
    split_ifs at hother ⊢ with hkey hmethod
    · subst hkey
      decide
    · obtain ⟨hdata, hname⟩ := hmethods key (List.contains_iff_mem.mp hmethod)
      exact ⟨hdata, hname, rfl⟩
    · exact absurd rfl hother
  | operation | requestBody | response | parameter | mediaType | encoding | schema =>
    simp only [childPart, operationPart, schemaPart, Bool.or_eq_true, decide_eq_true_eq] at hother ⊢
    split_ifs at hother ⊢
    all_goals first
      | exact absurd rfl hother
      | rename_i hkey
        first | subst hkey; decide | rcases hkey with (rfl | rfl) | rfl <;> decide
  | callback => exact absurd rfl hcallback
  | mapOf _ | responses => simp [isNamed] at hnamed
  | link | listOf _ | other => exact absurd rfl hother
  | document | paths | components => simp [isInner, isKeyed] at hinner

variable {reference : String}

mutual

/-- **The walk covers every place**: what a place refers to is among the references of the
    value. -/
theorem mem_collect_of_place (part : Part) : (value : Json) → isInner part = true →
    place ∈ places part value → Schema.reference? (.obj place.2) = some reference →
      reference ∈ collect (isNamed part) value
  | .obj members, hinner, h, hreference => by
    by_cases hcallback : part = .callback
    · simp [places, hcallback] at h
    rw [places, if_neg hcallback, List.mem_append] at h
    rw [collect]
    rcases h with h | h
    · split at h
      · exact absurd h List.not_mem_nil
      · rename_i hkinds
        obtain rfl := List.mem_singleton.mp h
        have hnamed : isNamed part = false := by
          cases part <;> first | rfl | exact absurd rfl hkinds
        refine List.mem_append_left _ ?_
        simp only [hnamed, Bool.false_eq_true, if_false, ownReferences, List.mem_flatMap,
          List.mem_append, Option.mem_toList]
        exact ⟨reference, .inl hreference, by simp [withParent]⟩
    · exact List.mem_append_right _
        (mem_collectMembers_of_place part members hinner hcallback h hreference)
  | .arr items, hinner, h, hreference => by
    cases part with
    | listOf inner => exact mem_collectItems_of_place inner items hinner h hreference
    | _ => simp [places] at h
  | .null, _, h, _ | .bool _, _, h, _ | .int _, _, h, _ | .float _, _, h, _ | .str _, _, h, _ => by
    simp [places] at h

theorem mem_collectItems_of_place (part : Part) : (items : List Json) → isKeyed part = true →
    place ∈ placesInItems part items → Schema.reference? (.obj place.2) = some reference →
      reference ∈ collectItems items
  | [], _, h, _ => by simp [placesInItems] at h
  | item :: rest, hkeyed, h, hreference => by
    rw [collectItems]
    rcases List.mem_append.mp h with h | h
    · have hfound := mem_collect_of_place part item (isInner_of_isKeyed hkeyed) h hreference
      rw [not_isNamed_of_isKeyed hkeyed] at hfound
      exact List.mem_append_left _ hfound
    · exact List.mem_append_right _ (mem_collectItems_of_place part rest hkeyed h hreference)

theorem mem_collectMembers_of_place (part : Part) : (members : List (String × Json)) →
    isInner part = true → part ≠ .callback → place ∈ placesInMembers part members →
      Schema.reference? (.obj place.2) = some reference →
        reference ∈ collectMembers (isNamed part) members
  | [], _, _, h, _ => by simp [placesInMembers] at h
  | (key, value) :: rest, hinner, hcallback, h, hreference => by
    rw [collectMembers]
    rcases List.mem_append.mp h with h | h
    · refine List.mem_append_left _ ?_
      cases hnamed : isNamed part with
      | true =>
        have hkeyed := isKeyed_childPart_of_isNamed hinner hnamed key
        have hfound := mem_collect_of_place (childPart part key) value
          (isInner_of_isKeyed hkeyed) h hreference
        rw [not_isNamed_of_isKeyed hkeyed] at hfound
        simpa using hfound
      | false =>
        have hother : childPart part key ≠ .other := by
          intro heq
          simp [heq, places_other] at h
        obtain ⟨hdata, hnames, hchild⟩ := walks_childPart hinner hnamed hcallback hother
        have hfound := mem_collect_of_place (childPart part key) value hchild h hreference
        simpa only [hdata, hnames, Bool.false_eq_true, if_false] using hfound
    · exact List.mem_append_right _
        (mem_collectMembers_of_place part rest hinner hcallback h hreference)

end

end ApiTypes.Prune

import ApiTypes.Proofs.Compile.Merged

/-!
  What a compilation reads of a schema and of what pruning left of it.

  Two schemas that mirror each other say the same wherever a resolution looks, and the schemas
  below are cleaned likewise. That holds of a sound schema after the cleanup, and of two merges.
-/

namespace ApiTypes

open Prune

variable {allowed : List String} {kept : String → Prop} {members members' : List (String × Json)}

/-! ## 1. Keywords that are taken over -/

section Taken

variable {key : String}

theorem get?_takenOf_node (h : isTaken key = true) :
    (Json.obj (takenOf members)).get? key = (Json.obj members).get? key :=
  get?_takenOf h

theorem membersOf_takenOf (h : isTaken key = true) :
    Schema.membersOf key (.obj (takenOf members)) = Schema.membersOf key (.obj members) := by
  rw [Schema.membersOf, get?_takenOf_node h, Schema.membersOf]

theorem properties?_takenOf :
    Schema.properties? (.obj (takenOf members)) = Schema.properties? (.obj members) := by
  rw [Schema.properties?, get?_takenOf_node rfl, Schema.properties?]

theorem declaredTypes_takenOf :
    Schema.declaredTypes (.obj (takenOf members)) = Schema.declaredTypes (.obj members) := by
  rw [Schema.declaredTypes, get?_takenOf_node rfl, Schema.declaredTypes]

theorem types_takenOf :
    Schema.types (.obj (takenOf members)) = Schema.types (.obj members) := by
  rw [Schema.types, declaredTypes_takenOf, get?_takenOf_node rfl, get?_takenOf_node rfl,
    Schema.types]

theorem reference?_takenOf :
    Schema.reference? (.obj (takenOf members)) = Schema.reference? (.obj members) := by
  rw [Schema.reference?, Schema.text?, get?_takenOf_node rfl, Schema.reference?, Schema.text?]

theorem discriminatorProperty?_takenOf :
    discriminatorProperty? (.obj (takenOf members)) = discriminatorProperty? (.obj members) := by
  rw [discriminatorProperty?, get?_takenOf_node rfl, discriminatorProperty?]

theorem declaredMapping_takenOf :
    declaredMapping (.obj (takenOf members)) = declaredMapping (.obj members) := by
  rw [declaredMapping, get?_takenOf_node rfl, declaredMapping]

/-- The extensions that are understood are taken over. -/
theorem ofNode_takenOf :
    Extensions.ofNode (.obj (takenOf members)) = Extensions.ofNode (.obj members) := by
  have hrecognized : ∀ key ∈ Extensions.recognized, isTaken key = true := by decide
  exact ofNode_filter fun entry hentry => hrecognized entry.1 hentry

end Taken

namespace Mirrors

variable (h : Mirrors allowed kept members members')
include h

theorem cleaned : Json.obj (takenOf members') = clean allowed .schema (.obj (takenOf members)) :=
  congrArg Json.obj h.taken

theorem get? {key : String} (htaken : isTaken key = true) (hkey : isLasting .schema key = true) :
    (Json.obj members').get? key =
      ((Json.obj members).get? key).map (clean allowed (schemaPart key)) := by
  rw [← get?_takenOf_node htaken, h.cleaned, get?_clean_of_isLasting hkey, get?_takenOf_node htaken]
  rfl

theorem isSome_get? {key : String} (htaken : isTaken key = true)
    (hkey : isLasting .schema key = true) :
    ((Json.obj members').get? key).isSome = ((Json.obj members).get? key).isSome := by
  rw [h.get? htaken hkey, Option.isSome_map]

theorem sound {key : String} {value : Json} (htaken : isTaken key = true)
    (hget : (Json.obj members).get? key = some value) :
    Sound allowed kept (schemaPart key) value := by
  rw [← get?_takenOf_node htaken] at hget
  exact (h.plain _ (Entries.mem_of_get? hget)).sound

theorem reference : Schema.reference? (.obj members) = none := by
  rw [← reference?_takenOf]
  cases hget : (Json.obj (takenOf members)).get? "$ref" with
  | none => simp [Schema.reference?, Schema.text?, hget]
  | some value =>
    have hplain := (h.plain _ (Entries.mem_of_get? hget)).reference rfl
    simpa [Schema.reference?, Schema.text?, hget] using hplain

theorem reference' : Schema.reference? (.obj members') = none := by
  rw [← reference?_takenOf, h.cleaned, reference?_clean (by simp [kindsOf]), reference?_takenOf,
    h.reference]

theorem declaredTypes :
    Schema.declaredTypes (.obj members') = Schema.declaredTypes (.obj members) := by
  rw [← declaredTypes_takenOf, h.cleaned, declaredTypes_clean, declaredTypes_takenOf]

theorem types : Schema.types (.obj members') = Schema.types (.obj members) := by
  rw [← types_takenOf, h.cleaned, types_clean, types_takenOf]

theorem properties? : Schema.properties? (.obj members') =
    (Schema.properties? (.obj members)).map
      (List.map fun entry => (entry.1, clean allowed .schema entry.2)) := by
  rw [← properties?_takenOf, h.cleaned, properties?_clean, properties?_takenOf]

theorem property {properties : List (String × Json)}
    (hget : Schema.properties? (.obj members) = some properties) {entry : String × Json}
    (hentry : entry ∈ properties) : Sound allowed kept .schema entry.2 := by
  obtain ⟨object, hobject, hmembers⟩ := Option.bind_eq_some_iff.mp hget
  have hsound := h.sound rfl hobject
  cases object with
  | obj found =>
    obtain rfl := Option.some.inj hmembers
    exact hsound.named hentry
  | _ => simp [Json.members?] at hmembers

/-- The elements of a union. -/
theorem elements {key : String} (hkey : key = "anyOf" ∨ key = "oneOf") :
    Schema.membersOf key (.obj members') =
      (Schema.membersOf key (.obj members)).map (clean allowed .schema) := by
  rcases hkey with rfl | rfl <;>
    rw [← membersOf_takenOf rfl, h.cleaned, membersOf_clean rfl rfl, membersOf_takenOf rfl]

theorem element {key : String} (hkey : key = "anyOf" ∨ key = "oneOf") {element : Json}
    (hmem : element ∈ Schema.membersOf key (.obj members)) :
    Sound allowed kept .schema element := by
  have htaken : isTaken key = true := by rcases hkey with rfl | rfl <;> rfl
  have hpart : schemaPart key = .listOf .schema := by rcases hkey with rfl | rfl <;> rfl
  cases hget : (Json.obj members).get? key with
  | none => simp [Schema.membersOf, hget] at hmem
  | some list =>
    have hsound := h.sound htaken hget
    rw [hpart] at hsound
    cases list with
    | arr items => exact hsound.item (by simpa [Schema.membersOf, hget, Json.items?] using hmem)
    | _ => simp [Schema.membersOf, hget, Json.items?] at hmem

theorem hasUnion : Schema.hasUnion (.obj members') = Schema.hasUnion (.obj members) := by
  rw [Schema.hasUnion, h.elements (.inl rfl), h.elements (.inr rfl), Schema.hasUnion]
  simp

theorem discriminatorProperty? :
    ApiTypes.discriminatorProperty? (.obj members') =
      ApiTypes.discriminatorProperty? (.obj members) := by
  rw [← discriminatorProperty?_takenOf, h.cleaned, discriminatorProperty?_clean,
    discriminatorProperty?_takenOf]

theorem declaredMapping :
    ApiTypes.declaredMapping (.obj members') = ApiTypes.declaredMapping (.obj members) := by
  rw [← declaredMapping_takenOf, h.cleaned, declaredMapping_clean, declaredMapping_takenOf]

theorem ofNode (hallowed : Extensions.recognized ⊆ allowed) :
    Extensions.ofNode (.obj members') = Extensions.ofNode (.obj members) := by
  rw [← ofNode_takenOf, h.cleaned, ofNode_clean hallowed, ofNode_takenOf]

/-- Both schemas are closed, or neither. -/
theorem isClosed :
    (Schema.Openness.ofKeyword ((Json.obj members').get? "additionalProperties")).isClosed =
      (Schema.Openness.ofKeyword ((Json.obj members).get? "additionalProperties")).isClosed := by
  rw [Json.get?_obj, Json.get?_obj, h.openness]
  exact Schema.Openness.isClosed_trimmed (Schema.Openness.isProper_ofKeyword _)

end Mirrors

/-! ## 2. Members of an `allOf` -/

/-- Two schemas that say the same to a resolution, the second after a cleanup. -/
structure Resembles (allowed : List String) (kept : String → Prop)
    (members members' : List (String × Json)) : Prop extends Mirrors allowed kept members members'
    where
  allOf : Schema.membersOf "allOf" (.obj members') =
    (Schema.membersOf "allOf" (.obj members)).map (clean allowed .schema)
  allOfSound : ∀ member ∈ Schema.membersOf "allOf" (.obj members),
    Sound allowed kept .schema member
  own : Schema.membersOf "allOf" (.obj members) ≠ [] →
    Schema.ownKeywords (.obj members') =
      (Schema.ownKeywords (.obj members)).map (cleanMembers allowed .schema)
  ownFlat : Schema.membersOf "allOf" (.obj members) ≠ [] →
    ∀ own, Schema.ownKeywords (.obj members) = some own →
      Flat allowed kept (.obj own) ∧ Schema.hasUnion (.obj own) = Schema.hasUnion (.obj members)
  fields : Schema.hasUnion (.obj members) = true →
    (Env.fieldKeywords.any fun key => ((Json.obj members').get? key).isSome) =
      Env.fieldKeywords.any fun key => ((Json.obj members).get? key).isSome

/-- **A sound schema resembles what the cleanup leaves of it.** -/
theorem Sound.resembles (h : Sound allowed kept .schema (.obj members))
    (hreference : Schema.reference? (.obj members) = none) :
    Resembles allowed kept members (cleanMembers allowed .schema members) where
  toMirrors := h.mirrors hreference
  allOf := show Schema.membersOf "allOf" (clean allowed .schema (.obj members)) = _ from
    membersOf_clean rfl rfl
  allOfSound _ hmember := h.membersOf (by simp) rfl rfl hmember
  own _ := @ownKeywords_clean allowed (.obj members)
  ownFlat _ own hown := by
    simp only [Schema.ownKeywords] at hown
    split at hown
    · obtain rfl := Option.some.inj hown
      exact ⟨h.flat_erase hreference, hasUnion_erase members⟩
    · simp at hown
  fields _ := @hasFields_clean allowed (.obj members)

/-- **A merge resembles the merge of what the cleanup leaves.** -/
theorem Merging.resembles (h : Merging allowed kept members members') :
    Resembles allowed kept members members' where
  toMirrors := h.toMirrors
  allOf := by rw [h.allOf, h.allOf', List.map_nil]
  allOfSound _ hmember := by simp [h.allOf] at hmember
  own hnonempty := absurd h.allOf hnonempty
  ownFlat hnonempty := absurd h.allOf hnonempty
  fields hunion := by simp [h.union] at hunion

end ApiTypes

import ApiTypes.Prune.Cleanup
import ApiTypes.Proofs.Json

/-!
  What a cleanup leaves.

  A member of a part that stays is the cleaned member of the same key (`get?_clean`), and keys only
  go, so none comes twice that did not before.
-/

namespace ApiTypes.Prune

variable (allowed : List String)

theorem cleanMembers_eq (part : Part) (members : List (String × Json)) :
    cleanMembers allowed part members =
      (members.filter fun entry => keepsKey allowed part entry.1).map fun entry =>
        (entry.1, clean allowed (childPart part entry.1) entry.2) := by
  induction members with
  | nil => rfl
  | cons entry rest ih =>
    obtain ⟨key, value⟩ := entry
    by_cases h : keepsKey allowed part key = true <;> simp [cleanMembers, h, ih]

theorem keys_cleanMembers (part : Part) (members : List (String × Json)) :
    Entries.keys (cleanMembers allowed part members) =
      (Entries.keys members).filter (keepsKey allowed part) := by
  rw [cleanMembers_eq, Entries.keys_map (f := fun key => clean allowed (childPart part key))]
  simp [Entries.keys, List.filter_map, Function.comp_def]

@[simp] theorem isObject_clean (part : Part) (value : Json) :
    (clean allowed part value).isObject = value.isObject := by
  cases value with
  | arr items => cases part <;> simp [clean, Json.isObject, Json.members?]
  | _ => simp [clean, Json.isObject, Json.members?]

/-- **A member of a cleaned part is the cleaned member.** -/
theorem get?_clean (part : Part) (key : String) (value : Json) :
    (clean allowed part value).get? key =
      if keepsKey allowed part key then
        (value.get? key).map (clean allowed (childPart part key)) else none := by
  cases value with
  | obj members =>
    simp only [clean, Json.get?_obj]
    induction members with
    | nil => simp [cleanMembers]
    | cons entry rest ih =>
      obtain ⟨name, old⟩ := entry
      by_cases hname : name = key
      · subst hname
        by_cases hkeep : keepsKey allowed part name = true
        · simp [cleanMembers, hkeep, Entries.get?_cons]
        · simpa [cleanMembers, hkeep] using ih
      · by_cases hkeep : keepsKey allowed part name = true
        · simpa [cleanMembers, hkeep, Entries.get?_cons, hname] using ih
        · simpa [cleanMembers, hkeep, Entries.get?_cons, hname] using ih
  | arr items => cases part <;> simp [clean, Json.get?, Json.members?]
  | _ => simp [clean, Json.get?, Json.members?]

/-- Where the collection of a kind of components is an object, it is one after the cleanup. -/
theorem isObject_collection_clean {document : Json} {kind : String}
    (h : ∀ collection,
      (document.get? "components").bind (Json.get? kind) = some collection →
        collection.isObject = true) (collection : Json)
    (hcollection : ((clean allowed .document document).get? "components").bind (Json.get? kind) =
      some collection) : collection.isObject = true := by
  rw [get?_clean] at hcollection
  obtain ⟨cleaned, hcleaned, hkind⟩ := Option.bind_eq_some_iff.mp hcollection
  split at hcleaned
  · obtain ⟨components, hcomponents, rfl⟩ := Option.map_eq_some_iff.mp hcleaned
    rw [get?_clean] at hkind
    split at hkind
    · obtain ⟨old, hold, rfl⟩ := Option.map_eq_some_iff.mp hkind
      rw [isObject_clean]
      exact h old (by rw [hcomponents]; exact hold)
    · simp at hkind
  · simp at hcleaned

mutual

theorem hasDistinctKeys_clean (part : Part) :
    (value : Json) → value.hasDistinctKeys = true →
      (clean allowed part value).hasDistinctKeys = true
  | .obj members, h => by
    obtain ⟨hnodup, hvalues⟩ := Json.hasDistinctKeys_obj.mp h
    refine Json.hasDistinctKeys_obj.mpr ⟨?_, ?_⟩
    · rw [keys_cleanMembers]
      exact hnodup.filter _
    · exact distinctKeys_cleanMembers part members hvalues
  | .arr items, h => by
    cases part with
    | listOf inner => exact distinctKeys_cleanItems inner items h
    | _ => exact h
  | .null, h | .bool _, h | .int _, h | .float _, h | .str _, h => h

theorem distinctKeys_cleanItems (part : Part) :
    (items : List Json) → Json.itemsHaveDistinctKeys items = true →
      Json.itemsHaveDistinctKeys (cleanItems allowed part items) = true
  | [], h => h
  | item :: rest, h => by
    simp only [Json.itemsHaveDistinctKeys, cleanItems, Bool.and_eq_true] at h ⊢
    exact ⟨hasDistinctKeys_clean part item h.1, distinctKeys_cleanItems part rest h.2⟩

theorem distinctKeys_cleanMembers (part : Part) :
    (members : List (String × Json)) → (∀ entry ∈ members, entry.2.hasDistinctKeys = true) →
      ∀ entry ∈ cleanMembers allowed part members, entry.2.hasDistinctKeys = true
  | [], _ => by simp [cleanMembers]
  | (key, value) :: rest, h => by
    have hvalue := hasDistinctKeys_clean (childPart part key) value (h _ List.mem_cons_self)
    have hrest := distinctKeys_cleanMembers part rest fun entry hentry =>
      h entry (List.mem_cons_of_mem _ hentry)
    simp only [cleanMembers]
    split
    · intro entry hentry
      rcases List.mem_cons.mp hentry with rfl | hmem
      · exact hvalue
      · exact hrest entry hmem
    · exact hrest

end

end ApiTypes.Prune

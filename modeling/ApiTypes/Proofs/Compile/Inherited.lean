import ApiTypes.Proofs.Compile.Merged

/-!
  What a compilation takes out of a document.

  It reads the members of lists, follows references, flattens and merges the members of an `allOf`,
  and looks for the schemas of components, parameters and contents. What the values inside a value
  inherit holds of all that is read from a document that it holds of. Where the members of an
  `allOf` are merged, a property of the result comes from what one merge keeps.
-/

namespace ApiTypes

open Schema

/-! ## 1. Below a value -/

namespace Schema

variable {node : Json}

theorem exists_of_mem_membersOf {key : String} {member : Json} (h : member ∈ membersOf key node) :
    ∃ items, node.get? key = some (.arr items) ∧ member ∈ items := by
  cases hget : node.get? key with
  | none => simp [membersOf, hget] at h
  | some list =>
    cases list with
    | arr items => exact ⟨items, rfl, by simpa [membersOf, hget, Json.items?] using h⟩
    | _ => simp [membersOf, hget, Json.items?] at h

/-- What a node says beside its `allOf` is what is left without it. -/
theorem ownKeywords_eq_some {found : List (String × Json)} (h : ownKeywords node = some found) :
    ∃ members, node = .obj members ∧ found = Entries.erase "allOf" members := by
  cases node with
  | obj members =>
    simp only [ownKeywords] at h
    split at h
    · exact ⟨members, rfl, (Option.some.inj h).symm⟩
    · simp at h
  | _ => simp [ownKeywords] at h

end Schema

namespace Json.Inherited

variable {P : Json → Prop} {value : Json} (h : Inherited P) (hvalue : P value)
include h hvalue

theorem membersOf {key : String} {member : Json} (hmember : member ∈ membersOf key value) :
    P member := by
  obtain ⟨items, hget, hitem⟩ := exists_of_mem_membersOf hmember
  exact h.item (h.get? hvalue hget) hitem

/-- The schema of a parameter stands in the parameter. -/
theorem parameterSchema {schema : Json}
    (hschema : (value.get? "schema").or (firstContentSchema? value) = some schema) : P schema := by
  rcases Option.or_eq_some_iff.mp hschema with hget | ⟨-, hcontent⟩
  · exact h.get? hvalue hget
  · rw [firstContentSchema?_eq] at hcontent
    obtain ⟨entry, hentry, hget⟩ := Option.bind_eq_some_iff.mp hcontent
    obtain ⟨entries, hentries, hhead⟩ := Option.bind_eq_some_iff.mp hentry
    exact h.get? (h.entries hvalue hentries (List.mem_of_head? hhead)) hget

/-- The schema of a content stands in the content. -/
theorem contentSchema? {schema : Json} (hschema : contentSchema? value = some schema) :
    P schema := by
  obtain ⟨entries, hentries, hschema⟩ := Option.bind_eq_some_iff.mp hschema
  obtain ⟨media, hmedia, hget⟩ := Option.bind_eq_some_iff.mp hschema
  obtain ⟨entry, hentry, rfl⟩ := Option.map_eq_some_iff.mp hmedia
  have hmem : entry ∈ entries := by
    rcases Option.or_eq_some_iff.mp hentry with hfind | ⟨-, hhead⟩
    · exact List.mem_of_find?_eq_some hfind
    · exact List.mem_of_head? hhead
  exact h.get? (h.entries hvalue hentries hmem) hget

omit hvalue

/-- The schemas of components stand in the document. -/
theorem component {doc : Document} (hroot : P doc.root) {key : String} {node : Json}
    (hnode : (key, node) ∈ doc.components "schemas") : P node := by
  unfold Document.components at hnode
  split at hnode
  · rename_i entries hcollection
    obtain ⟨components, hcomponents, hschemas⟩ := Option.bind_eq_some_iff.mp hcollection
    exact h.member (h.get? (h.get? hroot hcomponents) hschemas) hnode
  · exact absurd hnode List.not_mem_nil

/-- The operations and their path items stand in the document. -/
theorem operation {doc : Document} (hroot : P doc.root) {operation : Operation}
    (hmem : operation ∈ Operation.ofDocument doc) : P operation.item ∧ P operation.node := by
  obtain ⟨entry, hentry, hoperation⟩ := List.mem_flatMap.mp hmem
  obtain ⟨method, -, hmethod⟩ := List.mem_filterMap.mp hoperation
  obtain ⟨node, hnode, rfl⟩ := Option.map_eq_some_iff.mp hmethod
  have hitem := h.entries_getD hroot hentry
  exact ⟨hitem, h.get? hitem hnode⟩

end Json.Inherited

/-! ## 2. What references lead to -/

namespace Env

variable {env : Env} {site : Site} {node target : Json}

/-- What references lead to is like the places of the document. -/
theorem follow_induction {P : Json → Prop}
    (hdoc : ∀ reference target, env.doc.resolve? reference = some target → P target) {hops : Nat}
    (hnode : P node) (h : env.follow site hops node = .ok target) : P target := by
  induction hops generalizing node with
  | zero =>
    unfold Env.follow at h
    split at h
    · exact Except.ok.inj h ▸ hnode
    · simp at h
  | succ hops ih =>
    unfold Env.follow at h
    split at h
    · exact Except.ok.inj h ▸ hnode
    · obtain ⟨next, hnext, h⟩ := bind_eq_ok.mp h
      exact ih (hdoc _ next (resolve_eq_ok.mp hnext)) h

/-- What flattening leaves is like the members, refers to nothing and has no members of its own. -/
theorem flatten_induction {P : Json → Prop}
    (hdoc : ∀ reference target, env.doc.resolve? reference = some target → P target)
    (herase : ∀ found, P (.obj found) → P (.obj (Entries.erase "allOf" found)))
    (hnested : ∀ node, P node → ∀ member ∈ membersOf "allOf" node, P member) {levels : Nat}
    {members flat : List Json} (hmembers : ∀ member ∈ members, P member)
    (h : env.flatten site levels members = .ok flat) :
    ∀ node ∈ flat, P node ∧ reference? node = none ∧ membersOf "allOf" node = [] := by
  induction levels generalizing members flat with
  | zero => simp [Env.flatten] at h
  | succ levels ih =>
    induction members generalizing flat with
    | nil =>
      obtain rfl := Except.ok.inj h
      simp
    | cons member rest ihrest =>
      obtain ⟨hmember, hrest⟩ := List.forall_mem_cons.mp hmembers
      obtain ⟨first, others, hfirst, hothers, rfl⟩ := flatten_cons_eq_ok.mp h
      refine List.forall_mem_append.mpr ⟨?_, ihrest hrest hothers⟩
      obtain ⟨node, hderef, hfirst⟩ := bind_eq_ok.mp hfirst
      have hnode : P node := follow_induction hdoc hmember hderef
      have hreference := reference?_of_follow hderef
      dsimp only at hfirst
      split at hfirst
      · rename_i hempty
        obtain rfl := Except.ok.inj hfirst
        simpa using ⟨hnode, hreference, by simpa using hempty⟩
      · obtain ⟨below, hbelow, hfirst⟩ := bind_eq_ok.mp hfirst
        obtain rfl := Except.ok.inj hfirst
        refine List.forall_mem_append.mpr ⟨fun own hown => ?_, ih (hnested node hnode) hbelow⟩
        cases node with
        | obj found =>
          simp only [besidesAllOf] at hown
          split at hown
          · simp at hown
          · obtain rfl := List.mem_singleton.mp hown
            refine ⟨herase found hnode, ?_, ?_⟩
            · rwa [reference?, text?, Json.get?_obj, get?_erase_of_ne (by decide)]
            · simp [membersOf, Json.get?_obj, Entries.get?_erase_self]
        | _ => simp [besidesAllOf] at hown

/-- **What a merge with every schema keeps holds of what members describe together.** -/
theorem mergedMembers_induction {P : Json → Prop} {own : Option (List (String × Json))}
    {members : List Json} {merged : List (String × Json)}
    (hstep : ∀ flat, env.flatten site (maxDepth + 1) members = .ok flat → ∀ start merged,
      ∀ node ∈ flat, P (soFar start) → merge start node = .ok merged → P (.obj merged))
    (hown : P (soFar own)) (h : env.mergedMembers site own members = .ok merged) :
    P (.obj merged) := by
  obtain ⟨flat, hflat, h⟩ := bind_eq_ok.mp h
  split at h
  · rename_i result hresult
    obtain rfl := Except.ok.inj h
    exact mergeAll_induction (hstep flat hflat) hown hresult
  · simp at h

end Env

/-- **It holds of what references lead to.** -/
theorem Json.Inherited.deref {P : Json → Prop} (h : Inherited P) {env : Env}
    (hroot : P env.doc.root) {site : Site} {node target : Json} (hnode : P node)
    (htarget : env.deref node site = .ok target) : P target :=
  Env.follow_induction (fun _ _ => h.resolve? hroot) hnode htarget

end ApiTypes

import ApiTypes.Prune.Basic
import ApiTypes.Proofs.Reference
import ApiTypes.Proofs.Prune.Cleanup

/-!
  The components of a document, and what a sweep leaves of them.

  * `componentsOf` lists the components of the kinds that may go.
  * `restrict` says what it means to leave only some of them: their entries go, and **every other
    member of the document, the order and the bodies stay**.
  * A sweep is a restriction (`sweep_eq_restrict`), and what it deletes are the references of the
    components that it does not keep (`doomed_eq`).
-/

namespace ApiTypes.Prune

/-- A component: its kind, its name and its body. -/
structure Component where
  kind : String
  name : String
  body : Json

/-- How references name a component. -/
def Component.reference (c : Component) : String := Reference.ofComponent c.kind c.name

/-- The components of a kind. -/
def componentsOfKind (document : Json) (kind : String) : List Component :=
  (entriesOf document kind).map fun entry => ⟨kind, entry.1, entry.2⟩

/-- The components of the kinds that may go, kind by kind. -/
def componentsOf (document : Json) : List Component :=
  prunableKinds.flatMap (componentsOfKind document)

/-! ## 1. Components and their references -/

theorem isPlain_of_prunable : ∀ kind ∈ prunableKinds, Reference.IsPlain kind := by decide

theorem prunable_of_referring : ∀ kind ∈ referringKinds, kind ∈ prunableKinds := by decide

variable {document : Json} {c d : Component}

theorem mem_componentsOf :
    c ∈ componentsOf document ↔
      c.kind ∈ prunableKinds ∧ (c.name, c.body) ∈ entriesOf document c.kind := by
  simp only [componentsOf, componentsOfKind, List.mem_flatMap, List.mem_map]
  constructor
  · rintro ⟨kind, hkind, entry, hentry, rfl⟩
    exact ⟨hkind, hentry⟩
  · rintro ⟨hkind, hentry⟩
    exact ⟨c.kind, hkind, _, hentry, rfl⟩

/-- Two components of one reference have one kind and one name. -/
theorem kind_name_of_reference_eq (hc : c.kind ∈ prunableKinds) (hd : d.kind ∈ prunableKinds)
    (h : c.reference = d.reference) : c.kind = d.kind ∧ c.name = d.name :=
  Reference.ofComponent_inj (isPlain_of_prunable _ hc) (isPlain_of_prunable _ hd) h

theorem nodup_keys_entriesOf (hkeys : document.hasDistinctKeys = true) (kind : String) :
    (Entries.keys (entriesOf document kind)).Nodup := by
  unfold entriesOf
  cases hcomponents : document.get? "components" with
  | none => simp [Entries.keys]
  | some components =>
    cases hvalue : components.get? kind with
    | none => simp [hvalue, Entries.keys]
    | some value =>
      cases hmembers : value.members? with
      | none => simp [hvalue, hmembers, Entries.keys]
      | some members =>
        have hvalueKeys := Json.hasDistinctKeys_of_get?
          (Json.hasDistinctKeys_of_get? hkeys hcomponents) hvalue
        simpa [hvalue, hmembers] using Json.nodup_keys_of_members? hvalueKeys hmembers

/-- **Every component of a document is there once.** -/
theorem nodup_references (hkeys : document.hasDistinctKeys = true) :
    ((componentsOf document).map Component.reference).Nodup := by
  have hkind : ∀ kind ∈ prunableKinds,
      ((componentsOfKind document kind).map Component.reference).Nodup := by
    intro kind hkind
    have hcomp : (componentsOfKind document kind).map Component.reference =
        (Entries.keys (entriesOf document kind)).map (Reference.ofComponent kind) := by
      simp [componentsOfKind, Entries.keys, Component.reference]
    rw [hcomp]
    refine (nodup_keys_entriesOf hkeys kind).map fun name other hname => ?_
    have hplain := isPlain_of_prunable kind hkind
    exact (Reference.ofComponent_inj hplain hplain hname).2
  rw [componentsOf, List.map_flatMap, List.nodup_flatMap]
  refine ⟨hkind, ?_⟩
  have hkinds : prunableKinds.Pairwise (· ≠ ·) := by decide
  refine hkinds.imp_of_mem fun {kind other} hk ho hne reference hleft hright => hne ?_
  obtain ⟨left, hleft, hleftRef⟩ := List.mem_map.mp hleft
  obtain ⟨right, hright, hrightRef⟩ := List.mem_map.mp hright
  obtain ⟨_, _, rfl⟩ := List.mem_map.mp hleft
  obtain ⟨_, _, rfl⟩ := List.mem_map.mp hright
  exact (kind_name_of_reference_eq hk ho (hleftRef.trans hrightRef.symm)).1

/-- What the reference of a component points at. -/
theorem resolve?_ofComponent {kind : String} (hkind : kind ∈ prunableKinds) (name : String) :
    document.resolve? (Reference.ofComponent kind name) =
      ((document.get? "components").bind (Json.get? kind)).bind (Json.child? name) := by
  have hcomponents : Json.index? "components" = none := by decide
  have hindex : ∀ kind ∈ prunableKinds, Json.index? kind = none := by decide
  rw [Reference.resolve?_ofComponent (isPlain_of_prunable kind hkind)]
  simp only [Json.at?, Json.child?_of_index?_eq_none hcomponents,
    Json.child?_of_index?_eq_none (hindex kind hkind), Option.bind_assoc]
  simp

/-- **The reference of a component points at its body.** -/
theorem resolve?_reference (hkeys : document.hasDistinctKeys = true)
    (hc : c ∈ componentsOf document) : document.resolve? c.reference = some c.body := by
  obtain ⟨hkind, hentry⟩ := mem_componentsOf.mp hc
  have hget := Entries.get?_of_mem (nodup_keys_entriesOf hkeys c.kind) hentry
  rw [Component.reference, resolve?_ofComponent hkind]
  unfold entriesOf at hget
  cases hcollection : (document.get? "components").bind (Json.get? c.kind) with
  | none => simp [hcollection] at hget
  | some collection =>
    cases collection with
    | obj entries => simpa [hcollection, Json.members?, Json.child?] using hget
    | _ => simp [hcollection, Json.members?] at hget

/-- **What the reference of a component points at is the body of a component**, where the
    components of its kind are no list. -/
theorem mem_componentsOf_of_resolve? {kind name : String} {target : Json}
    (hkind : kind ∈ prunableKinds)
    (hlist : ∀ items, (document.get? "components").bind (Json.get? kind) ≠ some (.arr items))
    (h : document.resolve? (Reference.ofComponent kind name) = some target) :
    ⟨kind, name, target⟩ ∈ componentsOf document := by
  rw [resolve?_ofComponent hkind] at h
  obtain ⟨collection, hcollection, hchild⟩ := Option.bind_eq_some_iff.mp h
  refine mem_componentsOf.mpr ⟨hkind, ?_⟩
  cases collection with
  | obj entries => simpa [entriesOf, hcollection, Json.members?] using Entries.mem_of_get? hchild
  | arr items => exact absurd hcollection (hlist items)
  | _ => simp [Json.child?] at hchild

/-! ## 2. Restricting a document -/

/-- A collection of components, of which only those that are kept are left. Nothing goes from a
    collection of another kind. -/
def restrictKind (keep : String → Bool) (kind : String) (collection : Json) : Json :=
  if kind ∈ prunableKinds then
    collection.mapMembers (·.filter fun entry => keep (Reference.ofComponent kind entry.1))
  else collection

/-- The collections of components, of which only those that are kept are left. -/
def restrictComponents (keep : String → Bool) (components : Json) : Json :=
  components.mapValues (restrictKind keep)

/-- A document in which only the components that are kept are left, and everything else is as it
    was. -/
def restrict (keep : String → Bool) (document : Json) : Json :=
  document.mapValues fun key value =>
    if key = "components" then restrictComponents keep value else value

variable {keep : String → Bool}

theorem get?_restrict_of_ne {key : String} (h : key ≠ "components") :
    (restrict keep document).get? key = document.get? key := by
  simp [restrict, Json.get?_mapValues, h]

theorem get?_restrict_components :
    (restrict keep document).get? "components" =
      (document.get? "components").map (restrictComponents keep) := by
  simp [restrict, Json.get?_mapValues]

/-- The collection of a kind after a restriction. -/
theorem get?_get?_restrict (kind : String) :
    ((restrict keep document).get? "components").bind (Json.get? kind) =
      ((document.get? "components").bind (Json.get? kind)).map (restrictKind keep kind) := by
  rw [get?_restrict_components]
  cases document.get? "components" with
  | none => rfl
  | some value => exact Json.get?_mapValues kind

theorem entriesOf_restrict {kind : String} (hkind : kind ∈ prunableKinds) :
    entriesOf (restrict keep document) kind =
      (entriesOf document kind).filter fun entry => keep (Reference.ofComponent kind entry.1) := by
  unfold entriesOf
  rw [get?_get?_restrict]
  cases (document.get? "components").bind (Json.get? kind) with
  | none => rfl
  | some value => cases value <;> simp [restrictKind, hkind, Json.mapMembers, Json.members?]

/-- **The components that are left are those that are kept, with their bodies and in order.** -/
theorem componentsOf_restrict :
    componentsOf (restrict keep document) =
      (componentsOf document).filter fun c => keep c.reference := by
  have hkinds : ∀ kind ∈ prunableKinds,
      componentsOfKind (restrict keep document) kind =
        (componentsOfKind document kind).filter fun c => keep c.reference := by
    intro kind hkind
    simp [componentsOfKind, entriesOf_restrict hkind, List.filter_map, Function.comp_def,
      Component.reference]
  simp only [componentsOf, List.filter_flatMap]
  exact List.flatMap_congr hkinds

theorem operationReferences_restrict :
    operationReferences (restrict keep document) = operationReferences document := by
  simp [operationReferences, get?_restrict_of_ne]

theorem hasDistinctKeys_restrictKind {kind : String} {collection : Json}
    (hkeys : collection.hasDistinctKeys = true) :
    (restrictKind keep kind collection).hasDistinctKeys = true := by
  unfold restrictKind
  split
  · exact Json.hasDistinctKeys_mapMembers (fun _ => Json.hasDistinctKeys_filter) hkeys
  · exact hkeys

theorem hasDistinctKeys_restrict (hkeys : document.hasDistinctKeys = true) :
    (restrict keep document).hasDistinctKeys = true := by
  refine Json.hasDistinctKeys_mapValues hkeys fun key value hvalue => ?_
  split
  · exact Json.hasDistinctKeys_mapValues hvalue fun _ _ => hasDistinctKeys_restrictKind
  · exact hvalue

theorem restrictKind_restrictKind (keep other : String → Bool) (kind : String)
    (collection : Json) :
    restrictKind other kind (restrictKind keep kind collection) =
      restrictKind (fun reference => keep reference && other reference) kind collection := by
  unfold restrictKind
  split
  · cases collection <;> simp [Json.mapMembers, List.filter_filter, Bool.and_comm]
  · rfl

/-- **Restricting twice keeps what both restrictions keep.** -/
theorem restrict_restrict (keep other : String → Bool) (document : Json) :
    restrict other (restrict keep document) =
      restrict (fun reference => keep reference && other reference) document := by
  rw [restrict, restrict, Json.mapValues_mapValues, restrict]
  congr 1
  funext key value
  split
  · simp [restrictComponents, Json.mapValues_mapValues, restrictKind_restrictKind]
  · rfl

/-- A restriction that keeps everything changes nothing. -/
theorem restrict_all (document : Json) : restrict (fun _ => true) document = document := by
  have hkind : restrictKind (fun _ => true) = fun _ collection => collection := by
    funext kind collection
    unfold restrictKind
    split
    · cases collection <;> simp [Json.mapMembers]
    · rfl
  have hcomponents : restrictComponents (fun _ => true) = fun components => components := by
    funext components
    rw [restrictComponents, hkind, Json.mapValues_id]
  simp only [restrict, hcomponents, ite_self, Json.mapValues_id]

/-- Restrictions that agree on the components of a document leave the same. -/
theorem restrict_congr {other : String → Bool} (hkeys : document.hasDistinctKeys = true)
    (h : ∀ c ∈ componentsOf document, keep c.reference = other c.reference) :
    restrict keep document = restrict other document := by
  refine Json.mapValues_congr fun members hmembers entry hentry => ?_
  subst hmembers
  obtain ⟨key, components⟩ := entry
  split
  · rename_i hkey
    subst hkey
    refine Json.mapValues_congr fun collections hcollections entry hentry' => ?_
    subst hcollections
    obtain ⟨kind, collection⟩ := entry
    have hcomponents : (Json.obj members).get? "components" = some (.obj collections) :=
      Entries.get?_of_mem (Json.hasDistinctKeys_obj.mp hkeys).1 hentry
    have hcollection : (Json.obj collections).get? kind = some collection :=
      Entries.get?_of_mem
        (Json.hasDistinctKeys_obj.mp (Json.hasDistinctKeys_of_get? hkeys hcomponents)).1 hentry'
    unfold restrictKind
    split
    · rename_i hkind
      cases collection with
      | obj entries =>
        refine congrArg Json.obj (List.filter_congr fun entry hmem => ?_)
        refine h ⟨kind, entry.1, entry.2⟩ (mem_componentsOf.mpr ⟨hkind, ?_⟩)
        simpa [entriesOf, hcomponents, hcollection, Json.members?] using hmem
      | _ => rfl
    · rfl
  · rfl

/-! ## 3. Sweeps -/

/-- Sweeping one kind after the other sweeps each collection once. -/
theorem foldl_sweepKind (keep : String → Bool) (kinds : List String) (hkinds : kinds.Nodup) :
    ∀ collections : List (String × Json), (Entries.keys collections).Nodup →
      kinds.foldl (fun collections kind => sweepKind keep kind collections) collections =
        collections.map fun entry =>
          (entry.1, if entry.1 ∈ kinds then
            entry.2.mapMembers (·.filter fun c => keep (Reference.ofComponent entry.1 c.1))
            else entry.2) := by
  induction kinds with
  | nil => simp
  | cons kind rest ih =>
    intro collections hnodup
    obtain ⟨hkind, hrest⟩ := List.nodup_cons.mp hkinds
    have hsweep : sweepKind keep kind collections = collections.map fun entry =>
        (entry.1, if entry.1 = kind then
          entry.2.mapMembers (·.filter fun c => keep (Reference.ofComponent kind c.1))
          else entry.2) :=
      Entries.adjust_eq_map hnodup kind _
    have hkeys : (Entries.keys (sweepKind keep kind collections)).Nodup := by
      rw [hsweep]
      simpa [Entries.keys, Function.comp_def] using hnodup
    rw [List.foldl_cons, ih hrest _ hkeys, hsweep, List.map_map]
    refine List.map_congr_left fun entry _ => ?_
    by_cases h : entry.1 = kind
    · subst h
      simp [hkind]
    · simp [h]

/-- **A sweep is a restriction.** -/
theorem sweep_eq_restrict (keep : String → Bool) (hkeys : document.hasDistinctKeys = true) :
    sweep keep document = restrict keep document := by
  cases document with
  | obj members =>
    obtain ⟨hnodup, hvalues⟩ := Json.hasDistinctKeys_obj.mp hkeys
    have hadjust := Entries.adjust_eq_map hnodup "components" (Json.mapMembers fun components =>
      prunableKinds.foldl (fun components kind => sweepKind keep kind components) components)
    refine congrArg Json.obj (hadjust.trans (List.map_congr_left fun entry hentry => ?_))
    refine Prod.ext rfl ?_
    by_cases hkey : entry.1 = "components"
    · simp only [if_pos hkey]
      cases hvalue : entry.2 with
      | obj collections =>
        have hcollections : (Json.obj collections).hasDistinctKeys = true :=
          hvalue ▸ hvalues entry hentry
        exact congrArg Json.obj (foldl_sweepKind keep prunableKinds (by decide) collections
          (Json.hasDistinctKeys_obj.mp hcollections).1)
      | _ => rfl
    · simp only [if_neg hkey]
  | _ => rfl

/-- **A sweep deletes the components that it does not keep.** -/
theorem doomed_eq (keep : String → Bool) (document : Json) :
    doomed keep document =
      ((componentsOf document).filter fun c => !keep c.reference).map Component.reference := by
  have hkind : ∀ kind, doomedOf keep document kind =
      ((componentsOfKind document kind).filter fun c => !keep c.reference).map
        Component.reference := by
    intro kind
    simp [doomedOf, componentsOfKind, Entries.keys, List.filter_map, Function.comp_def,
      Component.reference]
  simp only [doomed, componentsOf, List.filter_flatMap, List.map_flatMap]
  exact List.flatMap_congr fun kind _ => hkind kind

theorem mem_doomed {reference : String} :
    reference ∈ doomed keep document ↔
      ∃ c ∈ componentsOf document, keep c.reference = false ∧ c.reference = reference := by
  simp [doomed_eq, and_assoc]

theorem reference_mem_doomed (hc : c ∈ componentsOf document) :
    c.reference ∈ doomed keep document ↔ keep c.reference = false := by
  refine mem_doomed.trans ⟨?_, fun h => ⟨c, hc, h, rfl⟩⟩
  rintro ⟨d, -, hkeep, href⟩
  exact href ▸ hkeep

theorem nodup_doomed (hkeys : document.hasDistinctKeys = true) : (doomed keep document).Nodup := by
  rw [doomed_eq]
  exact (nodup_references hkeys).sublist (List.Sublist.map _ List.filter_sublist)

end ApiTypes.Prune

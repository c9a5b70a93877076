import ApiTypes.Filter
import ApiTypes.Proofs.Prune.FixedPoint
import ApiTypes.Proofs.Prune.Reachability

/-!
  Fewer operations keep fewer components.

  * `Json.keepAt` leaves only some members of the objects in a value, chosen by the path that leads
    to them. A place that is left was a place before, **and it refers to no more than it did**
    (`references_keepAt_subset`, `exists_of_resolve?_keepAt`). That goes for every reference, also
    for one into an operation that is gone: it points nowhere.
  * A cleanup does not mind which members are left (`clean_keepAt`).
  * So what some of the operations reach, all of them reach, and components that support each other
    with some of the operations do so with all of them. **Either strategy keeps with all operations
    what it keeps with some** (`prune_keeps_more`).
-/

namespace ApiTypes

/-! ## 1. Some members of a value -/

namespace Json

mutual

/-- A value with the members of its objects that are kept, by the path that leads to them. Lists
    stay as they are. -/
def keepAt (keep : List String → Bool) : Json → Json
  | .obj members => .obj (keepMembersAt keep members)
  | .arr items => .arr items
  | .null => .null
  | .bool b => .bool b
  | .int n => .int n
  | .float x => .float x
  | .str s => .str s
termination_by structural value => value

/-- The members that are kept, each with the members in it that are. -/
def keepMembersAt (keep : List String → Bool) : List (String × Json) → List (String × Json)
  | [] => []
  | (key, value) :: rest =>
    if keep [key] then
      (key, keepAt (fun path => keep (key :: path)) value) :: keepMembersAt keep rest
    else keepMembersAt keep rest
termination_by structural members => members

end

variable {value target : Json} {keep : List String → Bool}

theorem keepMembersAt_eq (keep : List String → Bool) (members : List (String × Json)) :
    keepMembersAt keep members =
      (members.filter fun entry => keep [entry.1]).map fun entry =>
        (entry.1, entry.2.keepAt fun path => keep (entry.1 :: path)) := by
  induction members with
  | nil => rfl
  | cons entry rest ih =>
    obtain ⟨key, value⟩ := entry
    by_cases h : keep [key] = true <;> simp [keepMembersAt, h, ih]

mutual

/-- A choice that keeps every member changes nothing. -/
theorem keepAt_of_all (keep : List String → Bool) (h : ∀ key path, keep (key :: path) = true) :
    (value : Json) → value.keepAt keep = value
  | .obj members => congrArg Json.obj (keepMembersAt_of_all keep h members)
  | .arr _ | .null | .bool _ | .int _ | .float _ | .str _ => rfl

theorem keepMembersAt_of_all (keep : List String → Bool)
    (h : ∀ key path, keep (key :: path) = true) :
    (members : List (String × Json)) → keepMembersAt keep members = members
  | [] => rfl
  | (key, value) :: rest => by
    have hvalue := keepAt_of_all (fun path => keep (key :: path)) (fun _ _ => h _ _) value
    rw [keepMembersAt, if_pos (h key []), hvalue, keepMembersAt_of_all keep h rest]

end

/-- **A member that is kept is the member of the same key**, with what is kept of it. -/
theorem get?_keepAt (key : String) (value : Json) :
    (value.keepAt keep).get? key =
      if keep [key] then (value.get? key).map (keepAt fun path => keep (key :: path))
      else none := by
  cases value with
  | obj members =>
    rw [keepAt, get?_obj, keepMembersAt_eq,
      Entries.get?_map (f := fun name member => keepAt (fun path => keep (name :: path)) member),
      Entries.get?_filter fun name => keep [name]]
    split <;> rfl
  | _ => simp [keepAt, Json.get?, members?]

/-- **A place of what is kept is a place of the value**, and what is kept of that. -/
theorem exists_of_at?_keepAt {path : List String} (h : (value.keepAt keep).at? path = some target) :
    ∃ whole keep', value.at? path = some whole ∧ target = whole.keepAt keep' := by
  induction path generalizing value keep with
  | nil => exact ⟨value, keep, rfl, (Option.some.inj h).symm⟩
  | cons token path ih =>
    obtain ⟨child, hchild, hrest⟩ := Option.bind_eq_some_iff.mp h
    have hstep : ∃ whole keep', value.child? token = some whole ∧ child = whole.keepAt keep' := by
      cases value with
      | obj members =>
        have hmember : ((Json.obj members).keepAt keep).get? token = some child := hchild
        rw [get?_keepAt] at hmember
        split at hmember
        · obtain ⟨whole, hwhole, rfl⟩ := Option.map_eq_some_iff.mp hmember
          exact ⟨whole, _, hwhole, rfl⟩
        · simp at hmember
      | arr items =>
        exact ⟨child, fun _ => true, hchild, (keepAt_of_all _ (fun _ _ => rfl) child).symm⟩
      | _ => simp [keepAt, child?] at hchild
    obtain ⟨whole, keep', hwhole, rfl⟩ := hstep
    obtain ⟨last, last', hlast, rfl⟩ := ih hrest
    exact ⟨last, last', by rw [at?, hwhole]; exact hlast, rfl⟩

theorem exists_of_resolve?_keepAt {reference : String}
    (h : (value.keepAt keep).resolve? reference = some target) :
    ∃ whole keep', value.resolve? reference = some whole ∧ target = whole.keepAt keep' := by
  unfold resolve? at h ⊢
  split at h
  · exact ⟨value, keep, rfl, (Option.some.inj h).symm⟩
  · exact exists_of_at?_keepAt h
  · simp at h

end Json

namespace Prune

open Json

variable {keep : List String → Bool}

/-! ## 2. What is left refers to no more -/

theorem get?_str_of_keepAt {key text : String} {members : List (String × Json)}
    (h : Entries.get? key (keepMembersAt keep members) = some (.str text)) :
    Entries.get? key members = some (.str text) := by
  have hmember : ((Json.obj members).keepAt keep).get? key = some (.str text) := h
  rw [get?_keepAt] at hmember
  split at hmember
  · obtain ⟨whole, hwhole, heq⟩ := Option.map_eq_some_iff.mp hmember
    cases whole <;> simp_all [keepAt]
  · simp at hmember

theorem mappingTargets_keepAt_subset (keep : List String → Bool) (members : List (String × Json)) :
    mappingTargets (keepMembersAt keep members) ⊆ mappingTargets members := by
  intro reference h
  unfold mappingTargets at h
  split at h
  · rename_i name mapping hproperty hmapping
    have hmember : ((Json.obj members).keepAt keep).get? "mapping" = some (.obj mapping) := hmapping
    rw [get?_keepAt] at hmember
    split at hmember
    · obtain ⟨whole, hwhole, heq⟩ := Option.map_eq_some_iff.mp hmember
      cases whole with
      | obj all =>
        obtain rfl := Json.obj.inj heq
        rw [mappingTargets, get?_str_of_keepAt hproperty,
          show Entries.get? "mapping" members = some (.obj all) from hwhole]
        -- A target that is left is a text, so nothing of it was taken away.
        obtain ⟨text, htext, rfl⟩ := List.mem_map.mp h
        obtain ⟨value, hvalue, hstring⟩ := List.mem_filterMap.mp htext
        obtain ⟨entry, hentry, rfl⟩ := List.mem_map.mp hvalue
        rw [keepMembersAt_eq] at hentry
        obtain ⟨old, hold, rfl⟩ := List.mem_map.mp hentry
        refine List.mem_map_of_mem (List.mem_filterMap.mpr ⟨old.2,
          List.mem_map_of_mem (List.mem_of_mem_filter hold), ?_⟩)
        cases hvalue : old.2 <;> simp_all [keepAt, string?]
      | _ => simp [keepAt] at heq
    · simp at hmember
  · simp at h

theorem ownReferences_keepAt_subset (keep : List String → Bool) (members : List (String × Json)) :
    ownReferences (keepMembersAt keep members) ⊆ ownReferences members := by
  intro reference h
  obtain ⟨made, hmade, hreference⟩ := List.mem_flatMap.mp h
  refine List.mem_flatMap.mpr ⟨made, ?_, hreference⟩
  rcases List.mem_append.mp hmade with hmade | hmade
  · obtain ⟨value, hvalue, hstring⟩ := Option.bind_eq_some_iff.mp (Option.mem_toList.mp hmade)
    cases value with
    | str text =>
      obtain rfl := Option.some.inj hstring
      refine List.mem_append_left _ (Option.mem_toList.mpr ?_)
      exact Option.bind_eq_some_iff.mpr ⟨_, get?_str_of_keepAt hvalue, rfl⟩
    | _ => simp [string?] at hstring
  · exact List.mem_append_right _ (mappingTargets_keepAt_subset keep members hmade)

mutual

theorem collect_keepAt_subset (named : Bool) (keep : List String → Bool) : (value : Json) →
    collect named (value.keepAt keep) ⊆ collect named value
  | .obj members => by
    rw [keepAt, collect, collect]
    refine List.append_subset.mpr ⟨?_, ?_⟩
    · refine List.Subset.trans ?_ (List.subset_append_left _ _)
      cases named with
      | true => exact List.Subset.refl _
      | false => exact ownReferences_keepAt_subset keep members
    · exact List.Subset.trans (collectMembers_keepAt_subset named keep members)
        (List.subset_append_right _ _)
  | .arr _ | .null | .bool _ | .int _ | .float _ | .str _ => List.Subset.refl _

theorem collectMembers_keepAt_subset (named : Bool) (keep : List String → Bool) :
    (members : List (String × Json)) →
      collectMembers named (keepMembersAt keep members) ⊆ collectMembers named members
  | [] => List.Subset.refl _
  | (key, value) :: rest => by
    have hrest := collectMembers_keepAt_subset named keep rest
    have hvalue (inner : Bool) :=
      collect_keepAt_subset inner (fun path => keep (key :: path)) value
    simp only [keepMembersAt]
    split
    · refine List.append_subset.mpr ⟨List.Subset.trans ?_ (List.subset_append_left _ _),
        List.Subset.trans hrest (List.subset_append_right _ _)⟩
      split_ifs
      · exact hvalue false
      · exact List.Subset.refl _
      · exact hvalue _
    · exact List.Subset.trans hrest (List.subset_append_right _ _)

end

/-- **What is left of a value refers to no more than the value.** -/
theorem references_keepAt_subset (keep : List String → Bool) (value : Json) :
    references (value.keepAt keep) ⊆ references value :=
  collect_keepAt_subset false keep value

/-! ## 3. Cleaning what is left -/

mutual

/-- **A cleanup and a choice of members may come in either order.** -/
theorem clean_keepAt (allowed : List String) (part : Part) (keep : List String → Bool) :
    (value : Json) → clean allowed part (value.keepAt keep) = (clean allowed part value).keepAt keep
  | .obj members => congrArg Json.obj (cleanMembers_keepAt allowed part keep members)
  | .arr items => by cases part <;> rfl
  | .null | .bool _ | .int _ | .float _ | .str _ => rfl

theorem cleanMembers_keepAt (allowed : List String) (part : Part) (keep : List String → Bool) :
    (members : List (String × Json)) →
      cleanMembers allowed part (keepMembersAt keep members) =
        keepMembersAt keep (cleanMembers allowed part members)
  | [] => rfl
  | (key, value) :: rest => by
    have hvalue := clean_keepAt allowed (childPart part key) (fun path => keep (key :: path)) value
    have hrest := cleanMembers_keepAt allowed part keep rest
    by_cases hkept : keep [key] = true <;> by_cases hstays : keepsKey allowed part key = true <;>
      simp [keepMembersAt, cleanMembers, hkept, hstays, hvalue, hrest]

end

/-! ## 4. Fewer operations -/

/-- A path item with some of its operations, and everything else in it. -/
def itemWith (keepsMethod : String → Bool) (item : Json) : Json :=
  item.mapMembers (·.filter fun member => !httpMethods.contains member.1 || keepsMethod member.1)

/-- Some of the path items, and in these some of the operations. -/
def pathsWith (keepsItem : String → Bool) (keepsOperation : String → String → Bool)
    (paths : Json) : Json :=
  (paths.mapMembers (·.filter fun entry => keepsItem entry.1)).mapValues fun path =>
    itemWith (keepsOperation path)

/-- A document with some of its path items, and in these some of the operations. Everything else is
    as it was. -/
def withOperations (keepsItem : String → Bool) (keepsOperation : String → String → Bool)
    (document : Json) : Json :=
  document.mapValues fun key value =>
    if key = "paths" then pathsWith keepsItem keepsOperation value else value

/-- The members of a document that are kept with such a choice. -/
def keepsPlace (keepsItem : String → Bool) (keepsOperation : String → String → Bool) :
    List String → Bool
  | ["paths", path] => keepsItem path
  | ["paths", path, method] => !httpMethods.contains method || keepsOperation path method
  | _ => true

variable {keepsItem : String → Bool} {keepsOperation : String → String → Bool}
  {document smaller : Json}

theorem keepsPlace_key (key : String) : keepsPlace keepsItem keepsOperation [key] = true := by
  unfold keepsPlace
  split <;> simp_all

theorem keepsPlace_of_ne {key : String} (h : key ≠ "paths") (rest : List String) :
    keepsPlace keepsItem keepsOperation (key :: rest) = true := by
  unfold keepsPlace
  split <;> simp_all

theorem itemWith_eq (path : String) (item : Json) : itemWith (keepsOperation path) item =
    item.keepAt fun rest => keepsPlace keepsItem keepsOperation ("paths" :: path :: rest) := by
  cases item with
  | obj members =>
    simp only [itemWith, mapMembers, keepAt, keepMembersAt_eq, keepsPlace]
    conv_lhs => rw [← List.map_id (List.filter _ _)]
    refine congrArg Json.obj (List.map_congr_left fun entry _ => ?_)
    rw [keepAt_of_all _ fun _ _ => rfl]
    rfl
  | _ => rfl

theorem pathsWith_eq (paths : Json) : pathsWith keepsItem keepsOperation paths =
    paths.keepAt fun rest => keepsPlace keepsItem keepsOperation ("paths" :: rest) := by
  have hitem : (fun path => itemWith (keepsOperation path)) = fun path item =>
      item.keepAt fun rest => keepsPlace keepsItem keepsOperation ("paths" :: path :: rest) :=
    funext fun path => funext (itemWith_eq path)
  rw [pathsWith, hitem]
  cases paths with
  | obj entries => simp [mapMembers, mapValues, keepAt, keepMembersAt_eq, keepsPlace]
  | _ => rfl

theorem withOperations_eq : withOperations keepsItem keepsOperation document =
    document.keepAt (keepsPlace keepsItem keepsOperation) := by
  have hmember (key : String) (value : Json) :
      (if key = "paths" then pathsWith keepsItem keepsOperation value else value) =
        value.keepAt fun rest => keepsPlace keepsItem keepsOperation (key :: rest) := by
    by_cases hkey : key = "paths"
    · rw [if_pos hkey, pathsWith_eq, hkey]
    · rw [if_neg hkey, keepAt_of_all _ fun _ _ => keepsPlace_of_ne hkey _]
  simp only [withOperations, hmember]
  cases document with
  | obj members => simp [mapValues, mapMembers, keepAt, keepMembersAt_eq, keepsPlace_key]
  | _ => rfl

/-- A document that makes no more references than another one, and holds the same components. -/
structure RefersLess (smaller document : Json) : Prop where
  operations : operationReferences smaller ⊆ operationReferences document
  targets : ∀ reference,
    targetReferences smaller reference ⊆ targetReferences document reference
  entries : ∀ kind, entriesOf smaller kind = entriesOf document kind

/-- **A cleaned document with fewer operations refers to less.** -/
theorem refersLess_withOperations (allowed : List String) (keepsItem : String → Bool)
    (keepsOperation : String → String → Bool) (document : Json) :
    RefersLess (clean allowed .document (withOperations keepsItem keepsOperation document))
      (clean allowed .document document) := by
  rw [withOperations_eq, clean_keepAt]
  generalize clean allowed .document document = cleaned
  have hcomponents : (cleaned.keepAt (keepsPlace keepsItem keepsOperation)).get? "components" =
      cleaned.get? "components" := by
    rw [get?_keepAt, if_pos (keepsPlace_key _)]
    cases cleaned.get? "components" with
    | none => rfl
    | some components => exact congrArg some (keepAt_of_all _ (fun _ _ => rfl) components)
  refine ⟨?_, fun reference next hnext => ?_, fun kind => by rw [entriesOf, hcomponents, entriesOf]⟩
  · unfold operationReferences
    rw [get?_keepAt, if_pos (keepsPlace_key _)]
    cases cleaned.get? "paths" with
    | none => exact List.Subset.refl _
    | some paths => exact references_keepAt_subset _ paths
  · obtain ⟨target, htarget, hmade⟩ := mem_targetReferences.mp hnext
    obtain ⟨whole, keep', hwhole, rfl⟩ := exists_of_resolve?_keepAt htarget
    exact mem_targetReferences.mpr ⟨whole, hwhole, references_keepAt_subset _ _ hmade⟩

namespace RefersLess

variable (h : RefersLess smaller document)
include h

theorem componentsOf_eq : componentsOf smaller = componentsOf document := by
  unfold componentsOf componentsOfKind
  simp only [h.entries]

/-- **What fewer operations reach, all of them reach.** -/
theorem reachable {reference : String} (hreachable : Reachable smaller reference) :
    Reachable document reference := by
  induction hreachable with
  | operation hmade => exact .operation (h.operations hmade)
  | step _ htarget hnext ih =>
    obtain ⟨target, htarget, hmade⟩ :=
      mem_targetReferences.mp (h.targets _ (mem_targetReferences.mpr ⟨_, htarget, hnext⟩))
    exact .step ih htarget hmade

/-- **Components that support each other with fewer operations** do so with all of them. -/
theorem selfSupporting {T : Set Component} (hT : SelfSupporting smaller T) :
    SelfSupporting document T where
  components c hc := h.componentsOf_eq ▸ hT.components c hc
  supported c hc := (hT.supported c hc).imp_left fun hmade => h.operations hmade

end RefersLess

theorem isObject_withOperations (hobject : document.isObject = true) :
    (withOperations keepsItem keepsOperation document).isObject = true := by
  obtain ⟨members, rfl⟩ := exists_members_of_isObject hobject
  rfl

theorem hasDistinctKeys_withOperations (hkeys : document.hasDistinctKeys = true) :
    (withOperations keepsItem keepsOperation document).hasDistinctKeys = true := by
  refine hasDistinctKeys_mapValues hkeys fun key value hvalue => ?_
  split
  · exact hasDistinctKeys_mapValues
      (hasDistinctKeys_mapMembers (fun _ => hasDistinctKeys_filter) hvalue)
      fun _ _ => hasDistinctKeys_mapMembers fun _ => hasDistinctKeys_filter
  · exact hvalue

/-- The components that a restriction leaves of one kind. -/
theorem mem_entriesOf_restrict {choice : String → Bool} {kind : String} {entry : String × Json} :
    entry ∈ entriesOf (restrict choice document) kind ↔ entry ∈ entriesOf document kind ∧
      (kind ∈ prunableKinds → choice (Reference.ofComponent kind entry.1) = true) := by
  by_cases hkind : kind ∈ prunableKinds
  · simp [entriesOf_restrict hkind, hkind]
  · have hsame : restrictKind choice kind = id := by
      funext collection
      exact if_neg hkind
    simp [entriesOf, get?_get?_restrict, hsame, hkind]

/-- **With more operations pruning keeps more.** Whichever path items and operations are taken out
    of a document, what either strategy keeps of the rest it keeps of the whole, of every kind of
    component and with the same bodies. -/
theorem prune_keeps_more (options : PruneOptions) (document : Json) (keepsItem : String → Bool)
    (keepsOperation : String → String → Bool) (out smallerOut : Json)
    (report smallerReport : Report) (hobject : document.isObject = true)
    (hkeys : document.hasDistinctKeys = true)
    (h : prune options document = (out, .ok report))
    (hsmaller : prune options (withOperations keepsItem keepsOperation document) =
      (smallerOut, .ok smallerReport)) :
    ∀ kind, entriesOf smallerOut kind ⊆ entriesOf out kind := by
  intro kind entry hentry
  have hobject' : (withOperations keepsItem keepsOperation document).isObject = true :=
    isObject_withOperations hobject
  have hkeys' : (withOperations keepsItem keepsOperation document).hasDistinctKeys = true :=
    hasDistinctKeys_withOperations hkeys
  have hless := refersLess_withOperations options.allowed keepsItem keepsOperation document
  cases hstrategy : options.strategy with
  | fixedPoint =>
    have hsettled := settled_of_prune hobject hkeys hstrategy h
    have hsettled' := settled_of_prune hobject' hkeys' hstrategy hsmaller
    rw [hsettled'.restricted, mem_entriesOf_restrict, hless.entries] at hentry
    rw [hsettled.restricted, mem_entriesOf_restrict]
    refine hentry.imp_right fun hkept hkind => ?_
    -- What is kept of the smaller document supports itself there, and so it does in the whole one.
    have hself := hless.selfSupporting hsettled'.isGreatest.1
    have hcomponent : ⟨kind, entry.1, entry.2⟩ ∈ componentsOf smallerOut :=
      hsettled'.mem_iff.mpr ⟨mem_componentsOf.mpr ⟨hkind, (hless.entries kind).symm ▸ hentry.1⟩,
        by simpa [Component.reference] using hkept hkind⟩
    have hspared := hsettled.spares _ hself _ hcomponent
    simpa [Component.reference] using hspared
  | reachability =>
    obtain rfl := congrArg Prod.fst (h.symm.trans (prune_of_reachability hobject hkeys hstrategy))
    obtain rfl :=
      congrArg Prod.fst (hsmaller.symm.trans (prune_of_reachability hobject' hkeys' hstrategy))
    rw [mem_entriesOf_restrict, hless.entries] at hentry
    rw [mem_entriesOf_restrict]
    refine hentry.imp_right fun hkept hkind => ?_
    rw [List.contains_iff_mem, mem_reachable]
    exact hless.reachable (mem_reachable.mp (List.contains_iff_mem.mp (hkept hkind)))

/-- A document in which one operation refers to a component and into another operation, which alone
    refers to a second component. -/
def throughOperation : Json :=
  .obj [
    ("paths", .obj [
      ("/a", .obj [("get", .obj [("parameters", .arr [
        .obj [("$ref", .str "#/components/parameters/Used")],
        .obj [("$ref", .str "#/paths/~1b/get/parameters/0")]])])]),
      ("/b", .obj [("get", .obj [("parameters", .arr [
        .obj [("$ref", .str "#/components/parameters/Far")]])])])]),
    ("components", .obj [
      ("parameters", .obj [("Used", .obj []), ("Far", .obj []), ("Loose", .obj [])])])]

/-- The document without the operation that is referred to. -/
def withoutTarget : Json :=
  withOperations (fun _ => true) (fun path _ => path ≠ "/b") throughOperation

theorem prune_keeps_more_throughOperation :
    (prune ⟨.reachability, 0, []⟩ throughOperation).2 =
        .ok ⟨1, ["#/components/parameters/Loose"]⟩ ∧
      (prune ⟨.reachability, 0, []⟩ withoutTarget).2 =
        .ok ⟨1, ["#/components/parameters/Far", "#/components/parameters/Loose"]⟩ ∧
      entriesOf (prune ⟨.reachability, 0, []⟩ withoutTarget).1 "parameters" ⊆
        entriesOf (prune ⟨.reachability, 0, []⟩ throughOperation).1 "parameters" := by
  have hrun : (prune ⟨.reachability, 0, []⟩ throughOperation).2 =
      .ok ⟨1, ["#/components/parameters/Loose"]⟩ := by rfl
  have hsmaller : (prune ⟨.reachability, 0, []⟩ withoutTarget).2 =
      .ok ⟨1, ["#/components/parameters/Far", "#/components/parameters/Loose"]⟩ := by rfl
  exact ⟨hrun, hsmaller, prune_keeps_more _ throughOperation _ _ _ _ _ _ (by decide) (by decide)
    (Prod.ext rfl hrun) (Prod.ext rfl hsmaller) "parameters"⟩

end Prune

end ApiTypes

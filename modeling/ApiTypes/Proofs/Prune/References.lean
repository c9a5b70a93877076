import ApiTypes.Prune.References
import ApiTypes.Proofs.Reference
import ApiTypes.Proofs.Json

/-!
  Where references come from.

  * The walk lists only what nodes inside the value make, and each node's references once:
    `collect_sublist`.
  * A place inside a value makes no other references than the value: `everyReference_at?_sublist`.
  * With a reference into a component the walk lists the component: `parent_mem_references`.

  So whatever a reference of the document points at, the document makes the references found there
  too, and it makes finitely many.
-/

namespace ApiTypes.Prune

open List (Sublist)

/-! ## 1. The walk inside a value -/

mutual

theorem collect_sublist (named : Bool) : (value : Json) →
    (collect named value).Sublist (everyReference value)
  | .obj members => by
    have hown : (if named then [] else ownReferences members).Sublist (ownReferences members) := by
      cases named
      · exact Sublist.refl _
      · exact List.nil_sublist _
    simpa only [collect, everyReference] using hown.append (collectMembers_sublist named members)
  | .arr items => collectItems_sublist items
  | .null | .bool _ | .int _ | .float _ | .str _ => Sublist.refl _

theorem collectItems_sublist : (items : List Json) →
    (collectItems items).Sublist (everyInItems items)
  | [] => Sublist.refl _
  | item :: rest => (collect_sublist false item).append (collectItems_sublist rest)

theorem collectMembers_sublist (named : Bool) : (members : List (String × Json)) →
    (collectMembers named members).Sublist (everyInMembers members)
  | [] => Sublist.refl _
  | (key, value) :: rest => by
    refine Sublist.append ?_ (collectMembers_sublist named rest)
    split
    · exact collect_sublist false value
    · split
      · exact List.nil_sublist _
      · exact collect_sublist _ value

end

/-! ## 2. Places inside a value -/

variable {value part : Json}

theorem everyReference_sublist_of_mem_items {items : List Json} (h : part ∈ items) :
    (everyReference part).Sublist (everyInItems items) := by
  induction items with
  | nil => exact absurd h List.not_mem_nil
  | cons item rest ih =>
    rcases List.mem_cons.mp h with rfl | hrest
    · exact List.sublist_append_left _ _
    · exact (ih hrest).trans (List.sublist_append_right _ _)

theorem everyReference_sublist_of_mem_members {key : String} {members : List (String × Json)}
    (h : (key, part) ∈ members) : (everyReference part).Sublist (everyInMembers members) := by
  induction members with
  | nil => exact absurd h List.not_mem_nil
  | cons entry rest ih =>
    obtain ⟨name, other⟩ := entry
    rcases List.mem_cons.mp h with heq | hrest
    · obtain ⟨-, rfl⟩ := Prod.mk.inj heq
      exact List.sublist_append_left _ _
    · exact (ih hrest).trans (List.sublist_append_right _ _)

theorem everyReference_child?_sublist {token : String} (h : value.child? token = some part) :
    (everyReference part).Sublist (everyReference value) := by
  cases value with
  | obj members =>
    exact (everyReference_sublist_of_mem_members (Entries.mem_of_get? h)).trans
      (List.sublist_append_right _ _)
  | arr items =>
    obtain ⟨index, -, hitem⟩ := Option.bind_eq_some_iff.mp h
    exact everyReference_sublist_of_mem_items (List.mem_of_getElem? hitem)
  | _ => simp [Json.child?] at h

/-- **A place inside a value makes no other references than the value.** -/
theorem everyReference_at?_sublist : ∀ {path : List String} {value : Json},
    value.at? path = some part → (everyReference part).Sublist (everyReference value)
  | [], _, h => by
    obtain rfl := Option.some.inj h
    exact Sublist.refl _
  | _ :: _, _, h => by
    obtain ⟨next, hnext, hpart⟩ := Option.bind_eq_some_iff.mp h
    exact (everyReference_at?_sublist hpart).trans (everyReference_child?_sublist hnext)

theorem everyReference_resolve?_sublist {reference : String}
    (h : value.resolve? reference = some part) :
    (everyReference part).Sublist (everyReference value) := by
  unfold Json.resolve? at h
  split at h
  · obtain rfl := Option.some.inj h
    exact Sublist.refl _
  · exact everyReference_at?_sublist h
  · simp at h

theorem references_get?_sublist {key : String} (h : value.get? key = some part) :
    (references part).Sublist (everyReference value) :=
  (collect_sublist false part).trans (everyReference_child?_sublist (Json.child?_of_get? h))

theorem references_resolve?_sublist {reference : String}
    (h : value.resolve? reference = some part) :
    (references part).Sublist (everyReference value) :=
  (collect_sublist false part).trans (everyReference_resolve?_sublist h)

/-! ## 3. Components that references reach into -/

variable {reference component : String}

theorem parent_mem_withParent (hparent : Reference.parent? reference = some component)
    {other : String} (h : reference ∈ withParent other) : component ∈ withParent other := by
  unfold withParent at h ⊢
  rcases List.mem_append.mp h with h | h
  · -- The reference is a component itself, and no component reaches into another one.
    have hnone := Reference.parent?_parent? (Option.mem_toList.mp h)
    simp [hnone] at hparent
  · obtain rfl := List.mem_singleton.mp h
    exact List.mem_append_left _ (Option.mem_toList.mpr hparent)

theorem parent_mem_ownReferences (hparent : Reference.parent? reference = some component)
    {members : List (String × Json)} (h : reference ∈ ownReferences members) :
    component ∈ ownReferences members := by
  obtain ⟨other, hother, hmem⟩ := List.mem_flatMap.mp h
  exact List.mem_flatMap.mpr ⟨other, hother, parent_mem_withParent hparent hmem⟩

mutual

theorem parent_mem_collect (hparent : Reference.parent? reference = some component)
    (named : Bool) : (value : Json) → reference ∈ collect named value →
      component ∈ collect named value
  | .obj members, h => by
    simp only [collect, List.mem_append] at h ⊢
    refine h.imp (fun h => ?_) (parent_mem_collectMembers hparent named members)
    cases named with
    | true => exact absurd h List.not_mem_nil
    | false => exact parent_mem_ownReferences hparent h
  | .arr items, h => parent_mem_collectItems hparent items h
  | .null, h | .bool _, h | .int _, h | .float _, h | .str _, h => absurd h List.not_mem_nil

theorem parent_mem_collectItems (hparent : Reference.parent? reference = some component) :
    (items : List Json) → reference ∈ collectItems items → component ∈ collectItems items
  | [], h => absurd h List.not_mem_nil
  | item :: rest, h => by
    simp only [collectItems, List.mem_append] at h ⊢
    exact h.imp (parent_mem_collect hparent false item) (parent_mem_collectItems hparent rest)

theorem parent_mem_collectMembers (hparent : Reference.parent? reference = some component)
    (named : Bool) : (members : List (String × Json)) → reference ∈ collectMembers named members →
      component ∈ collectMembers named members
  | [], h => absurd h List.not_mem_nil
  | (key, value) :: rest, h => by
    simp only [collectMembers, List.mem_append] at h ⊢
    refine h.imp (fun h => ?_) (parent_mem_collectMembers hparent named rest)
    split_ifs at h ⊢
    · exact parent_mem_collect hparent false value h
    · exact absurd h List.not_mem_nil
    · exact parent_mem_collect hparent _ value h

end

/-- **With a reference into a component a value refers to the component.** -/
theorem parent_mem_references (hparent : Reference.parent? reference = some component)
    {value : Json} (h : reference ∈ references value) : component ∈ references value :=
  parent_mem_collect hparent false value h

end ApiTypes.Prune

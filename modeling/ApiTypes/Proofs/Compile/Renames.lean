import ApiTypes.Proofs.Compile.Overrides
import ApiTypes.Proofs.Compile.Tidy

/-!
  Schemas that are only another name for a component.

  * `Env.Renames`: a node comes to the name of a component. It is a bare reference; or its `allOf`
    holds one reference and nothing else, or narrows a component by bounds alone; or one element of
    its union is left, and that renames.
  * `Env.Comes` and `Env.Made`: what the shape of a node and the definitions made on the way are
    like.
-/

namespace ApiTypes

/-- A bare reference has no keyword that matters beside it. -/
theorem Schema.membersOf_of_isBareReference {node : Json} {key : String}
    (hbare : Schema.isBareReference node = true)
    (hkey : key ≠ "$ref" ∧ key ≠ "nullable" ∧ Schema.isMetadataKey key = false) :
    Schema.membersOf key node = [] := by
  cases node with
  | obj members =>
    have hnone : Entries.get? key members = none := by
      refine Option.eq_none_iff_forall_ne_some.mpr fun value hget => ?_
      have hentry := List.all_eq_true.mp hbare (key, value) (Entries.mem_of_get? hget)
      simp [hkey] at hentry
    simp [Schema.membersOf, Json.get?_obj, hnone]
  | _ => simp [Schema.isBareReference] at hbare

namespace Env

/-! ## 1. Renaming -/

/-- The name of the type of the component that a reference names. -/
def TypeNameOf (env : Env) (reference name : String) : Prop :=
  (Reference.schemaName? reference).isSome = true ∧
    ∃ site, env.componentTypeName reference site = .ok name

/-- A node is only another name for the type of a component. `defining` is the component that the
    node belongs to, if it is the schema of one: a union whose only element is that very component
    stays a union. -/
inductive Renames (env : Env) (defining : Option String) : Json → String → Prop where
  /-- A reference with nothing beside it that matters. -/
  | bare {node : Json} {reference name : String} (hbare : Schema.isBareReference node = true)
    (hreference : Schema.reference? node = some reference)
    (hname : env.TypeNameOf reference name) : Renames env defining node name
  /-- A reference with keywords beside it. -/
  | beside {members : List (String × Json)} {name : String}
    (hreference : (Schema.reference? (.obj members)).isSome = true)
    (hbeside : Schema.isBareReference (.obj members) = false)
    (h : Renames env defining (expandReference members) name) :
    Renames env defining (.obj members) name
  /-- The only reference of an `allOf` that says nothing else. -/
  | only {node member : Json} {reference name : String} (hown : Schema.ownKeywords node = none)
    (honly : onlyReference? (Schema.membersOf "allOf" node) = some (member, reference))
    (hname : env.TypeNameOf reference name) : Renames env defining node name
  /-- The component that an `allOf` narrows by bounds alone. -/
  | narrowed {node : Json} {site : Site} {merged : List (String × Json)} {reference name : String}
    (hmerged : env.mergedMembers site (Schema.ownKeywords node) (Schema.membersOf "allOf" node) =
      .ok merged)
    (hnarrowed : narrowedComponent? (Schema.membersOf "allOf" node) (.obj merged) = some reference)
    (hname : env.TypeNameOf reference name) : Renames env defining node name
  /-- What the members of an `allOf` describe together. -/
  | merged {node : Json} {site : Site} {merged : List (String × Json)} {name : String}
    (hmembers : Schema.membersOf "allOf" node ≠ [])
    (hmerged : env.mergedMembers site (Schema.ownKeywords node) (Schema.membersOf "allOf" node) =
      .ok merged)
    (h : Renames env defining (.obj merged) name) : Renames env defining node name
  /-- The only element of a union, or the only one that admits more than null. -/
  | alone {node element : Json} {site : Site} {key name : String}
    (hkey : key = "anyOf" ∨ key = "oneOf")
    (helement : Schema.membersOf key node = [element] ∨
      env.nonNull site (Schema.membersOf key node) = .ok [element])
    (hunmapped : discriminatorProperty? node = none)
    (hother : ∀ reference, Schema.reference? element = some reference → defining ≠ some reference)
    (h : Renames env defining element name) : Renames env defining node name

section Renaming

variable {env : Env} {defining : Option String} {node : Json} {name : String}

/-- Only references and combinators rename. -/
theorem Renames.exists_part (h : env.Renames defining node name) :
    (Schema.reference? node).isSome = true ∨
      ∃ key ∈ ["allOf", "anyOf", "oneOf"], Schema.membersOf key node ≠ [] := by
  cases h with
  | bare _ hreference => exact .inl (by simp [hreference])
  | beside hreference => exact .inl hreference
  | only _ honly =>
    refine .inr ⟨"allOf", by simp, fun hnil => ?_⟩
    simp [hnil, onlyReference?] at honly
  | narrowed _ hnarrowed =>
    refine .inr ⟨"allOf", by simp, fun hnil => ?_⟩
    simp [hnil, narrowedComponent?] at hnarrowed
  | merged hmembers => exact .inr ⟨"allOf", by simp, hmembers⟩
  | @alone _ _ _ key _ hkey helement =>
    refine .inr ⟨key, by rcases hkey with rfl | rfl <;> simp, fun hnil => ?_⟩
    rw [hnil] at helement
    rcases helement with hsingle | hadmitted
    · exact List.cons_ne_nil _ _ hsingle.symm
    · exact List.cons_ne_nil _ _ (Except.ok.inj hadmitted).symm

/-- **A bare reference renames what it refers to alone.** -/
theorem Renames.typeNameOf {reference : String} (hbare : Schema.isBareReference node = true)
    (hreference : Schema.reference? node = some reference) (h : env.Renames defining node name) :
    env.TypeNameOf reference name := by
  have hnil : ∀ key ∈ ["allOf", "anyOf", "oneOf"], Schema.membersOf key node = [] := fun key hkey =>
    Schema.membersOf_of_isBareReference hbare (by
      revert key
      decide)
  cases h with
  | bare _ hother hname =>
    obtain rfl := Option.some.inj (hreference.symm.trans hother)
    exact hname
  | beside _ hbeside => exact absurd (hbeside.symm.trans hbare) Bool.false_ne_true
  | only _ honly => simp [hnil, onlyReference?] at honly
  | narrowed _ hnarrowed => simp [hnil, narrowedComponent?] at hnarrowed
  | merged hmembers => exact absurd (hnil "allOf" (by simp)) hmembers
  | @alone _ _ _ key _ hkey helement =>
    rw [hnil key (by rcases hkey with rfl | rfl <;> simp)] at helement
    rcases helement with hsingle | hadmitted
    · exact absurd hsingle.symm (List.cons_ne_nil _ _)
    · exact absurd (Except.ok.inj hadmitted).symm (List.cons_ne_nil _ _)

end Renaming

/-! ## 2. Shapes of nodes -/

/-- The shape of a node is tidy in every part, and an alias stands for what the node renames. -/
structure Comes (env : Env) (strict : Prop) (node : Json) (site : Site) (shape : Shape) : Prop where
  every : shape.Every (Shape.Tidy strict)
  /-- At a site that says which reference the node is. -/
  reference : ∀ reference, site.reference = some reference → shape.isAlias = true →
    ∀ name, shape.target = some name → env.TypeNameOf reference name
  /-- At any other site. -/
  renames : site.reference = none → shape.isAlias = true → ∀ name, shape.target = some name →
    env.Renames site.defining node name

/-- A definition that was made while something else was. -/
inductive Made (env : Env) (strict : Prop) (d : Definition) : Prop where
  /-- A record, a union or a variant that needed a name. -/
  | inside (hevery : d.shape.Every (Shape.Tidy strict)) (htarget : d.shape.target = none)
  /-- A place that a reference points at. -/
  | place {reference : String} {node : Json} {registry : Registry}
    (hplace : Reference.schemaName? reference = none)
    (hnode : env.doc.resolve? reference = some node)
    (hname : d.name =
      registry.nameFor (TypeName.ofReference reference) d.shape env.options.nameSuffixes)
    (hcomes : env.Comes strict node (Site.named (TypeName.ofReference reference)) d.shape)

variable {env : Env} {strict : Prop} {d : Definition}

theorem Made.every (h : env.Made strict d) : d.shape.Every (Shape.Tidy strict) := by
  cases h with
  | inside hevery => exact hevery
  | place _ _ _ hcomes => exact hcomes.every

end Env

end ApiTypes

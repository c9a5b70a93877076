import ApiTypes.Proofs.Compile.Renames
import ApiTypes.Proofs.Compile.Traversal

/-!
  What every resolution makes.

  Wherever a resolution starts and however it ends, it adds definitions that were made as they
  should be, and gives back the references that are expanded and the depth as they were. A shape
  that it gives comes from its node (`Env.Comes`). One lemma for each function of the resolution,
  under the assumption that the resolver for the nodes below does the same (`Env.Makes`); every
  level does, by induction on the levels (`makes_resolveAt`).
-/

namespace ApiTypes

open Resolve

namespace Env

variable {env : Env} {strict : Prop} {resolve : Resolver} {shape : Shape} {site : Site}

/-- A resolver gives shapes that come from their nodes. -/
def Makes (env : Env) (strict : Prop) (resolve : Resolver) : Prop :=
  ∀ node site, (strict → Schema.Free node) →
    Gives (env.Made strict) (resolve node site) (env.Comes strict node site)

/-! ## 1. What the parts of a resolution come to -/

/-- What an `allOf` comes to: its shape is tidy, and where it is all of the node's, an alias stands
    for what the node renames. -/
structure CombinedComes (env : Env) (strict : Prop) (node : Json) (site : Site) (c : Combined) :
    Prop where
  every : c.shape.Every (Shape.Tidy strict)
  renames : ∀ shape, c = .complete shape → shape.isAlias = true → ∀ name,
    shape.target = some name → env.Renames site.defining node name

/-- A variant that may stand in a union. -/
structure IsTidyVariant (strict : Prop) (variant : Variant) : Prop where
  part : variant.shape.IsPart strict
  variant : strict → variant.shape.IsVariant

/-- What the elements of a union come to: a tidy shape, and an alias only as the one element that is
    left. -/
structure UnionComes (env : Env) (strict : Prop) (node : Json) (elements : List Json) (site : Site)
    (shape : Shape) : Prop where
  every : shape.Every (Shape.Tidy strict)
  alone : shape.isAlias = true → ∀ name, shape.target = some name → ∃ element,
    (elements = [element] ∨ env.nonNull site elements = .ok [element]) ∧
      discriminatorProperty? node = none ∧ isOwnReference site element = false ∧
        env.Renames site.defining element name

/-- What a node says itself: a tidy shape that stands for no definition. -/
structure IsOwn (strict : Prop) (shape : Shape) : Prop where
  every : shape.Every (Shape.Tidy strict)
  target : shape.target = none

theorem isOwn_ofDecl (decl : String) : IsOwn strict (Shape.ofDecl decl) :=
  ⟨Shape.every_ofDecl decl, rfl⟩

theorem isOwn_fieldlessShape (node : Json) {additional : Option Shape}
    (h : ∀ shape, additional = some shape → shape.IsPart strict) :
    IsOwn strict (Env.fieldlessShape node additional) := by
  have hmap : ∀ value : Shape, value.IsPart strict → IsOwn strict
      { decl := mapDecl value, isOpen := true, additional := some value } := by
    intro value hvalue
    refine ⟨Shape.every_iff.mpr ⟨⟨by simp, fun _ decl hdecl => by
      simpa [Shape.impliedDecl] using hdecl, fun hstrict => ⟨by simp, by simp, ?_, by simp⟩,
      by simp⟩, ⟨by simp, by simp, ?_, by simp⟩, by simp⟩, rfl⟩
    · exact fun found hfound => Option.some.inj hfound ▸ hvalue.named hstrict
    · exact fun found hfound => Option.some.inj hfound ▸ hvalue.every
  unfold Env.fieldlessShape
  split
  · exact hmap _ (h _ rfl)
  · dsimp only
    split_ifs
    · exact isOwn_ofDecl _
    · exact hmap _ (Shape.isPart_ofDecl _)
    · exact isOwn_ofDecl _

theorem isOwn_enumShape (node : Json) (declared : Option String) (extensions : Extensions) :
    IsOwn strict (enumShape node declared extensions) :=
  ⟨Shape.every_of_empty rfl rfl rfl rfl (by simp [enumShape]) (by simp [enumShape]), rfl⟩

/-- The fields that stand for merged members. -/
theorem loose_takeMerged {c : Combined} (hc : c.shape.Every (Shape.Tidy strict)) :
    (takeMerged {} c).Loose strict := by
  unfold Env.takeMerged
  split
  · rename_i merged
    split
    · rename_i name _
      exact Shape.loose_empty.appendFields (List.forall_mem_singleton.mpr
        (Shape.isPart_reference name))
    · exact Shape.loose_empty.append hc.isPart_fields hc.hoisted
  · exact Shape.loose_empty.appendFields hc.isPart_fields

/-- The elements that admit more than null are among the elements. -/
theorem mem_of_mem_nonNull {elements admitted : List Json}
    (h : env.nonNull site elements = .ok admitted) : ∀ element ∈ admitted, element ∈ elements := by
  induction elements generalizing admitted with
  | nil =>
    obtain rfl := Except.ok.inj h
    simp
  | cons first rest ih =>
    obtain ⟨target, -, ⟨-, hrest⟩ | ⟨-, others, hrest, rfl⟩⟩ := Trims.nonNull_cons_eq_ok.mp h
    · exact fun element helement => List.mem_cons_of_mem _ (ih hrest element helement)
    · exact List.forall_mem_cons.mpr ⟨List.mem_cons_self, fun element helement =>
        List.mem_cons_of_mem _ (ih hrest element helement)⟩

/-! ## 2. Definitions -/

theorem gives_use {location : Location} (hshape : shape.Every (Shape.Tidy strict))
    (htarget : shape.target = none) :
    Gives (env.Made strict) (env.define shape site location) fun use => use.IsPart strict := by
  refine (gives_define fun registry => .inside hshape htarget).mono fun use huse => ?_
  refine ⟨Shape.every_use hshape huse, fun _ => ?_⟩
  obtain ⟨d, -, rfl⟩ := huse
  rfl

/-- **What stands inside gets a name where it needs one.** -/
theorem gives_hoist {location : Location} (hshape : shape.Every (Shape.Tidy strict)) :
    Gives (env.Made strict) (env.hoist shape site location) fun use => use.IsPart strict := by
  unfold Env.hoist
  split
  · rename_i hneeds
    exact gives_use hshape (by simpa using (Bool.and_eq_true_iff.mp hneeds).1)
  · rename_i hneeds
    exact gives_pure ⟨hshape, fun _ => by simpa using hneeds⟩

/-! ## 3. References -/

section Resolvers

variable (hmakes : env.Makes strict resolve)
include hmakes

/-- **The use of a place is no alias.** -/
theorem gives_placeReference (hdoc : strict → env.doc.root.lacks overrideKey = true)
    {reference : String} (hplace : Reference.schemaName? reference = none) (site : Site) :
    Gives (env.Made strict) (env.placeReference resolve reference site) fun use =>
      use.Every (Shape.Tidy strict) ∧ use.isAlias = false := by
  unfold Env.placeReference
  refine .ask fun target htarget => .get fun session => ?_
  have hnode := resolve_eq_ok.mp htarget
  dsimp only
  split
  · exact gives_pure ⟨Shape.every_reference _, rfl⟩
  · have htarget := hmakes target (Site.named (TypeName.ofReference reference))
      fun hstrict => free_of_resolve? (hdoc hstrict) hnode
    refine (gives_expanding htarget).bind fun shape hshape => ?_
    refine (gives_define fun registry => .place hplace hnode rfl hshape).mono fun use huse => ?_
    refine ⟨Shape.every_use hshape.every huse, ?_⟩
    obtain ⟨d, -, rfl⟩ := huse
    rfl

theorem gives_referenceShape (hdoc : strict → env.doc.root.lacks overrideKey = true) (node : Json)
    (reference : String) (site : Site) :
    Gives (env.Made strict) (env.referenceShape resolve node reference site) fun shape =>
      shape.Every (Shape.Tidy strict) ∧ (shape.isAlias = true → ∀ name,
        shape.target = some name → env.TypeNameOf reference name) := by
  unfold Env.referenceShape
  split
  · rename_i hcomponent
    refine .ask fun name hname => gives_pure ⟨(Shape.every_aliasOf name).relabel _ _ _, ?_⟩
    rintro - found hfound
    obtain rfl := Option.some.inj hfound
    exact ⟨hcomponent, site, hname⟩
  · rename_i hcomponent
    split
    · refine (gives_placeReference hmakes hdoc (by simpa using hcomponent) site).bind
        fun use huse => gives_pure ⟨huse.1.relabel _ _ _, fun halias => ?_⟩
      exact absurd (huse.2.symm.trans halias) Bool.false_ne_true
    · exact gives_throw

/-! ## 4. Members of an `allOf` -/

theorem gives_embedMember (site : Site) {acc : Shape} (hacc : acc.Loose strict)
    {member : Json × Nat} (hmember : strict → Schema.Free member.1) :
    Gives (env.Made strict) (env.embedMember resolve site acc member) fun acc =>
      acc.Loose strict := by
  unfold Env.embedMember
  split
  · exact gives_pure hacc
  · dsimp only
    refine (hmakes _ _ hmember).bind fun shape hshape => ?_
    split
    · exact gives_pure (hacc.appendFields (Shape.isPart_mixin _ _))
    · split
      · exact gives_pure hacc
      · split
        · exact gives_pure (hacc.append (Shape.isPart_mixin _ _) hshape.every.hoisted)
        · rename_i hreference
          refine (gives_use hshape.every (by simpa [Shape.isReference] using hreference)).bind
            fun use huse => gives_pure ?_
          exact hacc.append (Shape.isPart_mixin _ _) huse.every.hoisted

/-- **One embedding field for each member** makes a tidy record. -/
theorem gives_embedMembers {members : List Json}
    (hmembers : strict → ∀ member ∈ members, Schema.Free member) (site : Site) :
    Gives (env.Made strict) (env.embedMembers resolve members site) fun shape =>
      shape.Every (Shape.Tidy strict) := by
  unfold Env.embedMembers
  refine (gives_foldlM (Shape.Loose strict) (fun acc member hmember hacc => ?_)
    Shape.loose_empty).bind fun acc hacc => gives_pure hacc.every_refreshDecl
  exact gives_embedMember hmakes site hacc fun hstrict =>
    hmembers hstrict member.1 (List.fst_mem_of_mem_zipIdx hmember)

/-- What an `allOf` comes to on its own, where a node has other combinators as well. -/
theorem gives_allOfShape (hdoc : strict → env.doc.root.lacks overrideKey = true) {node : Json}
    (hnode : strict → Schema.Free node) (withOwn : Bool)
    (hallOf : Schema.membersOf "allOf" node ≠ []) (hsite : site.reference = none) :
    Gives (env.Made strict)
      (env.allOfShape resolve node (Schema.membersOf "allOf" node) withOwn site) fun c =>
        c.shape.Every (Shape.Tidy strict) ∧
          (withOwn = true → env.CombinedComes strict node site c) := by
  have hmembers : strict → ∀ member ∈ Schema.membersOf "allOf" node, Schema.Free member :=
    fun hstrict member hmember => (hnode hstrict).membersOf (by decide) hmember
  unfold Env.allOfShape
  refine .ask fun leads _ => ?_
  split
  · exact (gives_embedMembers hmakes hmembers site).bind fun shape hshape =>
      gives_pure ⟨hshape, fun _ => ⟨hshape, by simp⟩⟩
  · dsimp only
    split
    · rename_i member reference hown honly
      obtain ⟨hmember, -⟩ := PartLaw.mem_of_onlyReference? honly
      refine (hmakes member (site.withReference reference) fun hstrict =>
        hmembers hstrict member hmember).bind fun shape hshape => gives_pure ⟨hshape.every, ?_⟩
      rintro rfl
      refine ⟨hshape.every, ?_⟩
      rintro _ heq halias name htarget
      obtain rfl := Combined.complete.inj heq
      exact .only hown honly (hshape.reference reference rfl halias name htarget)
    · refine .ask fun merged hmerged => ?_
      split
      · rename_i reference hnarrowed
        refine .ask fun name hname => gives_pure ?_
        have hevery : Shape.Every (Shape.Tidy strict)
            { Shape.aliasOf name with constraints := Constraints.ofSchema (.obj merged) } :=
          (Shape.every_aliasOf name).relabel _ _ _
        refine ⟨hevery, ?_⟩
        rintro rfl
        refine ⟨hevery, ?_⟩
        rintro _ heq - found hfound
        obtain rfl := Combined.complete.inj heq
        obtain rfl := Option.some.inj hfound
        exact .narrowed hmerged hnarrowed
          ⟨PartLaw.isComponent_of_narrowedComponent? hnarrowed, site, hname⟩
      · have hfree : strict → Schema.Free (.obj merged) := fun hstrict => by
          refine free_mergedMembers (hdoc hstrict) (fun found hfound => ?_) (hmembers hstrict)
            hmerged
          split at hfound
          · exact free_ownKeywords (hnode hstrict) hfound
          · simp at hfound
        refine (hmakes _ _ hfree).bind fun shape hshape => gives_pure ⟨hshape.every, ?_⟩
        rintro rfl
        refine ⟨hshape.every, ?_⟩
        rintro _ heq halias name htarget
        obtain rfl := Combined.complete.inj heq
        exact .merged hallOf hmerged (hshape.renames hsite halias name htarget)

/-! ## 5. Unions -/

theorem gives_addVariant (site : Site) (property : Option String)
    (declared : List (String × String)) {acc : List Variant × List (String × String)}
    (hacc : ∀ variant ∈ acc.1, IsTidyVariant strict variant) {element : Json × Nat}
    (helement : strict → Schema.Free element.1) :
    Gives (env.Made strict) (env.addVariant resolve site property declared acc element) fun acc =>
      ∀ variant ∈ acc.1, IsTidyVariant strict variant := by
  obtain ⟨variants, mapping⟩ := acc
  unfold Env.addVariant
  dsimp only
  refine (hmakes _ _ helement).bind fun shape hshape => ?_
  split
  · exact gives_pure hacc
  · -- Whichever way the mapping comes about, the new variant goes last.
    have hadd : ∀ use : Shape, use.IsPart strict → (strict → use.IsVariant) →
        ∀ variant ∈ variants ++ [⟨use.target.getD use.decl, use⟩], IsTidyVariant strict variant :=
      fun use huse hvariant => List.forall_mem_append.mpr
        ⟨hacc, List.forall_mem_singleton.mpr ⟨huse, hvariant⟩⟩
    split
    · rename_i hinline
      have htarget : shape.target = none := by
        simpa [Shape.isReference] using (Bool.and_eq_true_iff.mp hinline).1
      refine (gives_define fun registry => .inside hshape.every htarget).bind fun use huse => ?_
      obtain ⟨d, hd, rfl⟩ := huse
      have hnew := hadd _ ⟨Shape.every_use hshape.every ⟨d, hd, rfl⟩, fun _ => rfl⟩
        fun _ hnone => by simp [Shape.reference] at hnone
      cases property with
      | none => exact gives_pure hnew
      | some property => exact .ask fun mapping _ => gives_pure hnew
    · rename_i hinline
      have hvariant : shape.target = none → isPrimitive shape.decl = true ∧ shape.choices = [] := by
        intro htarget
        simpa [Shape.isReference, htarget] using hinline
      have hnamed : strict → shape.needsName = false := by
        intro hstrict
        cases htarget : shape.target with
        | some name => simp [Shape.needsName, htarget]
        | none =>
          exact (hshape.every.whole.inStep hstrict).needsName_of_isPrimitive (hvariant htarget).1
      have hnew := hadd shape ⟨hshape.every, hnamed⟩ fun _ => hvariant
      rw [pure_bind]
      cases property with
      | none => exact gives_pure hnew
      | some property => exact .ask fun mapping _ => gives_pure hnew

/-- **A union of several elements is tidy, and no alias.** -/
theorem gives_variantUnion (node : Json) {elements : List Json}
    (helements : strict → ∀ element ∈ elements, Schema.Free element) (nullable : Bool)
    (site : Site) :
    Gives (env.Made strict) (env.variantUnion resolve node elements nullable site) fun shape =>
      shape.Every (Shape.Tidy strict) ∧ shape.isAlias = false := by
  unfold Env.variantUnion
  dsimp only
  refine (gives_foldlM (fun acc => ∀ variant ∈ acc.1, IsTidyVariant strict variant)
    (fun acc element helement hacc => gives_addVariant hmakes site _ _ hacc fun hstrict =>
      helements hstrict element.1 (List.fst_mem_of_mem_zipIdx helement)) (by simp)).bind
    fun found hfound => ?_
  obtain ⟨variants, mapping⟩ := found
  dsimp only
  split
  · exact gives_throw
  · split
    · exact gives_pure ⟨(Shape.every_ofDecl _).relabel _ _ _, rfl⟩
    · rename_i hsome
      have hvariants : ∀ variant ∈ distinctVariants variants, IsTidyVariant strict variant :=
        fun variant hvariant => hfound variant (mem_of_mem_distinctVariants hvariant)
      refine gives_pure ⟨Shape.every_iff.mpr ⟨⟨by simp, fun _ decl hdecl => ?_, fun hstrict => ?_,
        fun hstrict variant hvariant => (hvariants variant hvariant).variant hstrict⟩, ?_,
        by simp⟩, rfl⟩
      · simpa [Shape.impliedDecl, hsome] using hdecl
      · exact ⟨by simp, by simp, by simp,
          fun variant hvariant => (hvariants variant hvariant).part.named hstrict⟩
      · exact ⟨by simp, by simp, by simp,
          fun variant hvariant => (hvariants variant hvariant).part.every⟩

theorem gives_union (node : Json) {elements : List Json}
    (helements : strict → ∀ element ∈ elements, Schema.Free element)
    (hsite : site.reference = none) :
    Gives (env.Made strict) (env.union resolve node elements site)
      (env.UnionComes strict node elements site) := by
  have hunion : ∀ (admitted : List Json) (nullable : Bool),
      env.nonNull site elements = .ok admitted → Gives (env.Made strict)
        (env.variantUnion resolve node admitted nullable site)
          (env.UnionComes strict node elements site) := fun admitted nullable hadmitted =>
    (gives_variantUnion hmakes node (fun hstrict element helement =>
      helements hstrict element (mem_of_mem_nonNull hadmitted element helement)) nullable site).mono
      fun shape hshape => ⟨hshape.1, fun halias =>
        absurd (hshape.2.symm.trans halias) Bool.false_ne_true⟩
  have halone : ∀ element, (elements = [element] ∨ env.nonNull site elements = .ok [element]) →
      ((discriminatorProperty? node).isNone && !isOwnReference site element) = true →
      Gives (env.Made strict) (resolve element site)
        (env.UnionComes strict node elements site) := by
    intro element helement hfree
    have hmem : element ∈ elements := by
      rcases helement with rfl | hadmitted
      · exact List.mem_singleton_self element
      · exact mem_of_mem_nonNull hadmitted element (List.mem_singleton_self element)
    refine (hmakes _ _ fun hstrict => helements hstrict element hmem).mono
      fun shape hshape => ⟨hshape.every, fun halias name htarget => ⟨element, helement, ?_⟩⟩
    simp only [Bool.and_eq_true, Bool.not_eq_true', Option.isNone_iff_eq_none] at hfree
    exact ⟨hfree.1, hfree.2, hshape.renames hsite halias name htarget⟩
  unfold Env.union
  dsimp only
  split
  on_goal 1 => split
  on_goal 1 =>
    rename_i hfree
    exact halone _ (.inl rfl) hfree
  -- Both ways on look which elements admit more than null.
  all_goals
    refine .ask fun admitted hadmitted => ?_
    split
    · exact gives_pure ⟨(Shape.every_ofDecl _).relabel _ _ _, fun halias => by
        simp [Shape.any, Shape.ofDecl] at halias⟩
    · split
      · rename_i hfree
        exact (halone _ (.inr hadmitted) hfree).bind fun shape hshape =>
          gives_pure ⟨hshape.every.relabel _ _ _, hshape.alone⟩
      · exact hunion _ _ hadmitted
    · exact hunion _ _ hadmitted

/-! ## 6. Records and arrays -/

theorem gives_field (required : List String) (site : Site) {property : String × Json}
    (hproperty : strict → Schema.Free property.2) :
    Gives (env.Made strict) (env.field resolve required site property) fun field =>
      field.shape.IsPart strict := by
  obtain ⟨name, node⟩ := property
  unfold Env.field
  dsimp only
  refine (hmakes _ _ hproperty).bind fun shape hshape => ?_
  refine (gives_hoist hshape.every).bind fun use huse => ?_
  exact .ask fun resolved _ => .ask fun extensions _ => gives_pure huse

theorem gives_additionalFields {node : Json} (hnode : strict → Schema.Free node) (site : Site) :
    Gives (env.Made strict) (env.additionalFields resolve node site) fun additional =>
      ∀ shape, additional = some shape → shape.IsPart strict := by
  have hany : ∀ shape, some Shape.any = some shape → shape.IsPart strict := fun shape h =>
    Option.some.inj h ▸ Shape.isPart_ofDecl _
  unfold Env.additionalFields
  split
  · exact gives_pure hany
  · exact gives_pure hany
  · rename_i members _ hget
    refine (hmakes _ _ fun hstrict => (hnode hstrict).get? (by decide) hget).bind
      fun shape hshape => ?_
    refine (gives_hoist hshape.every).bind fun use huse => gives_pure ?_
    exact fun found hfound => Option.some.inj hfound ▸ huse
  · exact gives_pure (by simp)

theorem gives_objectShape {node : Json} (hnode : strict → Schema.Free node) (site : Site) :
    Gives (env.Made strict) (env.objectShape resolve node site) (IsOwn strict) := by
  have hproperties : ∀ property ∈ (Schema.properties? node).getD [],
      strict → Schema.Free property.2 := by
    intro property hproperty hstrict
    cases hget : Schema.properties? node with
    | none => simp [hget] at hproperty
    | some properties => exact (hnode hstrict).property hget (by simpa [hget] using hproperty)
  unfold Env.objectShape
  dsimp only
  refine (gives_mapM fun property hproperty =>
    gives_field hmakes _ site (hproperties property hproperty)).bind fun fields hfields => ?_
  refine (gives_additionalFields hmakes hnode site).bind fun additional hadditional => ?_
  split
  · exact gives_pure (isOwn_fieldlessShape node hadditional)
  · rename_i hsome
    refine gives_pure ⟨Shape.every_iff.mpr ⟨⟨by simp, fun _ decl hdecl => ?_, fun hstrict => ?_,
      by simp⟩, ?_, by simp⟩, rfl⟩
    · simpa [Shape.impliedDecl, hsome] using hdecl
    · exact ⟨by simp, fun field hfield => (hfields field hfield).named hstrict,
        fun shape hshape => (hadditional shape hshape).named hstrict, by simp⟩
    · exact ⟨by simp, fun field hfield => (hfields field hfield).every,
        fun shape hshape => (hadditional shape hshape).every, by simp⟩

theorem gives_arrayShape {node : Json} (hnode : strict → Schema.Free node) (site : Site) :
    Gives (env.Made strict) (env.arrayShape resolve node site) (IsOwn strict) := by
  have harray : ∀ item : Shape, item.Every (Shape.Tidy strict) → Gives (env.Made strict)
      (env.hoist item (site.child "Item") .property >>= fun item =>
        pure ({ decl := arrayDecl item, item := some item } : Shape)) (IsOwn strict) := by
    intro item hitem
    refine (gives_hoist hitem).bind fun use huse => gives_pure ⟨Shape.every_iff.mpr ⟨⟨by simp,
      fun _ decl hdecl => ?_, fun hstrict => ⟨?_, by simp, by simp, by simp⟩, by simp⟩,
      ⟨?_, by simp, by simp, by simp⟩, by simp⟩, rfl⟩
    · simpa [Shape.impliedDecl] using hdecl
    · exact fun found hfound => Option.some.inj hfound ▸ huse.named hstrict
    · exact fun found hfound => Option.some.inj hfound ▸ huse.every
  unfold Env.arrayShape
  dsimp only
  split
  · exact harray _ (Shape.every_ofDecl _)
  · rename_i items hget
    exact (hmakes _ _ fun hstrict => (hnode hstrict).get? (by decide) hget).bind
      fun item hitem => harray item hitem.every

theorem gives_plainShape {node : Json} (hnode : strict → Schema.Free node)
    (extensions : Extensions) (site : Site) :
    Gives (env.Made strict) (env.plainShape resolve node extensions site) (IsOwn strict) := by
  unfold Env.plainShape
  dsimp only
  split
  · split
    · exact gives_pure (isOwn_enumShape _ _ _)
    · exact gives_objectShape hmakes hnode site
  · split
    · exact gives_objectShape hmakes hnode site
    · split
      · exact gives_pure (isOwn_enumShape _ _ _)
      · unfold Env.typedShape
        split
        · exact gives_arrayShape hmakes hnode site
        · split
          · exact gives_pure (isOwn_ofDecl _)
          · exact gives_throw
  · exact gives_pure (isOwn_ofDecl _)

/-- An overriding type stands for no definition either. -/
theorem gives_ownShape {node : Json} (hnode : strict → Schema.Free node) (extensions : Extensions)
    (site : Site) :
    Gives (env.Made strict) (env.ownShape resolve node extensions site) (IsOwn strict) := by
  unfold Env.ownShape
  split
  · exact gives_pure ⟨Shape.every_of_empty rfl rfl rfl rfl (by simp) (by simp), rfl⟩
  · exact gives_plainShape hmakes hnode extensions site

/-! ## 7. Combinators -/

theorem gives_takeUnion {node : Json} (hnode : strict → Schema.Free node) {acc : Shape}
    (hacc : acc.Loose strict) {part : String × List Json}
    (hpart : part = ("AnyOf", Schema.membersOf "anyOf" node) ∨
      part = ("OneOf", Schema.membersOf "oneOf" node)) :
    Gives (env.Made strict) (env.takeUnion resolve node site acc part) fun acc =>
      acc.Loose strict := by
  have helements : strict → ∀ element ∈ part.2, Schema.Free element := by
    intro hstrict element helement
    rcases hpart with rfl | rfl
    · exact (hnode hstrict).membersOf (by decide) helement
    · exact (hnode hstrict).membersOf (by decide) helement
  unfold Env.takeUnion
  split
  · exact gives_pure hacc
  · dsimp only
    refine (gives_union hmakes node helements rfl).bind fun union hunion => ?_
    refine (gives_hoist hunion.every).bind fun use huse => gives_pure ?_
    exact hacc.append (Shape.isPart_mixin _ _) huse.every.hoisted

theorem gives_mixedShape (hdoc : strict → env.doc.root.lacks overrideKey = true) {node : Json}
    (hnode : strict → Schema.Free node) (hsite : site.reference = none) :
    Gives (env.Made strict) (env.mixedShape resolve node site) fun shape =>
      shape.Every (Shape.Tidy strict) := by
  have hunions : ∀ start : Shape, start.Loose strict → Gives (env.Made strict) (do
      return (← [("AnyOf", Schema.membersOf "anyOf" node),
        ("OneOf", Schema.membersOf "oneOf" node)].foldlM (env.takeUnion resolve node site)
          start).refreshDecl) fun shape => shape.Every (Shape.Tidy strict) := fun start hstart =>
    (gives_foldlM (Shape.Loose strict) (fun acc part hpart hacc =>
      gives_takeUnion hmakes hnode hacc (by simpa using hpart)) hstart).bind fun acc hacc =>
        gives_pure hacc.every_refreshDecl
  unfold Env.mixedShape
  dsimp only
  split
  · exact hunions _ Shape.loose_empty
  · rename_i hallOf
    exact (gives_allOfShape hmakes hdoc hnode false (by simpa using hallOf) hsite).bind fun c hc =>
      hunions _ (loose_takeMerged hc.1)

/-- **What the combinators of a node come to.** -/
theorem gives_combined? (hdoc : strict → env.doc.root.lacks overrideKey = true) {node : Json}
    (hnode : strict → Schema.Free node) (hsite : site.reference = none) :
    Gives (env.Made strict) (env.combined? resolve node site) fun combined =>
      ∀ c, combined = some c → env.CombinedComes strict node site c := by
  have hsome : ∀ c, env.CombinedComes strict node site c → ∀ found, some c = some found →
      env.CombinedComes strict node site found := fun c hc found hfound =>
    Option.some.inj hfound ▸ hc
  have hunion : ∀ key, (key = "anyOf" ∨ key = "oneOf") → Gives (env.Made strict)
      (do return some (Combined.complete
        (← env.union resolve node (Schema.membersOf key node) site))) fun combined =>
          ∀ c, combined = some c → env.CombinedComes strict node site c := by
    intro key hkey
    have helements : strict → ∀ element ∈ Schema.membersOf key node, Schema.Free element := by
      intro hstrict element helement
      rcases hkey with rfl | rfl
      · exact (hnode hstrict).membersOf (by decide) helement
      · exact (hnode hstrict).membersOf (by decide) helement
    refine (gives_union hmakes node helements hsite).bind fun shape hshape => gives_pure
      (hsome _ ⟨hshape.every, ?_⟩)
    rintro _ heq halias name htarget
    obtain rfl := Combined.complete.inj heq
    obtain ⟨element, helement, hunmapped, hother, hrenames⟩ := hshape.alone halias name htarget
    refine .alone hkey helement hunmapped (fun reference hreference hdefining => ?_) hrenames
    simp [isOwnReference, hreference, hdefining] at hother
  unfold Env.combined?
  dsimp only
  split
  · exact gives_pure (by simp)
  · rename_i hallOf _ _
    exact (gives_allOfShape hmakes hdoc hnode true (by simp [hallOf]) hsite).bind fun c hc =>
      gives_pure (hsome c (hc.2 rfl))
  · exact hunion "anyOf" (.inl rfl)
  · exact hunion "oneOf" (.inr rfl)
  · exact (gives_mixedShape hmakes hdoc hnode hsite).bind fun shape hshape =>
      gives_pure (hsome _ ⟨hshape, by simp⟩)

/-! ## 8. Nodes -/

/-- **A node that is no reference** is an alias only as its combinators are. -/
theorem gives_schemaShape (hdoc : strict → env.doc.root.lacks overrideKey = true) {node : Json}
    (hnode : strict → Schema.Free node) (hsite : site.reference = none) :
    Gives (env.Made strict) (env.schemaShape resolve node site) (env.Comes strict node site) := by
  unfold Env.schemaShape
  refine .ask fun extensions hextensions => ?_
  dsimp only
  have hkeep : strict → extensions.typeOverride.isSome = false := fun hstrict => by
    rw [(hnode hstrict).typeOverride hextensions]
    rfl
  refine (gives_combined? hmakes hdoc hnode hsite).bind fun combined hcombined => ?_
  have hown : ∀ shape : Shape, shape.Every (Shape.Tidy strict) → shape.target = none →
      env.Comes strict node site (Env.finish node shape) := fun shape hevery htarget =>
    ⟨hevery.relabel _ _ _, by simp [hsite], fun _ _ name hname => by
      simp [Env.finish, htarget] at hname⟩
  -- Parts that come from combinators are added to what the node says itself.
  have henhance : ∀ part : Shape, part.Every (Shape.Tidy strict) → Gives (env.Made strict) (do
      let own ← env.ownShape resolve node extensions site
      return Env.finish node (Env.enhance own part extensions.typeOverride.isSome))
        (env.Comes strict node site) := fun part hpart =>
    (gives_ownShape hmakes hnode extensions site).bind fun own hshape => gives_pure
      (hown _ (Shape.every_enhance hshape.every hshape.target hpart hkeep)
        (Shape.target_enhance hshape.target _ _))
  split
  · exact (gives_ownShape hmakes hnode extensions site).bind fun own hshape =>
      gives_pure (hown own hshape.every hshape.target)
  · exact henhance _ (hcombined _ rfl).every
  · rename_i shape
    have hshape := hcombined _ rfl
    split
    · exact gives_pure ⟨hshape.every.relabel _ _ _, by simp [hsite],
        fun _ => hshape.renames shape rfl⟩
    · exact henhance _ hshape.every

theorem gives_build (hdoc : strict → env.doc.root.lacks overrideKey = true) (node : Json)
    (site : Site) (hnode : strict → Schema.Free node) :
    Gives (env.Made strict) (env.build resolve node site) (env.Comes strict node site) := by
  unfold Env.build
  split
  · rename_i members
    split
    · rename_i reference hreference
      refine (gives_referenceShape hmakes hdoc _ reference site).mono fun shape hshape =>
        ⟨hshape.1, fun other hother => ?_, by simp [hreference]⟩
      obtain rfl := Option.some.inj (hreference.symm.trans hother)
      exact hshape.2
    · rename_i reference hnone hreference
      split
      · rename_i hbare
        exact (gives_referenceShape hmakes hdoc _ reference site).mono fun shape hshape =>
          ⟨hshape.1, by simp [hnone], fun _ halias name htarget =>
            .bare hbare hreference (hshape.2 halias name htarget)⟩
      · rename_i hbare
        refine (gives_schemaShape hmakes hdoc (fun hstrict => (hnode hstrict).expandReference)
          hnone).mono fun shape hshape =>
            ⟨hshape.every, by simp [hnone], fun _ halias name htarget => ?_⟩
        exact .beside (by simp [hreference]) (by simpa using hbare)
          (hshape.renames hnone halias name htarget)
    · rename_i hnone hreference
      exact gives_schemaShape hmakes hdoc hnode hnone
  · exact gives_pure ⟨Shape.every_ofDecl _, by simp [Shape.any, Shape.ofDecl],
      by simp [Shape.any, Shape.ofDecl]⟩

end Resolvers

/-! ## 9. Levels -/

/-- **Every level gives shapes that come from their nodes.** -/
theorem makes_resolveAt (hdoc : strict → env.doc.root.lacks overrideKey = true) (levels : Nat) :
    env.Makes strict (env.resolveAt levels) := by
  induction levels with
  | zero => exact fun _ _ _ => gives_throw
  | succ levels ih => exact fun node site h => gives_deeper (gives_build ih hdoc node site h)

theorem gives_shapeOf (hdoc : strict → env.doc.root.lacks overrideKey = true) {node : Json}
    (hnode : strict → Schema.Free node) (site : Site) :
    Gives (env.Made strict) (env.shapeOf node site) (env.Comes strict node site) :=
  makes_resolveAt hdoc maxDepth node site hnode

end Env

end ApiTypes

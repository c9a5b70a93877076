import ApiTypes.Proofs.Compile.Alike
import ApiTypes.Proofs.Compile.Mirrored
import ApiTypes.Proofs.Reference

/-!
  A resolution in a pruned document imitates the resolution in the document.

  One lemma for each function of the resolution, under the assumption that the resolver for the
  nodes below is imitated (`Imitates`): where the resolution succeeds in the document, it finds
  every reference in the pruned document, and the shapes are alike. That holds of every level, by
  induction on the levels (`imitates_resolveAt`).
-/

namespace ApiTypes

open Prune Resolve

variable {allowed : List String} {kept : String → Prop} {env env' : Env}
  {resolve resolve' : Resolver} {site : Site} {node : Json}
  {members members' : List (String × Json)}

/-- A node of a document and what stands for it in the pruned document. -/
inductive Counterpart (allowed : List String) (kept : String → Prop) : Json → Json → Prop where
  | cleaned {node : Json} (h : Sound allowed kept .schema node) :
    Counterpart allowed kept node (clean allowed .schema node)
  | merged {members members' : List (String × Json)} (h : Merging allowed kept members members') :
    Counterpart allowed kept (.obj members) (.obj members')

/-- A resolver that imitates another, where a site that says which reference the node is says so
    rightly. -/
def Imitates (allowed : List String) (kept : String → Prop) (resolve resolve' : Resolver) : Prop :=
  ∀ {node node' : Json} {site : Site}, Counterpart allowed kept node node' →
    (∀ reference, site.reference = some reference → Schema.reference? node = some reference) →
      Follows (resolve node site) (resolve' node' site) Shape.Alike

/-- At a sound node whose site does not say which reference it is. -/
theorem Imitates.apply (h : Imitates allowed kept resolve resolve')
    (hnode : Sound allowed kept .schema node) (hsite : site.reference = none) :
    Follows (resolve node site) (resolve' (clean allowed .schema node) site) Shape.Alike :=
  h (.cleaned hnode) (by simp [hsite])

/-! ## 1. References and definitions -/

/-- A reference that fits a schema names a component schema. -/
theorem isSome_schemaName?_of_fits {reference : String} (h : fits .schema reference = true) :
    (Reference.schemaName? reference).isSome = true := by
  simp only [fits, kindsOf, List.any_cons, List.any_nil, Bool.or_false, Bool.and_eq_true,
    decide_eq_true_eq] at h
  obtain ⟨hstandard, hreference⟩ := h
  by_cases hname : Reference.objectName reference = ""
  · rw [hname] at hreference
    rw [hreference] at hstandard
    exact absurd hstandard (by decide)
  · rw [hreference, Reference.schemaName?_ofComponent_of_ne hname]
    rfl

namespace Trims

variable (h : Trims allowed kept env env')
include h

theorem referenceShape {reference : String} (hfits : fits .schema reference = true)
    (hkept : kept reference) {node' : Json} :
    Follows (env.referenceShape resolve node reference site)
      (env'.referenceShape resolve' node' reference site) Shape.Alike := by
  unfold Env.referenceShape
  rw [if_pos (isSome_schemaName?_of_fits hfits), if_pos (isSome_schemaName?_of_fits hfits)]
  refine (Follows.ask_eq fun name hname => h.componentTypeName hfits hkept hname).bind ?_
  rintro name _ ⟨-, rfl⟩
  exact .pure ((Shape.Alike.refl _).besideReference node node')

omit h in
theorem define (x x' : Shape) (site : Site) (location : Location) :
    Follows (env.define x site location) (env'.define x' site location)
      fun use use' => use'.target.isSome = use.target.isSome := by
  intro s use s' hyields
  obtain ⟨d, registry, -, -, -, -, rfl⟩ := PartLaw.yields_define hyields
  exact finds_define env' x' site location

omit h in
/-- A name is given in both documents or in neither. -/
theorem hoist {x x' : Shape} (hx : x.Alike x') (site : Site) (location : Location) :
    Follows (env.hoist x site location) (env'.hoist x' site location)
      fun use use' => use'.target.isSome = use.target.isSome := by
  unfold Env.hoist
  rw [hx.needsName]
  split
  · exact define x x' site location
  · exact .pure hx.target

/-! ## 2. Members of an `allOf` -/

variable (hresolve : Imitates allowed kept resolve resolve')
include hresolve

omit h in
theorem embedMember {acc acc' : Shape} (hacc : acc.Alike acc') {member : Json × Nat}
    (hmember : Sound allowed kept .schema member.1) :
    Follows (env.embedMember resolve site acc member)
      (env'.embedMember resolve' site acc' (Prod.map (clean allowed .schema) id member))
      Shape.Alike := by
  unfold Env.embedMember
  simp only [Prod.map_fst, Prod.map_snd, id_eq, isMetadataOnly_clean, isBareReference_clean]
  split
  · exact .pure hacc
  · refine (hresolve.apply hmember rfl).bind fun x x' hx => ?_
    split
    · exact .pure (hacc.appendFields (isEmpty_mixin hx.target false) _ _)
    · rw [hx.isReference, hx.needsName]
      split
      · exact .pure hacc
      · split
        · exact .pure (hacc.appendFields (isEmpty_mixin hx.target true) _ _)
        · exact (define x x' _ .merge).bind fun use use' huse =>
            .pure (hacc.appendFields (isEmpty_mixin huse true) _ _)

omit h in
theorem embedMembers {nodes : List Json}
    (hnodes : ∀ member ∈ nodes, Sound allowed kept .schema member) :
    Follows (env.embedMembers resolve nodes site)
      (env'.embedMembers resolve' (nodes.map (clean allowed .schema)) site) Shape.Alike := by
  unfold Env.embedMembers
  rw [List.zipIdx_map]
  have hembed : Follows (nodes.zipIdx.foldlM (env.embedMember resolve site) {})
      ((nodes.zipIdx.map (Prod.map (clean allowed .schema) id)).foldlM
        (env'.embedMember resolve' site) {}) Shape.Alike :=
    .foldlM (fun member hmember acc acc' hacc => embedMember hresolve hacc
      (hnodes _ (List.fst_mem_of_mem_zipIdx hmember))) (.refl _)
  exact hembed.bind fun x x' hx => .pure hx.refreshDecl

end Trims

/-- The only reference is the same after the cleanup. -/
theorem onlyReference?_clean (nodes : List Json) :
    Env.onlyReference? (nodes.map (clean allowed .schema)) =
      (Env.onlyReference? nodes).map fun found => (clean allowed .schema found.1, found.2) := by
  have hreference : ∀ node : Json,
      Schema.reference? (clean allowed .schema node) = Schema.reference? node :=
    fun node => reference?_clean (by simp [kindsOf])
  simp only [Env.onlyReference?, List.filter_map, List.all_map, Function.comp_def, hreference,
    isMetadataOnly_clean]
  rcases nodes.filter fun node => (Schema.reference? node).isSome with _ | ⟨first, _ | ⟨next, rest⟩⟩
  · rfl
  · simp only [List.map_cons, List.map_nil, hreference]
    split
    · cases Schema.reference? first <;> rfl
    · rfl
  · rfl

theorem narrowedComponent?_clean (h : Mirrors allowed kept members members') (nodes : List Json) :
    Env.narrowedComponent? (nodes.map (clean allowed .schema)) (.obj members') =
      Env.narrowedComponent? nodes (.obj members) := by
  have hreference : ∀ node : Json,
      Schema.reference? (clean allowed .schema node) = Schema.reference? node :=
    fun node => reference?_clean (by simp [kindsOf])
  simp only [Env.narrowedComponent?, List.filterMap_map, Function.comp_def, hreference,
    h.properties?, h.hasUnion, Option.isNone_map]

/-- What narrows a component is a reference among the members. -/
theorem mem_of_narrowedComponent? {nodes : List Json} {merged : Json} {reference : String}
    (h : Env.narrowedComponent? nodes merged = some reference) :
    ∃ member ∈ nodes, Schema.reference? member = some reference := by
  simp only [Env.narrowedComponent?] at h
  split at h
  · rename_i found hlast
    split at h
    · obtain rfl := Option.some.inj h
      exact List.mem_filterMap.mp (List.mem_of_getLast? hlast)
    · simp at h
  · simp at h

/-- The shape of the merged members of an `allOf`. -/
def Env.mergedShape (env : Env) (resolve : Resolver) (own : Option (List (String × Json)))
    (members : List Json) (site : Site) : Resolve Combined := do
  let merged := Json.obj (← Resolve.ask (env.mergedMembers site own members))
  match narrowedComponent? members merged with
  | some reference =>
    let name ← Resolve.ask (env.componentTypeName reference site)
    return .complete { Shape.aliasOf name with constraints := Constraints.ofSchema merged }
  | none => return .complete (← resolve merged site)

/-- An `allOf` is embedded member by member, or is its only reference, or is merged. -/
theorem allOfShape_eq (env : Env) (resolve : Resolver) (node : Json) (nodes : List Json)
    (withOwn : Bool) (site : Site) :
    env.allOfShape resolve node nodes withOwn site = (do
      if ← Resolve.ask (env.anyUnion site nodes) then
        return .partly (← env.embedMembers resolve nodes site)
      let own := if withOwn then Schema.ownKeywords node else none
      match own, Env.onlyReference? nodes with
      | none, some (member, reference) =>
        return .complete (← resolve member (site.withReference reference))
      | _, _ => env.mergedShape resolve own nodes site) :=
  rfl

namespace Trims

variable (h : Trims allowed kept env env') (hresolve : Imitates allowed kept resolve resolve')
include h hresolve

/-- **Merged members and merged cleaned members have shapes alike.** -/
theorem mergedShape {own own' : Option (List (String × Json))} {nodes : List Json}
    (hown : MergedAlike allowed kept own own')
    (hnodes : ∀ member ∈ nodes, Sound allowed kept .schema member)
    (hunion : env.anyUnion site nodes = .ok false) (hsite : site.reference = none) :
    Follows (env.mergedShape resolve own nodes site)
      (env'.mergedShape resolve' own' (nodes.map (clean allowed .schema)) site)
      Combined.Alike := by
  unfold Env.mergedShape
  have hmerged : Follows (ask (env.mergedMembers site own nodes))
      (ask (env'.mergedMembers site own' (nodes.map (clean allowed .schema))))
      (Merging allowed kept) :=
    .ask fun merged hmerged => h.mergedMembers hown hnodes hunion hmerged
  refine hmerged.bind fun merged merged' hmerging => ?_
  dsimp only
  rw [narrowedComponent?_clean hmerging.toMirrors]
  cases hnarrowed : Env.narrowedComponent? nodes (.obj merged) with
  | some reference =>
    obtain ⟨member, hmember, hreference⟩ := mem_of_narrowedComponent? hnarrowed
    obtain ⟨hfits, hkept⟩ := (hnodes member hmember).reference (by simp [kindsOf]) hreference
    refine (Follows.ask_eq fun name hname => h.componentTypeName hfits hkept hname).bind ?_
    rintro name _ ⟨-, rfl⟩
    exact .pure (.complete ((Shape.Alike.refl _).withConstraints _ _))
  | none =>
    exact (hresolve (.merged hmerging) (by simp [hsite])).bind fun x x' hx =>
      .pure (.complete hx)

theorem allOfShape (hnode : Resembles allowed kept members members') (withOwn : Bool)
    (hown : withOwn = true → Schema.membersOf "allOf" (.obj members) ≠ [] ∧
      Schema.hasUnion (.obj members) = false) (hsite : site.reference = none) :
    Follows
      (env.allOfShape resolve (.obj members) (Schema.membersOf "allOf" (.obj members)) withOwn site)
      (env'.allOfShape resolve' (.obj members') (Schema.membersOf "allOf" (.obj members')) withOwn
        site) Combined.Alike := by
  rw [allOfShape_eq, allOfShape_eq, hnode.allOf]
  have hnodes := hnode.allOfSound
  refine (Follows.ask_eq fun found hfound => h.anyUnion hnodes hfound).bind ?_
  rintro found _ ⟨hfound, rfl⟩
  cases found with
  | true => exact (embedMembers hresolve hnodes).bind fun x x' hx => .pure (.partly hx)
  | false =>
    simp only [Bool.false_eq_true, if_false, onlyReference?_clean]
    -- What the node says itself is merged with the members, or stays out in both documents.
    have hstart : ∃ own, (if withOwn then Schema.ownKeywords (.obj members) else none) = own ∧
        (if withOwn then Schema.ownKeywords (.obj members') else none) =
          own.map (cleanMembers allowed .schema) ∧
        MergedAlike allowed kept own (own.map (cleanMembers allowed .schema)) := by
      cases withOwn with
      | false => exact ⟨none, rfl, rfl, .nothing⟩
      | true =>
        obtain ⟨hnonempty, hunion⟩ := hown rfl
        refine ⟨_, rfl, hnode.own hnonempty, ?_⟩
        simp only [if_true]
        cases hkeywords : Schema.ownKeywords (.obj members) with
        | none => exact .nothing
        | some own =>
          obtain ⟨hflat, hsame⟩ := hnode.ownFlat hnonempty own hkeywords
          exact .merged (Merging.first ⟨hflat, hsame.trans hunion⟩)
    obtain ⟨own, hown, hown', hstart⟩ := hstart
    rw [hown, hown']
    cases own with
    | some own => exact h.mergedShape hresolve hstart hnodes hfound hsite
    | none =>
      cases honly : Env.onlyReference? (Schema.membersOf "allOf" (.obj members)) with
      | none => exact h.mergedShape hresolve hstart hnodes hfound hsite
      | some only =>
        obtain ⟨member, reference⟩ := only
        obtain ⟨hmember, hreference⟩ := PartLaw.mem_of_onlyReference? honly
        refine (hresolve (.cleaned (hnodes member hmember)) fun other hother => ?_).bind
          fun x x' hx => .pure (.complete hx)
        exact Option.some.inj hother ▸ hreference

end Trims

/-! ## 3. Unions -/

theorem isOwnReference_clean (site : Site) (element : Json) :
    Env.isOwnReference site (clean allowed .schema element) = Env.isOwnReference site element := by
  rw [Env.isOwnReference, reference?_clean (by simp [kindsOf]), Env.isOwnReference]

/-- Adds a shape to the variants, and the values that select it to the mapping. -/
def Env.insertVariant (env : Env) (site : Site) (property : Option String)
    (declared : List (String × String)) (acc : List Variant × List (String × String))
    (element : Json) (shape : Shape) : Resolve (List Variant × List (String × String)) := do
  let typeName := shape.target.getD shape.decl
  let mapping ← match property with
    | none => pure acc.2
    | some property => Resolve.ask (env.mapElement declared property site element typeName acc.2)
  return (acc.1 ++ [⟨typeName, shape⟩], mapping)

/-- Of the shapes of the elements some get a name before they are added. -/
theorem addVariant_eq (env : Env) (resolve : Resolver) (site : Site) (property : Option String)
    (declared : List (String × String)) (acc : List Variant × List (String × String))
    (element : Json × Nat) :
    env.addVariant resolve site property declared acc element = (do
      let site := site.child (toString element.2)
      let shape ← resolve element.1 site
      if shape.decl = emptyRecordDecl then return acc
      if !shape.isReference && (!isPrimitive shape.decl || !shape.choices.isEmpty) then
        let use ← env.define shape site .union
        env.insertVariant site property declared acc element.1 use
      else env.insertVariant site property declared acc element.1 shape) := by
  obtain ⟨variants, mapping⟩ := acc
  cases property <;> rfl

namespace Trims

variable (h : Trims allowed kept env env') (hresolve : Imitates allowed kept resolve resolve')
include h

theorem insertVariant {property : Option String} {declared : List (String × String)}
    (acc acc' : List Variant × List (String × String)) (element : Json)
    (helement : Sound allowed kept .schema element) (x x' : Shape) :
    Follows (env.insertVariant site property declared acc element x)
      (env'.insertVariant site property declared acc' (clean allowed .schema element) x')
      fun found found' => found'.1.isEmpty = found.1.isEmpty := by
  have hlast : ∀ (variants variants' : List Variant) (new new' : Variant),
      (variants' ++ [new']).isEmpty = (variants ++ [new]).isEmpty := by
    intro variants variants' new new'
    cases variants <;> cases variants' <;> rfl
  unfold Env.insertVariant
  cases property with
  | none => exact .pure (hlast ..)
  | some property =>
    have hmapping : Follows
        (ask (env.mapElement declared property site element (x.target.getD x.decl) acc.2))
        (ask (env'.mapElement declared property site (clean allowed .schema element)
          (x'.target.getD x'.decl) acc'.2)) fun _ _ => True :=
      .ask fun found hfound => h.mapElement helement hfound
    exact hmapping.bind fun _ _ _ => .pure (hlast ..)

include hresolve

theorem addVariant {property : Option String} {declared : List (String × String)}
    {acc acc' : List Variant × List (String × String)} (hacc : acc'.1.isEmpty = acc.1.isEmpty)
    {element : Json × Nat} (helement : Sound allowed kept .schema element.1) :
    Follows (env.addVariant resolve site property declared acc element)
      (env'.addVariant resolve' site property declared acc'
        (Prod.map (clean allowed .schema) id element))
      fun found found' => found'.1.isEmpty = found.1.isEmpty := by
  rw [addVariant_eq, addVariant_eq]
  simp only [Prod.map_fst, Prod.map_snd, id_eq]
  refine (hresolve.apply helement rfl).bind fun x x' hx => ?_
  simp only [hx.emptyRecord]
  split
  · exact .pure hacc
  · -- Whether the shapes get names is asked of each by itself, and makes no difference.
    have hinsert : ∀ use use' : Shape, Follows
        (env.insertVariant (site.child (toString element.2)) property declared acc element.1 use)
        (env'.insertVariant (site.child (toString element.2)) property declared acc'
          (clean allowed .schema element.1) use')
        fun found found' => found'.1.isEmpty = found.1.isEmpty :=
      fun use use' => h.insertVariant acc acc' element.1 helement use use'
    split
    · refine .bind_left fun use => ?_
      split
      · exact .bind_right (finds_define _ _ _ _) fun use' => hinsert use use'
      · exact hinsert use x'
    · split
      · exact .bind_right (finds_define _ _ _ _) fun use' => hinsert x use'
      · exact hinsert x x'

theorem variantUnion (hnode : Mirrors allowed kept members members') {elements : List Json}
    (helements : ∀ element ∈ elements, Sound allowed kept .schema element) (nullable : Bool) :
    Follows (env.variantUnion resolve (.obj members) elements nullable site)
      (env'.variantUnion resolve' (.obj members') (elements.map (clean allowed .schema)) nullable
        site) Shape.Alike := by
  unfold Env.variantUnion
  dsimp only
  rw [hnode.discriminatorProperty?, hnode.declaredMapping, List.zipIdx_map]
  generalize discriminatorProperty? (.obj members) = property
  generalize declaredMapping (.obj members) = declared
  have hfound : Follows
      (elements.zipIdx.foldlM (env.addVariant resolve site property declared) ([], []))
      ((elements.zipIdx.map (Prod.map (clean allowed .schema) id)).foldlM
        (env'.addVariant resolve' site property declared) ([], []))
      fun found found' => found'.1.isEmpty = found.1.isEmpty :=
    .foldlM (fun element helement acc acc' hacc => h.addVariant hresolve hacc
      (helements _ (List.fst_mem_of_mem_zipIdx helement))) rfl
  refine hfound.bind ?_
  rintro ⟨found, mapping⟩ ⟨found', mapping'⟩ hempty
  change found'.isEmpty = found.isEmpty at hempty
  dsimp only
  split
  · exact .throw
  · rw [isEmpty_distinctVariants, isEmpty_distinctVariants, hempty]
    split
    · split
      · exact fun s a s' _ => finds_throw rfl
      · exact .pure (.refl _)
    · split
      · exact fun s a s' _ => finds_throw rfl
      · refine .pure (.of_proper rfl rfl ?_ rfl (isProperDecl_unionDecl _)
          (isProperDecl_unionDecl _))
        rw [isEmpty_distinctVariants, isEmpty_distinctVariants, hempty]

end Trims

/-- Whether an element may be the whole union. -/
def Env.standsAlone (node : Json) (site : Site) (element : Json) : Bool :=
  (discriminatorProperty? node).isNone && !isOwnReference site element

/-- The union of the elements that admit more than null. -/
def Env.admittedUnion (env : Env) (resolve : Resolver) (node : Json) (site : Site)
    (nullable : Bool) (admitted : List Json) : Resolve Shape :=
  match admitted with
  | [] => return { Shape.any with constraints := { nullable := true } }
  | [element] =>
    if standsAlone node site element then do
      let shape ← resolve element site
      let constraints := shape.constraints
      return { shape with
        constraints := { constraints with nullable := constraints.nullable || nullable } }
    else env.variantUnion resolve node admitted nullable site
  | _ => env.variantUnion resolve node admitted nullable site

/-- An element that stands alone is the union; of others those count that admit more than null. -/
theorem union_eq (env : Env) (resolve : Resolver) (node : Json) (elements : List Json)
    (site : Site) :
    env.union resolve node elements site =
      let admittedUnion : Resolve Shape := do
        let admitted ← Resolve.ask (env.nonNull site elements)
        env.admittedUnion resolve node site (decide (admitted.length < elements.length)) admitted
      match elements with
      | [element] =>
        if Env.standsAlone node site element then resolve element site else admittedUnion
      | _ => admittedUnion := by
  rcases elements with _ | ⟨element, _ | ⟨next, rest⟩⟩ <;> rfl

namespace Trims

variable (h : Trims allowed kept env env') (hresolve : Imitates allowed kept resolve resolve')
include h hresolve

/-- **The elements of a union and the cleaned elements have shapes alike.** -/
theorem union (hnode : Mirrors allowed kept members members') {elements : List Json}
    (helements : ∀ element ∈ elements, Sound allowed kept .schema element)
    (hsite : site.reference = none) :
    Follows (env.union resolve (.obj members) elements site)
      (env'.union resolve' (.obj members') (elements.map (clean allowed .schema)) site)
      Shape.Alike := by
  have halone : ∀ element, Env.standsAlone (.obj members') site (clean allowed .schema element) =
      Env.standsAlone (.obj members) site element := by
    intro element
    rw [Env.standsAlone, hnode.discriminatorProperty?, isOwnReference_clean, Env.standsAlone]
  have hadmitted : Follows
      (do
        let admitted ← ask (env.nonNull site elements)
        env.admittedUnion resolve (.obj members) site
          (decide (admitted.length < elements.length)) admitted)
      (do
        let admitted ← ask (env'.nonNull site (elements.map (clean allowed .schema)))
        env'.admittedUnion resolve' (.obj members') site
          (decide (admitted.length < (elements.map (clean allowed .schema)).length)) admitted)
      Shape.Alike := by
    have hnonNull : Follows (ask (env.nonNull site elements))
        (ask (env'.nonNull site (elements.map (clean allowed .schema))))
        fun admitted admitted' => admitted' = admitted.map (clean allowed .schema) ∧
          ∀ element ∈ admitted, Sound allowed kept .schema element :=
      .ask fun admitted hok => by
        obtain ⟨hok', hsound⟩ := h.nonNull helements hok
        rw [hok']
        exact ⟨rfl, hsound⟩
    refine hnonNull.bind ?_
    rintro admitted _ ⟨rfl, hsound⟩
    simp only [List.length_map]
    generalize decide (admitted.length < elements.length) = nullable
    rcases admitted with _ | ⟨element, _ | ⟨next, rest⟩⟩
    · exact .pure (.refl _)
    · simp only [Env.admittedUnion, List.map_cons, List.map_nil, halone]
      split
      · exact (hresolve.apply (hsound element List.mem_cons_self) hsite).bind fun x x' hx =>
          .pure (hx.withConstraints _ _)
      · exact h.variantUnion hresolve hnode hsound nullable
    · exact h.variantUnion hresolve hnode hsound nullable
  rw [union_eq, union_eq]
  rcases elements with _ | ⟨element, _ | ⟨next, rest⟩⟩
  · exact hadmitted
  · simp only [List.map_cons, List.map_nil, halone] at hadmitted ⊢
    split
    · exact hresolve.apply (helements element List.mem_cons_self) hsite
    · exact hadmitted
  · exact hadmitted

end Trims

/-! ## 4. Records and arrays -/

/-- What an object says of the fields that it does not name, by what the keyword says. -/
theorem additionalFields_eq (env : Env) (resolve : Resolver) (node : Json) (site : Site) :
    env.additionalFields resolve node site =
      match Schema.Openness.ofKeyword (node.get? "additionalProperties") with
      | .open => return some Shape.any
      | .restricted schema => do
        let site := site.child "AdditionalProperties"
        return some (← env.hoist (← resolve schema site) site .property)
      | _ => return none := by
  unfold Env.additionalFields
  rcases node.get? "additionalProperties" with _ | value
  · rfl
  · cases value with
    | obj members => cases members <;> rfl
    | bool b => cases b <;> rfl
    | _ => rfl

/-- An object without properties that says nothing of other fields, or closes itself. -/
theorem fieldlessShape_none (node : Json) :
    Env.fieldlessShape node none =
      if (Schema.Openness.ofKeyword (node.get? "additionalProperties")).isClosed ||
          (node.get? "properties").isSome then Shape.ofDecl emptyRecordDecl
      else if Schema.declaredTypes node = ["object"] then
        { decl := mapDecl Shape.any, isOpen := true, additional := some Shape.any }
      else Shape.any := by
  unfold Env.fieldlessShape
  rcases node.get? "additionalProperties" with _ | value
  · rfl
  · cases value with
    | obj members => cases members <;> rfl
    | bool b => cases b <;> rfl
    | _ => rfl

theorem alike_map (value value' : Shape) :
    Shape.Alike { decl := mapDecl value, isOpen := true, additional := some value }
      { decl := mapDecl value', isOpen := true, additional := some value' } :=
  .of_proper rfl rfl rfl rfl (isProperDecl_mapDecl _) (isProperDecl_mapDecl _)

theorem alike_array (item item' : Shape) :
    Shape.Alike { decl := arrayDecl item, item := some item }
      { decl := arrayDecl item', item := some item' } :=
  .of_proper rfl rfl rfl rfl (isProperDecl_arrayDecl _) (isProperDecl_arrayDecl _)

theorem alike_fieldlessShape (hnode : Mirrors allowed kept members members')
    {additional additional' : Option Shape} (h : additional'.isSome = additional.isSome) :
    (Env.fieldlessShape (.obj members) additional).Alike
      (Env.fieldlessShape (.obj members') additional') := by
  cases additional with
  | some value =>
    obtain ⟨value', rfl⟩ := Option.isSome_iff_exists.mp h
    exact alike_map value value'
  | none =>
    obtain rfl := Option.not_isSome_iff_eq_none.mp (Bool.eq_false_iff.mp h)
    rw [fieldlessShape_none, fieldlessShape_none, hnode.isClosed, hnode.declaredTypes,
      hnode.isSome_get? rfl rfl]
    split
    · exact .refl _
    · split
      · exact alike_map _ _
      · exact .refl _

theorem alike_enumShape {node' : Json} (declared : Option String) (extensions : Extensions) :
    (enumShape node declared extensions).Alike (enumShape node' declared extensions) := by
  have hproper : ∀ (type format : Option String),
      IsProperDecl ((type.bind (scalarDecl? · format)).getD anyDecl) := by
    intro type format
    cases hdecl : type.bind (scalarDecl? · format) with
    | none => exact isProperDecl_anyDecl
    | some decl =>
      obtain ⟨name, -, hname⟩ := Option.bind_eq_some_iff.mp hdecl
      exact isProperDecl_scalarDecl? hname
  exact .of_proper rfl rfl rfl rfl (hproper _ _) (hproper _ _)

theorem extensionsAt_congr {node' : Json} {path path' : String} {extensions : Extensions}
    (h : Extensions.ofNode node' = Extensions.ofNode node)
    (hok : Env.extensionsAt node path = .ok extensions) :
    Env.extensionsAt node' path' = .ok extensions := by
  unfold Env.extensionsAt at hok ⊢
  rw [h]
  cases hnode : Extensions.ofNode node with
  | ok found => simpa [hnode] using hok
  | error fault => simp [hnode] at hok

namespace Trims

variable (h : Trims allowed kept env env') (hresolve : Imitates allowed kept resolve resolve')
include h hresolve

theorem field (required required' : List String) {property : String × Json}
    (hproperty : Sound allowed kept .schema property.2) :
    Follows (env.field resolve required site property)
      (env'.field resolve' required' site (property.1, clean allowed .schema property.2))
      fun _ _ => True := by
  unfold Env.field
  refine (hresolve.apply hproperty rfl).bind fun x x' hx => (hoist hx _ _).bind fun use use' _ => ?_
  have htarget : Follows (ask (env.deref property.2 (site.child property.1)))
      (ask (env'.deref (clean allowed .schema property.2) (site.child property.1)))
      fun _ _ => True :=
    .ask fun target htarget => by
      rw [(h.derefSchema hproperty htarget).1]
      trivial
  refine htarget.bind fun target target' _ => ?_
  exact (Follows.ask_eq fun extensions hextensions => h.extensionsAt hextensions).bind
    fun _ _ _ => .pure trivial

omit h in
theorem additionalFields (hnode : Mirrors allowed kept members members') :
    Follows (env.additionalFields resolve (.obj members) site)
      (env'.additionalFields resolve' (.obj members') site)
      fun additional additional' => additional'.isSome = additional.isSome := by
  rw [additionalFields_eq, additionalFields_eq, Json.get?_obj, Json.get?_obj, hnode.openness]
  cases hopenness : Schema.Openness.ofKeyword (Entries.get? "additionalProperties" members) with
  | unsaid => exact .pure rfl
  | closed => exact .pure rfl
  | «open» => exact .pure rfl
  | restricted schema =>
    have hproper := hopenness ▸
      Schema.Openness.isProper_ofKeyword (Entries.get? "additionalProperties" members)
    obtain ⟨found, rfl⟩ := Schema.Openness.exists_members_of_isProper hproper
    rw [Schema.Openness.trimmed_restricted]
    -- A restriction of which the cleanup leaves nothing opens the pruned schema.
    by_cases hempty : (cleanMembers allowed .schema found).isEmpty = true
    · rw [if_pos hempty]
      exact .bind_left fun x => .bind_left fun use => .pure rfl
    · rw [if_neg hempty]
      exact (hresolve.apply (hnode.restricted _ hopenness) rfl).bind fun x x' hx =>
        (hoist hx _ _).bind fun _ _ _ => .pure rfl

theorem objectShape (hnode : Mirrors allowed kept members members') :
    Follows (env.objectShape resolve (.obj members) site)
      (env'.objectShape resolve' (.obj members') site) Shape.Alike := by
  unfold Env.objectShape
  dsimp only
  have hproperties : (Schema.properties? (.obj members')).getD [] =
      ((Schema.properties? (.obj members)).getD []).map
        fun entry => (entry.1, clean allowed .schema entry.2) := by
    rw [hnode.properties?]
    cases Schema.properties? (.obj members) <;> rfl
  rw [hproperties]
  have hsound : ∀ property ∈ (Schema.properties? (.obj members)).getD [],
      Sound allowed kept .schema property.2 := by
    intro property hmem
    cases hget : Schema.properties? (.obj members) with
    | none => simp [hget] at hmem
    | some properties => exact hnode.property hget (by simpa [hget] using hmem)
  refine (Follows.mapM fun property hmem => h.field hresolve _ _ (hsound property hmem)).bind
    fun fields fields' hlength => ?_
  have hempty : fields'.isEmpty = fields.isEmpty := by
    cases fields <;> cases fields' <;> simp_all
  refine (additionalFields hresolve hnode).bind fun additional additional' hadditional => ?_
  rw [hempty]
  split
  · exact .pure (alike_fieldlessShape hnode hadditional)
  · rename_i hfields
    have hfields : fields.isEmpty = false := by simpa using hfields
    exact .pure (.of_proper rfl hempty rfl rfl (isProperDecl_recordDecl hfields _)
      (isProperDecl_recordDecl (hempty.trans hfields) _))

omit h in
theorem arrayShape (hnode : Mirrors allowed kept members members') :
    Follows (env.arrayShape resolve (.obj members) site)
      (env'.arrayShape resolve' (.obj members') site) Shape.Alike := by
  unfold Env.arrayShape
  dsimp only
  rw [hnode.get? rfl rfl]
  cases hitems : (Json.obj members).get? "items" with
  | none =>
    exact (Follows.pure (Shape.Alike.refl Shape.any)).bind fun x x' hx => (hoist hx _ _).bind
      fun _ _ _ => .pure (alike_array _ _)
  | some items =>
    have hsound : Sound allowed kept .schema items := hnode.sound rfl hitems
    exact (hresolve.apply hsound rfl).bind fun x x' hx => (hoist hx _ _).bind fun _ _ _ =>
      .pure (alike_array _ _)

omit h in
theorem typedShape (hnode : Mirrors allowed kept members members') (type : String) :
    Follows (env.typedShape resolve (.obj members) type site)
      (env'.typedShape resolve' (.obj members') type site) Shape.Alike := by
  unfold Env.typedShape
  split
  · exact arrayShape hresolve hnode
  · cases hdecl : scalarDecl? type (Schema.text? "format" (.obj members)) with
    | none => exact .throw
    | some decl =>
      cases hdecl' : scalarDecl? type (Schema.text? "format" (.obj members')) with
      | none => exact fun _ _ _ _ => finds_throw rfl
      | some decl' =>
        have halike : (Shape.ofDecl decl).Alike (Shape.ofDecl decl') :=
          .of_proper rfl rfl rfl rfl (isProperDecl_scalarDecl? hdecl)
            (isProperDecl_scalarDecl? hdecl')
        exact .pure halike

/-- **What a schema says by itself has shapes alike.** -/
theorem ownShape (hnode : Mirrors allowed kept members members') (extensions : Extensions) :
    Follows (env.ownShape resolve (.obj members) extensions site)
      (env'.ownShape resolve' (.obj members') extensions site) Shape.Alike := by
  unfold Env.ownShape
  cases extensions.typeOverride with
  | some decl => exact .pure (.refl _)
  | none =>
    have henum : ((Json.obj members').get? "enum").isSome =
        ((Json.obj members).get? "enum").isSome := hnode.enum
    simp only [Env.plainShape, hnode.types, henum]
    rcases Schema.types (.obj members) with _ | ⟨type, _ | ⟨next, rest⟩⟩
    · dsimp only
      split
      · exact .pure (alike_enumShape _ _)
      · exact h.objectShape hresolve hnode
    · dsimp only
      split
      · exact h.objectShape hresolve hnode
      · split
        · exact .pure (alike_enumShape _ _)
        · exact typedShape hresolve hnode type
    · exact .pure (.refl _)

end Trims

/-! ## 5. Combinators -/

/-- Which combinators a node has decides how they are resolved. -/
theorem combined?_eq (env : Env) (resolve : Resolver) (node : Json) (site : Site) :
    env.combined? resolve node site =
      match (Schema.membersOf "allOf" node).isEmpty, (Schema.membersOf "anyOf" node).isEmpty,
        (Schema.membersOf "oneOf" node).isEmpty,
        Env.fieldKeywords.any fun key => (node.get? key).isSome with
      | true, true, true, _ => return none
      | false, true, true, _ => do
        return some (← env.allOfShape resolve node (Schema.membersOf "allOf" node) true site)
      | true, false, true, false => do
        return some (.complete (← env.union resolve node (Schema.membersOf "anyOf" node) site))
      | true, true, false, false => do
        return some (.complete (← env.union resolve node (Schema.membersOf "oneOf" node) site))
      | _, _, _, _ => do return some (.partly (← env.mixedShape resolve node site)) := by
  unfold Env.combined?
  dsimp only
  cases Schema.membersOf "allOf" node <;> cases Schema.membersOf "anyOf" node <;>
    cases Schema.membersOf "oneOf" node <;>
    cases Env.fieldKeywords.any fun key => (node.get? key).isSome <;> rfl

namespace Trims

variable (h : Trims allowed kept env env') (hresolve : Imitates allowed kept resolve resolve')
include h hresolve

theorem takeUnion (hnode : Mirrors allowed kept members members') {acc acc' : Shape}
    (hacc : acc.Alike acc') {part : String × List Json}
    (hpart : ∀ element ∈ part.2, Sound allowed kept .schema element) :
    Follows (env.takeUnion resolve (.obj members) site acc part)
      (env'.takeUnion resolve' (.obj members') site acc'
        (part.1, part.2.map (clean allowed .schema))) Shape.Alike := by
  unfold Env.takeUnion
  simp only [List.isEmpty_map]
  split
  · exact .pure hacc
  · exact (h.union hresolve hnode hpart rfl).bind fun x x' hx => (hoist hx _ _).bind
      fun use use' huse => .pure (hacc.appendFields (isEmpty_mixin huse true) _ _)

theorem mixedShape (hnode : Resembles allowed kept members members')
    (hsite : site.reference = none) :
    Follows (env.mixedShape resolve (.obj members) site)
      (env'.mixedShape resolve' (.obj members') site) Shape.Alike := by
  have hunions : ∀ start start' : Shape, start.Alike start' → Follows
      (do
        return (← [("AnyOf", Schema.membersOf "anyOf" (.obj members)),
          ("OneOf", Schema.membersOf "oneOf" (.obj members))].foldlM
            (env.takeUnion resolve (.obj members) site) start).refreshDecl)
      (do
        return (← [("AnyOf", Schema.membersOf "anyOf" (.obj members')),
          ("OneOf", Schema.membersOf "oneOf" (.obj members'))].foldlM
            (env'.takeUnion resolve' (.obj members') site) start').refreshDecl) Shape.Alike := by
    intro start start' hstart
    rw [hnode.elements (.inl rfl), hnode.elements (.inr rfl)]
    have hparts : ∀ part ∈ [("AnyOf", Schema.membersOf "anyOf" (.obj members)),
        ("OneOf", Schema.membersOf "oneOf" (.obj members))],
        ∀ element ∈ part.2, Sound allowed kept .schema element := by
      intro part hpart
      simp only [List.mem_cons, List.not_mem_nil, or_false] at hpart
      rcases hpart with rfl | rfl
      · exact fun element => hnode.element (.inl rfl)
      · exact fun element => hnode.element (.inr rfl)
    have hfold : Follows
        ([("AnyOf", Schema.membersOf "anyOf" (.obj members)),
          ("OneOf", Schema.membersOf "oneOf" (.obj members))].foldlM
            (env.takeUnion resolve (.obj members) site) start)
        (([("AnyOf", Schema.membersOf "anyOf" (.obj members)),
          ("OneOf", Schema.membersOf "oneOf" (.obj members))].map
            fun part => (part.1, part.2.map (clean allowed .schema))).foldlM
            (env'.takeUnion resolve' (.obj members') site) start') Shape.Alike :=
      .foldlM (fun part hpart acc acc' hacc =>
        h.takeUnion hresolve hnode.toMirrors hacc (hparts part hpart)) hstart
    exact hfold.bind fun x x' hx => .pure hx.refreshDecl
  unfold Env.mixedShape
  dsimp only
  rw [hnode.allOf, List.isEmpty_map]
  split
  · exact hunions _ _ (.refl _)
  · have hallOf := h.allOfShape hresolve hnode false (by simp) hsite
    rw [hnode.allOf] at hallOf
    exact hallOf.bind fun part part' hpart =>
      hunions _ _ (Combined.Alike.takeMerged (.refl _) hpart)

/-- **Combinators come to shapes alike.** -/
theorem combined? (hnode : Resembles allowed kept members members')
    (hsite : site.reference = none) :
    Follows (env.combined? resolve (.obj members) site)
      (env'.combined? resolve' (.obj members') site) (Option.Rel Combined.Alike) := by
  have hall : (Schema.membersOf "allOf" (.obj members)).isEmpty = false →
      Schema.hasUnion (.obj members) = false →
      Follows (do return some (← env.allOfShape resolve (.obj members)
          (Schema.membersOf "allOf" (.obj members)) true site))
        (do return some (← env'.allOfShape resolve' (.obj members')
          (Schema.membersOf "allOf" (.obj members')) true site)) (Option.Rel Combined.Alike) :=
    fun hsome hunion => (h.allOfShape hresolve hnode true
      (fun _ => ⟨List.isEmpty_eq_false_iff.mp hsome, hunion⟩) hsite).bind
      fun part part' hpart => .pure (.some hpart)
  have hunion : ∀ key, key = "anyOf" ∨ key = "oneOf" →
      Follows (do return some (.complete (← env.union resolve (.obj members)
          (Schema.membersOf key (.obj members)) site)))
        (do return some (.complete (← env'.union resolve' (.obj members')
          (Schema.membersOf key (.obj members')) site))) (Option.Rel Combined.Alike) := by
    intro key hkey
    rw [hnode.elements hkey]
    exact (h.union hresolve hnode.toMirrors (fun element => hnode.element hkey) hsite).bind
      fun x x' hx => .pure (.some (.complete hx))
  have hmixed : Follows
      (do return some (.partly (← env.mixedShape resolve (.obj members) site)))
      (do return some (.partly (← env'.mixedShape resolve' (.obj members') site)))
      (Option.Rel Combined.Alike) :=
    (h.mixedShape hresolve hnode hsite).bind fun x x' hx => .pure (.some (.partly hx))
  have hempty : (Schema.membersOf "allOf" (.obj members')).isEmpty =
      (Schema.membersOf "allOf" (.obj members)).isEmpty := by rw [hnode.allOf, List.isEmpty_map]
  have helements : ∀ key, key = "anyOf" ∨ key = "oneOf" →
      (Schema.membersOf key (.obj members')).isEmpty =
        (Schema.membersOf key (.obj members)).isEmpty := by
    intro key hkey
    rw [hnode.elements hkey, List.isEmpty_map]
  have hfields := hnode.fields
  have hhas : Schema.hasUnion (.obj members) =
      (!(Schema.membersOf "anyOf" (.obj members)).isEmpty ||
        !(Schema.membersOf "oneOf" (.obj members)).isEmpty) := rfl
  rw [combined?_eq, combined?_eq, hempty, helements _ (.inl rfl), helements _ (.inr rfl)]
  -- Where there is a union, it depends on the fields beside it whether it stands by itself.
  cases hallOf : (Schema.membersOf "allOf" (.obj members)).isEmpty <;>
    cases hanyOf : (Schema.membersOf "anyOf" (.obj members)).isEmpty <;>
    cases honeOf : (Schema.membersOf "oneOf" (.obj members)).isEmpty <;>
    simp only [hanyOf, honeOf, Bool.not_false, Bool.not_true, Bool.or_false, Bool.or_true,
      Bool.or_self] at hhas
  case false.true.true => exact hall hallOf hhas
  case true.true.true => exact .pure .none
  all_goals rw [hfields hhas]
  case true.false.true =>
    cases Env.fieldKeywords.any fun key => ((Json.obj members).get? key).isSome with
    | true => exact hmixed
    | false => exact hunion "anyOf" (.inl rfl)
  case true.true.false =>
    cases Env.fieldKeywords.any fun key => ((Json.obj members).get? key).isSome with
    | true => exact hmixed
    | false => exact hunion "oneOf" (.inr rfl)
  all_goals exact hmixed

/-! ## 6. Nodes -/

/-- **A schema and what resembles it have shapes alike.** -/
theorem schemaShape (hnode : Resembles allowed kept members members')
    (hsite : site.reference = none) :
    Follows (env.schemaShape resolve (.obj members) site)
      (env'.schemaShape resolve' (.obj members') site) Shape.Alike := by
  unfold Env.schemaShape
  refine (Follows.ask_eq fun extensions hextensions =>
    extensionsAt_congr (hnode.ofNode h.recognized) hextensions).bind ?_
  rintro extensions _ ⟨-, rfl⟩
  dsimp only
  have henhance : ∀ x x' : Shape, x.Alike x' → Follows
      (do
        let own ← env.ownShape resolve (.obj members) extensions site
        return Env.finish (.obj members)
          (Env.enhance own x extensions.typeOverride.isSome))
      (do
        let own ← env'.ownShape resolve' (.obj members') extensions site
        return Env.finish (.obj members')
          (Env.enhance own x' extensions.typeOverride.isSome)) Shape.Alike := fun x x' hx =>
    (h.ownShape hresolve hnode.toMirrors extensions).bind fun own own' hown =>
      .pure ((hown.enhance hx _).finish _ _)
  refine (h.combined? hresolve hnode hsite).bind fun combined combined' hcombined => ?_
  cases hcombined with
  | none =>
    exact (h.ownShape hresolve hnode.toMirrors extensions).bind fun own own' hown =>
      .pure (hown.finish _ _)
  | some hpart =>
    cases hpart with
    | partly hx => exact henhance _ _ hx
    | @complete x x' hx =>
      dsimp only
      rw [hx.isBlank, hx.isAlias]
      split
      · exact .pure (hx.finishCombined _ _)
      · exact henhance _ _ hx

theorem build {node' : Json} (hnode : Counterpart allowed kept node node')
    (hsite : ∀ reference, site.reference = some reference →
      Schema.reference? node = some reference) :
    Follows (env.build resolve node site) (env'.build resolve' node' site) Shape.Alike := by
  cases hnode with
  | @merged members members' hmerging =>
    have hnone : site.reference = none := by
      cases hreference : site.reference with
      | none => rfl
      | some reference => simpa [hmerging.reference] using hsite reference hreference
    simp only [Env.build, hnone, hmerging.reference, hmerging.reference']
    exact h.schemaShape hresolve hmerging.resembles hnone
  | cleaned hsound =>
    cases node with
    | obj members =>
      have hclean : Schema.reference? (Json.obj (cleanMembers allowed .schema members)) =
          Schema.reference? (.obj members) :=
        @reference?_clean allowed .schema (.obj members) (by simp [kindsOf])
      have hbare : Schema.isBareReference (Json.obj (cleanMembers allowed .schema members)) =
          Schema.isBareReference (.obj members) :=
        @isBareReference_clean allowed (.obj members)
      simp only [clean, Env.build, hclean, hbare]
      cases hreference : site.reference with
      | some reference =>
        obtain ⟨hfits, hkept⟩ := hsound.reference (by simp [kindsOf]) (hsite reference hreference)
        exact h.referenceShape hfits hkept
      | none =>
        cases hnode : Schema.reference? (.obj members) with
        | some reference =>
          obtain ⟨hfits, hkept⟩ := hsound.reference (by simp [kindsOf]) hnode
          dsimp only
          split
          · exact h.referenceShape hfits hkept
          · rw [expandReference_clean]
            have hexpanded := hsound.expandReference
            have hnone := PartLaw.reference?_expandReference members
            exact h.schemaShape hresolve (hexpanded.resembles hnone) hreference
        | none => exact h.schemaShape hresolve (hsound.resembles hnode) hreference
    | _ => exact .pure (.refl _)

end Trims

/-- **Every level of the resolution is imitated.** -/
theorem Trims.imitates_resolveAt (h : Trims allowed kept env env') (levels : Nat) :
    Imitates allowed kept (env.resolveAt levels) (env'.resolveAt levels) := by
  induction levels with
  | zero => exact fun _ _ => .throw
  | succ levels ih => exact fun hnode hsite => .deeper (h.build ih hnode hsite)

/-- The resolution of a sound schema is imitated. -/
theorem Trims.shapeOf (h : Trims allowed kept env env')
    (hnode : Sound allowed kept .schema node) (hsite : site.reference = none) :
    Follows (env.shapeOf node site) (env'.shapeOf (clean allowed .schema node) site)
      Shape.Alike :=
  Imitates.apply (h.imitates_resolveAt maxDepth) hnode hsite

end ApiTypes

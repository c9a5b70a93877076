import ApiTypes.Proofs.Compile.Sites

/-!
  Where the fields of a compilation come from.

  A field embeds a definition, or it is what a resolution made of a property. Fields are handed on
  from shape to shape: a record that is merged, embedded or enhanced gives its fields to another.
  None of this changes a field.

  * `Env.FieldLaw`: something that holds of a field when it is made, in whatever session.
  * `Env.Reaches`: a resolver makes nothing but such fields, and so does every function of the
    resolution that uses it. Every level does, by induction on the levels (`reaches_resolveAt`).
  * **It holds of every field anywhere in a definition of a run** (`FieldLaw.allFields_of_runAll`).
-/

namespace ApiTypes

open Resolve

/-- Something holds of every field of a shape, however deep it stands. -/
def Shape.AllFields (F : Field → Prop) (shape : Shape) : Prop :=
  shape.Every fun part => ∀ field ∈ part.fields, F field

/-- Something holds of a field and of every field in it. -/
structure Field.Holds (F : Field → Prop) (field : Field) : Prop where
  whole : F field
  shape : field.shape.AllFields F

/-- Something holds of every field of a definition. -/
def Definition.AllFields (F : Field → Prop) (d : Definition) : Prop := d.shape.AllFields F

/-- Something that holds of every field that a resolution makes. -/
structure Env.FieldLaw (env : Env) (F : Field → Prop) : Prop where
  /-- It holds of a field that embeds a definition. -/
  mixin : ∀ name nullable, F (Field.mixin name nullable)
  /-- It holds of what is made of a property. -/
  property : ∀ {levels : Nat} {required : List String} {site : Site} {property : String × Json}
    {field : Field} {s s' : Session},
      (env.field (env.resolveAt levels) required site property).Yields s field s' → F field

/-- The fields that are made with a resolver obey a law, and so do those in its shapes. -/
structure Env.Reaches (env : Env) (F : Field → Prop) (resolve : Resolver) : Prop where
  mixin : ∀ name nullable, F (Field.mixin name nullable)
  property : ∀ {required : List String} {site : Site} {property : String × Json} {field : Field}
    {s s' : Session}, (env.field resolve required site property).Yields s field s' → F field
  resolve : ∀ node site, Gives (Definition.AllFields F) (resolve node site) (Shape.AllFields F)

/-! ## 1. Shapes -/

namespace Shape

variable {F : Field → Prop} {shape other part acc : Shape}

/-- What holds of the fields of a shape and of everything in it. -/
theorem allFields_of (hitem : ∀ item, shape.item = some item → item.AllFields F)
    (hfields : ∀ field ∈ shape.fields, field.Holds F)
    (hadditional : ∀ additional, shape.additional = some additional → additional.AllFields F)
    (hvariants : ∀ variant ∈ shape.variants, variant.shape.AllFields F)
    (hhoisted : ∀ d ∈ shape.hoisted, d.AllFields F) : shape.AllFields F :=
  every_iff.mpr ⟨fun field hfield => (hfields field hfield).whole,
    ⟨hitem, fun field hfield => (hfields field hfield).shape, hadditional, hvariants⟩, hhoisted⟩

theorem allFields_of_empty (hitem : shape.item = none) (hfields : shape.fields = [])
    (hadditional : shape.additional = none) (hvariants : shape.variants = [])
    (hhoisted : shape.hoisted = []) : shape.AllFields F :=
  allFields_of (by simp [hitem]) (by simp [hfields]) (by simp [hadditional]) (by simp [hvariants])
    (by simp [hhoisted])

theorem allFields_ofDecl (decl : String) : (ofDecl decl).AllFields F :=
  allFields_of_empty rfl rfl rfl rfl rfl

theorem allFields_reference (name : String) : (reference name).AllFields F :=
  allFields_of_empty rfl rfl rfl rfl rfl

namespace AllFields

theorem holds (h : shape.AllFields F) : ∀ field ∈ shape.fields, field.Holds F :=
  fun field hfield => ⟨h.whole field hfield, h.children.fields field hfield⟩

/-- What is said beside the fields and the parts of a shape does not matter. -/
theorem of_same (h : shape.AllFields F) (hitem : other.item = shape.item)
    (hfields : other.fields = shape.fields) (hadditional : other.additional = shape.additional)
    (hvariants : other.variants = shape.variants) (hhoisted : other.hoisted = shape.hoisted) :
    other.AllFields F :=
  allFields_of (hitem ▸ h.children.item) (hfields ▸ h.holds)
    (hadditional ▸ h.children.additional) (hvariants ▸ h.children.variants) (hhoisted ▸ h.hoisted)

/-- The use of a definition. -/
theorem of_isUse {use : Shape} (h : shape.AllFields F) (huse : IsUse shape use) :
    use.AllFields F := by
  obtain ⟨d, rfl, rfl⟩ := huse
  exact allFields_of (by simp [reference]) (by simp [reference]) (by simp [reference])
    (by simp [reference]) (List.forall_mem_singleton.mpr h)

theorem appendFields (h : acc.AllFields F) {fields : List Field}
    (hfields : ∀ field ∈ fields, field.Holds F) :
    AllFields F { acc with fields := acc.fields ++ fields } :=
  allFields_of h.children.item (List.forall_mem_append.mpr ⟨h.holds, hfields⟩)
    h.children.additional h.children.variants h.hoisted

/-- **Collecting more.** -/
theorem append (h : acc.AllFields F) {fields : List Field} {hoisted : List Definition}
    (hfields : ∀ field ∈ fields, field.Holds F) (hhoisted : ∀ d ∈ hoisted, d.AllFields F) :
    AllFields F { acc with fields := acc.fields ++ fields, hoisted := acc.hoisted ++ hoisted } :=
  allFields_of h.children.item (List.forall_mem_append.mpr ⟨h.holds, hfields⟩)
    h.children.additional h.children.variants (List.forall_mem_append.mpr ⟨h.hoisted, hhoisted⟩)

theorem refreshDecl (h : shape.AllFields F) : shape.refreshDecl.AllFields F := by
  obtain ⟨decl, hdecl⟩ := refreshDecl_eq shape
  rw [hdecl]
  exact h.of_same rfl rfl rfl rfl rfl

/-- **What combinators come to** adds its own fields. -/
theorem enhance (h : shape.AllFields F) (hpart : part.AllFields F) (keepDecl : Bool) :
    (Env.enhance shape part keepDecl).AllFields F := by
  have hvariants : ∀ variant ∈ (if part.variants.isEmpty then shape.variants else part.variants),
      variant.shape.AllFields F := by
    split
    · exact h.children.variants
    · exact hpart.children.variants
  obtain ⟨decl, hdecl⟩ := enhance_eq shape part keepDecl
  rw [hdecl]
  exact allFields_of h.children.item (List.forall_mem_append.mpr ⟨h.holds, hpart.holds⟩)
    h.children.additional hvariants (List.forall_mem_append.mpr ⟨h.hoisted, hpart.hoisted⟩)

end AllFields

end Shape

namespace Env.Reaches

variable {env : Env} {F : Field → Prop} {resolve : Resolver} {shape acc : Shape} {site : Site}

/-! ## 2. Definitions -/

theorem gives_define {location : Location} (hshape : shape.AllFields F) :
    Gives (Definition.AllFields F) (env.define shape site location) (Shape.AllFields F) :=
  (Resolve.gives_define fun _ => hshape).mono fun _ huse => hshape.of_isUse huse

theorem gives_hoist {location : Location} (hshape : shape.AllFields F) :
    Gives (Definition.AllFields F) (env.hoist shape site location) (Shape.AllFields F) := by
  unfold Env.hoist
  split
  · exact gives_define hshape
  · exact gives_pure hshape

section Resolvers

variable (h : env.Reaches F resolve)
include h

/-- The fields that embed what a shape stands for. -/
theorem mixins (target : Option String) (nullable : Bool) :
    ∀ field ∈ (target.map (Field.mixin · nullable)).toList, field.Holds F := by
  intro field hfield
  obtain ⟨name, -, rfl⟩ := Option.map_eq_some_iff.mp (Option.mem_toList.mp hfield)
  exact ⟨h.mixin name nullable, Shape.allFields_reference name⟩

/-! ## 3. References and members -/

theorem gives_referenceShape (node : Json) (reference : String) :
    Gives (Definition.AllFields F) (env.referenceShape resolve node reference site)
      (Shape.AllFields F) := by
  have hbeside : ∀ shape : Shape, shape.AllFields F → (besideReference node shape).AllFields F :=
    fun shape hshape => hshape.of_same rfl rfl rfl rfl rfl
  have hplace : Gives (Definition.AllFields F) (env.placeReference resolve reference site)
      (Shape.AllFields F) := by
    unfold Env.placeReference
    refine .ask fun target _ => .get fun session => ?_
    dsimp only
    split
    · exact gives_pure (Shape.allFields_reference _)
    · exact (gives_expanding (h.resolve _ _)).bind fun shape hshape => gives_define hshape
  unfold Env.referenceShape
  split
  · exact .ask fun name _ => gives_pure (hbeside _ (Shape.allFields_of_empty rfl rfl rfl rfl rfl))
  · split
    · exact hplace.bind fun use huse => gives_pure (hbeside use huse)
    · exact gives_throw

theorem gives_embedMember (hacc : acc.AllFields F) (member : Json × Nat) :
    Gives (Definition.AllFields F) (env.embedMember resolve site acc member)
      (Shape.AllFields F) := by
  unfold Env.embedMember
  split
  · exact gives_pure hacc
  · dsimp only
    refine (h.resolve _ _).bind fun shape hshape => ?_
    split
    · exact gives_pure (hacc.appendFields (h.mixins _ _))
    · split
      · exact gives_pure hacc
      · split
        · exact gives_pure (hacc.append (h.mixins _ _) hshape.hoisted)
        · exact (gives_define hshape).bind fun use huse =>
            gives_pure (hacc.append (h.mixins _ _) huse.hoisted)

theorem gives_embedMembers (members : List Json) :
    Gives (Definition.AllFields F) (env.embedMembers resolve members site)
      (Shape.AllFields F) := by
  unfold Env.embedMembers
  exact (gives_foldlM (Shape.AllFields F) (fun _ member _ hacc => h.gives_embedMember hacc member)
    (Shape.allFields_of_empty rfl rfl rfl rfl rfl)).bind fun _ hacc =>
      gives_pure hacc.refreshDecl

theorem gives_allOfShape (node : Json) (members : List Json) (withOwn : Bool) :
    Gives (Definition.AllFields F) (env.allOfShape resolve node members withOwn site)
      fun c => c.shape.AllFields F := by
  unfold Env.allOfShape
  refine .ask fun leads _ => ?_
  split
  · exact (h.gives_embedMembers members).bind fun shape hshape => gives_pure hshape
  · dsimp only
    split
    · exact (h.resolve _ _).bind fun shape hshape => gives_pure hshape
    · refine .ask fun merged _ => ?_
      split
      · exact .ask fun name _ => gives_pure (Shape.allFields_of_empty rfl rfl rfl rfl rfl)
      · exact (h.resolve _ _).bind fun shape hshape => gives_pure hshape

/-! ## 4. Unions -/

theorem gives_addVariant (property : Option String) (declared : List (String × String))
    {found : List Variant × List (String × String)}
    (hfound : ∀ variant ∈ found.1, variant.shape.AllFields F) (element : Json × Nat) :
    Gives (Definition.AllFields F) (env.addVariant resolve site property declared found element)
      fun found => ∀ variant ∈ found.1, variant.shape.AllFields F := by
  obtain ⟨variants, mapping⟩ := found
  unfold Env.addVariant
  dsimp only
  refine (h.resolve _ _).bind fun shape hshape => ?_
  split
  · exact gives_pure hfound
  · -- Whether or not the variant gets a name, it goes last, and the mapping has no fields.
    have hadd : ∀ use : Shape, use.AllFields F →
        ∀ variant ∈ variants ++ [⟨use.target.getD use.decl, use⟩], variant.shape.AllFields F :=
      fun use huse => List.forall_mem_append.mpr ⟨hfound, List.forall_mem_singleton.mpr huse⟩
    split
    · refine (gives_define hshape).bind fun use huse => ?_
      cases property with
      | none => exact gives_pure (hadd use huse)
      | some property => exact .ask fun mapping _ => gives_pure (hadd use huse)
    · rw [pure_bind]
      cases property with
      | none => exact gives_pure (hadd shape hshape)
      | some property => exact .ask fun mapping _ => gives_pure (hadd shape hshape)

theorem gives_variantUnion (node : Json) (elements : List Json) (nullable : Bool) :
    Gives (Definition.AllFields F) (env.variantUnion resolve node elements nullable site)
      (Shape.AllFields F) := by
  unfold Env.variantUnion
  dsimp only
  refine (gives_foldlM (fun found => ∀ variant ∈ found.1, variant.shape.AllFields F)
    (fun _ element _ hfound => h.gives_addVariant _ _ hfound element) (by simp)).bind
    fun found hfound => ?_
  obtain ⟨variants, mapping⟩ := found
  dsimp only
  split
  · exact gives_throw
  · split
    · exact gives_pure (Shape.allFields_of_empty rfl rfl rfl rfl rfl)
    · exact gives_pure (Shape.allFields_of (by simp) (by simp) (by simp) (fun variant hvariant =>
        hfound variant (mem_of_mem_distinctVariants hvariant)) (by simp))

theorem gives_union (node : Json) (elements : List Json) :
    Gives (Definition.AllFields F) (env.union resolve node elements site) (Shape.AllFields F) := by
  unfold Env.union
  dsimp only
  split
  on_goal 1 => split
  on_goal 1 => exact h.resolve _ _
  -- Both ways on look which elements admit more than null.
  all_goals
    refine .ask fun admitted _ => ?_
    split
    · exact gives_pure (Shape.allFields_of_empty rfl rfl rfl rfl rfl)
    · split
      · exact (h.resolve _ _).bind fun shape hshape =>
          gives_pure (hshape.of_same rfl rfl rfl rfl rfl)
      · exact h.gives_variantUnion _ _ _
    · exact h.gives_variantUnion _ _ _

/-! ## 5. Records and arrays -/

/-- **A field obeys the law** when it is made. -/
theorem gives_field (required : List String) (property : String × Json) :
    Gives (Definition.AllFields F) (env.field resolve required site property) (Field.Holds F) := by
  have hshape : Gives (Definition.AllFields F) (env.field resolve required site property)
      fun field => field.shape.AllFields F := by
    unfold Env.field
    dsimp only
    refine (h.resolve _ _).bind fun shape hshape => (gives_hoist hshape).bind fun use huse => ?_
    exact .ask fun resolved _ => .ask fun extensions _ => gives_pure huse
  exact fun s => ⟨(hshape s).1, fun field hfield =>
    ⟨h.property (Prod.ext hfield rfl), (hshape s).2 field hfield⟩⟩

theorem gives_additionalFields (node : Json) :
    Gives (Definition.AllFields F) (env.additionalFields resolve node site) fun additional =>
      ∀ shape, additional = some shape → shape.AllFields F := by
  have hsome : ∀ use : Shape, use.AllFields F → ∀ shape, some use = some shape →
      shape.AllFields F := fun use huse shape heq => Option.some.inj heq ▸ huse
  unfold Env.additionalFields
  split
  · exact gives_pure (hsome _ (Shape.allFields_ofDecl _))
  · exact gives_pure (hsome _ (Shape.allFields_ofDecl _))
  · exact (h.resolve _ _).bind fun shape hshape => (gives_hoist hshape).bind fun use huse =>
      gives_pure (hsome use huse)
  · exact gives_pure (by simp)

theorem gives_objectShape (node : Json) :
    Gives (Definition.AllFields F) (env.objectShape resolve node site) (Shape.AllFields F) := by
  have hmap : ∀ value : Shape, value.AllFields F → Shape.AllFields F
      { decl := mapDecl value, isOpen := true, additional := some value } := fun value hvalue =>
    Shape.allFields_of (by simp) (by simp) (fun found hfound => Option.some.inj hfound ▸ hvalue)
      (by simp) (by simp)
  unfold Env.objectShape
  dsimp only
  refine (gives_mapM fun property _ => h.gives_field _ property).bind fun fields hfields => ?_
  refine (h.gives_additionalFields node).bind fun additional hadditional => ?_
  split
  · unfold Env.fieldlessShape
    split
    · exact gives_pure (hmap _ (hadditional _ rfl))
    · dsimp only
      split_ifs
      · exact gives_pure (Shape.allFields_ofDecl _)
      · exact gives_pure (hmap _ (Shape.allFields_ofDecl _))
      · exact gives_pure (Shape.allFields_ofDecl _)
  · exact gives_pure (Shape.allFields_of (by simp) hfields hadditional (by simp) (by simp))

theorem gives_arrayShape (node : Json) :
    Gives (Definition.AllFields F) (env.arrayShape resolve node site) (Shape.AllFields F) := by
  have harray : ∀ item : Shape, item.AllFields F → Gives (Definition.AllFields F)
      (env.hoist item (site.child "Item") .property >>= fun item =>
        pure ({ decl := arrayDecl item, item := some item } : Shape)) (Shape.AllFields F) :=
    fun item hitem => (gives_hoist hitem).bind fun use huse => gives_pure <|
      Shape.allFields_of (fun found hfound => Option.some.inj hfound ▸ huse) (by simp) (by simp)
        (by simp) (by simp)
  unfold Env.arrayShape
  dsimp only
  split
  · exact harray _ (Shape.allFields_ofDecl _)
  · exact (h.resolve _ _).bind harray

theorem gives_plainShape (node : Json) (extensions : Extensions) :
    Gives (Definition.AllFields F) (env.plainShape resolve node extensions site)
      (Shape.AllFields F) := by
  have henum : ∀ declared, (enumShape node declared extensions).AllFields F := fun _ =>
    Shape.allFields_of_empty rfl rfl rfl rfl rfl
  unfold Env.plainShape
  dsimp only
  split
  · split
    · exact gives_pure (henum _)
    · exact h.gives_objectShape node
  · split
    · exact h.gives_objectShape node
    · split
      · exact gives_pure (henum _)
      · unfold Env.typedShape
        split
        · exact h.gives_arrayShape node
        · split
          · exact gives_pure (Shape.allFields_ofDecl _)
          · exact gives_throw
  · exact gives_pure (Shape.allFields_ofDecl _)

/-! ## 6. Combinators -/

theorem gives_takeUnion (node : Json) (hacc : acc.AllFields F) (part : String × List Json) :
    Gives (Definition.AllFields F) (env.takeUnion resolve node site acc part)
      (Shape.AllFields F) := by
  unfold Env.takeUnion
  split
  · exact gives_pure hacc
  · dsimp only
    exact (h.gives_union node part.2).bind fun union hunion => (gives_hoist hunion).bind
      fun use huse => gives_pure (hacc.append (h.mixins _ _) huse.hoisted)

theorem allFields_takeMerged (hacc : acc.AllFields F) {c : Combined} (hc : c.shape.AllFields F) :
    (takeMerged acc c).AllFields F := by
  unfold Env.takeMerged
  split
  · rename_i merged
    split
    · rename_i name _
      exact hacc.appendFields (h.mixins (some name) false)
    · exact hacc.append hc.holds hc.hoisted
  · exact hacc.appendFields hc.holds

theorem gives_mixedShape (node : Json) :
    Gives (Definition.AllFields F) (env.mixedShape resolve node site) (Shape.AllFields F) := by
  have hempty : Shape.AllFields F {} := Shape.allFields_of_empty rfl rfl rfl rfl rfl
  have hunions : ∀ start : Shape, start.AllFields F → Gives (Definition.AllFields F) (do
      return (← [("AnyOf", Schema.membersOf "anyOf" node),
        ("OneOf", Schema.membersOf "oneOf" node)].foldlM (env.takeUnion resolve node site)
          start).refreshDecl) (Shape.AllFields F) := fun start hstart =>
    (gives_foldlM (Shape.AllFields F) (fun _ part _ hacc => h.gives_takeUnion node hacc part)
      hstart).bind fun acc hacc => gives_pure hacc.refreshDecl
  unfold Env.mixedShape
  dsimp only
  split
  · exact hunions _ hempty
  · exact (h.gives_allOfShape node _ false).bind fun c hc =>
      hunions _ (h.allFields_takeMerged hempty hc)

theorem gives_combined? (node : Json) :
    Gives (Definition.AllFields F) (env.combined? resolve node site) fun combined =>
      ∀ c, combined = some c → c.shape.AllFields F := by
  have hsome : ∀ c : Combined, c.shape.AllFields F → ∀ found, some c = some found →
      found.shape.AllFields F := fun c hc found heq => Option.some.inj heq ▸ hc
  unfold Env.combined?
  dsimp only
  split
  · exact gives_pure (by simp)
  · exact (h.gives_allOfShape node _ true).bind fun c hc => gives_pure (hsome c hc)
  · exact (h.gives_union node _).bind fun shape hshape => gives_pure (hsome _ hshape)
  · exact (h.gives_union node _).bind fun shape hshape => gives_pure (hsome _ hshape)
  · exact (h.gives_mixedShape node).bind fun shape hshape => gives_pure (hsome _ hshape)

/-! ## 7. Nodes -/

theorem gives_schemaShape (node : Json) :
    Gives (Definition.AllFields F) (env.schemaShape resolve node site) (Shape.AllFields F) := by
  have hfinish : ∀ shape : Shape, shape.AllFields F → (finish node shape).AllFields F :=
    fun shape hshape => hshape.of_same rfl rfl rfl rfl rfl
  unfold Env.schemaShape
  refine .ask fun extensions _ => ?_
  dsimp only
  have hown : Gives (Definition.AllFields F) (env.ownShape resolve node extensions site)
      (Shape.AllFields F) := by
    unfold Env.ownShape
    split
    · exact gives_pure (Shape.allFields_of_empty rfl rfl rfl rfl rfl)
    · exact h.gives_plainShape node extensions
  refine (h.gives_combined? node).bind fun combined hcombined => ?_
  -- Parts that come from combinators are added to what the node says itself.
  have henhance : ∀ part : Shape, part.AllFields F → ∀ keepDecl, Gives (Definition.AllFields F)
      (do return finish node (enhance (← env.ownShape resolve node extensions site) part keepDecl))
        (Shape.AllFields F) := fun part hpart keepDecl =>
    hown.bind fun own hshape => gives_pure (hfinish _ (hshape.enhance hpart keepDecl))
  split
  · exact hown.bind fun own hshape => gives_pure (hfinish own hshape)
  · exact henhance _ (hcombined _ rfl) _
  · split
    · exact gives_pure ((hcombined _ rfl).of_same rfl rfl rfl rfl rfl)
    · exact henhance _ (hcombined _ rfl) _

theorem gives_build (node : Json) :
    Gives (Definition.AllFields F) (env.build resolve node site) (Shape.AllFields F) := by
  unfold Env.build
  split
  · split
    · exact h.gives_referenceShape _ _
    · split
      · exact h.gives_referenceShape _ _
      · exact h.gives_schemaShape _
    · exact h.gives_schemaShape _
  · exact gives_pure (Shape.allFields_ofDecl _)

end Resolvers

end Env.Reaches

/-! ## 8. Compilations -/

namespace Env.FieldLaw

variable {env : Env} {F : Field → Prop} (law : env.FieldLaw F)
include law

/-- **Every level makes nothing but fields that obey the law.** -/
theorem reaches_resolveAt (levels : Nat) : env.Reaches F (env.resolveAt levels) := by
  induction levels with
  | zero => exact ⟨law.mixin, law.property, fun _ _ => gives_throw⟩
  | succ levels ih =>
    exact ⟨law.mixin, law.property, fun node _ => gives_deeper (ih.gives_build node)⟩

/-- **A law of fields holds of every field of every definition of a run.** -/
theorem allFields_of_runAll {u : Unit} {session : Session}
    (hrun : (env.runAll (Task.ofDocument env.doc)).Yields {} u session) :
    ∀ d ∈ session.registry.definitions, d.AllFields F := by
  have hshapes : env.ShapeLaw (fun _ => True) (Shape.AllFields F) :=
    ⟨⟨fun _ _ => trivial, fun _ _ => trivial⟩, trivial, fun _ _ => trivial,
      fun site _ => (law.reaches_resolveAt maxDepth).resolve _ site⟩
  exact hshapes.of_runAll hrun

end Env.FieldLaw

end ApiTypes

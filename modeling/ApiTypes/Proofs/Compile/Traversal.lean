import ApiTypes.Proofs.Compile.Parts
import ApiTypes.Proofs.Compile.Variants
import ApiTypes.Proofs.Json
import ApiTypes.Proofs.Registry

/-!
  A law of parts passes through every resolution.

  One lemma for each function of the resolution, under the assumption that the resolver for the
  nodes below keeps the law (`Keeps`) and labels shapes with their nodes (`Labels`). Both hold of
  every level, by induction on the levels (`keeps_resolveAt`), so a law holds of every part of every
  definition of a run (`ensures_runAll`).
-/

namespace ApiTypes.PartLaw

variable {env : Env} {law : PartLaw env} {s : Session} {shape : Shape}

/-! ## 1. Definitions -/

theorem step_register {d : Definition} {registry : Registry} (hgood : law.Good s)
    (h : d.shape.Each (law.holds s)) (hregister : s.registry.register d = .ok registry) :
    law.Step s { s with registry } := by
  obtain ⟨hgrows, -, hmem⟩ := Registry.register_eq_ok hregister
  have hkeep : ∀ t src, law.holds s t src → law.holds { s with registry } t src :=
    fun t src => law.grow hgrows (List.Subset.refl _)
  refine ⟨hgrows, rfl, fun e he => ?_⟩
  rcases hmem e he with hold | rfl
  · exact (hgood e hold).imp hkeep
  · exact h.imp hkeep

theorem ensures_register {d : Definition} (h : d.shape.Each (law.holds s)) :
    law.Ensures s (Resolve.register d) fun _ s' => d.name ∈ s'.registry.names := by
  intro hgood u s' hyields
  unfold Resolve.register at hyields
  simp only [Resolve.yields_bind, Resolve.yields_get, Resolve.yields_ask,
    Resolve.yields_set] at hyields
  obtain ⟨_, _, ⟨rfl, rfl⟩, registry, _, ⟨hregister, rfl⟩, rfl⟩ := hyields
  exact ⟨step_register hgood h hregister, (Registry.register_eq_ok hregister).2.1⟩

theorem yields_define {site : Site} {location : Location} {use : Shape} {s' : Session}
    (h : (env.define shape site location).Yields s use s') :
    ∃ d registry, d.shape = shape ∧
      d.name = s.registry.nameFor site.typeName shape env.options.nameSuffixes ∧
      s.registry.register d = .ok registry ∧ s' = { s with registry } ∧
      use = { Shape.reference d.name with constraints := shape.constraints, hoisted := [d] } := by
  unfold Env.define Resolve.register at h
  simp only [Resolve.yields_bind, Resolve.yields_get, Resolve.yields_ask, Resolve.yields_set,
    Resolve.yields_pure] at h
  obtain ⟨_, _, ⟨rfl, rfl⟩, _, _, ⟨_, _, ⟨rfl, rfl⟩, registry, _, ⟨hregister, rfl⟩, rfl⟩,
    rfl, rfl⟩ := h
  exact ⟨_, registry, rfl, rfl, hregister, rfl, rfl⟩

/-- The use of a definition has nothing inside but the definition. -/
theorem inside_use {d : Definition} (h : d.shape.Each (law.holds s)) :
    Shape.Inside (law.holds s)
      { Shape.reference d.name with constraints := d.shape.constraints, hoisted := [d] } where
  item := by simp [Shape.reference]
  fields := by simp [Shape.reference]
  additional := by simp [Shape.reference]
  variants := by simp [Shape.reference]
  hoisted e he := by
    obtain rfl := List.mem_singleton.mp he
    exact h

/-- **A definition is used by the name that it has.** -/
theorem ensures_define {site : Site} {location : Location} (h : shape.Each (law.holds s)) :
    law.Ensures s (env.define shape site location) fun use s' => use.Each (law.holds s') := by
  intro hgood use s' hyields
  obtain ⟨d, registry, rfl, -, hregister, rfl, rfl⟩ := yields_define hyields
  have hstep := step_register hgood h hregister
  have hname := (Registry.register_eq_ok hregister).2.1
  exact ⟨hstep, Shape.each_iff.mpr ⟨law.registered hname, inside_use (hstep.each h)⟩⟩

theorem ensures_hoist {site : Site} {location : Location} (h : shape.Each (law.holds s)) :
    law.Ensures s (env.hoist shape site location) fun use s' => use.Each (law.holds s') := by
  unfold Env.hoist
  split
  · exact ensures_define h
  · exact ensures_pure fun _ => h

/-! ## 2. Shapes -/

/-- A shape that stands for no definition and was not made from a schema yet. -/
theorem each_of_inside (htarget : shape.target = none) (hsource : shape.source = none)
    (h : shape.Inside (law.holds s)) : shape.Each (law.holds s) := by
  rw [Shape.each_iff, htarget, hsource]
  exact ⟨law.free (by simp), h⟩

theorem each_ofDecl (decl : String) : (Shape.ofDecl decl).Each (law.holds s) :=
  each_of_inside rfl rfl (.of_empty rfl rfl rfl rfl rfl)

/-- The law holds under a source that is no reference. -/
theorem holds_of_source {node : Json} {t : Option String} {src : Option Json}
    (h : law.holds s t src) (hnode : Schema.reference? node = none) :
    law.holds s t (some node) := by
  refine law.relabel h fun other hother => ?_
  obtain rfl := Option.some.inj hother
  exact hnode

/-- The fields that embed what a shape stands for. -/
theorem each_mixin (h : shape.Each (law.holds s)) (nullable : Bool) :
    ∀ field ∈ (shape.target.map (Field.mixin · nullable)).toList,
      field.shape.Each (law.holds s) := by
  intro field hfield
  obtain ⟨name, hname, rfl⟩ := Option.map_eq_some_iff.mp (Option.mem_toList.mp hfield)
  refine Shape.each_iff.mpr ⟨?_, .of_empty rfl rfl rfl rfl rfl⟩
  exact law.relabel (hname ▸ (Shape.each_iff.mp h).1) (by simp [Field.mixin, Shape.reference])

theorem each_appendFields {fields : List Field} (h : shape.Each (law.holds s))
    (hfields : ∀ field ∈ fields, field.shape.Each (law.holds s)) :
    Shape.Each (law.holds s) { shape with fields := shape.fields ++ fields } := by
  obtain ⟨htop, hinside⟩ := Shape.each_iff.mp h
  refine Shape.each_iff.mpr ⟨htop, hinside.item, fun field hfield => ?_, hinside.additional,
    hinside.variants, hinside.hoisted⟩
  exact (List.mem_append.mp hfield).elim (hinside.fields field) (hfields field)

theorem each_appendHoisted {hoisted : List Definition} (h : shape.Each (law.holds s))
    (hhoisted : ∀ d ∈ hoisted, d.shape.Each (law.holds s)) :
    Shape.Each (law.holds s) { shape with hoisted := shape.hoisted ++ hoisted } := by
  obtain ⟨htop, hinside⟩ := Shape.each_iff.mp h
  refine Shape.each_iff.mpr ⟨htop, hinside.item, hinside.fields, hinside.additional,
    hinside.variants, fun d hd => ?_⟩
  exact (List.mem_append.mp hd).elim (hinside.hoisted d) (hhoisted d)

/-- **Embedding a shape** adds a field for its target and its hoisted definitions. -/
theorem each_embed {part : Shape} (h : shape.Each (law.holds s)) (hpart : part.Each (law.holds s))
    (nullable : Bool) :
    Shape.Each (law.holds s)
      { shape with
        fields := shape.fields ++ (part.target.map (Field.mixin · nullable)).toList
        hoisted := shape.hoisted ++ part.hoisted } :=
  each_appendHoisted (each_appendFields h (each_mixin hpart nullable))
    (Shape.each_iff.mp hpart).2.hoisted

theorem each_refreshDecl (h : shape.Each (law.holds s)) :
    shape.refreshDecl.Each (law.holds s) := by
  obtain ⟨htop, hinside⟩ := Shape.each_iff.mp h
  unfold Shape.refreshDecl
  split
  · exact Shape.each_iff.mpr ⟨htop, hinside.item, hinside.fields, hinside.additional,
      hinside.variants, hinside.hoisted⟩
  · split
    · exact Shape.each_iff.mpr ⟨htop, hinside.item, hinside.fields, hinside.additional,
        hinside.variants, hinside.hoisted⟩
    · exact h

/-! ## 3. Resolvers -/

/-- A resolver keeps a law, where a site that says which reference the node is says so rightly. -/
def Keeps (law : PartLaw env) (resolve : Resolver) : Prop :=
  ∀ node site s,
    (∀ reference, site.reference = some reference → Schema.reference? node = some reference) →
      law.Ensures s (resolve node site) fun shape s' => shape.Each (law.holds s')

/-- A resolver labels the shape of a schema that is no reference with the schema. -/
def Labels (resolve : Resolver) : Prop :=
  ∀ node site s shape s', (resolve node site).Yields s shape s' → node.isObject = true →
    Schema.reference? node = none → site.reference = none → shape.source = some node

/-- At a site that does not say which reference the node is. -/
theorem Keeps.apply {resolve : Resolver} (h : law.Keeps resolve) {node : Json} {site : Site}
    (hsite : site.reference = none) (s : Session) :
    law.Ensures s (resolve node site) fun shape s' => shape.Each (law.holds s') :=
  h node site s (by simp [hsite])

variable {resolve : Resolver}

/-! ## 4. References -/

theorem ofReference_mem_names {m : Session} {reference : String} {suffixes : List String}
    {registry : Registry} {d : Definition}
    (hname : d.name = m.registry.nameFor (TypeName.ofReference reference) shape suffixes)
    (hregister : m.registry.register d = .ok registry) :
    TypeName.ofReference reference ∈ registry.names := by
  obtain ⟨hgrows, hmem, -⟩ := Registry.register_eq_ok hregister
  cases hget : m.registry.get? (TypeName.ofReference reference) with
  | none =>
    have hbase : d.name = TypeName.ofReference reference := by
      rw [hname, Registry.nameFor, hget]
    exact hbase ▸ hmem
  | some existing =>
    obtain ⟨hexisting, hbase⟩ := Registry.mem_of_get? hget
    exact Registry.mem_names_of_prefix hgrows (Registry.mem_names.mpr ⟨existing, hexisting, hbase⟩)

/-- **A reference to a place is used by the name of the place.** -/
theorem ensures_placeReference (hkeeps : law.Keeps resolve) (hlabels : Labels resolve)
    (reference : String) (site : Site) :
    law.Ensures s (env.placeReference resolve reference site) fun use s' =>
      (∃ name target, env.doc.resolve? reference = some target ∧
        PlaceName env s' reference target name ∧ use.target = some name) ∧
      use.source = none ∧ use.Inside (law.holds s') := by
  unfold Env.placeReference
  refine .ask fun target htarget => .get ?_
  have htarget : env.doc.resolve? reference = some target := by
    unfold Env.resolve at htarget
    split at htarget
    · rename_i found hfound
      rw [hfound, Except.ok.inj htarget]
    · simp at htarget
  dsimp only
  split
  · rename_i hknown
    refine ensures_pure fun _ => ⟨⟨_, target, htarget, ?_, rfl⟩, rfl, .of_empty rfl rfl rfl rfl rfl⟩
    rcases Bool.or_eq_true_iff.mp hknown with hknown | hexpanding
    · cases hget : s.registry.get? (TypeName.ofReference reference) with
      | none => simp [hget] at hknown
      | some d =>
        obtain ⟨hd, hname⟩ := Registry.mem_of_get? hget
        exact .known hd hname (by simpa [hget] using hknown)
    · exact .expanding (by simpa using hexpanding)
  · intro hgood use s' hyields
    obtain ⟨shape, _, hexpand, hdefine⟩ := Resolve.yields_bind.mp hyields
    obtain ⟨m, hresolve, rfl⟩ := Resolve.yields_within.mp hexpand
    obtain ⟨d, registry, rfl, hname, hregister, rfl, rfl⟩ := yields_define hdefine
    have hstart : law.Good { s with expanding := reference :: s.expanding } := fun e he =>
      (hgood e he).imp fun t src => law.grow (List.prefix_refl _) (List.subset_cons_self _ _)
    obtain ⟨hstep, heach⟩ := hkeeps.apply rfl _ hstart _ _ hresolve
    obtain ⟨hgrows, hmem, hadded⟩ := Registry.register_eq_ok hregister
    have hexpanding : m.expanding = reference :: s.expanding := hstep.expanding
    have herase : m.expanding.erase reference = s.expanding := by simp [hexpanding]
    have hsettle : ∀ t src, law.holds m t src →
        law.holds { m with expanding := m.expanding.erase reference, registry } t src :=
      fun t src => law.settle hgrows (by rw [herase, hexpanding])
        (ofReference_mem_names hname hregister)
    refine ⟨⟨hstep.grows.trans hgrows, herase, fun e he => ?_⟩,
      ⟨_, target, htarget, ?_, rfl⟩, rfl, inside_use (heach.imp hsettle)⟩
    · rcases hadded e he with hold | rfl
      · exact (hstep.good e hold).imp hsettle
      · exact heach.imp hsettle
    · have hsource := hlabels _ _ _ _ _ hresolve
      rw [Site.typeName, Site.named, Option.getD_some] at hname
      rw [hname] at hmem ⊢
      exact .defined hgrows (fun hobject hnode => hsource hobject hnode rfl) hmem

/-- What is said beside a reference leaves the parts as they are, under the reference's node. -/
theorem each_besideReference {node : Json} (hsource : shape.source = none)
    (htop : law.holds s shape.target (some node)) (hinside : shape.Inside (law.holds s)) :
    (Env.besideReference node shape).Each (law.holds s) := by
  refine Shape.each_iff.mpr ⟨?_, hinside.item, hinside.fields, hinside.additional,
    hinside.variants, hinside.hoisted⟩
  simpa [Env.besideReference, hsource] using htop

theorem ensures_referenceShape (hkeeps : law.Keeps resolve) (hlabels : Labels resolve)
    {node : Json} {reference : String} (hnode : Schema.reference? node = some reference)
    (site : Site) :
    law.Ensures s (env.referenceShape resolve node reference site) fun shape s' =>
      shape.Each (law.holds s') := by
  unfold Env.referenceShape
  split
  · rename_i hcomponent
    refine .ask fun name hname => ensures_pure fun _ => ?_
    refine each_besideReference rfl (law.component hcomponent hname fun other hother => ?_)
      (.of_empty rfl rfl rfl rfl rfl)
    exact Option.some.inj hother ▸ hnode
  · rename_i hcomponent
    split
    · refine (ensures_placeReference hkeeps hlabels reference site).bind
        fun use m hstep ⟨⟨name, target, htarget, hplace, huse⟩, hsource, hinside⟩ =>
          ensures_pure fun _ => ?_
      refine each_besideReference hsource ?_ hinside
      rw [huse]
      exact law.place (by simpa using hcomponent) htarget hplace hnode
    · exact ensures_throw

/-! ## 5. Members of an `allOf` -/

theorem ensures_embedMember (hkeeps : law.Keeps resolve) (site : Site) {acc : Shape}
    (hacc : acc.Each (law.holds s)) (member : Json × Nat) :
    law.Ensures s (env.embedMember resolve site acc member) fun shape s' =>
      shape.Each (law.holds s') := by
  unfold Env.embedMember
  split
  · exact ensures_pure fun _ => hacc
  · refine (hkeeps.apply rfl s).bind fun shape m hstep hshape => ?_
    have hacc := hstep.each hacc
    dsimp only
    split
    · exact ensures_pure fun _ => each_appendFields hacc (each_mixin hshape false)
    · split
      · exact ensures_pure fun _ => hacc
      · split
        · exact ensures_pure fun _ => each_embed hacc hshape true
        · exact (ensures_define hshape).bind fun use m' hstep' huse => ensures_pure fun _ =>
            each_embed (hstep'.each hacc) huse true

/-- The empty shape has no parts. -/
theorem each_empty : Shape.Each (law.holds s) {} :=
  each_of_inside rfl rfl (.of_empty rfl rfl rfl rfl rfl)

theorem ensures_embedMembers (hkeeps : law.Keeps resolve) (members : List Json) (site : Site) :
    law.Ensures s (env.embedMembers resolve members site) fun shape s' =>
      shape.Each (law.holds s') := by
  unfold Env.embedMembers
  refine (ensures_foldlM (fun shape s => shape.Each (law.holds s))
    (fun acc s member _ hacc => ensures_embedMember hkeeps site hacc member) each_empty).bind
    fun shape m _ hshape => ensures_pure fun _ => each_refreshDecl hshape

theorem mem_of_onlyReference? {members : List Json} {member : Json} {reference : String}
    (h : Env.onlyReference? members = some (member, reference)) :
    member ∈ members ∧ Schema.reference? member = some reference := by
  simp only [Env.onlyReference?] at h
  split at h
  · rename_i found hfilter
    split at h
    · obtain ⟨target, htarget, heq⟩ := Option.map_eq_some_iff.mp h
      obtain ⟨rfl, rfl⟩ := Prod.mk.inj heq
      exact ⟨List.mem_of_mem_filter (hfilter ▸ List.mem_singleton_self found), htarget⟩
    · simp at h
  · simp at h

theorem isComponent_of_narrowedComponent? {members : List Json} {merged : Json}
    {reference : String} (h : Env.narrowedComponent? members merged = some reference) :
    (Reference.schemaName? reference).isSome = true := by
  unfold Env.narrowedComponent? at h
  split at h
  · rename_i found _
    split at h
    · rename_i hcomponent
      obtain rfl := Option.some.inj h
      simp only [Bool.and_eq_true] at hcomponent
      exact hcomponent.1.1
    · simp at h
  · simp at h

theorem ensures_allOfShape (hkeeps : law.Keeps resolve) (node : Json) (members : List Json)
    (withOwn : Bool) {site : Site} (hsite : site.reference = none) :
    law.Ensures s (env.allOfShape resolve node members withOwn site) fun c s' =>
      c.shape.Each (law.holds s') := by
  unfold Env.allOfShape
  refine .ask fun leads _ => ?_
  split
  · exact (ensures_embedMembers hkeeps members site).bind fun shape m _ hshape =>
      ensures_pure fun _ => hshape
  · dsimp only
    split
    · rename_i member reference hown honly
      refine (hkeeps member (site.withReference reference) s fun other hother => ?_).bind
        fun shape m _ hshape => ensures_pure fun _ => hshape
      obtain rfl := Option.some.inj hother
      exact (mem_of_onlyReference? honly).2
    · refine .ask fun merged _ => ?_
      split
      · rename_i reference hnarrowed
        refine .ask fun name hname => ensures_pure fun _ => ?_
        refine Shape.each_iff.mpr ⟨?_, .of_empty rfl rfl rfl rfl rfl⟩
        exact law.component (isComponent_of_narrowedComponent? hnarrowed) hname
          (by simp [Combined.shape, Shape.aliasOf])
      · exact (hkeeps.apply hsite s).bind fun shape m _ hshape => ensures_pure fun _ => hshape

/-! ## 6. Unions -/

theorem ensures_addVariant (hkeeps : law.Keeps resolve) (site : Site) (property : Option String)
    (declared : List (String × String)) {acc : List Variant × List (String × String)}
    (hacc : ∀ variant ∈ acc.1, variant.shape.Each (law.holds s)) (element : Json × Nat) :
    law.Ensures s (env.addVariant resolve site property declared acc element) fun acc s' =>
      ∀ variant ∈ acc.1, variant.shape.Each (law.holds s') := by
  obtain ⟨variants, mapping⟩ := acc
  unfold Env.addVariant
  dsimp only
  refine (hkeeps.apply rfl s).bind fun shape m hstep hshape => ?_
  have hkept : ∀ variant ∈ variants, variant.shape.Each (law.holds m) := fun variant hvariant =>
    hstep.each (hacc variant hvariant)
  split
  · exact ensures_pure fun _ => hkept
  · -- Whichever way the mapping comes about, the variants are these.
    have hadd : ∀ (use : Shape) (m' : Session), law.Step m m' → use.Each (law.holds m') →
        ∀ variant ∈ variants ++ [⟨use.target.getD use.decl, use⟩],
          variant.shape.Each (law.holds m') := by
      intro use m' hstep' huse variant hvariant
      rcases List.mem_append.mp hvariant with hvariant | hvariant
      · exact hstep'.each (hkept variant hvariant)
      · obtain rfl := List.mem_singleton.mp hvariant
        exact huse
    have hmap : ∀ (use : Shape) (m' : Session), law.Step m m' → use.Each (law.holds m') →
        ∀ mapped : Except CompileError (List (String × String)),
          law.Ensures m' (Resolve.ask mapped >>= fun mapping =>
            pure (variants ++ [⟨use.target.getD use.decl, use⟩], mapping)) fun acc s' =>
              ∀ variant ∈ acc.1, variant.shape.Each (law.holds s') :=
      fun use m' hstep' huse mapped => .ask fun mapping _ => ensures_pure fun _ =>
        hadd use m' hstep' huse
    split
    · refine (ensures_define hshape).bind fun use m' hstep' huse => ?_
      cases property with
      | none => exact ensures_pure fun _ => hadd use m' hstep' huse
      | some property => exact hmap use m' hstep' huse _
    · intro hgood
      have hstep' := Step.refl hgood
      cases property with
      | none => exact ensures_pure (fun _ => hadd shape m hstep' hshape) hgood
      | some property => exact hmap shape m hstep' hshape _ hgood

theorem ensures_variantUnion (hkeeps : law.Keeps resolve) (node : Json) (elements : List Json)
    (nullable : Bool) (site : Site) :
    law.Ensures s (env.variantUnion resolve node elements nullable site) fun shape s' =>
      shape.Each (law.holds s') := by
  unfold Env.variantUnion
  dsimp only
  refine (ensures_foldlM (fun acc s => ∀ variant ∈ acc.1, variant.shape.Each (law.holds s))
    (fun acc s element _ hacc => ensures_addVariant hkeeps site _ _ hacc element)
    (by simp)).bind fun found m _ hfound => ?_
  obtain ⟨variants, mapping⟩ := found
  dsimp only
  split
  · exact ensures_throw
  · split
    · exact ensures_pure fun _ => each_of_inside rfl rfl (.of_empty rfl rfl rfl rfl rfl)
    · refine ensures_pure fun _ => each_of_inside rfl rfl ⟨by simp, by simp, by simp, ?_, by simp⟩
      exact fun variant hvariant => hfound variant (mem_of_mem_distinctVariants hvariant)

/-- A shape whose constraints changed. -/
theorem each_constraints {constraints : Constraints} (h : shape.Each (law.holds s)) :
    Shape.Each (law.holds s) { shape with constraints } := by
  obtain ⟨htop, hinside⟩ := Shape.each_iff.mp h
  exact Shape.each_iff.mpr ⟨htop, hinside.item, hinside.fields, hinside.additional,
    hinside.variants, hinside.hoisted⟩

theorem ensures_union (hkeeps : law.Keeps resolve) (node : Json) (elements : List Json)
    {site : Site} (hsite : site.reference = none) :
    law.Ensures s (env.union resolve node elements site) fun shape s' =>
      shape.Each (law.holds s') := by
  unfold Env.union
  dsimp only
  split
  on_goal 1 => split
  on_goal 1 => exact hkeeps.apply hsite s
  -- Both ways on look which elements admit more than null.
  all_goals
    refine .ask fun admitted _ => ?_
    split
    · exact ensures_pure fun _ => each_constraints (each_ofDecl _)
    · split
      · exact (hkeeps.apply hsite s).bind fun shape m _ hshape => ensures_pure fun _ =>
          each_constraints hshape
      · exact ensures_variantUnion hkeeps node _ _ site
    · exact ensures_variantUnion hkeeps node _ _ site

/-! ## 7. Records and arrays -/

theorem ensures_field (hkeeps : law.Keeps resolve) (required : List String) (site : Site)
    (property : String × Json) :
    law.Ensures s (env.field resolve required site property) fun field s' =>
      field.shape.Each (law.holds s') := by
  obtain ⟨name, node⟩ := property
  unfold Env.field
  dsimp only
  refine (hkeeps.apply rfl s).bind fun shape m _ hshape => ?_
  refine (ensures_hoist hshape).bind fun use m' _ huse => ?_
  exact .ask fun resolved _ => .ask fun extensions _ => ensures_pure fun _ => huse

theorem ensures_additionalFields (hkeeps : law.Keeps resolve) (node : Json) (site : Site) :
    law.Ensures s (env.additionalFields resolve node site) fun additional s' =>
      ∀ shape, additional = some shape → shape.Each (law.holds s') := by
  have hany : ∀ shape, some Shape.any = some shape → shape.Each (law.holds s) := fun shape h =>
    Option.some.inj h ▸ each_ofDecl _
  unfold Env.additionalFields
  split
  · exact ensures_pure fun _ => hany
  · exact ensures_pure fun _ => hany
  · refine (hkeeps.apply rfl s).bind fun shape m _ hshape => ?_
    refine (ensures_hoist hshape).bind fun use m' _ huse => ensures_pure fun _ => ?_
    exact fun found hfound => Option.some.inj hfound ▸ huse
  · exact ensures_pure fun _ => by simp

theorem each_fieldlessShape (node : Json) {additional : Option Shape}
    (h : ∀ shape, additional = some shape → shape.Each (law.holds s)) :
    (Env.fieldlessShape node additional).Each (law.holds s) := by
  have hmap : ∀ value : Shape, value.Each (law.holds s) → Shape.Each (law.holds s)
      { decl := mapDecl value, isOpen := true, additional := some value } := fun value hvalue =>
    each_of_inside rfl rfl ⟨by simp, by simp, fun found hfound => Option.some.inj hfound ▸ hvalue,
      by simp, by simp⟩
  unfold Env.fieldlessShape
  split
  · exact hmap _ (h _ rfl)
  · dsimp only
    split_ifs
    · exact each_ofDecl _
    · exact hmap _ (each_ofDecl _)
    · exact each_ofDecl _

theorem ensures_objectShape (hkeeps : law.Keeps resolve) (node : Json) (site : Site) :
    law.Ensures s (env.objectShape resolve node site) fun shape s' =>
      shape.Each (law.holds s') := by
  unfold Env.objectShape
  dsimp only
  refine (ensures_mapM (fun field s => field.shape.Each (law.holds s))
    (fun property _ s => ensures_field hkeeps _ site property)
    (fun field s s' hstep hfield => hstep.each hfield)).bind fun fields m _ hfields => ?_
  refine (ensures_additionalFields hkeeps node site).bind fun additional m' hstep hadditional => ?_
  split
  · exact ensures_pure fun _ => each_fieldlessShape node hadditional
  · exact ensures_pure fun _ => each_of_inside rfl rfl
      ⟨by simp, fun field hfield => hstep.each (hfields field hfield), hadditional, by simp,
        by simp⟩

theorem ensures_arrayShape (hkeeps : law.Keeps resolve) (node : Json) (site : Site) :
    law.Ensures s (env.arrayShape resolve node site) fun shape s' =>
      shape.Each (law.holds s') := by
  have harray : ∀ (item : Shape) (m : Session), item.Each (law.holds m) →
      law.Ensures m (env.hoist item (site.child "Item") .property >>= fun item =>
        pure ({ decl := arrayDecl item, item := some item } : Shape)) fun shape s' =>
          shape.Each (law.holds s') := by
    intro item m hitem
    refine (ensures_hoist hitem).bind fun use m' _ huse => ensures_pure fun _ => ?_
    exact each_of_inside rfl rfl ⟨fun found hfound => Option.some.inj hfound ▸ huse, by simp,
      by simp, by simp, by simp⟩
  unfold Env.arrayShape
  dsimp only
  split
  · exact harray _ s (each_ofDecl _)
  · exact (hkeeps.apply rfl s).bind fun item m _ hitem => harray item m hitem

theorem each_enumShape (node : Json) (declared : Option String) (extensions : Extensions) :
    (enumShape node declared extensions).Each (law.holds s) :=
  each_of_inside rfl rfl (.of_empty rfl rfl rfl rfl rfl)

theorem ensures_plainShape (hkeeps : law.Keeps resolve) (node : Json) (extensions : Extensions)
    (site : Site) :
    law.Ensures s (env.plainShape resolve node extensions site) fun shape s' =>
      shape.Each (law.holds s') := by
  unfold Env.plainShape
  dsimp only
  split
  · split
    · exact ensures_pure fun _ => each_enumShape _ _ _
    · exact ensures_objectShape hkeeps node site
  · split
    · exact ensures_objectShape hkeeps node site
    · split
      · exact ensures_pure fun _ => each_enumShape _ _ _
      · unfold Env.typedShape
        split
        · exact ensures_arrayShape hkeeps node site
        · split
          · exact ensures_pure fun _ => each_ofDecl _
          · exact ensures_throw
  · exact ensures_pure fun _ => each_ofDecl _

theorem ensures_ownShape (hkeeps : law.Keeps resolve) (node : Json) (extensions : Extensions)
    (site : Site) :
    law.Ensures s (env.ownShape resolve node extensions site) fun shape s' =>
      shape.Each (law.holds s') := by
  unfold Env.ownShape
  split
  · exact ensures_pure fun _ => each_of_inside rfl rfl (.of_empty rfl rfl rfl rfl rfl)
  · exact ensures_plainShape hkeeps node extensions site

/-! ## 8. Combinators -/

theorem each_takeMerged {acc : Shape} (hacc : acc.Each (law.holds s)) {c : Combined}
    (hc : c.shape.Each (law.holds s)) : (Env.takeMerged acc c).Each (law.holds s) := by
  unfold Env.takeMerged
  split
  · rename_i merged
    have hinside : merged.Inside (law.holds s) := (Shape.each_iff.mp hc).2
    split
    · rename_i name htarget
      have hmixin : ∀ field ∈ (merged.target.map (Field.mixin · false)).toList,
          field.shape.Each (law.holds s) := each_mixin hc false
      rw [htarget] at hmixin
      exact each_appendFields hacc hmixin
    · exact each_appendHoisted (each_appendFields hacc hinside.fields) hinside.hoisted
  · exact each_appendFields hacc (Shape.each_iff.mp hc).2.fields

theorem ensures_takeUnion (hkeeps : law.Keeps resolve) (node : Json) (site : Site) {acc : Shape}
    (hacc : acc.Each (law.holds s)) (part : String × List Json) :
    law.Ensures s (env.takeUnion resolve node site acc part) fun shape s' =>
      shape.Each (law.holds s') := by
  unfold Env.takeUnion
  split
  · exact ensures_pure fun _ => hacc
  · dsimp only
    refine (ensures_union hkeeps node part.2 rfl).bind fun union m hstep hunion => ?_
    refine (ensures_hoist hunion).bind fun use m' hstep' huse => ensures_pure fun _ => ?_
    exact each_embed (hstep'.each (hstep.each hacc)) huse true

theorem ensures_mixedShape (hkeeps : law.Keeps resolve) (node : Json) {site : Site}
    (hsite : site.reference = none) :
    law.Ensures s (env.mixedShape resolve node site) fun shape s' =>
      shape.Each (law.holds s') := by
  have hunions : ∀ (start : Shape) (m : Session), start.Each (law.holds m) →
      law.Ensures m (do
        return (← [("AnyOf", Schema.membersOf "anyOf" node),
          ("OneOf", Schema.membersOf "oneOf" node)].foldlM (env.takeUnion resolve node site)
            start).refreshDecl) fun shape s' => shape.Each (law.holds s') := fun start m hstart =>
    (ensures_foldlM (fun shape s => shape.Each (law.holds s))
      (fun acc s part _ hacc => ensures_takeUnion hkeeps node site hacc part) hstart).bind
      fun shape m _ hshape => ensures_pure fun _ => each_refreshDecl hshape
  unfold Env.mixedShape
  dsimp only
  split
  · exact hunions _ s each_empty
  · exact (ensures_allOfShape hkeeps node _ false hsite).bind fun c m _ hc =>
      hunions _ m (each_takeMerged each_empty hc)

theorem ensures_combined? (hkeeps : law.Keeps resolve) (node : Json) {site : Site}
    (hsite : site.reference = none) :
    law.Ensures s (env.combined? resolve node site) fun c s' =>
      ∀ found, c = some found → found.shape.Each (law.holds s') := by
  have hsome : ∀ (c : Combined) (m : Session), c.shape.Each (law.holds m) →
      ∀ found, some c = some found → found.shape.Each (law.holds m) := fun c m hc found hfound =>
    Option.some.inj hfound ▸ hc
  unfold Env.combined?
  dsimp only
  split
  · exact ensures_pure fun _ => by simp
  · exact (ensures_allOfShape hkeeps node _ true hsite).bind fun c m _ hc =>
      ensures_pure fun _ => hsome c m hc
  · exact (ensures_union hkeeps node _ hsite).bind fun shape m _ hshape =>
      ensures_pure fun _ => hsome _ m hshape
  · exact (ensures_union hkeeps node _ hsite).bind fun shape m _ hshape =>
      ensures_pure fun _ => hsome _ m hshape
  · exact (ensures_mixedShape hkeeps node hsite).bind fun shape m _ hshape =>
      ensures_pure fun _ => hsome _ m hshape

/-! ## 9. Nodes -/

theorem each_finish {node : Json} (hnode : Schema.reference? node = none)
    (h : shape.Each (law.holds s)) : (Env.finish node shape).Each (law.holds s) := by
  obtain ⟨htop, hinside⟩ := Shape.each_iff.mp h
  exact Shape.each_iff.mpr ⟨holds_of_source htop hnode, hinside.item, hinside.fields,
    hinside.additional, hinside.variants, hinside.hoisted⟩

theorem each_finishCombined {node : Json} (hnode : Schema.reference? node = none)
    (h : shape.Each (law.holds s)) : (Env.finishCombined node shape).Each (law.holds s) := by
  obtain ⟨htop, hinside⟩ := Shape.each_iff.mp h
  exact Shape.each_iff.mpr ⟨holds_of_source htop hnode, hinside.item, hinside.fields,
    hinside.additional, hinside.variants, hinside.hoisted⟩

theorem each_enhance {part : Shape} (h : shape.Each (law.holds s))
    (hpart : part.Each (law.holds s)) (keepDecl : Bool) :
    (Env.enhance shape part keepDecl).Each (law.holds s) := by
  obtain ⟨htop, hinside⟩ := Shape.each_iff.mp h
  have hinside' := (Shape.each_iff.mp hpart).2
  have hboth : Shape.Each (law.holds s) { shape with
      fields := shape.fields ++ part.fields
      discriminator := part.discriminator.or shape.discriminator
      variants := if part.variants.isEmpty then shape.variants else part.variants
      hoisted := shape.hoisted ++ part.hoisted
      isAlias := shape.isAlias && (shape.fields ++ part.fields).isEmpty } := by
    refine Shape.each_iff.mpr ⟨htop, hinside.item, fun field hfield => ?_, hinside.additional,
      ?_, fun d hd => ?_⟩
    · exact (List.mem_append.mp hfield).elim (hinside.fields field) (hinside'.fields field)
    · dsimp only
      split
      · exact hinside.variants
      · exact hinside'.variants
    · exact (List.mem_append.mp hd).elim (hinside.hoisted d) (hinside'.hoisted d)
  unfold Env.enhance
  dsimp only
  split
  · exact hboth
  · exact each_refreshDecl hboth

theorem ensures_schemaShape (hkeeps : law.Keeps resolve) {node : Json} {site : Site}
    (hnode : Schema.reference? node = none) (hsite : site.reference = none) :
    law.Ensures s (env.schemaShape resolve node site) fun shape s' =>
      shape.Each (law.holds s') := by
  unfold Env.schemaShape
  refine .ask fun extensions _ => ?_
  dsimp only
  refine (ensures_combined? hkeeps node hsite).bind fun c m _ hc => ?_
  -- Parts that come from combinators are added to what the node says itself.
  have henhance : ∀ part : Shape, part.Each (law.holds m) → ∀ keepDecl : Bool,
      law.Ensures m (do
        let own ← env.ownShape resolve node extensions site
        return Env.finish node (Env.enhance own part keepDecl)) fun shape s' =>
          shape.Each (law.holds s') := fun part hpart keepDecl =>
    (ensures_ownShape hkeeps node extensions site).bind fun own m' hstep hown =>
      ensures_pure fun _ => each_finish hnode (each_enhance hown (hstep.each hpart) keepDecl)
  split
  · exact (ensures_ownShape hkeeps node extensions site).bind fun own m' _ hown =>
      ensures_pure fun _ => each_finish hnode hown
  · exact henhance _ (hc _ rfl) _
  · split
    · exact ensures_pure fun _ => each_finishCombined hnode (hc _ rfl)
    · exact henhance _ (hc _ rfl) _

/-- What stands for a reference with keywords beside it has only an `allOf` and what describes. -/
theorem get?_expandReference_eq_none {key : String} (hkey : key ≠ "allOf")
    (hdescribes : (decide (key = "nullable") || Schema.isMetadataKey key) = false)
    (members : List (String × Json)) : (Env.expandReference members).get? key = none := by
  unfold Env.expandReference
  refine Entries.get?_eq_none_iff.mpr fun hmem => ?_
  simp only [Entries.keys, List.map_append, List.mem_append, List.mem_map, List.mem_filter,
    List.map_cons, List.map_nil, List.mem_singleton] at hmem
  rcases hmem with ⟨entry, ⟨_, hkept⟩, rfl⟩ | rfl
  · rw [hdescribes] at hkept
    simp at hkept
  · exact hkey rfl

/-- It is no reference. -/
theorem reference?_expandReference (members : List (String × Json)) :
    Schema.reference? (Env.expandReference members) = none := by
  have hnone : (Env.expandReference members).get? "$ref" = none :=
    get?_expandReference_eq_none (by decide) (by decide) members
  simp [Schema.reference?, Schema.text?, hnone]

/-- It is no union. -/
theorem hasUnion_expandReference (members : List (String × Json)) :
    Schema.hasUnion (Env.expandReference members) = false := by
  have hnone : ∀ key, key = "anyOf" ∨ key = "oneOf" →
      (Env.expandReference members).get? key = none := by
    rintro key (rfl | rfl) <;>
      exact get?_expandReference_eq_none (by decide) (by decide) members
  simp [Schema.hasUnion, Schema.membersOf, hnone]

theorem ensures_build (hkeeps : law.Keeps resolve) (hlabels : Labels resolve) (node : Json)
    (site : Site)
    (hsite : ∀ reference, site.reference = some reference →
      Schema.reference? node = some reference) :
    law.Ensures s (env.build resolve node site) fun shape s' => shape.Each (law.holds s') := by
  unfold Env.build
  split
  · split
    · rename_i reference hreference
      exact ensures_referenceShape hkeeps hlabels (hsite reference hreference) site
    · rename_i reference hnone hreference
      split
      · exact ensures_referenceShape hkeeps hlabels hreference site
      · exact ensures_schemaShape hkeeps (reference?_expandReference _) hnone
    · rename_i hnone hreference
      exact ensures_schemaShape hkeeps hreference hnone
  · exact ensures_pure fun _ => each_ofDecl _

/-! ## 10. Levels -/

/-- The law does not look at the depth. -/
theorem holds_depth {depth : Nat} {t : Option String} {src : Option Json}
    (h : law.holds s t src) : law.holds { s with depth } t src :=
  law.grow (s := s) (List.prefix_refl _) (List.Subset.refl _) h

theorem good_depth {depth : Nat} (h : law.Good s) : law.Good { s with depth } :=
  fun d hd => (h d hd).imp fun _ _ => holds_depth

theorem ensures_deeper {site : Site} {act : Resolve Shape}
    (h : ∀ s, law.Ensures s act fun shape s' => shape.Each (law.holds s')) :
    law.Ensures s (Resolve.deeper site act) fun shape s' => shape.Each (law.holds s') := by
  intro hgood shape s' hyields
  obtain ⟨-, m, hact, rfl⟩ := Resolve.yields_deeper hyields
  obtain ⟨hstep, heach⟩ := h _ (good_depth hgood) shape m hact
  exact ⟨⟨hstep.grows, hstep.expanding, good_depth hstep.good⟩,
    heach.imp fun _ _ => holds_depth⟩

theorem source_of_schemaShape {node : Json} {site : Site} {s' : Session}
    (h : (env.schemaShape resolve node site).Yields s shape s') : shape.source = some node := by
  unfold Env.schemaShape at h
  simp only [Resolve.yields_bind] at h
  obtain ⟨_, _, _, c, _, _, h⟩ := h
  split at h
  · simp only [Resolve.yields_bind, Resolve.yields_pure] at h
    obtain ⟨_, _, _, rfl, _⟩ := h
    rfl
  · simp only [Resolve.yields_bind, Resolve.yields_pure] at h
    obtain ⟨_, _, _, rfl, _⟩ := h
    rfl
  · split at h
    · obtain ⟨rfl, _⟩ := Resolve.yields_pure.mp h
      rfl
    · simp only [Resolve.yields_bind, Resolve.yields_pure] at h
      obtain ⟨_, _, _, rfl, _⟩ := h
      rfl

/-- **Every level labels its shapes.** -/
theorem labels_resolveAt (env : Env) (levels : Nat) : Labels (env.resolveAt levels) := by
  intro node site s shape s' hyields hobject hnode hsite
  cases levels with
  | zero => exact absurd hyields Resolve.yields_throw
  | succ levels =>
    obtain ⟨-, m, hbuild, -⟩ := Resolve.yields_deeper hyields
    obtain ⟨members, rfl⟩ := Json.exists_members_of_isObject hobject
    simp only [Env.build, hsite, hnode] at hbuild
    exact source_of_schemaShape hbuild

/-- **Every level keeps the law.** -/
theorem keeps_resolveAt (law : PartLaw env) (levels : Nat) : law.Keeps (env.resolveAt levels) := by
  induction levels with
  | zero => exact fun node site s _ => ensures_throw
  | succ levels ih =>
    exact fun node site s hsite => ensures_deeper fun s =>
      ensures_build ih (labels_resolveAt env levels) node site hsite

theorem ensures_shapeOf {node : Json} {site : Site} (hsite : site.reference = none) :
    law.Ensures s (env.shapeOf node site) fun shape s' => shape.Each (law.holds s') :=
  (keeps_resolveAt law maxDepth).apply hsite s

/-! ## 11. Tasks -/

/-- A component has a definition under the name of its type afterwards. -/
theorem ensures_compileComponent (key : String) (node : Json) :
    law.Ensures s (env.compileComponent key node) fun _ s' =>
      ∀ name, env.componentTypeName (Reference.ofComponent "schemas" key) (Site.ofPath [key]) =
        .ok name → name ∈ s'.registry.names := by
  unfold Env.compileComponent
  dsimp only
  refine .ask fun name hname => ?_
  refine (ensures_shapeOf rfl).bind fun shape m _ hshape => ?_
  have hjson : ∀ d : Definition, (d.withJsonName key).name = d.name ∧
      (d.withJsonName key).shape = d.shape := by
    intro d
    unfold Definition.withJsonName
    split <;> exact ⟨rfl, rfl⟩
  refine (ensures_register ?_).mono fun _ s' _ hmem other hother => ?_
  · rw [(hjson _).2]
    exact hshape
  · rw [(hjson _).1] at hmem
    rw [hname] at hother
    exact Except.ok.inj hother ▸ hmem

theorem ensures_defineRoot (schema : Json) (name : String) (location : Location) :
    law.Ensures s (env.defineRoot schema name location) fun _ _ => True := by
  unfold Env.defineRoot
  exact (ensures_shapeOf rfl).bind fun shape m _ hshape =>
    (ensures_define hshape).bind fun _ _ _ _ => ensures_pure fun _ => trivial

theorem ensures_defineContent (node : Json) (name : String) (location : Location) :
    law.Ensures s (env.defineContent node name location) fun _ _ => True := by
  unfold Env.defineContent
  refine .ask fun resolved _ => ?_
  split
  · exact ensures_pure fun _ => trivial
  · exact ensures_defineRoot _ _ _

theorem ensures_compileOperation (operation : Operation) :
    law.Ensures s (env.compileOperation operation) fun _ _ => True := by
  have hresponses : ∀ s, law.Ensures s
      ((((operation.node.get? "responses").bind Json.members?).getD []).forM
        (env.defineResponse operation)) fun _ _ => True := by
    refine fun s => ensures_forM fun entry _ s => ?_
    unfold Env.defineResponse
    split
    · exact ensures_pure fun _ => trivial
    · exact ensures_defineContent _ _ _
  unfold Env.compileOperation
  refine .ask fun parameters _ => ?_
  refine (ensures_forM fun group _ s => ?_).bind fun _ m _ _ => ?_
  · unfold Env.defineParameters
    split
    · exact ensures_pure fun _ => trivial
    · exact ensures_defineRoot _ _ _
  · cases operation.node.get? "requestBody" with
    | none => exact hresponses m
    | some body => exact (ensures_defineContent _ _ _).bind fun _ m _ _ => hresponses m

/-- **A law holds of every part of every definition of a run**, and every component has a
    definition in the end. -/
theorem ensures_runAll (tasks : List Task) :
    law.Ensures s (env.runAll tasks) fun _ s' => ∀ key node, Task.component key node ∈ tasks →
      ∀ name, env.componentTypeName (Reference.ofComponent "schemas" key) (Site.ofPath [key]) =
        .ok name → name ∈ s'.registry.names := by
  unfold Env.runAll
  induction tasks generalizing s with
  | nil => exact ensures_pure fun _ => by simp
  | cons task rest ih =>
    rw [List.forM_eq_forM, List.forM_cons, ← List.forM_eq_forM]
    cases task with
    | component key node =>
      refine (ensures_compileComponent key node).bind fun _ m _ hdefined => ?_
      refine ih.mono fun _ s' hstep hrest other node' hmem name hname => ?_
      rcases List.mem_cons.mp hmem with heq | hmem
      · obtain ⟨rfl, rfl⟩ := Task.component.inj heq
        exact Registry.mem_names_of_prefix hstep.grows (hdefined name hname)
      · exact hrest other node' hmem name hname
    | operation operation =>
      refine (ensures_compileOperation operation).bind fun _ m _ _ => ?_
      refine ih.mono fun _ s' _ hrest other node' hmem => ?_
      rcases List.mem_cons.mp hmem with heq | hmem
      · simp at heq
      · exact hrest other node' hmem

end ApiTypes.PartLaw

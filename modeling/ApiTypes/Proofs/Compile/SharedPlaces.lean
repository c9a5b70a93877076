import ApiTypes.Proofs.Compile.Prepare
import ApiTypes.Proofs.Compile.Traversal

/-!
  References to one place.

  The name of a place is made from the reference, and two places may get one name: characters that
  no identifier holds are dropped.

  * **Where the name belongs to one place alone, all references to the place share its
    definition** (`compile_shares_places`).
  * Where another place has the name already, the definition is found under the name of the other
    place and does not fit, so the place is **defined again under a new name at every reference**
    (`compile_splits_foldedNames`).
-/

namespace ApiTypes

variable {env : Env}

/-! ## 1. One name for one place -/

/-- Every definition of the name that a reference gives was made from the reference's target. -/
def NameIsOwn (reference : String) (target : Json) (definitions : List Definition) : Prop :=
  ∀ d ∈ definitions, d.name = TypeName.ofReference reference →
    Json.sameOption d.shape.source (some target) = true

/-- Where the name is the place's own, the place is defined under it. -/
theorem nameFor_of_nameIsOwn {registry : Registry} {reference : String} {target : Json}
    {shape : Shape} (suffixes : List String)
    (hown : NameIsOwn reference target registry.definitions)
    (hsource : shape.source = some target) :
    registry.nameFor (TypeName.ofReference reference) shape suffixes =
      TypeName.ofReference reference := by
  unfold Registry.nameFor
  cases hget : registry.get? (TypeName.ofReference reference) with
  | none => rfl
  | some existing =>
    obtain ⟨hmem, hname⟩ := Registry.mem_of_get? hget
    have hsame := hown existing hmem hname
    have hequivalent : existing.shape.equivalent shape = true := by
      unfold Shape.equivalent
      rw [hsource]
      cases hexisting : existing.shape.source with
      | none => simp [hexisting, Json.sameOption] at hsame
      | some other => simpa [hexisting, Json.sameOption] using hsame
    simp [hequivalent]

theorem NameIsOwn.mono {reference : String} {target : Json} {fewer more : List Definition}
    (h : NameIsOwn reference target more) (hsubset : fewer ⊆ more) :
    NameIsOwn reference target fewer :=
  fun d hd => h d (hsubset hd)

/-- **A part that was made from a reference to the place has its name**, as long as the name is the
    place's own; and the name has a definition, or the place is being expanded. -/
def placeLaw (env : Env) (reference : String) (target : Json)
    (hplace : Reference.schemaName? reference = none)
    (htarget : env.doc.resolve? reference = some target) (hobject : target.isObject = true)
    (hnode : Schema.reference? target = none) : PartLaw env where
  holds s t src := NameIsOwn reference target s.registry.definitions →
    ∀ node, src = some node → Schema.reference? node = some reference →
      t = some (TypeName.ofReference reference) ∧
        (TypeName.ofReference reference ∈ s.registry.names ∨ reference ∈ s.expanding)
  grow hgrows hexpanding h hown node hsrc href := by
    obtain ⟨ht, hdefined⟩ := h (hown.mono hgrows.subset) node hsrc href
    exact ⟨ht, hdefined.imp (Registry.mem_names_of_prefix hgrows) (fun hmem => hexpanding hmem)⟩
  settle hgrows hexpanding hsettled h hown node hsrc href := by
    obtain ⟨ht, hdefined⟩ := h (hown.mono hgrows.subset) node hsrc href
    refine ⟨ht, ?_⟩
    rcases hdefined with hmem | hmem
    · exact .inl (Registry.mem_names_of_prefix hgrows hmem)
    · rw [hexpanding] at hmem
      rcases List.mem_cons.mp hmem with rfl | hmem
      · exact .inl hsettled
      · exact .inr hmem
  free h _ node hsrc href := by simp [h node hsrc] at href
  relabel _ h _ node hsrc href := by simp [h node hsrc] at href
  registered _ _ node hsrc := by simp at hsrc
  component hcomponent _ h _ node hsrc href := by
    obtain rfl := Option.some.inj ((h node hsrc).symm.trans href)
    simp [hplace] at hcomponent
  place _ hresolve hname hother hown node hsrc href := by
    obtain rfl := Option.some.inj hsrc
    obtain rfl := Option.some.inj (hother.symm.trans href)
    obtain rfl := Option.some.inj (hresolve.symm.trans htarget)
    cases hname with
    | expanding h => exact ⟨rfl, .inr h⟩
    | known hd hknown _ => exact ⟨rfl, .inl (Registry.mem_names.mpr ⟨_, hd, hknown⟩)⟩
    | defined hgrows hsource hmem =>
      have hbase := nameFor_of_nameIsOwn env.options.nameSuffixes (hown.mono hgrows.subset)
        (hsource hobject hnode)
      rw [hbase] at hmem ⊢
      exact ⟨rfl, .inl hmem⟩

/-! ## 2. Compilations -/

/-- **All references to one place share its definition**, where the name of the place is its own:
    whatever was made from such a reference has the name from the reference, and the definition of
    that name was made from the target. -/
theorem compile_shares_places (document : Json) (options : Options) (c : Compilation)
    (reference : String) (target : Json) (h : compile document options = .ok c)
    (hplace : Reference.schemaName? reference = none)
    (htarget : c.document.resolve? reference = some target) (hobject : target.isObject = true)
    (hnode : Schema.reference? target = none) (hown : NameIsOwn reference target c.types) :
    ∀ d ∈ c.types, ∀ part, Shape.Within part d.shape → ∀ node, part.source = some node →
      Schema.reference? node = some reference →
        part.target = some (TypeName.ofReference reference) ∧
          ∃ e ∈ c.types, e.name = TypeName.ofReference reference ∧
            Json.sameOption e.shape.source (some target) = true := by
  obtain ⟨doc, report, session, u, hprepare, hrun, rfl⟩ := compile_eq_ok h
  have hgood :
      (placeLaw { doc, options } reference target hplace htarget hobject hnode).Good {} := by
    intro d hd
    simp at hd
  obtain ⟨hstep, -⟩ := PartLaw.ensures_runAll (Task.ofDocument doc) hgood u session hrun
  intro d hd part hpart node hsrc href
  obtain ⟨hname, hdefined⟩ := hstep.good d hd part hpart hown node hsrc href
  refine ⟨hname, ?_⟩
  rcases hdefined with hmem | hmem
  · obtain ⟨e, he, hname⟩ := Registry.mem_names.mp hmem
    exact ⟨e, he, hname, hown e he hname⟩
  · rw [hstep.expanding] at hmem
    simp at hmem

/-- A reference to a property. -/
def propertyReference (name : String) : Json :=
  .obj [("$ref", .str ("#/components/schemas/A/properties/" ++ name))]

/-- A record with one field. -/
def oneField (name : String) : Json :=
  .obj [("type", .str "object"), ("properties", .obj [(name, .obj [("type", .str "string")])])]

/-- A document in which a component has these properties, and another one these references to
    properties. -/
def withPlaces (properties references : List (String × Json)) : Json :=
  .obj [("components", .obj [("schemas", .obj [
    ("A", .obj [("type", .str "object"), ("properties", .obj properties)]),
    ("B", .obj [("type", .str "object"), ("properties", .obj references)])])])]

/-- The targets of the fields of a definition. -/
def fieldTargets (name : String) (c : Compilation) : List (Option String × Option String) :=
  ((c.get? name).map fun d => d.shape.fields.map fun f => (f.wireName, f.shape.target)).getD []

/-- A document with two references to one place. -/
def sharedPlace : Json :=
  withPlaces [("part", oneField "x")]
    [("q", propertyReference "part"), ("r", propertyReference "part")]

theorem compile_shares_places_sharedPlace :
    ∃ c, compile sharedPlace { prune := false } = .ok c ∧
      fieldTargets "B" c =
        [(some "q", some "A_Properties_Part"), (some "r", some "A_Properties_Part")] ∧
      ∀ d ∈ c.types, ∀ part, Shape.Within part d.shape → ∀ node, part.source = some node →
        Schema.reference? node = some "#/components/schemas/A/properties/part" →
          part.target = some (TypeName.ofReference "#/components/schemas/A/properties/part") ∧
            ∃ e ∈ c.types,
              e.name = TypeName.ofReference "#/components/schemas/A/properties/part" ∧
                Json.sameOption e.shape.source (some (oneField "x")) = true := by
  have hfields : (compile sharedPlace { prune := false }).toOption.map (fieldTargets "B") =
      some [(some "q", some "A_Properties_Part"), (some "r", some "A_Properties_Part")] := by
    decide +kernel
  have hown : ((compile sharedPlace { prune := false }).toOption.all fun c => c.types.all fun d =>
      d.name ≠ "A_Properties_Part" || Json.sameOption d.shape.source (some (oneField "x"))) =
        true := by
    decide +kernel
  have hname : TypeName.ofReference "#/components/schemas/A/properties/part" =
      "A_Properties_Part" := by
    decide +kernel
  cases hcompile : compile sharedPlace { prune := false } with
  | error e => simp [hcompile, Except.toOption] at hfields
  | ok c =>
    obtain ⟨doc, report, session, u, hprepare, -, hc⟩ := compile_eq_ok hcompile
    have hroot : c.document = sharedPlace := by
      rcases prepare_eq_ok hprepare with ⟨r, -, hprune, -⟩ | ⟨-, -, hroot⟩
      · simp at hprune
      · rw [hc, ← hroot]
        rfl
    refine ⟨c, rfl, by simpa [hcompile, Except.toOption] using hfields,
      compile_shares_places sharedPlace { prune := false } c
        "#/components/schemas/A/properties/part" (oneField "x") hcompile (by decide)
        (by rw [hroot]; rfl) rfl (by decide) fun d hd hd' => ?_⟩
    rw [hname] at hd'
    simp only [hcompile, Except.toOption, Option.all_some, List.all_eq_true] at hown
    simpa [hd'] using hown d hd

/-- A document with two references to one place, and one to another place of the same name. -/
def foldedNames : Json :=
  withPlaces [("a-b", oneField "x"), ("a_b", oneField "y")]
    [("p", propertyReference "a-b"), ("q", propertyReference "a_b"),
      ("r", propertyReference "a_b")]

/-- **Two references to one place have two names** in `foldedNames`: the first of them makes one
    definition, the second another. -/
theorem compile_splits_foldedNames :
    (compile foldedNames { prune := false }).toOption.map (fieldTargets "B") =
      some [(some "p", some "A_Properties_AB"), (some "q", some "A_Properties_AB1"),
        (some "r", some "A_Properties_AB2")] := by
  decide +kernel

end ApiTypes

import ApiTypes.Proofs.Compile.Prepare
import ApiTypes.Proofs.Compile.Traversal
import ApiTypes.Proofs.Reference

/-!
  Every name that a compilation uses has a definition.

  While a compilation runs, a name may be used before it has its definition: the type of a
  component that is compiled later, and the name of a place that is being expanded. Such a name is
  **promised**. At the end nothing is being expanded and every component has been compiled, so
  every promise is kept.
-/

namespace ApiTypes

/-! ## 1. Promised names -/

/-- The name of the type of a component schema. -/
def IsComponentName (env : Env) (name : String) : Prop :=
  ∃ key node, (key, node) ∈ env.doc.components "schemas" ∧
    env.componentTypeName (Reference.ofComponent "schemas" key) (Site.ofPath [key]) = .ok name

/-- A name that has a definition, or will have one when the compilation ends. -/
def IsPromised (env : Env) (s : Session) (name : String) : Prop :=
  name ∈ s.registry.names ∨ IsComponentName env name ∨
    ∃ reference ∈ s.expanding, name = TypeName.ofReference reference

variable {env : Env}

/-- The type name of a component depends on the component alone, not on how it is referred to. -/
theorem componentTypeName_of_schemaName? {reference other key name : String} {site site' : Site}
    (h : Reference.schemaName? reference = some key)
    (hother : Reference.schemaName? other = some key)
    (hname : env.componentTypeName reference site = .ok name) :
    env.componentTypeName other site' = .ok name := by
  have hresolve : env.doc.resolve? other = env.doc.resolve? reference := by
    rw [Document.resolve?, Document.resolve?, Reference.resolve?_of_schemaName? h,
      Reference.resolve?_of_schemaName? hother]
  have hofReference : TypeName.ofReference other = TypeName.ofReference reference := by
    rw [Reference.ofReference_of_schemaName? h, Reference.ofReference_of_schemaName? hother]
  unfold Env.componentTypeName Env.resolve Env.extensionsAt at hname ⊢
  rw [hresolve, hofReference]
  cases htarget : env.doc.resolve? reference with
  | none => simp [htarget, bind, Except.bind] at hname
  | some target =>
    simp only [htarget, bind, Except.bind] at hname ⊢
    cases hextensions : Extensions.ofNode target with
    | ok extensions => simpa [hextensions] using hname
    | error fault => simp [hextensions] at hname

/-- **An alias is named like a component of the document.** -/
theorem isComponentName_of_alias (hschemas : HasSchemaObject env.doc.root)
    {reference name : String} {site : Site}
    (hreference : (Reference.schemaName? reference).isSome = true)
    (hname : env.componentTypeName reference site = .ok name) : IsComponentName env name := by
  obtain ⟨key, hkey⟩ := Option.isSome_iff_exists.mp hreference
  have hcomponent : env.componentTypeName (Reference.ofComponent "schemas" key)
      (Site.ofPath [key]) = .ok name :=
    componentTypeName_of_schemaName? hkey (Reference.schemaName?_ofComponent hkey) hname
  -- The reference resolves, so the document has a component of that key.
  have hresolves : ∃ target, env.doc.root.at? ["components", "schemas", key] = some target := by
    rw [← Reference.resolve?_of_schemaName? hkey]
    cases htarget : env.doc.root.resolve? reference with
    | some target => exact ⟨target, rfl⟩
    | none =>
      simp [Env.componentTypeName, Env.resolve, Document.resolve?, htarget, bind,
        Except.bind] at hname
  obtain ⟨target, htarget⟩ := hresolves
  obtain ⟨components, hcomponents, hrest⟩ := Option.bind_eq_some_iff.mp htarget
  obtain ⟨schemas, hget, hlast⟩ := Option.bind_eq_some_iff.mp hrest
  have hindex : Json.index? "components" = none ∧ Json.index? "schemas" = none := by decide
  rw [Json.child?_of_index?_eq_none hindex.1] at hcomponents
  rw [Json.child?_of_index?_eq_none hindex.2] at hget
  have hcollection : (env.doc.root.get? "components").bind (Json.get? "schemas") = some schemas :=
    by rw [hcomponents]; exact hget
  obtain ⟨entries, rfl⟩ := Json.exists_members_of_isObject (hschemas schemas hcollection)
  have hentry : Entries.get? key entries = some target := by
    simpa [Json.at?, Json.child?] using hlast
  refine ⟨key, target, ?_, hcomponent⟩
  rw [Document.components, hcollection]
  exact Entries.mem_of_get? hentry

/-! ## 2. The law -/

/-- **Targets are promised.** -/
def promisedLaw (env : Env) (hschemas : HasSchemaObject env.doc.root) : PartLaw env where
  holds s t _ := ∀ name, t = some name → IsPromised env s name
  grow hgrows hexpanding h name hname := by
    rcases h name hname with hmem | hcomponent | ⟨reference, hmem, hreference⟩
    · exact .inl (Registry.mem_names_of_prefix hgrows hmem)
    · exact .inr (.inl hcomponent)
    · exact .inr (.inr ⟨reference, hexpanding hmem, hreference⟩)
  settle hgrows hexpanding hsettled h name hname := by
    rcases h name hname with hmem | hcomponent | ⟨reference, hmem, rfl⟩
    · exact .inl (Registry.mem_names_of_prefix hgrows hmem)
    · exact .inr (.inl hcomponent)
    · rw [hexpanding] at hmem
      rcases List.mem_cons.mp hmem with rfl | hmem
      · exact .inl hsettled
      · exact .inr (.inr ⟨reference, hmem, rfl⟩)
  free _ name hname := by simp at hname
  relabel h _ := h
  registered hmem name hname := by
    obtain rfl := Option.some.inj hname
    exact .inl hmem
  component hreference hcomponent _ name hname := by
    obtain rfl := Option.some.inj hname
    exact .inr (.inl (isComponentName_of_alias hschemas hreference hcomponent))
  place _ _ hplace _ name hname := by
    obtain rfl := Option.some.inj hname
    cases hplace with
    | expanding h => exact .inr (.inr ⟨_, h, rfl⟩)
    | known hd hknown _ => exact .inl (Registry.mem_names.mpr ⟨_, hd, hknown⟩)
    | defined _ _ hmem => exact .inl hmem

/-! ## 3. Compilations -/

/-- A component that has a type name is compiled. -/
theorem exists_task_of_isComponentName {name : String} (h : IsComponentName env name) :
    ∃ key node, Task.component key node ∈ Task.ofDocument env.doc ∧
      env.componentTypeName (Reference.ofComponent "schemas" key) (Site.ofPath [key]) =
        .ok name := by
  obtain ⟨key, node, hentry, hname⟩ := h
  refine ⟨key, node, List.mem_append_left _ (List.mem_map.mpr ⟨_, hentry, rfl⟩), hname⟩

/-- **The output of a compilation is closed**: every name that stands anywhere inside a definition
    has a definition itself, where the component schemas are an object. -/
theorem compile_closed (document : Json) (options : Options) (c : Compilation)
    (hschemas : HasSchemaObject document) (h : compile document options = .ok c) :
    ∀ d ∈ c.types, ∀ part, Shape.Within part d.shape → ∀ name, part.target = some name →
      ∃ e ∈ c.types, e.name = name := by
  obtain ⟨doc, report, session, u, hprepare, hrun, rfl⟩ := compile_eq_ok h
  have hdocument : HasSchemaObject doc.root := hasSchemaObject_prepare hschemas hprepare
  have hgood : (promisedLaw { doc, options } hdocument).Good {} := by
    intro d hd
    simp at hd
  obtain ⟨hstep, hdefined⟩ := PartLaw.ensures_runAll (Task.ofDocument doc) hgood u session hrun
  intro d hd part hpart name hname
  rcases hstep.good d hd part hpart name hname with hmem | hcomponent | ⟨reference, hmem, -⟩
  · exact Registry.mem_names.mp hmem
  · obtain ⟨key, node, htask, hcomponent⟩ := exists_task_of_isComponentName hcomponent
    exact Registry.mem_names.mp (hdefined key node htask name hcomponent)
  · rw [hstep.expanding] at hmem
    simp at hmem

/-- A document with a component that refers to itself and a place that refers to itself. -/
def circles : Json :=
  .obj [("components", .obj [("schemas", .obj [("Node", .obj [
    ("type", .str "object"),
    ("properties", .obj [
      ("next", .obj [("$ref", .str "#/components/schemas/Node")]),
      ("part", .obj [
        ("type", .str "object"),
        ("properties", .obj [
          ("again", .obj [("$ref", .str "#/components/schemas/Node/properties/part")])])])])])])])]

theorem compile_closed_circles :
    ∃ c, compile circles { prune := false } = .ok c ∧
      c.types.map Definition.name = ["Node_Properties_Part", "Node_Part", "Node"] ∧
      ∀ d ∈ c.types, ∀ part, Shape.Within part d.shape → ∀ name, part.target = some name →
        ∃ e ∈ c.types, e.name = name := by
  have hnames : ((compile circles { prune := false }).toOption.map fun c =>
      c.types.map Definition.name) = some ["Node_Properties_Part", "Node_Part", "Node"] := by
    decide +kernel
  cases hcompile : compile circles { prune := false } with
  | error e => simp [hcompile, Except.toOption] at hnames
  | ok c =>
    have hschemas : HasSchemaObject circles := fun schemas h => Option.some.inj h ▸ rfl
    exact ⟨c, rfl, by simpa [hcompile, Except.toOption] using hnames,
      compile_closed circles { prune := false } c hschemas hcompile⟩

end ApiTypes

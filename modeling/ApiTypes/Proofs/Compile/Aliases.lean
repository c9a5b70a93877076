import ApiTypes.Proofs.Compile.Closed
import ApiTypes.Proofs.Compile.Sites

/-!
  Types that are only another name for another type.

  `Env.RenamesType` says of the schemas which type is only another name for which: the type of a
  component, of a place that a reference points at, or of what an operation asks for renames what
  its schema renames. The component schemas are compiled first, so the definition under the name of
  a component is one that the components ask for (`definedByComponents`). So every alias is as the
  schemas say (`renamesType_of_runAll`), and aliases go in circles only where the schemas do
  (`compile_aliases_acyclic`).

  The schemas may: only the element of a union that is the very component is kept from becoming an
  alias of itself. A bare reference to itself is one, and so are two unions of one element each that
  are each other's element (`compile_aliases_circular`).
-/

namespace ApiTypes

open Resolve

/-- One type is only another name for the type of the other name. -/
def Compilation.IsAliasOf (c : Compilation) (name other : String) : Prop :=
  ∃ d ∈ c.types, d.name = name ∧ d.shape.isAlias = true ∧ d.shape.target = some other

/-- The aliases of a compilation, in order. -/
def Compilation.aliases (c : Compilation) : List (String × String) :=
  c.types.filterMap fun d =>
    if d.shape.isAlias then d.shape.target.map (d.name, ·) else none

theorem Compilation.mem_aliases {c : Compilation} {name other : String} :
    (name, other) ∈ c.aliases ↔ c.IsAliasOf name other := by
  unfold aliases IsAliasOf
  simp only [List.mem_filterMap]
  refine exists_congr fun d => and_congr_right fun _ => ?_
  by_cases halias : d.shape.isAlias = true
  · simp [halias, and_comm]
  · simp [halias]

theorem exists_compile_of_aliases {document : Json} {options : Options}
    {aliases : List (String × String)}
    (h : (compile document options).toOption.map Compilation.aliases = some aliases) :
    ∃ c, compile document options = .ok c ∧
      ∀ name other, c.IsAliasOf name other ↔ (name, other) ∈ aliases := by
  cases hcompile : compile document options with
  | error e => simp [hcompile, Except.toOption] at h
  | ok c =>
    obtain rfl : c.aliases = aliases := by simpa [hcompile, Except.toOption] using h
    exact ⟨c, rfl, fun _ _ => Compilation.mem_aliases.symm⟩

namespace Env

variable {env : Env} {strict : Prop} {d : Definition}

/-! ## 1. What an alias stands for -/

/-- The type of one name is only another name for the type of the other. -/
inductive RenamesType (env : Env) : String → String → Prop where
  /-- A component is defined under the name of its type. -/
  | component {key name target : String} {node : Json}
    (hnode : (key, node) ∈ env.doc.components "schemas")
    (hname : env.componentTypeName (Reference.ofComponent "schemas" key) (Site.ofPath [key]) =
      .ok name)
    (h : env.Renames (some (Reference.ofComponent "schemas" key)) node target) :
    RenamesType env name target
  /-- A place is defined under a name from the reference, or the first free one made from it. -/
  | place {reference target : String} {node : Json} {registry : Registry} {shape : Shape}
    (hplace : Reference.schemaName? reference = none)
    (hnode : env.doc.resolve? reference = some node) (h : env.Renames none node target) :
    RenamesType env
      (registry.nameFor (TypeName.ofReference reference) shape env.options.nameSuffixes) target
  /-- What an operation asks for is defined likewise, but under no name of a component: these are
      taken by then. -/
  | operation {operation : Operation} {name target : String} {node : Json} {registry : Registry}
    {shape : Shape} (hoperation : operation ∈ Operation.ofDocument env.doc)
    (hasks : env.AsksFor operation name node)
    (hother : ¬ IsComponentName env
      (registry.nameFor (Site.ofPath [name]).typeName shape env.options.nameSuffixes))
    (h : env.Renames none node target) :
    RenamesType env
      (registry.nameFor (Site.ofPath [name]).typeName shape env.options.nameSuffixes) target

/-- A reference has one name, wherever it stands. -/
theorem TypeNameOf.name_eq {reference name other : String} (h : env.TypeNameOf reference name)
    (site : Site) (hother : (env.componentTypeName reference site).toOption = some other) :
    name = other := by
  obtain ⟨hreference, site', hname⟩ := h
  obtain ⟨key, hkey⟩ := Option.isSome_iff_exists.mp hreference
  have hsite : env.componentTypeName reference site = .ok name :=
    componentTypeName_of_schemaName? hkey hkey hname
  simpa [hsite, Except.toOption] using hother

/-- A definition that the component schemas ask for is an alias only as they say. -/
theorem DefinedByComponents.renamesType {target : String} (h : env.DefinedByComponents strict d)
    (halias : d.shape.isAlias = true) (htarget : d.shape.target = some target) :
    env.RenamesType d.name target := by
  cases h with
  | made h =>
    cases h with
    | inside _ hnone => simp [hnone] at htarget
    | place hplace hnode hname hcomes =>
      rw [hname]
      exact .place hplace hnode (hcomes.renames rfl halias target htarget)
  | component hnode hname hcomes =>
    exact .component hnode hname (hcomes.renames rfl halias target htarget)

/-! ## 2. Which site a definition is from -/

/-- Component schemas that have a type name are the members of an object. -/
theorem hasSchemaObject_of_isComponentName {name : String} (h : IsComponentName env name) :
    HasSchemaObject env.doc.root := by
  obtain ⟨key, node, hentry, -⟩ := h
  intro schemas hschemas
  cases schemas with
  | obj entries => rfl
  | _ => simp [Document.components, hschemas] at hentry

/-- **A definition under the name of a component is one that the components ask for**, since these
    come first and no name comes twice. -/
theorem definedByComponents (env : Env) {u : Unit} {session : Session}
    (hrun : (env.runAll (Task.ofDocument env.doc)).Yields {} u session) :
    ∀ d ∈ session.registry.definitions, IsComponentName env d.name →
      env.DefinedByComponents False d := by
  -- The components run first, up to the session `m`, and then the operations.
  rw [runAll, Task.ofDocument, List.forM_eq_forM, List.forM_append, yields_bind] at hrun
  obtain ⟨v, m, hcomponents, hoperations⟩ := hrun
  have hgives : Gives (env.DefinedByComponents False)
      (env.runAll ((env.doc.components "schemas").map fun entry => .component entry.1 entry.2))
      fun _ => True := by
    refine gives_forM fun task htask => ?_
    obtain ⟨entry, hentry, rfl⟩ := List.mem_map.mp htask
    exact gives_compileComponent False.elim hentry
  have hgives' : Gives (env.DefinedBySites False)
      (env.runAll ((Operation.ofDocument env.doc).map Task.operation)) fun _ => True :=
    gives_forM fun task htask => gives_compileTask False.elim (List.mem_append_right _ htask)
  obtain ⟨hgrows, -⟩ := hgives.of_yields hcomponents
  obtain ⟨hgrows', -⟩ := hgives'.of_yields hoperations
  rintro d hd ⟨key, node, hentry, hname⟩
  have hschemas := hasSchemaObject_of_isComponentName ⟨key, node, hentry, hname⟩
  have hgood : (promisedLaw env hschemas).Good {} := by
    intro d hd
    simp at hd
  obtain ⟨-, hdefined⟩ := PartLaw.ensures_runAll _ hgood v m hcomponents
  obtain ⟨e, he, hsame⟩ := Registry.mem_names.mp
    (hdefined key node (List.mem_map.mpr ⟨_, hentry, rfl⟩) d.name hname)
  obtain rfl := Registry.eq_of_name_eq (hgrows'.definitions.subset he) hd hsame
  exact (hgrows.added e he).resolve_left List.not_mem_nil

/-- **An alias is as the schemas say.** -/
theorem renamesType_of_runAll {u : Unit} {session : Session}
    (hrun : (env.runAll (Task.ofDocument env.doc)).Yields {} u session) {target : String}
    (hd : d ∈ session.registry.definitions) (halias : d.shape.isAlias = true)
    (htarget : d.shape.target = some target) : env.RenamesType d.name target := by
  by_cases hname : IsComponentName env d.name
  · exact (env.definedByComponents hrun d hd hname).renamesType halias htarget
  · cases definedBySites_of_runAll False.elim hrun d hd with
    | components h => exact h.renamesType halias htarget
    | operation hoperation hasks hbase hcomes =>
      rw [hbase] at hname ⊢
      exact .operation hoperation hasks hname (hcomes.renames rfl halias target htarget)

end Env

/-! ## 3. Circles -/

/-- **Aliases go in circles only where the schemas do.** Where no type renames itself, by way of
    however many others, no type of the compilation is an alias of itself, by way of however many
    others. -/
theorem compile_aliases_acyclic (document : Json) (options : Options) (c : Compilation)
    (h : compile document options = .ok c)
    (hacyclic : ∀ doc report, prepare document options = .ok (doc, report) →
      ∀ name, ¬ Relation.TransGen (Env.RenamesType { doc, options }) name name) :
    ∀ name, ¬ Relation.TransGen c.IsAliasOf name name := by
  obtain ⟨doc, report, session, u, hprepare, hrun, hc⟩ := compile_eq_ok h
  have hstep : ∀ source other, c.IsAliasOf source other →
      Env.RenamesType { doc, options } source other := by
    rintro source other ⟨d, hd, rfl, halias, htarget⟩
    rw [hc] at hd
    exact Env.renamesType_of_runAll hrun hd halias htarget
  intro name hcircle
  exact hacyclic doc report hprepare name (Relation.TransGen.mono hstep name name hcircle)

/-- A document in which one type is another name for another. -/
def renamed : Json :=
  .obj [("components", .obj [("schemas", .obj [
    ("Pet", .obj [("$ref", .str "#/components/schemas/Cat")]),
    ("Cat", .obj [("type", .str "string")])])])]

/-- Only one place of the document is another name. -/
theorem at?_renamed {env : Env} {defining : Option String} {path : List String} {node : Json}
    {name : String} (hpath : renamed.at? path = some node)
    (h : env.Renames defining node name) :
    path = ["components", "schemas", "Pet"] ∧
      node = .obj [("$ref", .str "#/components/schemas/Cat")] := by
  have hpart := h.exists_part
  have hstr : ∀ {text path}, ¬ (Json.str text).at? path = some node := by
    intro text path hat
    obtain rfl := Json.eq_of_at?_str hat
    simp [Schema.reference?, Schema.text?, Schema.membersOf, Json.get?, Json.members?] at hpart
  rcases Json.exists_of_at?_obj hpath with ⟨-, rfl⟩ | ⟨first, hfirst, path₁, rfl, hpath₁⟩
  · exact absurd hpart (by decide)
  obtain rfl := List.mem_singleton.mp hfirst
  rcases Json.exists_of_at?_obj hpath₁ with ⟨-, rfl⟩ | ⟨second, hsecond, path₂, rfl, hpath₂⟩
  · exact absurd hpart (by decide)
  obtain rfl := List.mem_singleton.mp hsecond
  rcases Json.exists_of_at?_obj hpath₂ with ⟨-, rfl⟩ | ⟨third, hthird, path₃, rfl, hpath₃⟩
  · exact absurd hpart (by decide)
  rcases List.mem_pair.mp hthird with rfl | rfl
  · rcases Json.exists_of_at?_obj hpath₃ with ⟨rfl, rfl⟩ | ⟨fourth, hfourth, path₄, rfl, hpath₄⟩
    · exact ⟨rfl, rfl⟩
    · obtain rfl := List.mem_singleton.mp hfourth
      exact absurd hpath₄ hstr
  · rcases Json.exists_of_at?_obj hpath₃ with ⟨rfl, rfl⟩ | ⟨fourth, hfourth, path₄, rfl, hpath₄⟩
    · exact absurd hpart (by decide)
    · obtain rfl := List.mem_singleton.mp hfourth
      exact absurd hpath₄ hstr

/-- **The document has one renaming.** A place that is no component is none, however it is referred
    to. -/
theorem renamesType_renamed {doc : Document} {options : Options} {name target : String}
    (hroot : doc.root = renamed) (h : Env.RenamesType { doc, options } name target) :
    name = "Pet" ∧ target = "Cat" := by
  obtain ⟨members⟩ := doc
  obtain rfl := Json.obj.inj hroot
  cases h with
  | @component key _ _ node hnode hname h =>
    have hpath : renamed.at? ["components", "schemas", key] = some node := by
      rcases List.mem_pair.mp hnode with heq | heq <;> cases heq <;> rfl
    obtain ⟨hkey, rfl⟩ := at?_renamed hpath h
    obtain rfl : key = "Pet" := by simpa using hkey
    exact ⟨Option.some.inj (congrArg Except.toOption hname.symm),
      (h.typeNameOf (by decide) rfl).name_eq {} rfl⟩
  | @place reference _ node registry shape hplace hnode h =>
    exfalso
    change renamed.resolve? reference = some node at hnode
    unfold Json.resolve? at hnode
    split at hnode
    · have hroot : renamed.at? [] = some node := hnode
      exact absurd (at?_renamed hroot h).1 (by simp)
    · rename_i pointer hreference
      obtain ⟨htokens, -⟩ := at?_renamed hnode h
      have hname := Reference.schemaName?_of_pointerTokens hreference htokens (by decide)
      simp [hname] at hplace
    · simp at hnode
  | operation hoperation => exact absurd hoperation List.not_mem_nil

theorem compile_aliases_acyclic_renamed :
    ∃ c, compile renamed { prune := false } = .ok c ∧ c.IsAliasOf "Pet" "Cat" ∧
      ∀ name, ¬ Relation.TransGen c.IsAliasOf name name := by
  have haliases : (compile renamed { prune := false }).toOption.map Compilation.aliases =
      some [("Pet", "Cat")] := by decide +kernel
  obtain ⟨c, hcompile, hpet⟩ := exists_compile_of_aliases haliases
  refine ⟨c, hcompile, (hpet _ _).mpr (by simp),
    compile_aliases_acyclic renamed { prune := false } c hcompile ?_⟩
  intro doc report hprepare name hcircle
  have hroot : doc.root = renamed := by
    rcases prepare_eq_ok hprepare with ⟨-, -, hprune, -⟩ | ⟨-, -, hroot⟩
    · simp at hprune
    · exact hroot.symm
  have hedge : ∀ name target, Relation.TransGen (Env.RenamesType { doc, options :=
      { prune := false } }) name target → name = "Pet" ∧ target = "Cat" := by
    intro name target hpath
    induction hpath with
    | single h => exact renamesType_renamed hroot h
    | tail _ h ih => exact ⟨ih.1, (renamesType_renamed hroot h).2⟩
  obtain ⟨rfl, hname⟩ := hedge name name hcircle
  exact absurd hname (by decide)

/-- A document with a schema that is a reference to itself. -/
def selfReferring : Json :=
  .obj [("components", .obj [("schemas", .obj [
    ("A", .obj [("$ref", .str "#/components/schemas/A")])])])]

/-- A document with two unions, each the only element of the other. -/
def mutualUnions : Json :=
  .obj [("components", .obj [("schemas", .obj [
    ("A", .obj [("oneOf", .arr [.obj [("$ref", .str "#/components/schemas/B")]])]),
    ("B", .obj [("oneOf", .arr [.obj [("$ref", .str "#/components/schemas/A")]])])])])]

/-- **Types may be aliases of themselves**, directly or by way of another. -/
theorem compile_aliases_circular :
    (∃ c, compile selfReferring { prune := false } = .ok c ∧ c.IsAliasOf "A" "A") ∧
      ∃ c, compile mutualUnions { prune := false } = .ok c ∧
        Relation.TransGen c.IsAliasOf "A" "A" := by
  have hself : (compile selfReferring { prune := false }).toOption.map Compilation.aliases =
      some [("A", "A")] := by decide +kernel
  have hmutual : (compile mutualUnions { prune := false }).toOption.map Compilation.aliases =
      some [("A", "B"), ("B", "A")] := by decide +kernel
  obtain ⟨c, hcompile, haliases⟩ := exists_compile_of_aliases hself
  obtain ⟨c', hcompile', haliases'⟩ := exists_compile_of_aliases hmutual
  have hthere : c'.IsAliasOf "A" "B" := (haliases' _ _).mpr (by simp)
  have hback : c'.IsAliasOf "B" "A" := (haliases' _ _).mpr (by simp)
  exact ⟨⟨c, hcompile, (haliases _ _).mpr (by simp)⟩, c', hcompile', .tail (.single hthere) hback⟩

end ApiTypes

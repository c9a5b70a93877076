import ApiTypes.Proofs.Compile.Prepare
import ApiTypes.Proofs.Compile.Tasks

/-!
  Pruning takes no reference away from a compilation.

  A filter leaves the places of a document as they are, pruning spares what they refer to, and
  every task of the pruned document imitates a task of the document. So a document with regular
  places that compiles without pruning misses no reference when it is pruned
  (`compile_pruned_finds_references`).
-/

namespace ApiTypes

open Prune Resolve

variable {document : Json} {options : Options}

/-! ## 1. Filtered documents -/

theorem mem_places_filtered_item (f : Filter) {item : Json} {place : Part × List (String × Json)}
    (h : place ∈ places .pathItem (item.mapMembers (·.filter f.keepsMember))) :
    place ∈ places .pathItem item := by
  cases item with
  | obj members =>
    obtain ⟨hcallback, ⟨hkinds, -⟩ | ⟨entry, hentry, hplace⟩⟩ := mem_places_obj.mp h
    · exact absurd rfl hkinds
    · exact mem_places_obj.mpr ⟨hcallback, .inr ⟨entry, List.mem_of_mem_filter hentry, hplace⟩⟩
  | _ => exact h

/-- The path items that stay are filtered path items. -/
theorem exists_of_mem_applyToPaths {f : Filter} {paths : List (String × Json)}
    {entry : String × Json} (h : entry ∈ f.applyToPaths paths) :
    ∃ item, (entry.1, item) ∈ paths ∧ entry.2 = item.mapMembers (·.filter f.keepsMember) := by
  obtain ⟨old, hold, rfl⟩ := List.mem_map.mp h
  exact ⟨old.2, List.mem_of_mem_filter hold, rfl⟩

/-- **A filter leaves regular places regular.** -/
theorem WellReferenced.filter (h : WellReferenced document) (f : Filter) :
    WellReferenced (f.apply document).1 := by
  unfold Filter.apply
  split
  · rename_i members
    split
    · rename_i paths _ hpaths
      have hpathsKeys : (Json.obj paths).hasDistinctKeys = true :=
        Json.hasDistinctKeys_of_get? h.keys hpaths
      refine ⟨?_, fun found hfound entry hentry => ?_, fun kind hkind items hget => ?_,
        fun place hplace => ?_⟩
      · exact Json.hasDistinctKeys_insert h.keys (f.hasDistinctKeys_applyToPaths hpathsKeys)
      · simp only [Json.get?_obj, Entries.get?_insert_self, Option.bind_some, Json.members?,
          Option.some.injEq] at hfound
        subst hfound
        obtain ⟨item, hitem, -⟩ := exists_of_mem_applyToPaths hentry
        exact h.slash paths (by rw [Json.get?_obj, hpaths]; rfl) (entry.1, item) hitem
      · rw [Json.get?_obj, Entries.get?_insert_of_ne (by decide)] at hget
        exact h.collections kind hkind items hget
      · obtain ⟨-, ⟨hkinds, -⟩ | ⟨entry, hentry, hplace⟩⟩ := mem_places_obj.mp hplace
        · exact absurd rfl hkinds
        · rcases Entries.mem_insert hentry with rfl | hentry
          · obtain ⟨-, ⟨hkinds, -⟩ | ⟨left, hleft, hplace⟩⟩ := mem_places_obj.mp hplace
            · exact absurd rfl hkinds
            · obtain ⟨item, hitem, heq⟩ := exists_of_mem_applyToPaths hleft
              rw [heq] at hplace
              refine h.regular place (mem_places_of_get? (by simp)
                (show (Json.obj members).get? "paths" = _ from hpaths) ?_)
              exact mem_places_obj.mpr ⟨by simp [childPart], .inr
                ⟨_, hitem, mem_places_filtered_item f hplace⟩⟩
          · exact h.regular place (mem_places_obj.mpr ⟨by simp, .inr ⟨entry, hentry, hplace⟩⟩)
    · exact h
  · exact h

/-! ## 2. The tasks of the pruned document -/

variable {env env' : Env} {allowed : List String} {keep : String → Bool}

theorem components_eq (doc : Document) (kind : String) :
    doc.components kind = entriesOf doc.root kind := by
  unfold Document.components entriesOf
  rcases (doc.root.get? "components").bind (Json.get? kind) with _ | value
  · rfl
  · cases value <;> rfl

/-- A component schema that is kept is compiled alike. -/
theorem Trims.compileComponent {kept : String → Prop} (h : Trims allowed kept env env')
    {key : String} {node : Json} (hnode : Sound allowed kept .schema node)
    (htarget : env.doc.resolve? (Reference.ofComponent "schemas" key) = some node)
    (htarget' : env'.doc.resolve? (Reference.ofComponent "schemas" key) =
      some (clean allowed .schema node)) :
    Follows (env.compileComponent key node)
      (env'.compileComponent key (clean allowed .schema node)) fun _ _ => True := by
  unfold Env.compileComponent
  refine (Follows.ask_eq fun name hname =>
    h.componentTypeName_of_resolve? htarget htarget' hname).bind ?_
  rintro name _ ⟨-, rfl⟩
  exact (h.shapeOf hnode rfl).bind fun x x' _ _ _ _ _ => finds_register _

namespace WellReferenced

variable (h : WellReferenced env.doc.root)
  (hspares : Spares keep (clean allowed .document env.doc.root))
  (hroot : env'.doc.root = restrict keep (clean allowed .document env.doc.root))
  (htrims : Trims allowed (IsKept keep (clean allowed .document env.doc.root)) env env')
include h hspares hroot htrims

theorem follows_component {entry' : String × Json}
    (hentry' : entry' ∈ env'.doc.components "schemas") :
    ∃ entry ∈ env.doc.components "schemas",
      Follows (env.compileComponent entry.1 entry.2) (env'.compileComponent entry'.1 entry'.2)
        fun _ _ => True := by
  have hschemas : "schemas" ∈ kindsOf .schema := by simp [kindsOf]
  have hprunable : "schemas" ∈ prunableKinds := by decide
  rw [components_eq, hroot, entriesOf_restrict hprunable, entriesOf_clean hschemas] at hentry'
  obtain ⟨hentry', hkeep⟩ := List.mem_filter.mp hentry'
  obtain ⟨⟨key, node⟩, hentry, rfl⟩ := List.mem_map.mp hentry'
  have hc : ⟨"schemas", key, node⟩ ∈ componentsOf env.doc.root :=
    mem_componentsOf.mpr ⟨hprunable, hentry⟩
  have hleft : ⟨"schemas", key, clean allowed .schema node⟩ ∈ componentsOf env'.doc.root := by
    rw [hroot, componentsOf_restrict]
    exact List.mem_filter.mpr ⟨mem_componentsOf_clean hschemas hc, hkeep⟩
  have hkeys' : env'.doc.root.hasDistinctKeys = true := by
    rw [hroot]
    exact hasDistinctKeys_restrict (hasDistinctKeys_clean allowed .document _ h.keys)
  refine ⟨(key, node), by rwa [components_eq], ?_⟩
  have hresolve := resolve?_reference h.keys hc
  have hresolve' := resolve?_reference hkeys' hleft
  exact htrims.compileComponent (h.sound_component hspares hschemas hc hkeep) hresolve hresolve'

omit htrims in
/-- **The operations of the pruned document** are those of the document, cleaned. -/
theorem exists_operation {operation' : Operation}
    (hop' : operation' ∈ Operation.ofDocument env'.doc) :
    ∃ operation ∈ Operation.ofDocument env.doc, operation' = operation.cleaned allowed ∧
      operation.IsSound allowed (IsKept keep (clean allowed .document env.doc.root)) := by
  have hpaths' : env'.doc.root.get? "paths" =
      (env.doc.root.get? "paths").map (clean allowed .paths) := by
    rw [hroot, get?_restrict_of_ne (by decide), get?_clean_of_isLasting rfl]
    rfl
  unfold Operation.ofDocument at hop'
  rw [hpaths'] at hop'
  cases hpaths : env.doc.root.get? "paths" with
  | none => simp [hpaths] at hop'
  | some paths =>
    simp only [hpaths, Option.map_some, Option.bind_some, members?_clean] at hop'
    cases hmembers : paths.members? with
    | none => simp [hmembers] at hop'
    | some members =>
      simp only [hmembers, Option.map_some, Option.getD_some, List.mem_flatMap] at hop'
      obtain ⟨entry', hentry', hop'⟩ := hop'
      rw [cleanMembers_eq] at hentry'
      obtain ⟨⟨path, item⟩, hentry, rfl⟩ := List.mem_map.mp hentry'
      obtain ⟨hentry, hkeep⟩ := List.mem_filter.mp hentry
      have hitem := h.sound_pathItem hspares hpaths hmembers hentry hkeep
      obtain ⟨method, hmethod, hop'⟩ := List.mem_filterMap.mp hop'
      have hlasting : ∀ method ∈ httpMethods, isLasting .pathItem method = true ∧
          childPart .pathItem method = .operation := by decide
      obtain ⟨hlast, hpart⟩ := hlasting method hmethod
      have hget' : (clean allowed .pathItem item).get? method =
          (item.get? method).map (clean allowed .operation) := by
        rw [get?_clean_of_isLasting hlast, hpart]
      change ((clean allowed .pathItem item).get? method).map _ = some operation' at hop'
      rw [hget'] at hop'
      obtain ⟨node', hnode', rfl⟩ := Option.map_eq_some_iff.mp hop'
      obtain ⟨node, hnode, rfl⟩ := Option.map_eq_some_iff.mp hnode'
      have hname : Operation.nameOf path method (clean allowed .operation node) =
          Operation.nameOf path method node := by
        rw [Operation.nameOf, text?_clean rfl rfl, Operation.nameOf]
      refine ⟨⟨Operation.nameOf path method node, item, node⟩, ?_, ?_, hitem, ?_⟩
      · unfold Operation.ofDocument
        simp only [hpaths, Option.bind_some, hmembers, Option.getD_some, List.mem_flatMap]
        refine ⟨(path, item), hentry, List.mem_filterMap.mpr ⟨method, hmethod, ?_⟩⟩
        rw [hnode]
        rfl
      · simp only [Operation.cleaned, hname]
        rfl
      · have hsound := hitem.get? (by simp) hlast hnode
        rwa [hpart] at hsound

/-- **Every task of the pruned document imitates a task of the document.** -/
theorem follows_runAll :
    Follows (env.runAll (Task.ofDocument env.doc)) (env'.runAll (Task.ofDocument env'.doc))
      fun _ _ => True := by
  refine .forM fun task' htask' => ?_
  rcases List.mem_append.mp htask' with htask' | htask'
  · obtain ⟨entry', hentry', rfl⟩ := List.mem_map.mp htask'
    obtain ⟨entry, hentry, hfollows⟩ := h.follows_component hspares hroot htrims hentry'
    exact ⟨.component entry.1 entry.2,
      List.mem_append_left _ (List.mem_map.mpr ⟨entry, hentry, rfl⟩), hfollows⟩
  · obtain ⟨operation', hop', rfl⟩ := List.mem_map.mp htask'
    obtain ⟨operation, hop, rfl, hsound⟩ := h.exists_operation hspares hroot hop'
    exact ⟨.operation operation, List.mem_append_right _ (List.mem_map_of_mem hop),
      htrims.compileOperation hsound⟩

end WellReferenced

/-! ## 3. Compilations -/

/-- A pruning run is given up only because of its limit. -/
theorem finds_prune (options : PruneOptions) (document : Json) :
    ApiTypes.Finds (prune options document).2 fun _ => True := by
  have hfixed : ∀ limit left report document,
      ApiTypes.Finds (fixedPoint limit left report document).2 fun _ => True := by
    intro limit left
    induction left with
    | zero => exact fun _ _ => rfl
    | succ left ih =>
      intro report document
      simp only [fixedPoint]
      split
      · exact trivial
      · exact ih _ _
  unfold prune
  split
  · exact trivial
  · dsimp only
    split
    · exact hfixed _ _ _ _
    · exact trivial

theorem finds_prepare (document : Json) (options : Options) :
    ApiTypes.Finds (prepare document options) fun _ => True := by
  unfold prepare
  dsimp only
  split
  · refine ApiTypes.Finds.bind (finds_prune _ _) fun report _ => ?_
    simp only [pure_bind]
    split
    · exact trivial
    · rfl
  · simp only [pure_bind]
    split
    · exact trivial
    · rfl

/-- **Pruning takes no reference away.** Where a document with regular places compiles without
    pruning, no compilation of the pruned document meets a reference that points nowhere. -/
theorem compile_pruned_finds_references (document : Json) (options : Options)
    (hdocument : WellReferenced document)
    (hallowed : Extensions.recognized ⊆ options.allowedExtensions) (c : Compilation)
    (h : compile document { options with prune := false } = .ok c) (reference path : String) :
    compile document { options with prune := true } ≠
      .error (.unresolvableReference reference path) := by
  have hfinds : ApiTypes.Finds (compile document { options with prune := true }) fun _ => True := by
    obtain ⟨doc, report, session, u, hprepare, hrun, -⟩ := compile_eq_ok h
    have hprepare' := finds_prepare document { options with prune := true }
    cases hpruned : prepare document { options with prune := true } with
    | error e =>
      rw [hpruned] at hprepare'
      rw [(compile_of_prepare_error hpruned).1]
      exact hprepare'
    | ok prepared =>
      obtain ⟨doc', report'⟩ := prepared
      have hroot : (options.filter.apply document).1 = doc.root := by
        rcases prepare_eq_ok hprepare with ⟨-, -, hprune, -⟩ | ⟨-, -, hroot⟩
        · exact absurd hprune Bool.false_ne_true
        · exact hroot
      obtain ⟨r, hprune⟩ : ∃ r, prune options.pruning doc.root = (doc'.root, .ok r) := by
        rcases prepare_eq_ok hpruned with ⟨r, -, -, hrun⟩ | ⟨-, hprune, -⟩
        · exact ⟨r, hroot ▸ hrun⟩
        · exact absurd hprune Bool.true_eq_false.mp
      let env : Env := { doc, options := { options with prune := false } }
      let env' : Env := { doc := doc', options := { options with prune := true } }
      have hfiltered : WellReferenced env.doc.root := hroot ▸ hdocument.filter options.filter
      obtain ⟨keep, hrestrict, hspares⟩ := exists_spares_of_prune rfl hfiltered.keys hprune
      have htrims : Trims options.allowedExtensions
          (IsKept keep (clean options.allowedExtensions .document env.doc.root)) env env' :=
        hfiltered.trims hspares hallowed rfl hrestrict rfl rfl
      have hfollows := hfiltered.follows_runAll hspares hrestrict htrims hrun {}
      rw [compile_of_prepare hpruned]
      rcases houtcome : (env'.runAll (Task.ofDocument doc')).outcome {} with ⟨result, session'⟩
      rw [houtcome] at hfollows
      cases result with
      | ok u => exact trivial
      | error e => exact hfollows
  intro herror
  rw [herror] at hfinds
  exact absurd hfinds (by simp [ApiTypes.Finds, CompileError.isUnresolvable])

/-- The answer of an operation, with this schema. -/
def answering (schema : Json) : Json :=
  .obj [("/a", .obj [("get", .obj [("operationId", .str "getA"), ("responses", .obj [
    ("200", .obj [("content", .obj [
      ("application/json", .obj [("schema", schema)])])])])])])]

/-- A document with a schema that an operation uses, and one that nothing uses. -/
def usedAndUnused : Json :=
  .obj [("paths", answering (.obj [("$ref", .str "#/components/schemas/Pet")])),
    ("components", .obj [("schemas", .obj [
      ("Pet", .obj [("type", .str "object"), ("properties", .obj [
        ("tag", .obj [("$ref", .str "#/components/schemas/Tag")])])]),
      ("Tag", .obj [("type", .str "string")]),
      ("Unused", .obj [("type", .str "string")])])])]

theorem wellReferenced_usedAndUnused : WellReferenced usedAndUnused where
  keys := by decide
  slash := by
    intro paths hpaths
    obtain rfl := Option.some.inj hpaths
    decide
  collections := by
    intro kind hkind items
    simp only [referringKinds, List.mem_cons, List.not_mem_nil, or_false] at hkind
    rcases hkind with rfl | rfl | rfl | rfl | rfl <;> simp [usedAndUnused, Entries.get?]
  regular := by decide +kernel

theorem compile_pruned_finds_references_usedAndUnused :
    ((compile usedAndUnused {}).toOption.map fun c => c.types.map Definition.name) =
        some ["Pet", "Tag", "GetA200Response"] ∧
      ∀ reference path,
        compile usedAndUnused {} ≠ .error (.unresolvableReference reference path) := by
  have hcompiled : (compile usedAndUnused { prune := false }).toOption.isSome = true := by
    decide +kernel
  refine ⟨by decide +kernel, fun reference path => ?_⟩
  cases hcompile : compile usedAndUnused { prune := false } with
  | error e => simp [hcompile, Except.toOption] at hcompiled
  | ok c =>
    exact compile_pruned_finds_references usedAndUnused { prune := false }
      wellReferenced_usedAndUnused (by decide) c hcompile reference path

/-- A document in which a schema refers to an example. -/
def exampleAsSchema : Json :=
  .obj [("paths", answering (.obj [("$ref", .str "#/components/examples/E")])),
    ("components", .obj [("examples", .obj [("E", .obj [("type", .str "string")])])])]

/-- A document whose parameters are a list. -/
def listedParameters : Json :=
  .obj [("paths", .obj [("/a", .obj [("get", .obj [("operationId", .str "getA"),
      ("parameters", .arr [.obj [("$ref", .str "#/components/parameters/0")]])])])]),
    ("components", .obj [
      ("parameters", .arr [.obj [("name", .str "q"), ("in", .str "query"),
        ("schema", .obj [("$ref", .str "#/components/schemas/S")])]]),
      ("schemas", .obj [("S", .obj [("type", .str "string")])])])]

/-- A closed object beside an enumeration whose values are no list. The note stands first, so that
    the enumeration says nothing; the cleanup takes the note away, and the enumeration counts. -/
def textEnumeration : Json :=
  .obj [("allOf", .arr [
    .obj [("x-note", .int 1), ("allOf", .arr [.obj [("enum", .str "none")]])],
    .obj [("additionalProperties", .bool false)]])]

/-- A document with such an enumeration, and a reference that points nowhere in a variant that is
    left out because it has no fields. -/
def textEnumerations : Json :=
  .obj [("paths", answering (.obj [
      ("discriminator", .obj [("propertyName", .str "kind")]),
      ("oneOf", .arr [
        .obj [("$ref", .str "#/components/schemas/Pet")],
        .obj [("properties", .obj []), ("allOf", .arr [
          .obj [("oneOf", .arr [textEnumeration, textEnumeration])],
          .obj [("type", .str "string"), ("properties", .obj [
            ("kind", .obj [("$ref", .str "#/components/schemas/Missing")])])]])]])])),
    ("components", .obj [("schemas", .obj [
      ("Pet", .obj [("type", .str "object"), ("properties", .obj [
        ("kind", .obj [("type", .str "string")])])])])])]

/-- The reference that a compilation missed. -/
def missedReference? : Except CompileError Compilation → Option String
  | .error (.unresolvableReference reference _) => some reference
  | _ => none

theorem exists_of_missedReference? {result : Except CompileError Compilation} {reference : String}
    (h : missedReference? result = some reference) :
    ∃ path, result = .error (.unresolvableReference reference path) := by
  unfold missedReference? at h
  split at h
  · exact ⟨_, by rw [Option.some.inj h]⟩
  · simp at h

/-- **No condition on the places can be left out.** Each of these documents compiles without
    pruning, and pruned it misses a reference. The first refers to an example, which the cleanup
    takes away; of the second the sweep takes a schema away that only a listed parameter refers to;
    in the third the cleanup brings a reference to light that the compilation passed over. -/
theorem compile_pruned_misses_references :
    (∃ c path, compile exampleAsSchema { prune := false } = .ok c ∧ compile exampleAsSchema {} =
      .error (.unresolvableReference (Reference.ofComponent "examples" "E") path)) ∧
    (∃ c path, compile listedParameters { prune := false } = .ok c ∧ compile listedParameters {} =
      .error (.unresolvableReference (Reference.ofComponent "schemas" "S") path)) ∧
    ∃ c path, compile textEnumerations { prune := false } = .ok c ∧ compile textEnumerations {} =
      .error (.unresolvableReference (Reference.ofComponent "schemas" "Missing") path) := by
  have hmisses : ∀ (document : Json) (reference : String),
      (compile document { prune := false }).toOption.isSome = true →
      missedReference? (compile document {}) = some reference →
      ∃ c path, compile document { prune := false } = .ok c ∧
        compile document {} = .error (.unresolvableReference reference path) := by
    intro document reference hsome hmissed
    obtain ⟨path, hpath⟩ := exists_of_missedReference? hmissed
    cases hcompile : compile document { prune := false } with
    | error e => simp [hcompile, Except.toOption] at hsome
    | ok c => exact ⟨c, path, rfl, hpath⟩
  exact ⟨hmisses _ _ (by decide +kernel) (by decide +kernel),
    hmisses _ _ (by decide +kernel) (by decide +kernel),
    hmisses _ _ (by decide +kernel) (by decide +kernel)⟩

end ApiTypes

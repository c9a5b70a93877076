import ApiTypes.Compile.Operations
import ApiTypes.Proofs.Entries
import ApiTypes.Proofs.Keyed

/-!
  The parameters that count for an operation.

  * Of the parameters that a path item and its operation declare, **the last one with a name and a
    location counts**, at the place of the first: `LastOfEach`. Every declaration is read behind its
    references, and where all of them lead somewhere there is a result.
  * The parameters at a location are the properties of **one record**, each with what it declares
    itself: `IsRecordOf`. Names are distinct there, because parameters of one location differ in
    their names.
-/

namespace ApiTypes

variable {effective parameters : List Json} {parameter new : Json} {location : String}

/-! ## 1. Declarations -/

/-- One parameter for every name and location that is declared. -/
structure LastOfEach (declared effective : List Json) : Prop where
  /-- No two have the same name and location. -/
  distinct : (effective.map parameterKey).Nodup
  /-- They come in the order of the first declarations. -/
  keys : effective.map parameterKey = (declared.map parameterKey).eraseDups
  /-- Each of them is the last declaration with its name and location. -/
  last : ∀ parameter ∈ effective,
    declared.reverse.find? (parameterKey · = parameterKey parameter) = some parameter

theorem overrideParameter_eq (parameters : List Json) (new : Json) :
    overrideParameter parameters new = putByKey parameterKey (fun _ _ => true) parameters new := by
  induction parameters with
  | nil => rfl
  | cons old rest ih =>
    rw [overrideParameter, putByKey, ih]
    rfl

theorem mem_overrideParameter (h : parameter ∈ overrideParameter parameters new) :
    parameter = new ∨ parameter ∈ parameters := by
  rw [overrideParameter_eq] at h
  exact mem_of_mem_putByKey h

theorem foldl_overrideParameter_eq (declared : List Json) :
    declared.foldl overrideParameter [] =
      declared.foldl (putByKey parameterKey fun _ _ => true) [] := by
  rw [funext fun parameters => funext fun new => overrideParameter_eq parameters new]

theorem nodup_keys_foldl_overrideParameter (declared : List Json) :
    ((declared.foldl overrideParameter []).map parameterKey).Nodup := by
  rw [foldl_overrideParameter_eq]
  exact nodup_keys_foldl_putByKey declared

/-- **One more declaration** takes the place of the one with its name and location. -/
theorem find?_of_mem_overrideParameter {declared : List Json}
    (hdistinct : (effective.map parameterKey).Nodup)
    (hlast : ∀ parameter ∈ effective,
      declared.reverse.find? (parameterKey · = parameterKey parameter) = some parameter)
    (h : parameter ∈ overrideParameter effective new) :
    (declared ++ [new]).reverse.find? (parameterKey · = parameterKey parameter) =
      some parameter := by
  rw [List.reverse_append, List.reverse_singleton, List.singleton_append]
  rw [overrideParameter_eq] at h
  rcases eq_or_mem_of_putByKey hdistinct h with ⟨rfl, -⟩ | ⟨hmem, hkept⟩
  · simp
  · have hne : parameterKey new ≠ parameterKey parameter := fun heq =>
      Bool.noConfusion (hkept heq.symm)
    rw [List.find?_cons_of_neg (by simpa using hne)]
    exact hlast parameter hmem

theorem lastOfEach_foldl (declared : List Json) :
    LastOfEach declared (declared.foldl overrideParameter []) where
  distinct := nodup_keys_foldl_overrideParameter declared
  keys := by rw [foldl_overrideParameter_eq, keys_foldl_putByKey]
  last := by
    induction declared using List.reverseRecOn with
    | nil => simp
    | append_singleton declared new ih =>
      intro parameter hparameter
      rw [List.foldl_append] at hparameter
      exact find?_of_mem_overrideParameter (nodup_keys_foldl_overrideParameter declared) ih
        hparameter

/-- What an operation declares: the parameters of its path item and then its own. -/
def Operation.declared (operation : Operation) : List Json :=
  Schema.membersOf "parameters" operation.item ++ Schema.membersOf "parameters" operation.node

namespace Env

variable {env : Env} {operation : Operation}

/-- A declaration leads to a parameter, behind its references. -/
def LeadsTo (env : Env) (operation : Operation) (declaration parameter : Json) : Prop :=
  env.deref declaration (Site.ofPath [operation.name]) = .ok parameter

theorem exists_forall₂_leadsTo {declared : List Json}
    (h : ∀ declaration ∈ declared, ∃ parameter, env.LeadsTo operation declaration parameter) :
    ∃ found, List.Forall₂ (env.LeadsTo operation) declared found := by
  induction declared with
  | nil => exact ⟨[], .nil⟩
  | cons declaration rest ih =>
    obtain ⟨hfirst, hrest⟩ := List.forall_mem_cons.mp h
    obtain ⟨parameter, hparameter⟩ := hfirst
    obtain ⟨found, hfound⟩ := ih hrest
    exact ⟨parameter :: found, .cons hparameter hfound⟩

/-- Where all declarations lead to parameters, these override each other in order. -/
theorem effectiveParameters_eq_ok {found : List Json}
    (h : List.Forall₂ (env.LeadsTo operation) operation.declared found) :
    env.effectiveParameters operation = .ok (found.foldl overrideParameter []) := by
  have hfold : ∀ declared found start, List.Forall₂ (env.LeadsTo operation) declared found →
      declared.foldlM (fun parameters p => do
        return overrideParameter parameters (← env.deref p (Site.ofPath [operation.name]))) start =
        Except.ok (found.foldl overrideParameter start) := by
    intro declared found start h
    induction h generalizing start with
    | nil => rfl
    | cons hfirst _ ih =>
      rw [List.foldlM_cons, hfirst]
      exact ih _
  exact hfold _ _ [] h

end Env

/-! ## 2. Records -/

/-- The name of a parameter at a location. -/
def nameAt (location : String) (parameter : Json) : Option String :=
  if Schema.text? "in" parameter = some location then Schema.text? "name" parameter else none

/-- The record of the parameters at a location. -/
structure IsRecordOf (location : String) (parameters : List Json) (record : Json) : Prop where
  object : Schema.declaredTypes record = ["object"]
  /-- The properties are named as the parameters are, in their order. -/
  names : (Schema.properties? record).map Entries.keys =
    some (parameters.filterMap (nameAt location))
  distinct : (parameters.filterMap (nameAt location)).Nodup
  /-- A property has the schema of its parameter. -/
  property : ∀ parameter ∈ parameters, ∀ name, nameAt location parameter = some name →
    (Schema.properties? record).bind (Entries.get? name) = some (parameterSchema parameter)
  /-- A property is required in the path, and where its parameter says so. -/
  required : ∀ parameter ∈ parameters, ∀ name, nameAt location parameter = some name →
    (name ∈ Schema.requiredNames record ↔
      location = "path" ∨ Schema.flag "required" parameter = true)

theorem parametersAt_eq (location : String) (parameters : List Json) :
    parametersAt location parameters =
      parameters.filterMap fun p => (nameAt location p).map fun name => (name, p) := by
  rw [parametersAt, List.filterMap_filter]
  refine List.filterMap_congr fun p _ => ?_
  by_cases hlocation : Schema.text? "in" p = some location <;> simp [nameAt, hlocation]

theorem mem_parametersAt {name : String} :
    (name, parameter) ∈ parametersAt location parameters ↔
      parameter ∈ parameters ∧ nameAt location parameter = some name := by
  simp only [parametersAt_eq, List.mem_filterMap, Option.map_eq_some_iff, Prod.mk.injEq]
  constructor
  · rintro ⟨p, hp, found, hname, rfl, rfl⟩
    exact ⟨hp, hname⟩
  · rintro ⟨hp, hname⟩
    exact ⟨parameter, hp, name, hname, rfl, rfl⟩

theorem keys_parametersAt : Entries.keys (parametersAt location parameters) =
    parameters.filterMap (nameAt location) := by
  rw [Entries.keys, parametersAt_eq, List.map_filterMap]
  simp [Function.comp_def]

/-- The names at a location are what the keys say. -/
theorem filterMap_nameAt (location : String) (parameters : List Json) :
    parameters.filterMap (nameAt location) = (parameters.map parameterKey).filterMap
      fun key => if key.2 = some location then key.1 else none := by
  rw [List.filterMap_map]
  rfl

/-- **Parameters of one location differ in their names**, since they differ in their keys. -/
theorem nodup_filterMap_nameAt (hdistinct : (parameters.map parameterKey).Nodup)
    (location : String) : (parameters.filterMap (nameAt location)).Nodup := by
  rw [filterMap_nameAt]
  refine hdistinct.filterMap ?_
  rintro ⟨name, place⟩ ⟨other, elsewhere⟩ found hfound hother
  simp only [Option.mem_def, Option.ite_none_right_eq_some] at hfound hother
  rw [hfound.1, hfound.2, hother.1, hother.2]

/-- Parameters with distinct names are written one after the other. -/
theorem foldl_insert_parameterSchema {found : List (String × Json)}
    (hkeys : (Entries.keys found).Nodup) :
    found.foldl (fun properties p => Entries.insert p.1 (parameterSchema p.2) properties) [] =
      found.map fun p => (p.1, parameterSchema p.2) := by
  have hnodup : (Entries.keys (found.map fun p => (p.1, parameterSchema p.2))).Nodup := by
    rwa [Entries.keys_map fun _ => parameterSchema]
  have hstep : ∀ into : List (String × Json), ∀ entry ∈ found.map fun p => (p.1, parameterSchema p.2),
      entry.1 ∉ Entries.keys into → Entries.insert entry.1 entry.2 into = into ++ [entry] :=
    fun into entry _ hnew => Entries.insert_of_not_mem hnew
  have hfold := Entries.foldl_append hnodup hstep [] (by simp [Entries.keys])
  rwa [List.foldl_map, List.nil_append] at hfold

/-- What stands in the record of the parameters at a location. -/
theorem eq_of_parameterRecord? (hdistinct : (parameters.map parameterKey).Nodup) {record : Json}
    (h : parameterRecord? location parameters = some record) :
    record = .obj [("type", .str "object"),
      ("required", .arr (((parametersAt location parameters).filter fun p =>
        location = "path" || Schema.flag "required" p.2).map fun p => .str p.1)),
      ("properties", .obj ((parametersAt location parameters).map fun p =>
        (p.1, parameterSchema p.2)))] := by
  have hkeys : (Entries.keys (parametersAt location parameters)).Nodup := by
    rw [keys_parametersAt]
    exact nodup_filterMap_nameAt hdistinct location
  unfold parameterRecord? at h
  split at h
  · simp at h
  · rw [foldl_insert_parameterSchema hkeys] at h
    exact (Option.some.inj h).symm

/-- **The record of the parameters at a location** is what it should be. -/
theorem isRecordOf_parameterRecord? (hdistinct : (parameters.map parameterKey).Nodup)
    {record : Json} (h : parameterRecord? location parameters = some record) :
    IsRecordOf location parameters record := by
  have hnames := nodup_filterMap_nameAt hdistinct location
  have hkeys : (Entries.keys (parametersAt location parameters)).Nodup := by
    rwa [keys_parametersAt]
  obtain rfl := eq_of_parameterRecord? hdistinct h
  refine ⟨rfl, ?names, hnames, fun parameter hparameter name hname => ?property,
    fun parameter hparameter name hname => ?required⟩
  case names =>
    rw [← keys_parametersAt]
    exact congrArg some (Entries.keys_map fun _ => parameterSchema)
  case property =>
    have hmem : (name, parameter) ∈ parametersAt location parameters :=
      mem_parametersAt.mpr ⟨hparameter, hname⟩
    change Entries.get? name ((parametersAt location parameters).map fun p =>
      (p.1, parameterSchema p.2)) = some (parameterSchema parameter)
    rw [Entries.get?_map fun _ => parameterSchema, Entries.get?_of_mem hkeys hmem, Option.map_some]
  case required =>
    have hmem : (name, parameter) ∈ parametersAt location parameters :=
      mem_parametersAt.mpr ⟨hparameter, hname⟩
    have hrequired : ∀ found : List (String × Json),
        (found.map fun p => Json.str p.1).filterMap Json.string? = Entries.keys found := by
      intro found
      simp [Entries.keys, List.filterMap_map, Function.comp_def, Json.string?]
    change name ∈ (((parametersAt location parameters).filter fun p =>
      location = "path" || Schema.flag "required" p.2).map fun p => Json.str p.1).filterMap
        Json.string? ↔ _
    rw [hrequired, Entries.keys, List.mem_map]
    constructor
    · -- The name belongs to one parameter only.
      rintro ⟨⟨other, found⟩, hfound, rfl⟩
      obtain ⟨hfound, hflag⟩ := List.mem_filter.mp hfound
      have hsame : some parameter = some found := by
        rw [← Entries.get?_of_mem hkeys hmem, Entries.get?_of_mem hkeys hfound]
      obtain rfl := Option.some.inj hsame
      simpa using hflag
    · intro hflag
      exact ⟨(name, parameter), List.mem_filter.mpr ⟨hmem, by simpa using hflag⟩, rfl⟩

/-- There is no record exactly when no parameter has a name there. -/
theorem parameterRecord?_eq_none_iff : parameterRecord? location parameters = none ↔
    ∀ parameter ∈ parameters, nameAt location parameter = none := by
  rw [← List.filterMap_eq_nil_iff, ← keys_parametersAt, Entries.keys, List.map_eq_nil_iff]
  unfold parameterRecord?
  split
  · rename_i hnil
    simp [hnil]
  · rename_i hne
    simpa using hne

/-- **The parameters of an operation are computed as they should be.** Where every declaration of the
    path item and of the operation leads to a parameter, the last one with a name and a location
    counts, at the place of the first. The parameters that count in the path, in the query and in
    the header become one record each, and where none has a name there nothing is defined. -/
theorem effectiveParameters_exact (env : Env) (operation : Operation)
    (h : ∀ declaration ∈ operation.declared,
      ∃ parameter, env.LeadsTo operation declaration parameter) :
    ∃ found parameters, List.Forall₂ (env.LeadsTo operation) operation.declared found ∧
      env.effectiveParameters operation = .ok parameters ∧ LastOfEach found parameters ∧
      ∀ location ∈ ["path", "query", "header"], ∃ suffix kind,
        (location, suffix, kind) ∈ parameterGroups ∧
        ((∀ parameter ∈ parameters, nameAt location parameter = none) →
          env.defineParameters operation parameters (location, suffix, kind) = pure ()) ∧
        ((∃ parameter ∈ parameters, nameAt location parameter ≠ none) →
          ∃ record, IsRecordOf location parameters record ∧
            env.defineParameters operation parameters (location, suffix, kind) =
              env.defineRoot record (operation.name ++ suffix) kind) := by
  have hgroups : ∀ location ∈ ["path", "query", "header"], ∃ group ∈ parameterGroups,
      group.1 = location := by decide
  obtain ⟨found, hfound⟩ := Env.exists_forall₂_leadsTo h
  have hlast := lastOfEach_foldl found
  refine ⟨found, _, hfound, Env.effectiveParameters_eq_ok hfound, hlast, fun location hlocation => ?_⟩
  obtain ⟨⟨_, suffix, kind⟩, hgroup, rfl⟩ := hgroups location hlocation
  refine ⟨suffix, kind, hgroup, fun hnone => ?_, fun hsome => ?_⟩
  · rw [Env.defineParameters, parameterRecord?_eq_none_iff.mpr hnone]
  · obtain ⟨parameter, hparameter, hname⟩ := hsome
    cases hrecord : parameterRecord? _ (found.foldl overrideParameter []) with
    | none => exact absurd (parameterRecord?_eq_none_iff.mp hrecord parameter hparameter) hname
    | some record =>
      refine ⟨record, isRecordOf_parameterRecord? hlast.distinct hrecord, ?_⟩
      rw [Env.defineParameters, hrecord]

/-- A document with a parameter that others refer to. -/
def limits : Document :=
  ⟨[("components", .obj [("parameters", .obj [("Limit", .obj [
    ("name", .str "limit"), ("in", .str "query"), ("schema", .obj [])])])])]⟩

/-- An operation that overrides the parameter in its path and takes one behind a reference. -/
def listPets : Operation where
  name := "ListPets"
  item := .obj [("parameters", .arr [
    .obj [("name", .str "id"), ("in", .str "path"), ("schema", .obj [("type", .str "string")])],
    .obj [("in", .str "header")]])]
  node := .obj [("parameters", .arr [
    .obj [("$ref", .str "#/components/parameters/Limit")],
    .obj [("name", .str "id"), ("in", .str "path"), ("schema", .obj [("type", .str "integer")])]])]

theorem effectiveParameters_exact_listPets :
    (∀ declaration ∈ listPets.declared,
        ∃ parameter, Env.LeadsTo ⟨limits, {}, 0⟩ listPets declaration parameter) ∧
      ∃ parameters, Env.effectiveParameters ⟨limits, {}, 0⟩ listPets = .ok parameters ∧
        parameters.map parameterKey = [(some "id", some "path"), (none, some "header"),
          (some "limit", some "query")] ∧
        (∃ record, IsRecordOf "path" parameters record) ∧
        ∃ suffix kind, ("header", suffix, kind) ∈ parameterGroups ∧
          Env.defineParameters ⟨limits, {}, 0⟩ listPets parameters ("header", suffix, kind) =
            pure () := by
  have hleads : ∀ declaration ∈ listPets.declared,
      ∃ parameter, Env.LeadsTo ⟨limits, {}, 0⟩ listPets declaration parameter := by
    change ∀ declaration ∈ [_, _, _, _], _
    simp only [List.forall_mem_cons, List.not_mem_nil, false_implies, implies_true, and_true]
    exact ⟨⟨_, rfl⟩, ⟨_, rfl⟩, ⟨_, rfl⟩, ⟨_, rfl⟩⟩
  obtain ⟨found, parameters, -, hparameters, -, hrecords⟩ :=
    effectiveParameters_exact ⟨limits, {}, 0⟩ listPets hleads
  have hkeys : (Env.effectiveParameters ⟨limits, {}, 0⟩ listPets).toOption.map
      (·.map parameterKey) = some [(some "id", some "path"), (none, some "header"),
        (some "limit", some "query")] := by
    decide +kernel
  rw [hparameters] at hkeys
  have hkeys : parameters.map parameterKey = _ := Option.some.inj hkeys
  have hpath : "id" ∈ parameters.filterMap (nameAt "path") := by
    rw [filterMap_nameAt, hkeys]
    decide
  have hheader : parameters.filterMap (nameAt "header") = [] := by
    rw [filterMap_nameAt, hkeys]
    rfl
  obtain ⟨parameter, hparameter, hid⟩ := List.mem_filterMap.mp hpath
  obtain ⟨_, _, -, -, hrecord⟩ := hrecords "path" (by decide)
  obtain ⟨record, hrecord, -⟩ := hrecord ⟨parameter, hparameter, by simp [hid]⟩
  obtain ⟨suffix, kind, hgroup, hnothing, -⟩ := hrecords "header" (by decide)
  exact ⟨hleads, parameters, hparameters, hkeys, ⟨record, hrecord⟩, suffix, kind, hgroup,
    hnothing (List.filterMap_eq_nil_iff.mp hheader)⟩

end ApiTypes

import ApiTypes.Proofs.Compile.Closed
import ApiTypes.Proofs.Compile.Making
import ApiTypes.Proofs.Compile.Tasks

/-!
  What the sites of a compilation define.

  A component schema defines the type of the component, and an operation the types of its parameters
  and contents, each with whatever is made on the way. `Env.DefinedBy` says so of a definition, and
  `gives_compileTask` of every task, however it ends. Where only the shapes matter, `Env.ShapeLaw`
  says what is needed for every definition of a run to have a property.
-/

namespace ApiTypes

open Resolve

/-- A node that an operation defines the content of, and the name of the type. -/
inductive Operation.HasContent (operation : Operation) : String → Json → Prop where
  | body {body : Json} (hbody : operation.node.get? "requestBody" = some body) :
    HasContent operation (operation.name ++ "Body") body
  | response {code : String} {response : Json} (hresponse : (code, response) ∈
      ((operation.node.get? "responses").bind Json.members?).getD [])
    (hcode : Schema.isExtensionKey code = false) :
    HasContent operation (operation.name ++ statusPart code ++ "Response") response

/-- The contents of an operation stand in the operation. -/
theorem Operation.HasContent.inherits {P : Json → Prop} {operation : Operation} {name : String}
    {place : Json} (hplace : operation.HasContent name place) (h : Json.Inherited P)
    (hnode : P operation.node) : P place := by
  cases hplace with
  | body hbody => exact h.get? hnode hbody
  | response hresponse => exact h.entries_getD hnode hresponse

namespace Env

variable {env : Env} {strict : Prop}

/-- A definition that the component schemas ask for. -/
inductive DefinedByComponents (env : Env) (strict : Prop) (d : Definition) : Prop where
  | made (h : env.Made strict d)
  | component {key : String} {node : Json} (hnode : (key, node) ∈ env.doc.components "schemas")
    (hname : env.componentTypeName (Reference.ofComponent "schemas" key) (Site.ofPath [key]) =
      .ok d.name)
    (hcomes : env.Comes strict node (Site.component key d.name) d.shape)

/-- An operation asks for the type of a schema under a name. -/
inductive AsksFor (env : Env) (operation : Operation) : String → Json → Prop where
  | parameters {group : String × String × Location} {parameters : List Json} {record : Json}
    (hgroup : group ∈ parameterGroups)
    (hparameters : env.effectiveParameters operation = .ok parameters)
    (hrecord : parameterRecord? group.1 parameters = some record) :
    AsksFor env operation (operation.name ++ group.2.1) record
  | content {name : String} {place node schema : Json} (hplace : operation.HasContent name place)
    (hnode : env.deref place (Site.ofPath [name]) = .ok node)
    (hschema : contentSchema? node = some schema) : AsksFor env operation name schema

/-- A definition that a site of the document asks for. -/
inductive DefinedBySites (env : Env) (strict : Prop) (d : Definition) : Prop where
  | components (h : env.DefinedByComponents strict d)
  | operation {operation : Operation} {name : String} {schema : Json} {registry : Registry}
    (hoperation : operation ∈ Operation.ofDocument env.doc)
    (hasks : env.AsksFor operation name schema)
    (hname : d.name =
      registry.nameFor (Site.ofPath [name]).typeName d.shape env.options.nameSuffixes)
    (hcomes : env.Comes strict schema (Site.ofPath [name]) d.shape)

variable {d : Definition}

theorem DefinedByComponents.every (h : env.DefinedByComponents strict d) :
    d.shape.Every (Shape.Tidy strict) := by
  cases h with
  | made h => exact h.every
  | component _ _ hcomes => exact hcomes.every

theorem DefinedBySites.every (h : env.DefinedBySites strict d) :
    d.shape.Every (Shape.Tidy strict) := by
  cases h with
  | components h => exact h.every
  | operation _ _ _ hcomes => exact hcomes.every

/-! ## 1. Tasks and operations -/

/-- A compilation starts without definitions, so its tasks made all of them. -/
theorem forall_definitions_of_runAll {P : Definition → Prop} {tasks : List Task}
    (htasks : ∀ task ∈ tasks, Gives P (env.compileTask task) fun _ => True) {u : Unit}
    {session : Session} (hrun : (env.runAll tasks).Yields {} u session) :
    ∀ d ∈ session.registry.definitions, P d := by
  have hgives : Gives P (env.runAll tasks) fun _ => True := gives_forM htasks
  obtain ⟨hgrows, -⟩ := hgives.of_yields hrun
  exact fun d hd => (hgrows.added d hd).resolve_left List.not_mem_nil

/-- **An operation defines what it asks for** and nothing else. -/
theorem gives_of_asksFor {P : Definition → Prop} {operation : Operation}
    (hdefine : ∀ {name : String} {schema : Json}, env.AsksFor operation name schema →
      ∀ location, Gives P (env.defineRoot schema name location) fun _ => True) :
    Gives P (env.compileOperation operation) fun _ => True := by
  have hcontent : ∀ {name place}, operation.HasContent name place → ∀ location,
      Gives P (env.defineContent place name location) fun _ => True := by
    intro name place hplace location
    unfold Env.defineContent
    refine .ask fun node hnode => ?_
    split
    · exact gives_pure trivial
    · rename_i schema hschema
      exact hdefine (.content hplace hnode hschema) location
  have hresponses : Gives P
      ((((operation.node.get? "responses").bind Json.members?).getD []).forM
        (env.defineResponse operation)) fun _ => True := by
    refine gives_forM fun entry hentry => ?_
    unfold Env.defineResponse
    split
    · exact gives_pure trivial
    · rename_i hcode
      exact hcontent (.response hentry (by simpa using hcode)) _
  unfold Env.compileOperation
  refine .ask fun parameters hparameters => ?_
  refine (gives_forM fun group hgroup => ?_).bind fun _ _ => ?_
  · unfold Env.defineParameters
    split
    · exact gives_pure trivial
    · rename_i record hrecord
      exact hdefine (.parameters hgroup hparameters hrecord) _
  · cases hbody : operation.node.get? "requestBody" with
    | none => exact hresponses
    | some body => exact (hcontent (.body hbody) _).bind fun _ _ => hresponses

/-- **The parameters that count inherit what holds of the document.** -/
theorem effectiveParameters_inherit {P : Json → Prop} {operation : Operation}
    {parameters : List Json} (hP : Json.Inherited P) (hroot : P env.doc.root)
    (hmem : operation ∈ Operation.ofDocument env.doc)
    (h : env.effectiveParameters operation = .ok parameters) :
    ∀ parameter ∈ parameters, P parameter := by
  have hfold : ∀ declared found : List Json, (∀ parameter ∈ declared, P parameter) →
      (∀ parameter ∈ found, P parameter) →
      declared.foldlM (fun parameters p => do
        return overrideParameter parameters (← env.deref p (Site.ofPath [operation.name]))) found =
          .ok parameters → ∀ parameter ∈ parameters, P parameter := by
    intro declared
    induction declared with
    | nil =>
      intro found _ hfound hok
      obtain rfl := Except.ok.inj hok
      exact hfound
    | cons first rest ih =>
      intro found hdeclared hfound hok
      obtain ⟨hfirst, hrest⟩ := List.forall_mem_cons.mp hdeclared
      rw [List.foldlM_cons, bind_eq_ok] at hok
      obtain ⟨next, hnext, hok⟩ := hok
      obtain ⟨target, htarget, heq⟩ := bind_eq_ok.mp hnext
      obtain rfl := Except.ok.inj heq
      refine ih _ hrest (fun parameter hparameter => ?_) hok
      rcases mem_overrideParameter hparameter with rfl | hparameter
      · exact hP.deref hroot hfirst htarget
      · exact hfound parameter hparameter
  obtain ⟨hitem, hnode⟩ := hP.operation hroot hmem
  exact hfold _ [] (List.forall_mem_append.mpr
    ⟨fun _ => hP.membersOf hitem, fun _ => hP.membersOf hnode⟩) (by simp) h

/-! ## 2. Components -/

theorem name_withJsonName (d : Definition) (name : String) :
    (d.withJsonName name).name = d.name := by
  unfold Definition.withJsonName
  split <;> rfl

theorem shape_withJsonName (d : Definition) (name : String) :
    (d.withJsonName name).shape = d.shape := by
  unfold Definition.withJsonName
  split <;> rfl

variable (hdoc : strict → env.doc.root.lacks overrideKey = true)
include hdoc

/-- The schemas of components are free. -/
theorem free_component {key : String} {node : Json}
    (hnode : (key, node) ∈ env.doc.components "schemas") : strict → Schema.Free node :=
  fun hstrict => Schema.free_of_lacks node ((Json.inherited_lacks _).component (hdoc hstrict) hnode)

/-- **A component schema defines the type of the component.** -/
theorem gives_compileComponent {key : String} {node : Json}
    (hnode : (key, node) ∈ env.doc.components "schemas") :
    Gives (env.DefinedByComponents strict) (env.compileComponent key node) fun _ => True := by
  unfold Env.compileComponent
  dsimp only
  refine .ask fun name hname => ?_
  refine (gives_shapeOf hdoc (free_component hdoc hnode) _).weaken (fun _ => .made) |>.bind
    fun shape hshape => ?_
  refine gives_register (.component hnode ?_ ?_)
  · rw [name_withJsonName]
    exact hname
  · rw [name_withJsonName, shape_withJsonName]
    exact hshape

/-! ## 3. Operations -/

section Operations

variable {operation : Operation} {name : String} (hmem : operation ∈ Operation.ofDocument env.doc)
include hmem

theorem gives_defineRoot {schema : Json} (hasks : env.AsksFor operation name schema)
    (hschema : strict → Schema.Free schema) (location : Location) :
    Gives (env.DefinedBySites strict) (env.defineRoot schema name location) fun _ => True := by
  unfold Env.defineRoot
  dsimp only
  refine (gives_shapeOf hdoc hschema _).weaken (fun _ h => .components (.made h)) |>.bind
    fun shape hshape => ?_
  exact (gives_define fun _ => .operation hmem hasks rfl hshape).bind
    fun _ _ => gives_pure trivial

/-- The schemas that an operation asks for are free. -/
theorem free_of_asksFor {schema : Json} (hasks : env.AsksFor operation name schema) :
    strict → Schema.Free schema := by
  intro hstrict
  have hlacks := Json.inherited_lacks overrideKey
  cases hasks with
  | parameters _ hparameters hrecord =>
    exact free_parameterRecord?
      (effectiveParameters_inherit hlacks (hdoc hstrict) hmem hparameters) hrecord
  | content hplace hnode hschema =>
    have hplace := hplace.inherits hlacks (hlacks.operation (hdoc hstrict) hmem).2
    exact free_contentSchema? (hlacks.deref (hdoc hstrict) hplace hnode) hschema

/-- **An operation defines the types of its parameters and contents.** -/
theorem gives_compileOperation :
    Gives (env.DefinedBySites strict) (env.compileOperation operation) fun _ => True :=
  gives_of_asksFor fun hasks =>
    gives_defineRoot hdoc hmem hasks (free_of_asksFor hdoc hmem hasks)

end Operations

/-! ## 4. Tasks -/

/-- **Every site of the document** defines what it asks for and what is made on the way, and changes
    nothing else, also when it fails. -/
theorem gives_compileTask {task : Task} (htask : task ∈ Task.ofDocument env.doc) :
    Gives (env.DefinedBySites strict) (env.compileTask task) fun _ => True := by
  rcases List.mem_append.mp htask with hmem | hmem
  · obtain ⟨entry, hentry, rfl⟩ := List.mem_map.mp hmem
    exact (gives_compileComponent hdoc hentry).weaken fun _ => .components
  · obtain ⟨operation, hoperation, rfl⟩ := List.mem_map.mp hmem
    exact gives_compileOperation hdoc hoperation

/-- **Every definition of a compilation** is one that a site of the document asks for. -/
theorem definedBySites_of_runAll {u : Unit} {session : Session}
    (hrun : (env.runAll (Task.ofDocument env.doc)).Yields {} u session) :
    ∀ d ∈ session.registry.definitions, env.DefinedBySites strict d :=
  forall_definitions_of_runAll (fun _ htask => gives_compileTask hdoc htask) hrun

omit hdoc

/-! ## 5. Properties of all shapes -/

/-- What is resolved from values of one kind has a property, and so has what is made on the way. The
    values of a document are of that kind, and so are records of parameters. -/
structure ShapeLaw (env : Env) (P : Json → Prop) (Q : Shape → Prop) : Prop where
  inherited : Json.Inherited P
  root : P env.doc.root
  record : ∀ {location : String} {parameters : List Json} {record : Json},
    (∀ parameter ∈ parameters, P parameter) →
      parameterRecord? location parameters = some record → P record
  shape : ∀ {node : Json} (site : Site), P node →
    Gives (fun d => Q d.shape) (env.shapeOf node site) Q

namespace ShapeLaw

variable {P : Json → Prop} {Q : Shape → Prop} (law : env.ShapeLaw P Q)
include law

/-- The schemas that an operation asks for are of the kind. -/
theorem of_asksFor {operation : Operation} (hmem : operation ∈ Operation.ofDocument env.doc)
    {name : String} {schema : Json} (hasks : env.AsksFor operation name schema) : P schema := by
  cases hasks with
  | parameters _ hparameters hrecord =>
    exact law.record (effectiveParameters_inherit law.inherited law.root hmem hparameters) hrecord
  | content hplace hnode hschema =>
    have hplace := hplace.inherits law.inherited (law.inherited.operation law.root hmem).2
    exact law.inherited.contentSchema? (law.inherited.deref law.root hplace hnode) hschema

/-- **Every task defines shapes with the property.** -/
theorem gives_compileTask {task : Task} (htask : task ∈ Task.ofDocument env.doc) :
    Gives (fun d => Q d.shape) (env.compileTask task) fun _ => True := by
  rcases List.mem_append.mp htask with hmem | hmem
  · obtain ⟨⟨key, node⟩, hentry, rfl⟩ := List.mem_map.mp hmem
    have hnode := law.inherited.component law.root hentry
    refine .ask fun name _ => (law.shape _ hnode).bind fun shape hshape => gives_register ?_
    rwa [shape_withJsonName]
  · obtain ⟨operation, hoperation, rfl⟩ := List.mem_map.mp hmem
    exact gives_of_asksFor fun hasks location =>
      (law.shape _ (law.of_asksFor hoperation hasks)).bind fun _ hshape =>
        (gives_define fun _ => hshape).bind fun _ _ => gives_pure trivial

/-- **Every definition of a run has a shape with the property.** -/
theorem of_runAll {u : Unit} {session : Session}
    (hrun : (env.runAll (Task.ofDocument env.doc)).Yields {} u session) :
    ∀ d ∈ session.registry.definitions, Q d.shape :=
  forall_definitions_of_runAll (fun _ htask => law.gives_compileTask htask) hrun

end ShapeLaw

end Env

end ApiTypes

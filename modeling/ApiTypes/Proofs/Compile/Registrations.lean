import ApiTypes.Proofs.Compile.Effects
import ApiTypes.Proofs.Compile.Equality

/-!
  Runs of registrations.

  A compilation does three things to its registry: it registers definitions, it defines shapes under
  names from their sites, and it goes back to a mark after a failure. Whatever it does in a row:

  * names stay distinct, and the index leads from each name to its place;
  * what stood before a mark stays as it is until one goes back to an earlier mark, so **going back
    restores the registry of that time**;
  * a registration fails only where the name stands for something else, and changes nothing then;
  * **a definition under a name from a site never fails**, because the name is free or stands for an
    equivalent shape.
-/

namespace ApiTypes

/-! ## 1. Steps -/

/-- What is done to the registry of a session. -/
inductive Registration where
  | register (definition : Definition)
  | define (env : Env) (shape : Shape) (site : Site) (location : Location)
  | rollback (mark : Nat)

namespace Registration

/-- The session after a step, whatever its outcome. -/
def run (s : Session) : Registration → Session
  | .register d => ((Resolve.register d).outcome s).2
  | .define env shape site location => ((env.define shape site location).outcome s).2
  | .rollback mark => { s with registry := s.registry.rollback mark }

/-- The session after steps in a row. -/
def runAll (s : Session) (steps : List Registration) : Session := steps.foldl run s

/-- Whether a step does not go back to before a mark. -/
def StaysAfter (mark : Nat) : Registration → Prop
  | .register _ | .define .. => True
  | .rollback target => mark ≤ target

instance (mark : Nat) : (step : Registration) → Decidable (step.StaysAfter mark)
  | .register _ | .define .. => isTrue trivial
  | .rollback target => Nat.decLe mark target

variable {base : Registry} {s : Session}

/-- A step keeps what stood before a mark that it does not go back behind. -/
theorem prefix_run {step : Registration} (hbase : base.definitions <+: s.registry.definitions)
    (hstays : step.StaysAfter base.checkpoint) :
    base.definitions <+: (step.run s).registry.definitions := by
  cases step with
  | register d =>
    have hgives : Resolve.Gives (fun _ => True) (Resolve.register d) fun _ => True :=
      Resolve.gives_register trivial
    exact hbase.trans (hgives s).1.definitions
  | define env shape site location =>
    have hgives : Resolve.Gives (fun _ => True) (env.define shape site location) _ :=
      Resolve.gives_define fun _ => trivial
    exact hbase.trans (hgives s).1.definitions
  | rollback mark => exact Registry.prefix_rollback hbase hstays

/-- **Steps in a row keep what stood before a mark** that none of them goes back behind. -/
theorem prefix_runAll {steps : List Registration}
    (hbase : base.definitions <+: s.registry.definitions)
    (hstay : ∀ step ∈ steps, step.StaysAfter base.checkpoint) :
    base.definitions <+: (runAll s steps).registry.definitions := by
  induction steps generalizing s with
  | nil => exact hbase
  | cons step rest ih =>
    obtain ⟨hstep, hrest⟩ := List.forall_mem_cons.mp hstay
    exact ih (prefix_run hbase hstep) hrest

end Registration

/-! ## 2. Outcomes -/

namespace Resolve

/-- **A registration fails exactly where the name stands for something else**, and then the session
    is the one before. -/
theorem outcome_register_eq_error {d : Definition} {e : CompileError} {s s' : Session} :
    (register d).outcome s = (.error e, s') ↔
      (∃ existing, s.registry.get? d.name = some existing ∧
        existing.shape.equivalent d.shape = false) ∧
      e = .duplicateTypeName d.name ∧ s' = s := by
  rw [outcome_register, ← and_assoc, ← Registry.register_eq_error]
  cases s.registry.register d <;> simp [eq_comm (b := s')]

/-- **A definition under a name from its site never fails**, and the name stands for the shape or
    for an equivalent one. -/
theorem outcome_define (env : Env) (shape : Shape) (site : Site) (location : Location)
    (s : Session) :
    ∃ use name registered s', (env.define shape site location).outcome s = (.ok use, s') ∧
      use.target = some name ∧ s'.registry.get? name = some registered ∧
      (registered.shape = shape ∨ registered.shape.equivalent shape = true) := by
  let name := s.registry.nameFor site.typeName shape env.options.nameSuffixes
  let d : Definition := { name, shape, location }
  obtain ⟨registry, hregister, registered, hget, hshape⟩ :=
    Registry.register_of_admits (d := d) (s.registry.admits_nameFor site.typeName shape _)
  have houtcome : (register d).outcome s = (.ok ⟨⟩, { s with registry }) := by
    rw [outcome_register, hregister]
  refine ⟨{ Shape.reference name with constraints := shape.constraints, hoisted := [d] }, name,
    registered, { s with registry }, ?_, rfl, hget, hshape.imp_left (congrArg Definition.shape)⟩
  have hget : outcome get s = (.ok s, s) := rfl
  unfold Env.define
  rw [outcome_bind, hget]
  dsimp only
  rw [outcome_bind, houtcome]
  rfl

end Resolve

/-! ## 3. Runs -/

open Registration in
/-- **The registry keeps its order over every run.** Names are distinct and the index leads from
    each name to its place; further steps only add definitions until one goes back before the mark,
    and going back to the mark restores the registry; a registration fails where the name stands for
    something else, and changes nothing then; a definition under a name from a site never fails, and
    the name stands for the shape or an equivalent one. That a shape is equivalent to itself takes
    values that can be read from a text: what is not a number is equal to nothing. -/
theorem registrations_keep_order (s : Session) (steps : List Registration) :
    let reached := runAll s steps
    reached.registry.names.Nodup ∧
    (∀ name place, reached.registry.position? name = some place ↔
      reached.registry.names[place]? = some name) ∧
    (∀ further : List Registration,
      (∀ step ∈ further, step.StaysAfter reached.registry.checkpoint) →
      reached.registry.definitions <+: (runAll reached further).registry.definitions ∧
      (runAll reached further).registry.rollback reached.registry.checkpoint =
        reached.registry) ∧
    (∀ d e s', (Resolve.register d).outcome reached = (.error e, s') ↔
      (∃ existing, reached.registry.get? d.name = some existing ∧
        existing.shape.equivalent d.shape = false) ∧
      e = .duplicateTypeName d.name ∧ s' = reached) ∧
    ∀ (env : Env) (shape : Shape) (site : Site) (location : Location),
      ∃ use name registered s',
        (env.define shape site location).outcome reached = (.ok use, s') ∧
        use.target = some name ∧ s'.registry.get? name = some registered ∧
        (registered.shape = shape ∨ registered.shape.equivalent shape = true) ∧
        ((∀ node, shape.source = some node → node.IsReadable) →
          (shape.source = none → shape.Every Shape.IsReadable) →
          registered.shape.equivalent shape = true) := by
  intro reached
  refine ⟨reached.registry.distinct, fun _ _ => Registry.position?_eq_some, fun further hstay => ?_,
    fun _ _ _ => Resolve.outcome_register_eq_error, fun env shape site location => ?_⟩
  · have hgrows := prefix_runAll (List.prefix_refl reached.registry.definitions) hstay
    exact ⟨hgrows, Registry.rollback_checkpoint hgrows⟩
  · obtain ⟨use, name, registered, s', houtcome, htarget, hget, hshape⟩ :=
      Resolve.outcome_define env shape site location reached
    refine ⟨use, name, registered, s', houtcome, htarget, hget, hshape, fun hsource hevery => ?_⟩
    rcases hshape with rfl | hequivalent
    · exact Shape.equivalent_self hsource hevery
    · exact hequivalent

/-- A shape that is made from a schema with this title. -/
def petShape (title : String) : Shape :=
  { decl := "string", source := some (.obj [("title", .str title)]) }

/-- Defines such a shape under the name `Pet`. -/
def definePet (title : String) : Registration :=
  .define { doc := ⟨[]⟩ } (petShape title) (Site.named "Pet") .schema

/-- Two schemas get two names, what comes after them can be forgotten, and another one gets a name
    that stands for it. -/
theorem registrations_keep_order_pets :
    let reached := Registration.runAll {} [definePet "cat", definePet "dog", definePet "cat"]
    let further := [definePet "bird", .rollback 2, definePet "fish"]
    reached.registry.names = ["Pet", "Pet1"] ∧
    (Registration.runAll reached further).registry.names = ["Pet", "Pet1", "Pet2"] ∧
    (Registration.runAll reached further).registry.rollback reached.registry.checkpoint =
      reached.registry ∧
    ∃ (use : Shape) (name : String) (registered : Definition),
      use.target = some name ∧
      (Registration.run reached (definePet "bird")).registry.get? name = some registered ∧
      registered.shape.equivalent (petShape "bird") = true := by
  intro reached further
  obtain ⟨-, -, hfurther, -, hdefine⟩ :=
    registrations_keep_order {} [definePet "cat", definePet "dog", definePet "cat"]
  have hreadable : ∀ node, (petShape "bird").source = some node → node.IsReadable := by
    rintro node ⟨⟩
    exact ⟨by decide, by decide⟩
  obtain ⟨use, name, registered, s', houtcome, htarget, hget, -, hequivalent⟩ :=
    hdefine { doc := ⟨[]⟩ } (petShape "bird") (Site.named "Pet") .schema
  have hrun : Registration.run reached (definePet "bird") = s' := congrArg Prod.snd houtcome
  refine ⟨by decide +kernel, by decide +kernel, (hfurther further (by decide +kernel)).2, use, name,
    registered, htarget, hrun ▸ hget, hequivalent hreadable fun hnone => ?_⟩
  exact absurd hnone (by simp [petShape])

end ApiTypes

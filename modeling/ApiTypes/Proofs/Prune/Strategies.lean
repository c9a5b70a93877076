import ApiTypes.Proofs.Prune.FixedPoint
import ApiTypes.Proofs.Prune.Reachability
import Mathlib.Order.WellFoundedSet

/-!
  The two strategies side by side.

  * What the operations reach through bodies of the referring kinds supports itself, so passes
    keep it: **passes keep what marks keep**, as far as it is reached that way.
  * A component that is reached through a callback may go all the same, because a callback's body
    does not count as referring.
  * **Without cycles the two leave the same document.** A component that passes keep is referred
    to by an operation or by another one that they keep; without a cycle that chain ends at an
    operation.
-/

namespace ApiTypes.Prune

variable {document out : Json}

/-! ## 1. What passes keep -/

/-- What the operations reach through the bodies of components of these kinds. -/
inductive ReachableThrough (kinds : List String) (document : Json) : String → Prop where
  | operation {reference : String} (h : reference ∈ operationReferences document) :
    ReachableThrough kinds document reference
  | step {c : Component} {next : String} (h : ReachableThrough kinds document c.reference)
    (hc : c ∈ componentsOf document) (hkind : c.kind ∈ kinds) (hnext : next ∈ references c.body) :
    ReachableThrough kinds document next

/-- The components that the operations reach through referring kinds support each other. -/
theorem selfSupporting_reachableThrough (document : Json) :
    SelfSupporting document
      {c | c ∈ componentsOf document ∧
        ReachableThrough referringKinds document c.reference} where
  components _ hc := hc.1
  supported c hc := by
    obtain ⟨-, hreachable⟩ := hc
    unfold Supported
    generalize c.reference = reference at hreachable ⊢
    cases hreachable with
    | operation h => exact .inl h
    | step h hd hkind hnext => exact .inr ⟨_, ⟨hd, h⟩, hkind, hnext⟩

/-- **Passes keep what marks keep, where it is reached through referring kinds.** -/
theorem fixedPoint_keeps_reachableThrough (options : PruneOptions) (document out : Json)
    (report : Report) (hobject : document.isObject = true)
    (hkeys : document.hasDistinctKeys = true)
    (h : prune { options with strategy := .fixedPoint } document = (out, .ok report)) :
    ∀ c ∈ componentsOf (prune { options with strategy := .reachability } document).1,
      ReachableThrough referringKinds (clean options.allowed .document document) c.reference →
        c ∈ componentsOf out := by
  intro c hc hreachable
  have hsettled := settled_of_prune hobject hkeys rfl h
  rw [prune_of_reachability hobject hkeys rfl, componentsOf_restrict] at hc
  have hcleaned := List.mem_of_mem_filter hc
  exact hsettled.mem_iff.mpr ⟨hcleaned,
    hsettled.spares _ (selfSupporting_reachableThrough _) c ⟨hcleaned, hreachable⟩⟩

/-- A document whose only schema is used in the body of a callback. -/
def callbackOnly : Json :=
  .obj [
    ("paths", .obj [("/a", .obj [("post", .obj [("callbacks", .obj [
      ("done", .obj [("$ref", .str "#/components/callbacks/Done")])])])])]),
    ("components", .obj [
      ("schemas", .obj [("Event", .obj [("type", .str "string")])]),
      ("callbacks", .obj [("Done", .obj [("/done", .obj [("post", .obj [
        ("requestBody", .obj [("content", .obj [("application/json", .obj [
          ("schema", .obj [("$ref", .str "#/components/schemas/Event")])])])])])])])])])]

theorem fixedPoint_keeps_reachableThrough_callbackOnly :
    (prune ⟨.fixedPoint, 3, []⟩ callbackOnly).2 = .ok ⟨2, ["#/components/schemas/Event"]⟩ ∧
      ∃ c ∈ componentsOf (prune ⟨.fixedPoint, 3, []⟩ callbackOnly).1,
        c.reference = "#/components/callbacks/Done" := by
  have hrun : (prune ⟨.fixedPoint, 3, []⟩ callbackOnly).2 =
      .ok ⟨2, ["#/components/schemas/Event"]⟩ := by rfl
  have hmarked : "#/components/callbacks/Done" ∈
      (componentsOf (prune ⟨.reachability, 3, []⟩ callbackOnly).1).map Component.reference := by
    decide
  obtain ⟨c, hc, hreference⟩ := List.mem_map.mp hmarked
  have hreachable : ReachableThrough referringKinds (clean [] .document callbackOnly)
      c.reference := by
    rw [hreference]
    exact .operation (by decide)
  exact ⟨hrun, c, fixedPoint_keeps_reachableThrough ⟨.fixedPoint, 3, []⟩ callbackOnly _ _
    (by decide) (by decide) (Prod.ext rfl hrun) c hc hreachable, hreference⟩

/-- **A component that marks keep goes when passes are made**: the schema of `callbackOnly`, which
    the body of a callback refers to. -/
theorem fixedPoint_deletes_reachable_schema :
    everyReference callbackOnly =
        [Reference.ofComponent "callbacks" "Done", Reference.ofComponent "schemas" "Event"] ∧
      (prune ⟨.fixedPoint, 3, []⟩ callbackOnly).2 = .ok ⟨2, ["#/components/schemas/Event"]⟩ ∧
      "#/components/schemas/Event" ∈
        (componentsOf (prune ⟨.reachability, 3, []⟩ callbackOnly).1).map Component.reference ∧
      "#/components/schemas/Event" ∉
        (componentsOf (prune ⟨.fixedPoint, 3, []⟩ callbackOnly).1).map Component.reference :=
  ⟨by decide, by rfl, by decide, by decide⟩

/-! ## 2. Documents without cycles -/

/-- Whether the body of a component refers to another component of the document. -/
def Refers (document : Json) (d c : Component) : Prop :=
  d ∈ componentsOf document ∧ c ∈ componentsOf document ∧ c.reference ∈ references d.body

/-- Without cycles there is no endless chain of components back from one to those that refer to
    it. -/
theorem wellFoundedOn_refers (hacyclic : ∀ c, ¬ Relation.TransGen (Refers document) c c) :
    {c | c ∈ componentsOf document}.WellFoundedOn (Relation.TransGen (Refers document)) := by
  have htrans : IsTrans Component (Relation.TransGen (Refers document)) :=
    ⟨fun _ _ _ => Relation.TransGen.trans⟩
  have hirrefl : Std.Irrefl (Relation.TransGen (Refers document)) := ⟨hacyclic⟩
  have horder : IsStrictOrder Component (Relation.TransGen (Refers document)) := ⟨⟩
  exact (List.finite_toSet _).wellFoundedOn

section Acyclic

variable {gone : List String}

/-- Where the document refers to components of the referring kinds only, what the operations reach
    they reach through those. -/
theorem reachableThrough_of_reachable
    (hobjects : ∀ kind ∈ referringKinds, ∀ collection,
      (document.get? "components").bind (Json.get? kind) = some collection →
        collection.isObject = true)
    (hreferences : ∀ reference ∈ referenced document,
      ∃ kind ∈ referringKinds, ∃ name, reference = Reference.ofComponent kind name)
    {reference : String} (h : Reachable document reference) :
    ReachableThrough referringKinds document reference ∧ reference ∈ referenced document := by
  induction h with
  | operation h => exact ⟨.operation h, mem_referenced.mpr (.inl h)⟩
  | @step reference next target _ htarget hnext ih =>
    obtain ⟨hthrough, hreferenced⟩ := ih
    obtain ⟨kind, hkind, name, rfl⟩ := hreferences reference hreferenced
    have hcomponent := mem_componentsOf_of_resolve? (prunable_of_referring kind hkind)
      (fun items hlist => absurd (hobjects kind hkind _ hlist) Bool.false_ne_true) htarget
    exact ⟨.step (c := ⟨kind, name, target⟩) hthrough hcomponent hkind hnext,
      mem_referenced.mpr (.inr ⟨_, hcomponent, hkind, hnext⟩)⟩

/-- **Without cycles, the operations reach what a settled run keeps.** The induction goes from a
    component to one that refers to it and is kept as well. -/
theorem Settled.reachable_of_acyclic (h : Settled document out gone)
    (hkeys : document.hasDistinctKeys = true)
    (hacyclic : ∀ c, ¬ Relation.TransGen (Refers document) c c) {c : Component}
    (hc : c ∈ componentsOf out) : Reachable document c.reference := by
  have hcleaned := (h.mem_iff.mp hc).1
  revert hc
  refine (wellFoundedOn_refers hacyclic).induction
    (P := fun c => c ∈ componentsOf out → Reachable document c.reference) hcleaned ?_
  intro c hc ih hout
  rcases h.isGreatest.1.supported c hout with hoperation | ⟨d, hd, -, href⟩
  · exact .operation hoperation
  · have hdocument := (h.mem_iff.mp hd).1
    exact .step (ih d hdocument (.single ⟨hdocument, hc, href⟩) hd)
      (resolve?_reference hkeys hdocument) href

end Acyclic

/-- **Without cycles the two strategies leave the same document**, where references name
    components of the referring kinds. -/
theorem prune_strategies_agree (options : PruneOptions) (document out : Json) (report : Report)
    (hobject : document.isObject = true) (hkeys : document.hasDistinctKeys = true)
    (hobjects : ∀ kind collection,
      (document.get? "components").bind (Json.get? kind) = some collection →
        collection.isObject = true)
    (hreferences : ∀ reference ∈ referenced (clean options.allowed .document document),
      ∃ kind ∈ referringKinds, ∃ name, reference = Reference.ofComponent kind name)
    (hacyclic : ∀ c, ¬ Relation.TransGen (Refers (clean options.allowed .document document)) c c)
    (h : prune { options with strategy := .fixedPoint } document = (out, .ok report)) :
    (prune { options with strategy := .reachability } document).1 = out := by
  have hclean := hasDistinctKeys_clean options.allowed .document document hkeys
  have hsettled : Settled (clean options.allowed .document document) out report.removed :=
    (settled_of_prune hobject hkeys rfl h :)
  rw [prune_of_reachability hobject hkeys rfl, hsettled.restricted]
  refine restrict_congr hclean fun c hc => ?_
  have hspared : Reachable (clean options.allowed .document document) c.reference ↔
      c.reference ∉ report.removed := by
    constructor
    · intro hreachable
      have hthrough := reachableThrough_of_reachable
        (fun kind _ => isObject_collection_clean options.allowed (hobjects kind)) hreferences
        hreachable
      exact hsettled.spares _ (selfSupporting_reachableThrough _) c ⟨hc, hthrough.1⟩
    · intro hnot
      exact hsettled.reachable_of_acyclic hclean hacyclic (hsettled.mem_iff.mpr ⟨hc, hnot⟩)
  rw [← mem_reachable] at hspared
  by_cases hmarked : c.reference ∈ reachable (clean options.allowed .document document) <;>
    simp_all

/-- A document with a component that is used and a chain that hangs loose. -/
def looseChain : Json :=
  .obj [
    ("paths", .obj [("/a", .obj [("get", .obj [("$ref", .str "#/components/responses/Used")])])]),
    ("components", .obj [
      ("schemas", .obj [
        ("First", .obj [("$ref", .str "#/components/schemas/Second")]), ("Second", .obj [])]),
      ("responses", .obj [("Used", .obj [])])])]

theorem prune_strategies_agree_looseChain :
    (prune ⟨.fixedPoint, 3, []⟩ looseChain).2 =
        .ok ⟨3, ["#/components/schemas/First", "#/components/schemas/Second"]⟩ ∧
      (prune ⟨.reachability, 3, []⟩ looseChain).1 = (prune ⟨.fixedPoint, 3, []⟩ looseChain).1 := by
  have hrun : (prune ⟨.fixedPoint, 3, []⟩ looseChain).2 =
      .ok ⟨3, ["#/components/schemas/First", "#/components/schemas/Second"]⟩ := by rfl
  have hcomponents : componentsOf (clean [] .document looseChain) =
      [⟨"schemas", "First", .obj [("$ref", .str "#/components/schemas/Second")]⟩,
        ⟨"schemas", "Second", .obj []⟩, ⟨"responses", "Used", .obj []⟩] := by rfl
  have hreferenced : referenced (clean [] .document looseChain) =
      [Reference.ofComponent "responses" "Used", Reference.ofComponent "schemas" "Second"] := by
    decide
  -- Only the first component of the chain refers to another one, and nothing refers to it.
  have hrefers : ∀ d c, Refers (clean [] .document looseChain) d c →
      d.name = "First" ∧ c.name = "Second" := by
    rintro d c ⟨hd, hc, href⟩
    rw [hcomponents] at hd hc
    have hfirst : references (.obj [("$ref", .str "#/components/schemas/Second")]) =
        ["#/components/schemas/Second"] := by decide
    have hempty : references (.obj []) = [] := by decide
    simp only [List.mem_cons, List.not_mem_nil, or_false] at hd hc
    rcases hd with rfl | rfl | rfl
    · rw [hfirst, List.mem_singleton] at href
      rcases hc with rfl | rfl | rfl
      · exact absurd href (by decide)
      · exact ⟨rfl, rfl⟩
      · exact absurd href (by decide)
    · simp [hempty] at href
    · simp [hempty] at href
  refine ⟨hrun, prune_strategies_agree ⟨.fixedPoint, 3, []⟩ looseChain _ _ (by decide) (by decide)
    ?_ ?_ ?_ (Prod.ext rfl hrun)⟩
  · intro kind collection hcollection
    have hmem := Entries.mem_of_get? (α := Json) hcollection
    simp only [List.mem_cons, List.not_mem_nil, or_false, Prod.mk.injEq] at hmem
    rcases hmem with ⟨-, rfl⟩ | ⟨-, rfl⟩ <;> rfl
  · rw [hreferenced]
    intro reference hmem
    simp only [List.mem_cons, List.not_mem_nil, or_false] at hmem
    rcases hmem with rfl | rfl
    · exact ⟨"responses", by decide, "Used", rfl⟩
    · exact ⟨"schemas", by decide, "Second", rfl⟩
  · intro c hcycle
    obtain ⟨next, hstart, -⟩ := Relation.TransGen.head'_iff.mp hcycle
    obtain ⟨last, -, hend⟩ := Relation.TransGen.tail'_iff.mp hcycle
    have hname := (hrefers c next hstart).1.symm.trans (hrefers last c hend).2
    exact absurd hname (by decide)

end ApiTypes.Prune

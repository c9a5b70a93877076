import ApiTypes.Proofs.Compile.Imitation
import ApiTypes.Proofs.Compile.Kept
import ApiTypes.Proofs.Compile.Parameters

/-!
  The tasks of a pruned document.

  Every task of a pruned document is a task of the document, cleaned, and imitates it: the
  component schemas that are kept, and the operations with their parameters and contents.
-/

namespace ApiTypes

open Prune Resolve

variable {allowed : List String} {kept : String → Prop} {env env' : Env} {site site' : Site}

/-! ## 1. Operations -/

/-- What the cleanup leaves of an operation. -/
def Operation.cleaned (allowed : List String) (operation : Operation) : Operation :=
  ⟨operation.name, clean allowed .pathItem operation.item,
    clean allowed .operation operation.node⟩

/-- An operation whose places refer to what is kept. -/
structure Operation.IsSound (allowed : List String) (kept : String → Prop) (operation : Operation) :
    Prop where
  item : Sound allowed kept .pathItem operation.item
  node : Sound allowed kept .operation operation.node

namespace Trims

variable (h : Trims allowed kept env env')
include h

/-- Parameters stand in place of each other as before. -/
theorem overrideParameters {declared start parameters : List Json}
    (hdeclared : ∀ p ∈ declared, Sound allowed kept .parameter p)
    (hstart : ∀ p ∈ start, Sound allowed kept .parameter p)
    (hok : declared.foldlM (fun parameters p => do
      return overrideParameter parameters (← env.deref p site)) start = .ok parameters) :
    (declared.map (clean allowed .parameter)).foldlM (fun parameters p => do
        return overrideParameter parameters (← env'.deref p site'))
          (start.map (clean allowed .parameter)) =
        .ok (parameters.map (clean allowed .parameter)) ∧
      ∀ p ∈ parameters, Sound allowed kept .parameter p := by
  induction declared generalizing start with
  | nil =>
    obtain rfl := Except.ok.inj hok
    exact ⟨rfl, hstart⟩
  | cons parameter rest ih =>
    obtain ⟨hparameter, hrest⟩ := List.forall_mem_cons.mp hdeclared
    rw [List.foldlM_cons] at hok
    obtain ⟨next, hnext, hok⟩ := bind_eq_ok.mp hok
    obtain ⟨target, htarget, hnext⟩ := bind_eq_ok.mp hnext
    obtain rfl := Except.ok.inj hnext
    obtain ⟨htarget', hsound, -⟩ := h.deref (by simp [kindsOf]) hparameter htarget
    obtain ⟨hok', hparameters⟩ := ih hrest (fun p hp =>
      (mem_overrideParameter hp).elim (fun heq => heq ▸ hsound) (hstart p)) hok
    refine ⟨?_, hparameters⟩
    rw [List.map_cons, List.foldlM_cons]
    refine bind_eq_ok.mpr ⟨_, bind_eq_ok.mpr ⟨_, htarget', rfl⟩, ?_⟩
    rw [overrideParameter_clean]
    exact hok'

/-- **The parameters that count are the same.** -/
theorem effectiveParameters {operation : Operation} (ho : operation.IsSound allowed kept)
    {parameters : List Json} (hok : env.effectiveParameters operation = .ok parameters) :
    env'.effectiveParameters (operation.cleaned allowed) =
        .ok (parameters.map (clean allowed .parameter)) ∧
      ∀ p ∈ parameters, Sound allowed kept .parameter p := by
  unfold Env.effectiveParameters at hok ⊢
  have hitem : Schema.membersOf "parameters" (clean allowed .pathItem operation.item) =
      (Schema.membersOf "parameters" operation.item).map (clean allowed .parameter) :=
    membersOf_clean rfl rfl
  have hnode : Schema.membersOf "parameters" (clean allowed .operation operation.node) =
      (Schema.membersOf "parameters" operation.node).map (clean allowed .parameter) :=
    membersOf_clean rfl rfl
  simp only [Operation.cleaned, hitem, hnode, ← List.map_append]
  refine h.overrideParameters (fun p hp => ?_) (by simp) hok
  rcases List.mem_append.mp hp with hp | hp
  · exact ho.item.membersOf (by simp) rfl rfl hp
  · exact ho.node.membersOf (by simp) rfl rfl hp

theorem defineRoot {schema : Json} (hschema : Sound allowed kept .schema schema) (name : String)
    (location : Location) :
    Follows (env.defineRoot schema name location)
      (env'.defineRoot (clean allowed .schema schema) name location) fun _ _ => True := by
  unfold Env.defineRoot
  exact (h.shapeOf hschema rfl).bind fun x x' _ => (define x x' _ _).bind fun _ _ _ =>
    .pure trivial

theorem defineParameters (operation : Operation) {parameters : List Json}
    (hparameters : ∀ p ∈ parameters, Sound allowed kept .parameter p)
    (group : String × String × Location) :
    Follows (env.defineParameters operation parameters group)
      (env'.defineParameters (operation.cleaned allowed)
        (parameters.map (clean allowed .parameter)) group) fun _ _ => True := by
  unfold Env.defineParameters
  rw [parameterRecord?_clean]
  cases hrecord : parameterRecord? group.1 parameters with
  | none => exact .pure trivial
  | some record => exact h.defineRoot (Sound.parameterRecord? hparameters hrecord) _ _

/-- The contents of a request body or of a response. -/
theorem defineContent {part : Part} (hkinds : kindsOf part ≠ [])
    (hlasting : isLasting part "content" = true)
    (hcontent : childPart part "content" = .mapOf .mediaType) {node : Json}
    (hnode : Sound allowed kept part node) (name : String) (location : Location) :
    Follows (env.defineContent node name location)
      (env'.defineContent (clean allowed part node) name location) fun _ _ => True := by
  unfold Env.defineContent
  have htarget : Follows (ask (env.deref node (Site.ofPath [name])))
      (ask (env'.deref (clean allowed part node) (Site.ofPath [name])))
      fun target target' => target' = clean allowed part target ∧ Sound allowed kept part target :=
    .ask fun target htarget => by
      obtain ⟨htarget', hsound, -⟩ := h.deref hkinds hnode htarget
      rw [htarget']
      exact ⟨rfl, hsound⟩
  refine htarget.bind ?_
  rintro target _ ⟨rfl, hsound⟩
  rw [contentSchema?_clean hlasting hcontent]
  cases hschema : contentSchema? target with
  | none => exact .pure trivial
  | some schema =>
    have hcallback : part ≠ .callback := fun heq => hkinds (heq ▸ rfl)
    exact h.defineRoot (hsound.contentSchema? hcallback hlasting hcontent hschema) name location

/-- The responses that the cleanup leaves. -/
theorem defineResponses {operation : Operation} (ho : operation.IsSound allowed kept) :
    Follows
      ((((operation.node.get? "responses").bind Json.members?).getD []).forM
        (env.defineResponse operation))
      (((((operation.cleaned allowed).node.get? "responses").bind Json.members?).getD []).forM
        (env'.defineResponse (operation.cleaned allowed))) fun _ _ => True := by
  have hget : (operation.cleaned allowed).node.get? "responses" =
      (operation.node.get? "responses").map (clean allowed .responses) :=
    get?_clean_of_isLasting rfl
  rw [hget]
  cases hresponses : operation.node.get? "responses" with
  | none => exact .pure trivial
  | some responses =>
    have hsound : Sound allowed kept .responses responses :=
      ho.node.get? (by simp) rfl hresponses
    simp only [Option.map_some, Option.bind_some, members?_clean]
    cases responses with
    | obj members =>
      refine .forM fun entry' hentry' => ?_
      change entry' ∈ cleanMembers allowed .responses members at hentry'
      rw [cleanMembers_eq] at hentry'
      obtain ⟨entry, hentry, rfl⟩ := List.mem_map.mp hentry'
      obtain ⟨hentry, hkeep⟩ := List.mem_filter.mp hentry
      refine ⟨entry, hentry, ?_⟩
      unfold Env.defineResponse
      dsimp only
      split
      · exact .pure trivial
      · have hresponse : Sound allowed kept .response entry.2 :=
          hsound.member (by simp) hentry hkeep
        exact h.defineContent (by simp [kindsOf]) rfl rfl hresponse _ _
    | _ => exact .pure trivial

/-- **An operation is imitated by what the cleanup leaves of it.** -/
theorem compileOperation {operation : Operation} (ho : operation.IsSound allowed kept) :
    Follows (env.compileOperation operation)
      (env'.compileOperation (operation.cleaned allowed)) fun _ _ => True := by
  unfold Env.compileOperation
  have hparameters : Follows (ask (env.effectiveParameters operation))
      (ask (env'.effectiveParameters (operation.cleaned allowed)))
      fun parameters parameters' => parameters' = parameters.map (clean allowed .parameter) ∧
        ∀ p ∈ parameters, Sound allowed kept .parameter p :=
    .ask fun parameters hok => by
      obtain ⟨hok', hsound⟩ := h.effectiveParameters ho hok
      rw [hok']
      exact ⟨rfl, hsound⟩
  refine hparameters.bind ?_
  rintro parameters _ ⟨rfl, hsound⟩
  have hgroups : Follows
      (parameterGroups.forM (env.defineParameters operation parameters))
      (parameterGroups.forM (env'.defineParameters (operation.cleaned allowed)
        (parameters.map (clean allowed .parameter)))) fun _ _ => True :=
    .forM fun group hgroup => ⟨group, hgroup, h.defineParameters operation hsound group⟩
  refine hgroups.bind fun _ _ _ => ?_
  have hbody : (operation.cleaned allowed).node.get? "requestBody" =
      (operation.node.get? "requestBody").map (clean allowed .requestBody) :=
    get?_clean_of_isLasting rfl
  rw [hbody]
  cases hget : operation.node.get? "requestBody" with
  | none => exact h.defineResponses ho
  | some body =>
    have hsoundBody : Sound allowed kept .requestBody body :=
      ho.node.get? (by simp) rfl hget
    exact (h.defineContent (by simp [kindsOf]) rfl rfl hsoundBody _ _).bind fun _ _ _ =>
      h.defineResponses ho

end Trims

end ApiTypes

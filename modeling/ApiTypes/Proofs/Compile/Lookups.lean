import ApiTypes.Proofs.Compile.Follow
import ApiTypes.Proofs.Compile.Regular

/-!
  Looking up references in a document and in a pruned one.

  `Trims` says that a second document has, cleaned, whatever a kept reference points at in the
  first. Then every look-up from a sound value that succeeds in the first document succeeds in the
  second, from the cleaned value, with the cleaned result.
-/

namespace ApiTypes

open Prune

/-- In the second environment a kept reference that fits a part points at the cleaned target that it
    has in the first. -/
structure Trims (allowed : List String) (kept : String → Prop) (env env' : Env) : Prop where
  recognized : Extensions.recognized ⊆ allowed
  size : env.size = env.doc.root.size
  size' : env'.size = env'.doc.root.size
  target : ∀ {part reference target}, fits part reference = true → kept reference →
    env.doc.resolve? reference = some target →
      env'.doc.resolve? reference = some (clean allowed part target) ∧
        Sound allowed kept part target

theorem resolve_eq_ok {env : Env} {reference : String} {site : Site} {target : Json} :
    env.resolve reference site = .ok target ↔ env.doc.resolve? reference = some target := by
  unfold Env.resolve
  cases env.doc.resolve? reference <;> simp

/-- What a node says of the values of a property by itself. -/
def Env.ownValue? (env : Env) (property : String) (site : Site) (node : Json) :
    Except CompileError (Option (Option String)) :=
  match (Schema.properties? node).bind (Entries.get? property) with
  | none => .ok none
  | some schema => fixedValue? <$> env.deref schema site

/-- A node itself answers first, and then the members of its `allOf`. -/
theorem propertyValue?_succ (env : Env) (property : String) (site : Site) (levels : Nat)
    (node : Json) :
    env.propertyValue? property site (levels + 1) node = (do
      let target ← env.deref node site
      match ← env.ownValue? property site target with
      | some answer => return answer
      | none =>
        firstAnswer (env.propertyValue? property site levels)
          (Schema.membersOf "allOf" target)) := by
  simp only [Env.propertyValue?, Env.ownValue?]
  congr 1
  funext target
  cases (Schema.properties? target).bind (Entries.get? property) with
  | none => rfl
  | some schema =>
    dsimp only
    cases env.deref schema site <;> rfl

namespace Trims

variable {allowed : List String} {kept : String → Prop} {env env' : Env} {part : Part}
  {site site' : Site} {node target : Json}

/-! ## 1. References -/

/-- **References lead to the cleaned end** of the way that they lead in the first document. -/
theorem follow (h : Trims allowed kept env env') (hkinds : kindsOf part ≠ []) {hops : Nat}
    (hnode : Sound allowed kept part node) (hok : env.follow site hops node = .ok target) :
    env'.follow site' hops (clean allowed part node) = .ok (clean allowed part target) ∧
      Sound allowed kept part target ∧ Schema.reference? target = none := by
  induction hops generalizing node with
  | zero =>
    unfold Env.follow at hok ⊢
    rw [reference?_clean hkinds]
    cases hreference : Schema.reference? node with
    | none =>
      rw [hreference] at hok
      obtain rfl := Except.ok.inj hok
      exact ⟨rfl, hnode, hreference⟩
    | some reference => simp [hreference] at hok
  | succ hops ih =>
    unfold Env.follow at hok ⊢
    rw [reference?_clean hkinds]
    cases hreference : Schema.reference? node with
    | none =>
      rw [hreference] at hok
      obtain rfl := Except.ok.inj hok
      exact ⟨rfl, hnode, hreference⟩
    | some reference =>
      simp only [hreference] at hok ⊢
      obtain ⟨next, hnext, hok⟩ := bind_eq_ok.mp hok
      obtain ⟨hfits, hkept⟩ := hnode.reference hkinds hreference
      obtain ⟨hnext', hsound⟩ := h.target hfits hkept (resolve_eq_ok.mp hnext)
      rw [resolve_eq_ok.mpr hnext']
      exact ih hsound hok

theorem deref (h : Trims allowed kept env env') (hkinds : kindsOf part ≠ [])
    (hnode : Sound allowed kept part node) (hok : env.deref node site = .ok target) :
    env'.deref (clean allowed part node) site' = .ok (clean allowed part target) ∧
      Sound allowed kept part target ∧ Schema.reference? target = none :=
  h.follow hkinds hnode hok

/-- The same of a schema. -/
theorem derefSchema (h : Trims allowed kept env env') (hnode : Sound allowed kept .schema node)
    (hok : env.deref node site = .ok target) :
    env'.deref (clean allowed .schema node) site' = .ok (clean allowed .schema target) ∧
      Sound allowed kept .schema target ∧ Schema.reference? target = none :=
  h.deref (by simp [kindsOf]) hnode hok

theorem extensionsAt (h : Trims allowed kept env env') {path path' : String}
    {extensions : Extensions} (hok : Env.extensionsAt node path = .ok extensions) :
    Env.extensionsAt (clean allowed .schema node) path' = .ok extensions := by
  unfold Env.extensionsAt at hok ⊢
  rw [ofNode_clean h.recognized]
  cases hnode : Extensions.ofNode node with
  | ok found => simpa [hnode] using hok
  | error fault => simp [hnode] at hok

/-- The type of a component has the same name in both documents, when the component is there. -/
theorem componentTypeName_of_resolve? (h : Trims allowed kept env env') {reference name : String}
    (htarget : env.doc.resolve? reference = some target)
    (htarget' : env'.doc.resolve? reference = some (clean allowed .schema target))
    (hok : env.componentTypeName reference site = .ok name) :
    env'.componentTypeName reference site' = .ok name := by
  obtain ⟨found, hfound, hok⟩ := bind_eq_ok.mp hok
  obtain ⟨extensions, hextensions, hok⟩ := bind_eq_ok.mp hok
  obtain rfl := Option.some.inj ((resolve_eq_ok.mp hfound).symm.trans htarget)
  exact bind_eq_ok.mpr ⟨_, resolve_eq_ok.mpr htarget', bind_eq_ok.mpr
    ⟨extensions, h.extensionsAt hextensions, hok⟩⟩

/-- **The type that a reference names has the same name.** -/
theorem componentTypeName (h : Trims allowed kept env env') {reference name : String}
    (hfits : fits .schema reference = true) (hkept : kept reference)
    (hok : env.componentTypeName reference site = .ok name) :
    env'.componentTypeName reference site' = .ok name := by
  obtain ⟨target, htarget, -⟩ := bind_eq_ok.mp hok
  have htarget := resolve_eq_ok.mp htarget
  exact h.componentTypeName_of_resolve? htarget (h.target hfits hkept htarget).1 hok

/-! ## 2. Unions -/

theorem nonNull_cons_eq_ok {element : Json} {rest admitted : List Json} :
    env.nonNull site (element :: rest) = .ok admitted ↔
      ∃ target, env.deref element site = .ok target ∧
        ((Schema.isNullOnly target = true ∧ env.nonNull site rest = .ok admitted) ∨
          (Schema.isNullOnly target = false ∧
            ∃ others, env.nonNull site rest = .ok others ∧ element :: others = admitted)) := by
  unfold Env.nonNull
  rw [List.filterMapM_cons, bind_eq_ok]
  cases env.deref element site with
  | error e => simp [bind, Except.bind]
  | ok target => cases hnull : Schema.isNullOnly target <;> simp [hnull, map_eq_ok]

/-- **The elements that admit more than null are the same.** -/
theorem nonNull (h : Trims allowed kept env env') {elements admitted : List Json}
    (helements : ∀ element ∈ elements, Sound allowed kept .schema element)
    (hok : env.nonNull site elements = .ok admitted) :
    env'.nonNull site' (elements.map (clean allowed .schema)) =
      .ok (admitted.map (clean allowed .schema)) ∧
      ∀ element ∈ admitted, Sound allowed kept .schema element := by
  induction elements generalizing admitted with
  | nil =>
    obtain rfl := Except.ok.inj hok
    exact ⟨rfl, by simp⟩
  | cons element rest ih =>
    obtain ⟨helement, hrest⟩ := List.forall_mem_cons.mp helements
    obtain ⟨target, htarget, hok⟩ := nonNull_cons_eq_ok.mp hok
    obtain ⟨htarget', -, -⟩ := h.derefSchema helement htarget
    rw [List.map_cons, nonNull_cons_eq_ok]
    rcases hok with ⟨hnull, hok⟩ | ⟨hnull, others, hothers, rfl⟩
    · obtain ⟨hok', hsound⟩ := ih hrest hok
      exact ⟨⟨_, htarget', .inl ⟨isNullOnly_clean.trans hnull, hok'⟩⟩, hsound⟩
    · obtain ⟨hok', hsound⟩ := ih hrest hothers
      exact ⟨⟨_, htarget', .inr ⟨isNullOnly_clean.trans hnull, _, hok', rfl⟩⟩,
        List.forall_mem_cons.mpr ⟨helement, hsound⟩⟩

/-- The first answer among cleaned nodes is the first among the nodes. -/
theorem firstAnswer {look look' : Json → Except CompileError (Option String)} {nodes : List Json}
    {answer : Option String}
    (hlook : ∀ node ∈ nodes, ∀ answer, look node = .ok answer →
      look' (clean allowed .schema node) = .ok answer)
    (hok : ApiTypes.firstAnswer look nodes = .ok answer) :
    ApiTypes.firstAnswer look' (nodes.map (clean allowed .schema)) = .ok answer := by
  induction nodes with
  | nil => exact hok
  | cons node rest ih =>
    obtain ⟨hnode, hrest⟩ := List.forall_mem_cons.mp hlook
    obtain ⟨found, hfound, hok⟩ := bind_eq_ok.mp hok
    refine bind_eq_ok.mpr ⟨found, hnode found hfound, ?_⟩
    cases found with
    | some answer => exact hok
    | none => exact ih hrest hok

theorem ownValue? (h : Trims allowed kept env env') {property : String}
    {answer : Option (Option String)} (hnode : Sound allowed kept .schema node)
    (hok : env.ownValue? property site node = .ok answer) :
    env'.ownValue? property site' (clean allowed .schema node) = .ok answer := by
  unfold Env.ownValue? at hok ⊢
  have hproperty : (Schema.properties? (clean allowed .schema node)).bind (Entries.get? property) =
      ((Schema.properties? node).bind (Entries.get? property)).map (clean allowed .schema) := by
    rw [properties?_clean]
    cases Schema.properties? node with
    | none => rfl
    | some properties => exact Entries.get?_map fun _ => clean allowed .schema
  rw [hproperty]
  cases hschema : (Schema.properties? node).bind (Entries.get? property) with
  | none => simpa [hschema] using hok
  | some schema =>
    rw [hschema] at hok
    obtain ⟨target, htarget, rfl⟩ := map_eq_ok.mp hok
    obtain ⟨properties, hproperties, hget⟩ := Option.bind_eq_some_iff.mp hschema
    obtain ⟨htarget', -, -⟩ := h.derefSchema
      (hnode.property hproperties (Entries.mem_of_get? hget)) htarget
    exact map_eq_ok.mpr ⟨_, htarget', fixedValue?_clean⟩

/-- **A cleaned node admits the same value for a property.** -/
theorem propertyValue? (h : Trims allowed kept env env') {property : String} {levels : Nat}
    {answer : Option String} (hnode : Sound allowed kept .schema node)
    (hok : env.propertyValue? property site levels node = .ok answer) :
    env'.propertyValue? property site' levels (clean allowed .schema node) = .ok answer := by
  induction levels generalizing node answer with
  | zero => exact hok
  | succ levels ih =>
    rw [propertyValue?_succ] at hok ⊢
    obtain ⟨target, htarget, hok⟩ := bind_eq_ok.mp hok
    obtain ⟨htarget', hsound, -⟩ := h.derefSchema hnode htarget
    obtain ⟨fixed, hfixed, hok⟩ := bind_eq_ok.mp hok
    refine bind_eq_ok.mpr ⟨_, htarget', bind_eq_ok.mpr ⟨fixed, h.ownValue? hsound hfixed, ?_⟩⟩
    cases fixed with
    | some answer => exact hok
    | none =>
      rw [membersOf_clean rfl rfl]
      exact firstAnswer (fun member hmember answer hanswer =>
        ih (hsound.membersOf (by simp) rfl rfl hmember) hanswer) hok

/-- The values that select an element are found again. -/
theorem mapElement (h : Trims allowed kept env env') {declared : List (String × String)}
    {property typeName typeName' : String} {mapping mapping' found : List (String × String)}
    (hnode : Sound allowed kept .schema node)
    (hok : env.mapElement declared property site node typeName mapping = .ok found) :
    Finds (env'.mapElement declared property site' (clean allowed .schema node) typeName' mapping')
      fun _ => True := by
  unfold Env.mapElement at hok ⊢
  rw [reference?_clean (by simp [kindsOf])]
  cases hreference : Schema.reference? node with
  | some reference =>
    dsimp only
    split
    · exact trivial
    · split <;> exact trivial
  | none =>
    simp only [hreference] at hok ⊢
    obtain ⟨answer, hanswer, -⟩ := bind_eq_ok.mp hok
    rw [h.propertyValue? hnode hanswer]
    cases answer with
    | some value => exact trivial
    | none =>
      simp only [bind, Except.bind]
      split
      · exact trivial
      · rfl

end Trims

end ApiTypes

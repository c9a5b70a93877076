import ApiTypes.Proofs.Compile.Distinct
import ApiTypes.Proofs.Compile.Nullable

/-!
  Overriding types.

  `x-type-override` gives a schema its text, whatever the schema is.

  * The override that a node has is the one that is read (`typeOverride_of_text?`). It stays outside
    when a reference is read as an `allOf`.
  * **The overriding type wins over everything but an alias** that the combinators come to
    (`override_wins`).
  * What is read as a reference keeps the name of what it refers to. An overriding type beside a
    bare reference is among the keys that describe it, and nobody looks at it
    (`compile_override_lost`).
-/

namespace ApiTypes

open Schema Resolve

variable {env : Env} {node : Json} {site : Site} {shape : Shape} {s s' : Session} {levels : Nat}
  {members : List (String × Json)} {decl : String}

/-! ## 1. Reading the override -/

theorem readMember_override (known : Extensions) (decl : String) :
    Extensions.readMember known (overrideKey, .str decl) =
      .ok { known with typeOverride := some decl } := rfl

/-- Among members with distinct keys one override is read, wherever it stands. -/
theorem typeOverride_of_mem {known known' : Extensions} (hkeys : (Entries.keys members).Nodup)
    (hget : Entries.get? overrideKey members = some (.str decl))
    (h : members.foldlM Extensions.readMember known = .ok known') :
    known'.typeOverride = some decl := by
  induction members generalizing known with
  | nil => simp at hget
  | cons entry rest ih =>
    obtain ⟨key, value⟩ := entry
    obtain ⟨hfresh, hrest⟩ := List.nodup_cons.mp hkeys
    rw [List.foldlM_cons] at h
    rw [Entries.get?_cons] at hget
    split at hget
    · -- What stands after the override is no other one.
      rename_i hkey
      subst hkey
      obtain rfl := Option.some.inj hget
      rw [readMember_override] at h
      refine (typeOverride_of_readMembers (fun other hother hname => hfresh ?_) h).trans rfl
      exact List.mem_map.mpr ⟨other, hother, hname⟩
    · cases hfirst : Extensions.readMember known (key, value) with
      | error fault => simp [hfirst, bind, Except.bind] at h
      | ok first =>
        rw [hfirst] at h
        exact ih hrest hget h

/-- **The overriding type that a node has is the one that is read.** -/
theorem typeOverride_of_text? {extensions : Extensions} {path : String}
    (hkeys : node.hasDistinctKeys = true) (hoverride : text? overrideKey node = some decl)
    (h : Env.extensionsAt node path = .ok extensions) : extensions.typeOverride = some decl := by
  obtain ⟨value, hget, hvalue⟩ := Option.bind_eq_some_iff.mp hoverride
  obtain rfl : value = .str decl := by
    cases value <;> simp_all [Json.string?]
  unfold Env.extensionsAt at h
  split at h
  · rename_i found hfound
    obtain rfl := Except.ok.inj h
    cases node with
    | obj members =>
      exact typeOverride_of_mem (Json.hasDistinctKeys_obj.mp hkeys).1 hget hfound
    | _ => simp [Json.get?, Json.members?] at hget
  · simp at h

theorem hasDistinctKeys_readAs (hkeys : node.hasDistinctKeys = true) :
    (readAs node).hasDistinctKeys = true := by
  cases node with
  | obj members =>
    simp only [readAs]
    split
    · exact hasDistinctKeys_expandReference hkeys
    · exact hkeys
  | _ => exact hkeys

/-! ## 2. Where the override wins -/

namespace Env

theorem decl_withPart (own : Shape) (c : Option Combined) :
    (withPart own true c).decl = own.decl := by
  rcases c with _ | (part | part) <;> rfl

/-- However a schema ends whose type is overridden, it has the overriding type, or else its
    combinators come to an alias. -/
theorem SchemaEnd.decl_of_override {resolve : Resolver} (hkeys : node.hasDistinctKeys = true)
    (hoverride : text? overrideKey node = some decl)
    (h : env.SchemaEnd resolve node site s shape) :
    shape.decl = decl ∨ ∃ part m, part.isFinal = true ∧ shape = finishCombined node part ∧
      (env.combined? resolve node site).Yields s (some (.complete part)) m := by
  cases h with
  | @combined extensions part m hextensions hcombined hfinal =>
    have hsome := typeOverride_of_text? hkeys hoverride hextensions
    exact .inr ⟨part, m, hfinal.resolve_right (by simp [hsome]), rfl, hcombined⟩
  | @own extensions c own m m' hextensions hcombined hreplaced hown =>
    left
    have hsome := typeOverride_of_text? hkeys hoverride hextensions
    simp only [ownShape, hsome, yields_pure] at hown
    obtain ⟨rfl, -⟩ := hown
    rw [hsome]
    exact decl_withPart _ c

/-- **An overriding type wins** where a node is read as a schema: the shape has it as its text,
    unless the combinators come to an alias, of a component or of a type that overrides a member.
    What is read as a reference has the name of what it refers to. -/
theorem override_wins (hkeys : node.hasDistinctKeys = true)
    (hoverride : text? overrideKey node = some decl)
    (h : (env.resolveAt (levels + 1) node site).Yields s shape s') :
    if site.readsReference node then shape.target = some shape.decl
    else shape.decl = decl ∨ ∃ part m, part.isFinal = true ∧
      shape = finishCombined (readAs node) part ∧
      (env.combined? (env.resolveAt levels) (readAs node) site).Yields
        { s with depth := s.depth + 1 } (some (.complete part)) m := by
  have hobject : node.isObject = true := by
    cases node <;> first | rfl | simp [text?, Json.get?, Json.members?] at hoverride
  rcases yields_of_isObject hobject h with ⟨hreads, reference, m, hreference⟩ | ⟨hreads, hend⟩
  · rw [if_pos hreads]
    obtain ⟨use, htarget, rfl⟩ := besideReference_of_yields hreference
    exact htarget
  · rw [if_neg (by simp [hreads])]
    refine hend.decl_of_override (hasDistinctKeys_readAs hkeys) ?_
    rw [text?, get?_readAs (by decide)]
    exact hoverride

end Env

/-! ## 3. An overriding type beside a reference -/

/-- An overriding type. -/
def overriddenBy (decl : String) : String × Json := (overrideKey, .str decl)

/-- What is required of a record, with an overriding type. -/
def overriddenRequired : Json := baseReference (overriddenBy "T" :: requiresA)

/-- Whether what combinators come to is final. -/
def Combined.isFinal : Combined → Bool
  | .complete shape => shape.isFinal
  | .partly _ => false

theorem override_wins_required : text? overrideKey overriddenRequired = some "T" ∧
    ∃ shape s', ((baseEnv (recordOf "a" "string") []).resolveAt 3 overriddenRequired {}).Yields {}
      shape s' ∧ shape.decl = "T" := by
  obtain ⟨shape, s', hrun⟩ := exists_yields (show (((baseEnv (recordOf "a" "string") []).resolveAt 3
    overriddenRequired {}).outcome {}).1.isOk = true by decide +kernel)
  have hmerged : (((baseEnv (recordOf "a" "string") []).combined?
      ((baseEnv (recordOf "a" "string") []).resolveAt 2) (readAs overriddenRequired) {}).outcome
      { depth := 1 }).1.toOption.map (·.map Combined.isFinal) = some (some false) := by
    decide +kernel
  have hoverride : text? overrideKey overriddenRequired = some "T" := by decide
  refine ⟨hoverride, shape, s', hrun, ?_⟩
  have hwins := Env.override_wins (by decide) hoverride hrun
  rw [if_neg (by decide)] at hwins
  refine hwins.resolve_right ?_
  rintro ⟨part, m, hfinal, -, hyields⟩
  rw [hyields] at hmerged
  simp [Except.toOption, Combined.isFinal, hfinal] at hmerged

/-- **Beside a bare reference an overriding type is lost**, though there is no combinator. Beside a
    reference with a keyword more it wins. -/
theorem compile_override_lost :
    let declOf (beside : List (String × Json)) :=
      (compile (baseDocument (recordOf "a" "string") beside) { prune := false }).toOption.bind
        fun c => (c.get? "A").map (·.shape.decl)
    text? overrideKey (baseReference [overriddenBy "T"]) = some "T" ∧
      (∀ key ∈ ["allOf", "anyOf", "oneOf"],
        (baseReference [overriddenBy "T"]).get? key = none) ∧
      declOf [overriddenBy "T"] = some "Base" ∧
      declOf (overriddenBy "T" :: requiresA) = some "T" := by
  refine ⟨?_, ?_, ?_, ?_⟩ <;> decide +kernel

end ApiTypes

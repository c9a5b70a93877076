import ApiTypes.Proofs.Compile.Making
import ApiTypes.Proofs.Compile.StandsAlone

/-!
  When an `allOf` is only another name for one of its members.

  The members of an `allOf` are merged, and where the merge has neither properties nor a union it is
  an alias of the component that the last reference names. The alias keeps the bounds of the merge,
  and nothing of its substance.

  * A merge becomes an alias in no other way (`yields_narrowed`).
  * **Where what stands beside the reference narrows the component, nothing is lost**: the merge has
    the substance of the component (`narrowed_substance`).
  * Nothing asks for that. Values beside the reference are lost (`compile_narrowed_loses_values`).
-/

namespace ApiTypes

open Schema Resolve

variable {env : Env} {site : Site} {own : Option (List (String × Json))}
  {members flat : List Json} {merged : List (String × Json)}

namespace Env

/-! ## 1. Narrowed components -/

theorem mergedMembers_eq_ok : env.mergedMembers site own members = .ok merged ↔
    ∃ flat result, env.flatten site (maxDepth + 1) members = .ok flat ∧
      mergeAll own flat = .ok result ∧ result.getD [] = merged := by
  unfold mergedMembers
  rw [bind_eq_ok]
  refine exists_congr fun flat => ?_
  cases mergeAll own flat <;> simp [pure_eq_ok]

/-- The last reference of a list is that of a member after which there is none. -/
theorem narrowedComponent?_eq_some {merged : Json} {reference : String}
    (h : narrowedComponent? members merged = some reference) :
    ∃ before member after, members = before ++ member :: after ∧
      reference? member = some reference ∧ ∀ other ∈ after, reference? other = none := by
  unfold narrowedComponent? at h
  split at h
  · rename_i found hlast
    split at h
    · obtain rfl := Option.some.inj h
      rw [List.getLast?_filterMap, List.findSome?_eq_some_iff] at hlast
      obtain ⟨after, member, before, heq, hmember, hafter⟩ := hlast
      refine ⟨before.reverse, member, after.reverse, ?_, hmember, fun other hother =>
        hafter other (List.mem_reverse.mp hother)⟩
      simpa using congrArg List.reverse heq
    · simp at h
  · simp at h

variable {node : Json} {withOwn : Bool} {levels : Nat} {s s' : Session} {shape : Shape}
  {name : String}

/-- **How an `allOf` ends** that is more than one reference: its members are embedded where they
    lead to a union, and merged elsewhere. The merge is another name for a component that it
    narrows, or else it is resolved itself. -/
theorem yields_allOfShape {resolve : Resolver} {c : Combined}
    (hown : (if withOwn then ownKeywords node else none) = own)
    (hmerges : own ≠ none ∨ onlyReference? members = none)
    (h : (env.allOfShape resolve node members withOwn site).Yields s c s') :
    (env.anyUnion site members = .ok true ∧ ∃ part, c = .partly part) ∨
    env.anyUnion site members = .ok false ∧
      ∃ merged, env.mergedMembers site own members = .ok merged ∧
        ((∃ reference name, narrowedComponent? members (.obj merged) = some reference ∧
            env.componentTypeName reference site = .ok name ∧
            c = .complete { Shape.aliasOf name with
              constraints := Constraints.ofSchema (.obj merged) }) ∨
          narrowedComponent? members (.obj merged) = none ∧
            ∃ found, (resolve (.obj merged) site).Yields s found s' ∧ c = .complete found) := by
  unfold allOfShape at h
  obtain ⟨leads, m, hasked, h⟩ := yields_bind.mp h
  obtain ⟨hleads, rfl⟩ := yields_ask.mp hasked
  cases leads with
  | true =>
    rw [if_pos rfl] at h
    obtain ⟨part, m, -, h⟩ := yields_bind.mp h
    exact .inl ⟨hleads, part, (yields_pure.mp h).1.symm⟩
  | false =>
    rw [if_neg (by simp)] at h
    dsimp only at h
    rw [hown] at h
    split at h
    · rename_i honly
      simp [honly] at hmerges
    · obtain ⟨merged, m, hasked, h⟩ := yields_bind.mp h
      obtain ⟨hmerged, rfl⟩ := yields_ask.mp hasked
      refine .inr ⟨hleads, merged, hmerged, ?_⟩
      split at h
      · rename_i reference hnarrowed
        obtain ⟨name, m, hasked, h⟩ := yields_bind.mp h
        exact .inl ⟨reference, name, hnarrowed, (yields_ask.mp hasked).1,
          (yields_pure.mp h).1.symm⟩
      · rename_i hnarrowed
        obtain ⟨found, m, hfound, h⟩ := yields_bind.mp h
        obtain ⟨rfl, rfl⟩ := yields_pure.mp h
        exact .inr ⟨hnarrowed, found, hfound, rfl⟩

section Alias

variable (hsize : env.size = env.doc.root.size) (hdoc : env.doc.root.hasDistinctKeys = true)
  (hnode : node.hasDistinctKeys = true) (hreference : reference? node = none)
  (hunion : withOwn = true → hasUnion node = false)
  (hmembers : ∀ member ∈ members, member.hasDistinctKeys = true)
  (hown : (if withOwn then ownKeywords node else none) = own)
  (hmerges : own ≠ none ∨ onlyReference? members = none) (hsite : site.reference = none)
  (hrun : (env.allOfShape (env.resolveAt levels) node members withOwn site).Yields s
    (.complete shape) s')
  (halias : shape.isAlias = true) (htarget : shape.target = some name)

include hsize hdoc hnode hreference hunion hmembers hown hmerges hsite hrun halias htarget

/-- **A merge becomes an alias only by narrowing a component.** A merge that does not is resolved
    itself, and then it stands for no other schema. -/
theorem yields_narrowed : ∃ merged reference, env.anyUnion site members = .ok false ∧
    env.mergedMembers site own members = .ok merged ∧
      narrowedComponent? members (.obj merged) = some reference ∧
      env.TypeNameOf reference name ∧ shape.constraints = Constraints.ofSchema (.obj merged) := by
  have hstart : StandsAlone (soFar own) := by
    rw [← hown]
    split
    · exact (standsAlone_ownKeywords hnode hreference (hunion ‹_›)).2
    · exact .nil
  rcases yields_allOfShape hown hmerges hrun with ⟨-, part, hpart⟩ |
    ⟨hleads, merged, hmerged, hends⟩
  · simp at hpart
  · refine ⟨merged, ?_⟩
    rcases hends with ⟨reference, found, hnarrowed, hname, hshape⟩ | ⟨-, found, hfound, hshape⟩
    · obtain rfl := Combined.complete.inj hshape
      obtain rfl := Option.some.inj htarget
      exact ⟨reference, hleads, hmerged, hnarrowed,
        ⟨PartLaw.isComponent_of_narrowedComponent? hnarrowed, site, hname⟩, rfl⟩
    · -- The merge stands alone, so its own shape is no alias.
      exfalso
      obtain rfl := Combined.complete.inj hshape
      have hresult := standsAlone_mergedMembers hsize hdoc hmembers hleads hstart hmerged
      have hcomes := (((makes_resolveAt False.elim levels) (.obj merged) site
        False.elim).of_yields hfound).2
      rcases (hcomes.renames hsite halias name htarget).exists_part with hsome | hpart
      · simp [hresult.reference] at hsome
      · obtain ⟨key, hkey, hnonempty⟩ := hpart
        have hempty := hresult.union
        simp only [hasUnion, Bool.or_eq_false_iff, Bool.not_eq_false', List.isEmpty_iff] at hempty
        simp only [List.mem_cons, List.not_mem_nil, or_false] at hkey
        rcases hkey with rfl | rfl | rfl
        · exact hnonempty hresult.allOf
        · exact hnonempty hempty.1
        · exact hnonempty hempty.2

/-- **What narrows a component loses nothing as its alias.** An `allOf` that becomes an alias by a
    merge is one of the component that its last reference names. Where what the node says itself and
    the schemas behind the other members narrow that component, the merge has its substance. -/
theorem narrowed_substance : ∃ before member after reference merged first rest,
    members = before ++ member :: after ∧ reference? member = some reference ∧
      (∀ other ∈ after, reference? other = none) ∧ env.TypeNameOf reference name ∧
      env.mergedMembers site own members = .ok merged ∧
      shape.constraints = Constraints.ofSchema (.obj merged) ∧
      env.flatten site (maxDepth + 1) before = .ok first ∧
      env.flatten site (maxDepth + 1) after = .ok rest ∧
      ∀ component, env.mergedMembers site none [member] = .ok component →
        (∀ other ∈ soFar own :: (first ++ rest), Narrows (.obj component) other) →
          substance (.obj merged) = substance (.obj component) := by
  obtain ⟨merged, reference, hleads, hmerged, hnarrowed, hname, hconstraints⟩ := yields_narrowed
    hsize hdoc hnode hreference hunion hmembers hown hmerges hsite hrun halias htarget
  obtain ⟨before, member, after, rfl, hmember, hafter⟩ := narrowedComponent?_eq_some hnarrowed
  obtain ⟨flat, result, hflat, hmerge, rfl⟩ := mergedMembers_eq_ok.mp hmerged
  have halone := standsAlone_flatten hsize hdoc hmembers hleads hflat
  obtain ⟨first, others, hfirst, hothers, rfl⟩ := flatten_append_eq_ok.mp hflat
  obtain ⟨inside, rest, hinside, hrest, rfl⟩ := flatten_append_eq_ok.mp
    (show env.flatten site (maxDepth + 1) ([member] ++ after) = .ok others from hothers)
  refine ⟨before, member, after, reference, _, first, rest, rfl, hmember, hafter, hname, hmerged,
    hconstraints, hfirst, hrest, fun component hcomponent hnarrows => ?_⟩
  obtain ⟨flat, part, hflat', hpart, rfl⟩ := mergedMembers_eq_ok.mp hcomponent
  obtain rfl := Except.ok.inj (hinside.symm.trans hflat')
  obtain ⟨hownNarrows, hothersNarrow⟩ := List.forall_mem_cons.mp hnarrows
  rw [← List.append_assoc] at hmerge halone
  exact substance_mergeAll (fun node hnode => (halone node hnode).1) hpart hownNarrows
    hothersNarrow hmerge

end Alias

end Env

/-! ## 2. Beside a reference -/

/-- A reference to a component. -/
def componentReference : Json := .obj [("$ref", .str "#/components/schemas/C")]

/-- A document in which a component that is a text is referred to, with this beside it. -/
def besideComponent (beside : Json) : Json :=
  .obj [("components", .obj [("schemas", .obj [
    ("C", .obj [("type", .str "string")]),
    ("D", .obj [("allOf", .arr [componentReference, beside])])])])]

/-- What a compilation of this document knows. -/
def besideEnv (beside : Json) : Env := { doc := ⟨(besideComponent beside).members?.getD []⟩ }

/-- The component for which a combination is another name. -/
def Combined.aliased? : Combined → Option String
  | .complete shape => if shape.isAlias then shape.target else none
  | .partly _ => none

theorem Combined.aliased?_eq_some {c : Combined} {name : String} (h : c.aliased? = some name) :
    ∃ shape, c = .complete shape ∧ shape.isAlias = true ∧ shape.target = some name := by
  cases c with
  | complete shape =>
    simp only [aliased?] at h
    split at h
    · exact ⟨shape, rfl, ‹_›, h⟩
    · simp at h
  | partly shape => simp [aliased?] at h

/-- A bound beside a reference. -/
def shorter : Json := .obj [("maxLength", .int 8)]

theorem narrowed_substance_shorter :
    ∃ merged, (besideEnv shorter).mergedMembers {} none [componentReference, shorter] =
        .ok merged ∧
      substance (.obj merged) = substance (.obj [("type", .str "string")]) := by
  have houtcome : (((besideEnv shorter).allOfShape ((besideEnv shorter).resolveAt 2) (.obj [])
      [componentReference, shorter] false {}).outcome {}).1.toOption.bind Combined.aliased? =
        some "C" := by decide +kernel
  rcases hrun : ((besideEnv shorter).allOfShape ((besideEnv shorter).resolveAt 2) (.obj [])
      [componentReference, shorter] false {}).outcome {} with ⟨result, s'⟩
  rw [hrun] at houtcome
  obtain ⟨c, hc, haliased⟩ := Option.bind_eq_some_iff.mp houtcome
  obtain ⟨shape, rfl, halias, htarget⟩ := Combined.aliased?_eq_some haliased
  obtain rfl : result = .ok (.complete shape) := by
    cases result with
    | ok found => exact congrArg _ (Option.some.inj hc)
    | error e => simp [Except.toOption] at hc
  obtain ⟨before, member, after, reference, merged, first, rest, hmembers, hmember, -, -, hmerged,
    -, hfirst, hrest, hsubstance⟩ := Env.narrowed_substance rfl (by decide) (by decide) (by decide)
      (by decide) (by decide) rfl (.inr rfl) rfl hrun halias htarget
  refine ⟨merged, hmerged, ?_⟩
  -- The reference comes first, and the bound after it.
  obtain ⟨rfl, rfl, rfl⟩ : before = [] ∧ member = componentReference ∧ after = [shorter] := by
    rcases before with _ | ⟨head, _ | ⟨next, tail⟩⟩
    · obtain ⟨rfl, rfl⟩ := List.cons.inj hmembers
      exact ⟨rfl, rfl, rfl⟩
    · obtain ⟨-, hmembers⟩ := List.cons.inj hmembers
      obtain ⟨rfl, -⟩ := List.cons.inj hmembers
      have hnone : reference? shorter = none := by decide
      simp [hnone] at hmember
    · simp at hmembers
  obtain rfl : [] = first := Except.ok.inj hfirst
  obtain rfl : [shorter] = rest := Except.ok.inj hrest
  refine hsubstance _ rfl fun other hother => ?_
  simp only [List.nil_append, List.mem_cons, List.not_mem_nil, or_false] at hother
  rcases hother with rfl | rfl
  · exact .nil _
  · have hfixed : ∀ key ∈ ["const", "items"], shorter.get? key = none := by decide
    exact ⟨.inl rfl, .inl rfl, rfl, fun key hkey => .inl (hfixed key hkey), .inl rfl⟩

/-- Values beside a reference. -/
def someValues : Json := .obj [("enum", .arr [.str "a", .str "b"])]

/-- The alias that a definition of a compilation is, and the values it has. -/
def aliasWithValues (name : String) (c : Compilation) : Option (Option String × List String) :=
  (c.get? name).map fun d =>
    (if d.shape.isAlias then d.shape.target else none, d.shape.choices.map (·.name))

/-- **Values beside a reference are lost**: the type is another name for the component, though the
    merge has values that the component does not have. -/
theorem compile_narrowed_loses_values :
    (compile (besideComponent someValues) { prune := false }).toOption.bind
        (aliasWithValues "D") = some (some "C", []) ∧
      (besideEnv someValues).mergedMembers {} none [componentReference] =
        .ok [("type", .str "string")] ∧
      ∃ merged, (besideEnv someValues).mergedMembers {} none [componentReference, someValues] =
          .ok merged ∧
        substance (.obj merged) ≠ substance (.obj [("type", .str "string")]) := by
  refine ⟨by decide +kernel, rfl, _, rfl, fun heq => ?_⟩
  have hvalues := congrArg Substance.values heq
  exact List.cons_ne_nil _ _ hvalues

end ApiTypes

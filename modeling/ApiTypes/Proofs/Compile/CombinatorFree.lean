import ApiTypes.Proofs.Compile.TypeOverride
import ApiTypes.Proofs.Compile.UnionSearch

/-!
  Merges have no combinators left.

  Where the members of an `allOf` lead to no union they are merged, and the merge is resolved at the
  same place (`Env.Merges`, `Env.combined?_of_merges`). Three walks share the work: the search for
  unions, the flattening of nested members and the merge from left to right, which starts with what
  the node says itself.

  * **The merge has no combinators and no reference** (`Env.merge_combinatorFree`), so it is
    resolved by what it says itself, and combinators are not come to again.
-/

namespace ApiTypes

open Schema Resolve

/-- A node whose only combinator with members is `allOf`. -/
structure Schema.OnlyAllOf (node : Json) : Prop where
  allOf : membersOf "allOf" node ≠ []
  anyOf : membersOf "anyOf" node = []
  oneOf : membersOf "oneOf" node = []

/-- The members of an `allOf` are merged, and the merge is resolved: they lead to no union, they are
    more than a reference, and the merge is not the component that it narrows. -/
structure Env.Merges (env : Env) (site : Site) (node merged : Json) : Prop where
  union : env.anyUnion site (membersOf "allOf" node) = .ok false
  several : ownKeywords node ≠ none ∨ onlyReference? (membersOf "allOf" node) = none
  merge : Json.obj <$> env.mergedMembers site (ownKeywords node) (membersOf "allOf" node) =
    .ok merged
  apart : narrowedComponent? (membersOf "allOf" node) merged = none

variable {env : Env} {resolve : Resolver} {site : Site} {node merged : Json}

namespace Schema

theorem OnlyAllOf.hasUnion_eq_false (h : OnlyAllOf node) : hasUnion node = false := by
  simp [hasUnion, h.anyOf, h.oneOf]

/-- What stands alone has no combinators. -/
theorem StandsAlone.combinators (h : StandsAlone node) : membersOf "allOf" node = [] ∧
    membersOf "anyOf" node = [] ∧ membersOf "oneOf" node = [] := by
  have hunion := h.union
  simp only [hasUnion, Bool.or_eq_false_iff, Bool.not_eq_false', List.isEmpty_iff] at hunion
  exact ⟨h.allOf, hunion⟩

end Schema

namespace Env

/-! ## 1. The merge is resolved -/

theorem allOfShape_of_merges (h : env.Merges site node merged) :
    env.allOfShape resolve node (membersOf "allOf" node) true site =
      Combined.complete <$> resolve merged site := by
  obtain ⟨members, hmembers, rfl⟩ := map_eq_ok.mp h.merge
  have hunion : ask (env.anyUnion site (membersOf "allOf" node)) = pure false :=
    congrArg ask h.union
  have hmerged : ask (env.mergedMembers site (ownKeywords node) (membersOf "allOf" node)) =
      pure members := congrArg ask hmembers
  rw [allOfShape_eq, hunion]
  simp only [pure_bind, Bool.false_eq_true, if_false, if_true]
  split
  · rename_i hown honly
    exact absurd h.several (by simp [hown, honly])
  · unfold mergedShape
    simp only [hmerged, pure_bind, h.apart, bind_pure_comp]

/-- **A node whose members are merged comes to what the merge is resolved to.** -/
theorem combined?_of_merges (honly : OnlyAllOf node) (h : env.Merges site node merged) :
    env.combined? resolve node site =
      (fun shape => some (.complete shape)) <$> resolve merged site := by
  obtain ⟨member, rest, hallOf⟩ := List.exists_cons_of_ne_nil honly.allOf
  rw [combined?_eq, honly.anyOf, honly.oneOf, allOfShape_of_merges h, hallOf]
  simp only [List.isEmpty_cons, List.isEmpty_nil, bind_pure_comp, Functor.map_map]

/-! ## 2. Nothing is left to combine -/

/-- A node without combinators comes to nothing by them. -/
theorem combined?_of_no_combinators (hallOf : membersOf "allOf" node = [])
    (hanyOf : membersOf "anyOf" node = []) (honeOf : membersOf "oneOf" node = []) :
    env.combined? resolve node site = pure none := by
  rw [combined?_eq, hallOf, hanyOf, honeOf]
  rfl

/-- **What stands alone is resolved by what it says itself**, where its site presets no
    reference. -/
theorem build_of_standsAlone {members : List (String × Json)} (h : StandsAlone (.obj members))
    (hsite : site.reference = none) :
    env.build resolve (.obj members) site = (do
      let extensions ← ask (extensionsAt (.obj members) site.display)
      return finish (.obj members) (← env.ownShape resolve (.obj members) extensions site)) := by
  obtain ⟨hallOf, hanyOf, honeOf⟩ := h.combinators
  unfold build
  simp only [hsite, h.reference]
  unfold schemaShape
  simp only [combined?_of_no_combinators hallOf hanyOf honeOf, pure_bind]

end Env

/-- **A merge has no reference and no combinator left**, so what it is resolved to comes from what
    it says itself. -/
theorem Env.merge_combinatorFree (doc : Document) (options : Options) (site : Site)
    (node merged : Json) (hdoc : doc.root.hasDistinctKeys = true)
    (hkeys : node.hasDistinctKeys = true) (hsite : site.reference = none)
    (honly : OnlyAllOf (readAs node))
    (hmerges : Env.Merges { doc, options } site (readAs node) merged) :
    (reference? merged = none ∧ membersOf "allOf" merged = [] ∧ membersOf "anyOf" merged = [] ∧
      membersOf "oneOf" merged = []) ∧
    ∀ resolve, Env.combined? { doc, options } resolve (readAs node) site =
        (fun shape => some (.complete shape)) <$> resolve merged site ∧
      Env.combined? { doc, options } resolve merged site = pure none ∧
      Env.build { doc, options } resolve merged site = (do
        let extensions ← ask (extensionsAt merged site.display)
        return finish merged (← Env.ownShape { doc, options } resolve merged extensions site)) := by
  have hread : (readAs node).hasDistinctKeys = true := hasDistinctKeys_readAs hkeys
  obtain ⟨members, hmembers, rfl⟩ := map_eq_ok.mp hmerges.merge
  have hown := (standsAlone_ownKeywords hread (reference?_readAs node) honly.hasUnion_eq_false).2
  have halone : StandsAlone (.obj members) :=
    standsAlone_mergedMembers rfl hdoc
      (fun _ hmember => Json.inherited_hasDistinctKeys.membersOf hread hmember)
      hmerges.union hown hmembers
  obtain ⟨hallOf, hanyOf, honeOf⟩ := halone.combinators
  exact ⟨⟨halone.reference, hallOf, hanyOf, honeOf⟩, fun resolve =>
    ⟨combined?_of_merges honly hmerges, combined?_of_no_combinators hallOf hanyOf honeOf,
      build_of_standsAlone halone hsite⟩⟩

/-- A component that has a member of its own, and a combinator without members. -/
def namedBase : Document where
  members := [("components", .obj [("schemas", .obj [
    ("Base", .obj [("type", .str "object"), ("anyOf", .arr []),
      ("properties", .obj [("id", .obj [("type", .str "integer")])]),
      ("allOf", .arr [referenceTo "Named"])]),
    ("Named", .obj [("properties", .obj [("name", .obj [("type", .str "string")])])])])])]

/-- A reference with a keyword beside it, which is read as an `allOf`. -/
def requiredName : Json :=
  .obj [("$ref", .str "#/components/schemas/Base"), ("required", .arr [.str "name"])]

/-- What the component, its own member and the keyword come to together. -/
def requiredNameMerged : Json :=
  .obj [("type", .str "object"), ("anyOf", .arr []),
    ("properties", .obj [("id", .obj [("type", .str "integer")]),
      ("name", .obj [("type", .str "string")])]), ("required", .arr [.str "name"])]

theorem merge_combinatorFree_requiredName :
    namedBase.root.hasDistinctKeys = true ∧ requiredName.hasDistinctKeys = true ∧
      OnlyAllOf (readAs requiredName) ∧
      Env.Merges { doc := namedBase } {} (readAs requiredName) requiredNameMerged ∧
      membersOf "anyOf" requiredNameMerged = [] ∧
      ∀ resolve, Env.combined? { doc := namedBase } resolve requiredNameMerged {} = pure none := by
  have honly : OnlyAllOf (readAs requiredName) := ⟨List.cons_ne_nil _ _, rfl, rfl⟩
  have hmerges : Env.Merges { doc := namedBase } {} (readAs requiredName) requiredNameMerged :=
    ⟨rfl, .inr rfl, rfl, rfl⟩
  obtain ⟨⟨-, -, hanyOf, -⟩, hresolve⟩ := Env.merge_combinatorFree namedBase {} {} requiredName
    requiredNameMerged (by decide) (by decide) rfl honly hmerges
  exact ⟨by decide, by decide, honly, hmerges, hanyOf, fun resolve => (hresolve resolve).2.1⟩

end ApiTypes

import ApiTypes.Proofs.Compile.Distinct
import ApiTypes.Proofs.Merge.Substance

/-!
  Schemas that stand for nothing else.

  The members of an `allOf` are merged where none of them leads to a union. What they describe
  together then refers to nothing, has no members of its own and is no union: what flattening leaves
  is so (`standsAlone_flatten`), and a merge keeps it (`StandsAlone.step`).
-/

namespace ApiTypes

open Schema

/-- A schema that stands for nothing else: it refers to nothing, has no members of its own and is
    no union. -/
structure Schema.StandsAlone (node : Json) : Prop where
  reference : reference? node = none
  allOf : membersOf "allOf" node = []
  union : hasUnion node = false

namespace Schema.StandsAlone

theorem nil : StandsAlone (soFar none) := ⟨rfl, rfl, rfl⟩

theorem step {start : Option (List (String × Json))} {node : Json}
    (hstart : StandsAlone (soFar start)) (hnode : StandsAlone node)
    (hkeys : node.hasDistinctKeys = true) (h : merge start node = .ok merged) :
    StandsAlone (.obj merged) where
  reference := by
    have hget : (Json.obj merged).get? "$ref" =
        (node.get? "$ref").or ((soFar start).get? "$ref") :=
      get?_merge_of_isOverwritten hkeys h (by decide)
    have hreference := hnode.reference
    rw [reference?, text?] at hreference ⊢
    rw [hget]
    cases hvalue : node.get? "$ref" with
    | none =>
      rw [Option.none_or]
      exact hstart.reference
    | some value =>
      rw [Option.some_or]
      rwa [hvalue] at hreference
  allOf := by
    cases start with
    | none =>
      obtain rfl := Except.ok.inj h
      rw [membersOf_getD_members]
      exact hnode.allOf
    | some left => rw [membersOf, Json.get?_obj, allOf_mergeInto h]; rfl
  union := by
    cases start with
    | none =>
      obtain rfl := Except.ok.inj h
      rw [hasUnion_getD_members]
      exact hnode.union
    | some left => exact hasUnion_mergeInto hkeys hstart.union hnode.union h

end Schema.StandsAlone

/-- What a node without a union says beside its members is merged like them. -/
theorem Schema.standsAlone_ownKeywords {node : Json} (hkeys : node.hasDistinctKeys = true)
    (hreference : reference? node = none) (hunion : hasUnion node = false) :
    (soFar (ownKeywords node)).hasDistinctKeys = true ∧
      StandsAlone (soFar (ownKeywords node)) := by
  cases hown : ownKeywords node with
  | none => exact ⟨rfl, .nil⟩
  | some found =>
    refine ⟨hasDistinctKeys_ownKeywords hkeys hown, ?_⟩
    obtain ⟨members, rfl, rfl⟩ := ownKeywords_eq_some hown
    refine ⟨?_, ?_, ?_⟩
    · rwa [soFar, Option.getD_some, reference?, text?, Json.get?_obj,
        get?_erase_of_ne (by decide)]
    · simp [soFar, membersOf, Json.get?_obj, Entries.get?_erase_self]
    · rw [soFar, Option.getD_some, hasUnion_erase, hunion]

namespace Env

variable {env : Env} {site : Site} {members flat : List Json}
  (hsize : env.size = env.doc.root.size) (hdoc : env.doc.root.hasDistinctKeys = true)
  (hmembers : ∀ member ∈ members, member.hasDistinctKeys = true)
  (hunion : env.anyUnion site members = .ok false)
include hsize hdoc hmembers hunion

/-- **What flattening leaves stands alone**, where no member leads to a union. -/
theorem standsAlone_flatten {levels : Nat} (h : env.flatten site levels members = .ok flat) :
    ∀ node ∈ flat, node.hasDistinctKeys = true ∧ StandsAlone node := by
  intro node hnode
  obtain ⟨hkeys, hreference, hallOf⟩ := hasDistinctKeys_flatten hdoc hmembers h node hnode
  exact ⟨hkeys, hreference, hallOf, hasUnion_of_mem_flatten hsize hunion h node hnode⟩

/-- **What the members describe together stands alone**, where no member leads to a union. -/
theorem standsAlone_mergedMembers {own : Option (List (String × Json))}
    {merged : List (String × Json)} (hown : StandsAlone (soFar own))
    (h : env.mergedMembers site own members = .ok merged) : StandsAlone (.obj merged) := by
  refine mergedMembers_induction (fun flat hflat start merged node hnode hstart hmerge => ?_) hown h
  obtain ⟨hkeys, halone⟩ := standsAlone_flatten hsize hdoc hmembers hunion hflat node hnode
  exact hstart.step halone hkeys hmerge

end Env

end ApiTypes

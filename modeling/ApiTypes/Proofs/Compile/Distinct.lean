import ApiTypes.Proofs.Compile.Overrides
import ApiTypes.Proofs.Merge.Commutes
import ApiTypes.Proofs.Prune.Components

/-!
  Documents without repeated keys.

  A document that was read from a text has each key of an object once (`Json.hasDistinctKeys`). So
  have the schemas that a compilation takes out of it, and those that it makes: what filtering and
  pruning leave, what references lead to, a reference written as an `allOf`, what the members of an
  `allOf` describe together, and the records of parameters.
-/

namespace ApiTypes

open Json

/-! ## 1. Preparing -/

/-- **A prepared document repeats no key** when the document repeats none. -/
theorem hasDistinctKeys_prepare {document : Json} {options : Options} {doc : Document}
    {report : Option Prune.Report} (hkeys : document.hasDistinctKeys = true)
    (h : prepare document options = .ok (doc, report)) : doc.root.hasDistinctKeys = true := by
  have hfiltered := options.filter.hasDistinctKeys_apply hkeys
  rcases prepare_eq_ok h with ⟨r, -, -, hrun⟩ | ⟨-, -, hroot⟩
  · have hpruned := Prune.prune_induction (P := fun document => document.hasDistinctKeys = true)
      options.pruning (fun document => Prune.hasDistinctKeys_clean _ _ document)
      (fun keep document hdocument => by
        rw [Prune.sweep_eq_restrict keep hdocument]
        exact Prune.hasDistinctKeys_restrict hdocument) hfiltered
    rwa [hrun] at hpruned
  · rwa [hroot] at hfiltered

namespace Schema

variable {node : Json} {members merged : List (String × Json)}

/-! ## 2. Inside a schema -/

theorem hasDistinctKeys_ownKeywords {found : List (String × Json)}
    (hkeys : node.hasDistinctKeys = true) (h : ownKeywords node = some found) :
    (Json.obj found).hasDistinctKeys = true := by
  obtain ⟨members, rfl, rfl⟩ := ownKeywords_eq_some h
  exact hasDistinctKeys_filter hkeys

theorem hasDistinctKeys_expandReference (hkeys : (Json.obj members).hasDistinctKeys = true) :
    (Env.expandReference members).hasDistinctKeys = true := by
  have hparts : ∀ keep : String × Json → Bool,
      (Json.obj (members.filter keep)).hasDistinctKeys = true := fun _ =>
    hasDistinctKeys_filter hkeys
  obtain ⟨hnodup, hvalues⟩ := hasDistinctKeys_obj.mp (hparts fun entry =>
    entry.1 = "nullable" || isMetadataKey entry.1)
  refine hasDistinctKeys_obj.mpr ⟨?_, List.forall_mem_append.mpr ⟨hvalues, ?_⟩⟩
  · rw [Entries.keys, List.map_append, List.nodup_append]
    refine ⟨hnodup, List.nodup_singleton _, fun key hkey other hother heq => ?_⟩
    obtain ⟨entry, hentry, rfl⟩ := List.mem_map.mp hkey
    have hdescribes := (List.mem_filter.mp hentry).2
    have hallOf : (decide ("allOf" = "nullable") || isMetadataKey "allOf") = false := by decide
    rw [heq, List.mem_singleton.mp hother] at hdescribes
    exact Bool.false_ne_true (hallOf.symm.trans hdescribes)
  · refine List.forall_mem_singleton.mpr (itemsHaveDistinctKeys_iff.mpr fun item hitem => ?_)
    rcases List.mem_pair.mp hitem with rfl | rfl
    · exact hparts _
    · exact hparts _

/-! ## 3. Merging -/

theorem hasDistinctKeys_append {items more : List Json}
    (hitems : (Json.arr items).hasDistinctKeys = true)
    (hmore : (Json.arr more).hasDistinctKeys = true) :
    (Json.arr (items ++ more)).hasDistinctKeys = true :=
  itemsHaveDistinctKeys_iff.mpr (List.forall_mem_append.mpr
    ⟨itemsHaveDistinctKeys_iff.mp hitems, itemsHaveDistinctKeys_iff.mp hmore⟩)

theorem hasDistinctKeys_unitedProperties {old new : List (String × Json)}
    (hold : (Json.obj old).hasDistinctKeys = true) (hnew : (Json.obj new).hasDistinctKeys = true) :
    (unitedProperties (.obj old) (.obj new)).hasDistinctKeys = true :=
  List.foldlRecOn (motive := fun found => (Json.obj found).hasDistinctKeys = true) _ _ hold
    fun _ hfound entry hentry =>
      hasDistinctKeys_insert hfound ((hasDistinctKeys_obj.mp hnew).2 entry hentry)

theorem memberLaw_hasDistinctKeys : MemberLaw fun entry => entry.2.hasDistinctKeys = true where
  append _ := hasDistinctKeys_append
  noProperties := rfl
  unite := hasDistinctKeys_unitedProperties
  flag _ _ := rfl

theorem hasDistinctKeys_members (hkeys : node.hasDistinctKeys = true) :
    (Json.obj (node.members?.getD [])).hasDistinctKeys = true := by
  cases node with
  | obj members => exact hkeys
  | _ => rfl

/-- **Schemas that repeat no key merge to one that repeats none.** -/
theorem hasDistinctKeys_merge {start : Option (List (String × Json))}
    (hstart : (soFar start).hasDistinctKeys = true) (hnode : node.hasDistinctKeys = true)
    (h : merge start node = .ok merged) : (Json.obj merged).hasDistinctKeys = true := by
  have hmembers := hasDistinctKeys_obj.mp (hasDistinctKeys_members hnode)
  refine hasDistinctKeys_obj.mpr ⟨?_, memberLaw_hasDistinctKeys.merge
    (hasDistinctKeys_obj.mp hstart).2 hmembers.2 h⟩
  cases start with
  | none => exact Except.ok.inj h ▸ hmembers.1
  | some left => exact nodup_keys_mergeInto (hasDistinctKeys_obj.mp hstart).1 h

end Schema

/-! ## 4. What a compilation reads -/

namespace Env

variable {env : Env} {site : Site} {node target : Json}
  (hdoc : env.doc.root.hasDistinctKeys = true)
include hdoc

/-- What flattening leaves repeats no key, refers to nothing and has no members of its own. -/
theorem hasDistinctKeys_flatten {levels : Nat} {members flat : List Json}
    (hmembers : ∀ member ∈ members, member.hasDistinctKeys = true)
    (h : env.flatten site levels members = .ok flat) : ∀ node ∈ flat,
      node.hasDistinctKeys = true ∧ Schema.reference? node = none ∧
        Schema.membersOf "allOf" node = [] :=
  flatten_induction (P := fun node => node.hasDistinctKeys = true)
    (fun _ _ htarget => hasDistinctKeys_of_resolve? hdoc htarget)
    (fun _ => hasDistinctKeys_filter)
    (fun _ hnode _ => inherited_hasDistinctKeys.membersOf hnode) hmembers h

/-- **What members describe together repeats no key.** -/
theorem hasDistinctKeys_mergedMembers {own : Option (List (String × Json))} {members : List Json}
    {merged : List (String × Json)} (hown : (Schema.soFar own).hasDistinctKeys = true)
    (hmembers : ∀ member ∈ members, member.hasDistinctKeys = true)
    (h : env.mergedMembers site own members = .ok merged) :
    (Json.obj merged).hasDistinctKeys = true := by
  refine mergedMembers_induction (P := fun node => node.hasDistinctKeys = true)
    (fun flat hflat start merged node hnode hstart hmerge => ?_) hown h
  have hkeys := hasDistinctKeys_flatten hdoc hmembers hflat node hnode
  exact Schema.hasDistinctKeys_merge hstart hkeys.1 hmerge

end Env

/-! ## 5. Parameters and contents -/

theorem hasDistinctKeys_parameterSchema {parameter : Json}
    (hkeys : parameter.hasDistinctKeys = true) :
    (parameterSchema parameter).hasDistinctKeys = true := by
  have hschema : (((parameter.get? "schema").or (firstContentSchema? parameter)).getD
      (.obj [])).hasDistinctKeys = true := by
    cases hfound : (parameter.get? "schema").or (firstContentSchema? parameter) with
    | none => rfl
    | some schema => exact inherited_hasDistinctKeys.parameterSchema hkeys hfound
  unfold parameterSchema
  dsimp only
  split
  · exact hschema
  · refine hasDistinctKeys_mapMembers (fun members hmembers => ?_) hschema
    split
    · exact hmembers
    · exact hasDistinctKeys_insert hmembers rfl

/-- **The record of parameters repeats no key**: a name that comes again is written in its place. -/
theorem hasDistinctKeys_parameterRecord? {location : String} {parameters : List Json}
    {record : Json} (hkeys : ∀ parameter ∈ parameters, parameter.hasDistinctKeys = true)
    (h : parameterRecord? location parameters = some record) : record.hasDistinctKeys = true := by
  have hproperties : (Json.obj ((parametersAt location parameters).foldl
      (fun properties p => Entries.insert p.1 (parameterSchema p.2) properties)
        [])).hasDistinctKeys = true :=
    List.foldlRecOn (motive := fun found => (Json.obj found).hasDistinctKeys = true) _ _ rfl
      fun _ hfound p hp => hasDistinctKeys_insert hfound
        (hasDistinctKeys_parameterSchema (hkeys p.2 (mem_of_mem_parametersAt hp)))
  unfold parameterRecord? at h
  split at h
  · simp at h
  · obtain rfl := Option.some.inj h
    refine hasDistinctKeys_obj.mpr ⟨by simp [Entries.keys], ?_⟩
    refine List.forall_mem_cons.mpr ⟨rfl, List.forall_mem_cons.mpr ⟨?_,
      List.forall_mem_singleton.mpr hproperties⟩⟩
    refine itemsHaveDistinctKeys_iff.mpr fun item hitem => ?_
    obtain ⟨entry, -, rfl⟩ := List.mem_map.mp hitem
    rfl

end ApiTypes

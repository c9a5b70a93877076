import ApiTypes.Proofs.Merge.Sameness

/-!
  Merging from either side.

  * Two schemas contradict each other from both sides or from neither, and the conflict is the same
    with its sides exchanged (`mergeInto_error_flip`).
  * Where the sides agree on what a merge takes from one of them, **it does not matter which of two
    schemas is merged into which**, but for the order of `required` and `enum` (`merge_comm`).

  The second is shown keyword by keyword: a keyword holds the same in both merges, or in the two
  list keywords the same values in another order.
-/

namespace ApiTypes.Schema

variable {left right merged merged' : List (String × Json)}

/-! ## 1. Conflicts -/

/-- The conflict that the other side sees. -/
def MergeConflict.flip : MergeConflict → MergeConflict
  | .types left right => .types right left
  | .formats left right => .formats right left
  | conflict => conflict

theorem MergeConflict.flip_flip (conflict : MergeConflict) : conflict.flip.flip = conflict := by
  cases conflict <;> rfl

theorem typesClash_comm (left right : List String) :
    typesClash right left = typesClash left right := by
  unfold typesClash
  rw [Bool.and_comm (!right.isEmpty)]
  congr 1
  exact decide_eq_decide.mpr ⟨Ne.symm, Ne.symm⟩

theorem formatClash?_comm (left right : Json) :
    formatClash? right left = (formatClash? left right).map Prod.swap := by
  unfold formatClash?
  cases text? "format" left with
  | none => cases text? "format" right <;> rfl
  | some l =>
    cases text? "format" right with
    | none => rfl
    | some r =>
      by_cases h : l = r
      · simp [h]
      · simp [h, Ne.symm h]

theorem agreeOnFlag_comm (key : String) (left right : Json) :
    agreeOnFlag key right left = agreeOnFlag key left right :=
  Bool.beq_comm

theorem agreeOnBound_comm (key : String) {left right : Json} (hleft : left.hasDistinctKeys = true)
    (hright : right.hasDistinctKeys = true) :
    agreeOnBound key right left = agreeOnBound key left right := by
  have hbound : ∀ node : Json, node.hasDistinctKeys = true →
      (exclusiveBound key node).hasDistinctKeys = true := by
    intro node hnode
    unfold exclusiveBound
    split
    · rfl
    · rfl
    · rename_i value hvalue
      exact Json.hasDistinctKeys_of_get? hnode hvalue
  exact Json.same_comm (hbound right hright) (hbound left hleft)

/-- **The first opinion on which two schemas differ** is the same from both sides. -/
theorem conflict?_comm {left right : Json} (hleft : left.hasDistinctKeys = true)
    (hright : right.hasDistinctKeys = true) :
    conflict? right left = (conflict? left right).map MergeConflict.flip := by
  unfold conflict?
  rw [typesClash_comm, formatClash?_comm left, agreeOnFlag_comm "uniqueItems" left,
    agreeOnFlag_comm "readOnly" left, agreeOnFlag_comm "writeOnly" left,
    agreeOnBound_comm "exclusiveMinimum" hleft hright,
    agreeOnBound_comm "exclusiveMaximum" hleft hright, Bool.and_comm (right.get? "default").isSome]
  by_cases htypes : typesClash (types left) (types right) = true
  · simp [htypes, MergeConflict.flip]
  · simp only [htypes, Bool.false_eq_true, if_false]
    cases formatClash? left right with
    | some formats => rfl
    | none =>
      simp only [Option.map_none]
      split_ifs <;> rfl

namespace Openness

variable {opinion other both both' : Openness}

/-- What both say together is the same from either side: nothing, or opinions written alike. -/
theorem merge?_comm (hopinion : ∀ schema, opinion = .restricted schema →
      schema.IsReadable) (hother : ∀ schema, other = .restricted schema → schema.IsReadable) :
    (other.merge? opinion = none ↔ opinion.merge? other = none) ∧
      ∀ both both', opinion.merge? other = some both → other.merge? opinion = some both' →
        Json.sameOption both.keyword? both'.keyword? = true := by
  have hself : ∀ schema : Json, schema.IsReadable →
      Json.sameOption (some schema) (some schema) = true := fun schema hschema =>
    Json.same_self schema hschema
  cases opinion with
  | restricted l =>
    cases other with
    | restricted r =>
      have hcomm := Json.same_comm (hopinion l rfl).keys (hother r rfl).keys
      refine ⟨by simp [merge?, hcomm], fun both both' hboth hboth' => ?_⟩
      by_cases hsame : l.same r = true
      · simp only [merge?, hsame, ← hcomm, if_true, Option.some.injEq] at hboth hboth'
        rw [← hboth, ← hboth']
        exact hsame
      · simp [merge?, hsame] at hboth
    | closed =>
      refine ⟨by simp [merge?], fun both both' hboth hboth' => ?_⟩
      obtain rfl := Option.some.inj hboth
      obtain rfl := Option.some.inj hboth'
      rfl
    | _ =>
      refine ⟨by simp [merge?], fun both both' hboth hboth' => ?_⟩
      obtain rfl := Option.some.inj hboth
      obtain rfl := Option.some.inj hboth'
      exact hself l (hopinion l rfl)
  | _ =>
    cases other <;> refine ⟨by simp [merge?], fun both both' hboth hboth' => ?_⟩ <;>
      obtain rfl := Option.some.inj hboth <;> obtain rfl := Option.some.inj hboth' <;>
      first
      | rfl
      | exact hself _ (hother _ rfl)

end Openness

/-- What a readable schema says of properties that it does not name is readable. -/
theorem isReadable_of_restricted {schema : Json} (hleft : (Json.obj left).IsReadable)
    (h : Openness.ofKeyword (Entries.get? "additionalProperties" left) = .restricted schema) :
    schema.IsReadable :=
  hleft.get? (Openness.eq_some_of_restricted h)

/-- **When a merge fails.** -/
theorem mergeInto_eq_error {node : Json} {conflict : MergeConflict} :
    mergeInto left node = .error conflict ↔
      conflict? (.obj left) node = some conflict ∨
        conflict? (.obj left) node = none ∧ conflict = .additionalProperties ∧
          (Openness.ofKeyword (Entries.get? "additionalProperties" left)).merge?
            (.ofKeyword (node.get? "additionalProperties")) = none := by
  unfold mergeInto
  dsimp only [Json.get?_obj]
  cases hconflict : conflict? (.obj left) node with
  | some found => simp
  | none =>
    cases (Openness.ofKeyword (Entries.get? "additionalProperties" left)).merge?
        (.ofKeyword (node.get? "additionalProperties")) with
    | none => simp [@eq_comm _ MergeConflict.additionalProperties]
    | some both => simp

/-- **A merge fails from both sides or from neither**, for the same reason. -/
theorem mergeInto_error_flip (hleft : (Json.obj left).IsReadable)
    (hright : (Json.obj right).IsReadable) (conflict : MergeConflict) :
    mergeInto right (.obj left) = .error conflict.flip ↔
      mergeInto left (.obj right) = .error conflict := by
  have hflip : ∀ other : MergeConflict, other.flip = conflict.flip ↔ other = conflict :=
    fun other => ⟨fun h => by rw [← other.flip_flip, h, conflict.flip_flip], congrArg _⟩
  have hadditional : conflict.flip = .additionalProperties ↔ conflict = .additionalProperties :=
    ⟨fun h => ((hflip .additionalProperties).mp h.symm).symm, by rintro rfl; rfl⟩
  have hopenness := (Openness.merge?_comm (fun _ => isReadable_of_restricted hleft)
    (fun _ => isReadable_of_restricted hright)).1
  rw [mergeInto_eq_error, mergeInto_eq_error, conflict?_comm hleft.keys hright.keys]
  simp only [Json.get?_obj, Option.map_eq_some_iff, Option.map_eq_none_iff, hflip, exists_eq_right,
    hadditional, hopenness]

/-! ## 2. Keywords -/

/-- Whether a merge appends what both sides hold under a keyword. -/
def isListKeyword (key : String) : Bool := key = "required" || key = "enum"

/-- What two schemas may both say when it is not to matter which is merged into which. -/
structure Agree (left right : List (String × Json)) : Prop where
  others : ∀ key ∉ ["required", "enum", "additionalProperties", "nullable", "allOf", "properties"],
    ∀ l r, Entries.get? key left = some l → Entries.get? key right = some r → l.same r = true
  lists : ∀ side ∈ [left, right], ∀ key, isListKeyword key = true →
    ∀ value, Entries.get? key side = some value → ∃ items, value = .arr items
  objects : ∀ side ∈ [left, right], ∀ value, Entries.get? "properties" side = some value →
    ∃ members, value = .obj members
  shared : ∀ old new, Entries.get? "properties" left = some (.obj old) →
    Entries.get? "properties" right = some (.obj new) →
    ∀ name l r, Entries.get? name old = some l → Entries.get? name new = some r → l.same r = true

theorem nodup_keys_erase {key : String} (h : (Entries.keys left).Nodup) :
    (Entries.keys (Entries.erase key left)).Nodup :=
  h.sublist (List.filter_sublist.map _)

theorem nodup_keys_setKeyword {key : String} (h : (Entries.keys left).Nodup)
    (value : Option Json) : (Entries.keys (setKeyword key value left)).Nodup := by
  cases value with
  | none => exact nodup_keys_erase h
  | some value => exact Entries.nodup_keys_insert h

theorem nodup_keys_takeKeyword {keepType : Bool} (h : (Entries.keys left).Nodup)
    (entry : String × Json) : (Entries.keys (takeKeyword keepType left entry)).Nodup := by
  obtain ⟨key, value⟩ := entry
  have hlist : (Entries.keys (appendList key value left)).Nodup := by
    unfold appendList
    split
    · split <;> exact Entries.nodup_keys_insert h
    · exact h
  simp only [takeKeyword]
  split_ifs
  · exact h
  · exact hlist
  · exact Entries.nodup_keys_insert h
  · exact h
  · exact Entries.nodup_keys_insert h

/-- A merge repeats no keyword. -/
theorem nodup_keys_mergeInto {node : Json} (hleft : (Entries.keys left).Nodup)
    (h : mergeInto left node = .ok merged) : (Entries.keys merged).Nodup := by
  obtain ⟨openness, nullable, -, rfl⟩ := mergeInto_eq_ok h
  refine nodup_keys_setKeyword (nodup_keys_setKeyword (nodup_keys_erase ?_) _) _
  exact List.foldlRecOn (motive := fun into => (Entries.keys into).Nodup) _ _ hleft
    fun into hinto entry _ => nodup_keys_takeKeyword hinto entry

theorem nullable_mergeInto {node : Json} (h : mergeInto left node = .ok merged) :
    Entries.get? "nullable" merged =
      if isNullable (.obj left) || isNullable node then some (.bool true) else none := by
  unfold mergeInto at h
  dsimp only at h
  split at h
  · simp at h
  · split at h
    · simp at h
    · rw [← Except.ok.inj h, get?_setKeyword_self]

/-- United properties hold what the right side has under a name, or else the left. -/
theorem get?_foldl_insert {new : List (String × Json)} (hnew : (Entries.keys new).Nodup)
    (name : String) (old : List (String × Json)) :
    Entries.get? name (new.foldl (fun acc entry => Entries.insert entry.1 entry.2 acc) old) =
      (Entries.get? name new).or (Entries.get? name old) := by
  induction new generalizing old with
  | nil => rfl
  | cons entry rest ih =>
    obtain ⟨key, value⟩ := entry
    obtain ⟨hkey, hrest⟩ := List.nodup_cons.mp hnew
    rw [List.foldl_cons, ih hrest, Entries.get?_cons]
    by_cases hname : key = name
    · subst hname
      rw [Entries.get?_eq_none_iff.mpr hkey, if_pos rfl, Entries.get?_insert_self]
      rfl
    · rw [Entries.get?_insert_of_ne (Ne.symm hname), if_neg hname]

/-- What either side has, or else the other, is the same where they agree. -/
theorem sameOption_or_comm {l r : Option Json} (hl : ∀ value, l = some value → value.IsReadable)
    (hr : ∀ value, r = some value → value.IsReadable)
    (h : ∀ value other, l = some value → r = some other → value.same other = true) :
    Json.sameOption (r.or l) (l.or r) = true := by
  cases l with
  | none => simpa using Json.sameOption_self hr
  | some l =>
    cases r with
    | none => simpa using Json.sameOption_self hl
    | some r => exact Json.same_symm l r (hl l rfl).keys (hr r rfl).keys (h l r rfl rfl)

/-- Properties are united to the same from either side. -/
theorem unitedProperties_comm {old new : List (String × Json)} (hold : (Json.obj old).IsReadable)
    (hnew : (Json.obj new).IsReadable)
    (h : ∀ name l r, Entries.get? name old = some l → Entries.get? name new = some r →
      l.same r = true) :
    (unitedProperties (.obj old) (.obj new)).same (unitedProperties (.obj new) (.obj old)) =
      true := by
  have hnodup : ∀ added into : List (String × Json), (Entries.keys into).Nodup →
      (Entries.keys (added.foldl (fun acc entry => Entries.insert entry.1 entry.2 acc)
        into)).Nodup := fun added into hinto =>
    List.foldlRecOn (motive := fun acc => (Entries.keys acc).Nodup) _ _ hinto
      fun acc hacc entry _ => Entries.nodup_keys_insert hacc
  refine Json.same_obj_of_forall (hnodup _ _ hold.nodup) (hnodup _ _ hnew.nodup) fun name => ?_
  rw [get?_foldl_insert hnew.nodup, get?_foldl_insert hold.nodup]
  exact sameOption_or_comm (fun _ => hold.get?) (fun _ => hnew.get?) (h name)

/-! ## 3. Both merges -/

/-- The same members, but for the order inside the list keywords. -/
def Reordered : List (String × Json) → List (String × Json) → Prop :=
  List.Forall₂ fun entry entry' => entry.1 = entry'.1 ∧ (entry.2 = entry'.2 ∨
    isListKeyword entry.1 = true ∧ ∃ xs ys, entry.2 = .arr xs ∧ entry'.2 = .arr ys ∧ xs.Perm ys)

section Both

variable (hleft : (Json.obj left).IsReadable) (hright : (Json.obj right).IsReadable)
  (hmerged : mergeInto left (.obj right) = .ok merged)
  (hmerged' : mergeInto right (.obj left) = .ok merged') (hagree : Agree left right)

include hleft hright hmerged hmerged' hagree

/-- **In a list keyword both merges hold the same values**, in some order. -/
theorem perm_mergeInto {key : String} (hkey : isListKeyword key = true) :
    Entries.get? key merged = none ∧ Entries.get? key merged' = none ∨
      ∃ xs ys, Entries.get? key merged = some (.arr xs) ∧
        Entries.get? key merged' = some (.arr ys) ∧ xs.Perm ys ∧ (Json.arr ys).IsReadable := by
  have hapart : key ≠ "additionalProperties" ∧ key ≠ "nullable" ∧ key ≠ "allOf" ∧
      key ≠ "type" := by
    refine ⟨?_, ?_, ?_, ?_⟩ <;> rintro rfl <;> exact absurd hkey (by decide)
  obtain ⟨hadditional, hnullable, hallOf, htype⟩ := hapart
  have htaken : ∀ keepType old value,
      takenValue keepType key old value = appendedValue old value := by
    intro keepType old value
    simp only [isListKeyword] at hkey
    simp [takenValue, htype, hkey]
  rw [get?_mergeInto hadditional hnullable hallOf (nodup_keys_getD_members hright.keys) hmerged,
    get?_mergeInto hadditional hnullable hallOf (nodup_keys_getD_members hleft.keys) hmerged']
  simp only [Json.get?_obj, htaken]
  have hlist := hagree.lists
  simp only [List.mem_cons, List.not_mem_nil, or_false, forall_eq_or_imp, forall_eq] at hlist
  obtain ⟨hlistLeft, hlistRight⟩ := hlist
  cases hl : Entries.get? key left with
  | none =>
    cases hr : Entries.get? key right with
    | none => exact .inl ⟨rfl, rfl⟩
    | some r =>
      obtain ⟨ys, rfl⟩ := hlistRight key hkey r hr
      exact .inr ⟨ys, ys, rfl, rfl, .refl _, hright.get? hr⟩
  | some l =>
    obtain ⟨xs, rfl⟩ := hlistLeft key hkey l hl
    cases hr : Entries.get? key right with
    | none => exact .inr ⟨xs, xs, rfl, rfl, .refl _, hleft.get? hl⟩
    | some r =>
      obtain ⟨ys, rfl⟩ := hlistRight key hkey r hr
      refine .inr ⟨xs ++ ys, ys ++ xs, rfl, rfl, List.perm_append_comm, Json.isReadable_arr.mpr ?_⟩
      intro item hitem
      rcases List.mem_append.mp hitem with hmem | hmem
      · exact Json.isReadable_arr.mp (hright.get? hr) item hmem
      · exact Json.isReadable_arr.mp (hleft.get? hl) item hmem

theorem same_type_mergeInto :
    Json.sameOption (Entries.get? "type" merged) (Entries.get? "type" merged') = true := by
  have htype : ∀ {left right merged : List (String × Json)}, (Json.obj right).IsReadable →
      mergeInto left (.obj right) = .ok merged →
      Entries.get? "type" merged = (Entries.get? "type" left).or (Entries.get? "type" right) := by
    intro left right merged hright hmerged
    rw [get?_mergeInto (by decide) (by decide) (by decide) (nodup_keys_getD_members hright.keys)
      hmerged, Json.get?_obj]
    cases hr : Entries.get? "type" right <;> cases hl : Entries.get? "type" left <;>
      simp [takenValue]
  rw [htype hright hmerged, htype hleft hmerged']
  have hsame := hagree.others "type" (by decide)
  exact sameOption_or_comm (fun _ => hright.get?) (fun _ => hleft.get?) fun value other hr hl =>
    Json.same_symm other value (hleft.get? hl).keys (hright.get? hr).keys (hsame _ _ hl hr)

theorem same_properties_mergeInto :
    Json.sameOption (Entries.get? "properties" merged) (Entries.get? "properties" merged') =
      true := by
  have htaken : ∀ keepType old value, takenValue keepType "properties" old value =
      some (unitedProperties (old.getD (.obj [])) value) := fun _ _ _ => by simp [takenValue]
  have hnodup := nodup_keys_getD_members hleft.keys
  have hnodup' := nodup_keys_getD_members hright.keys
  rw [get?_mergeInto (by decide) (by decide) (by decide) hnodup' hmerged,
    get?_mergeInto (by decide) (by decide) (by decide) hnodup hmerged']
  simp only [Json.get?_obj, htaken]
  have hobject := hagree.objects
  simp only [List.mem_cons, List.not_mem_nil, or_false, forall_eq_or_imp, forall_eq] at hobject
  cases hl : Entries.get? "properties" left with
  | none =>
    cases hr : Entries.get? "properties" right with
    | none => rfl
    | some r =>
      have hreadable := hright.get? hr
      simpa [unitedProperties_nil hreadable.keys, Json.sameOption] using
        Json.same_self r hreadable
  | some l =>
    cases hr : Entries.get? "properties" right with
    | none =>
      have hreadable := hleft.get? hl
      simpa [unitedProperties_nil hreadable.keys, Json.sameOption] using
        Json.same_self l hreadable
    | some r =>
      obtain ⟨old, rfl⟩ := hobject.1 l hl
      obtain ⟨new, rfl⟩ := hobject.2 r hr
      exact unitedProperties_comm (hleft.get? hl) (hright.get? hr) (hagree.shared old new hl hr)

/-- **Under any keyword but the two lists both merges hold the same.** -/
theorem same_mergeInto {key : String} (hkey : isListKeyword key = false) :
    Json.sameOption (Entries.get? key merged) (Entries.get? key merged') = true := by
  by_cases hadditional : key = "additionalProperties"
  · subst hadditional
    obtain ⟨openness, nullable, hopenness, rfl⟩ := mergeInto_eq_ok hmerged
    obtain ⟨openness', nullable', hopenness', rfl⟩ := mergeInto_eq_ok hmerged'
    rw [get?_setKeyword_of_ne (by decide), get?_setKeyword_self, get?_setKeyword_of_ne (by decide),
      get?_setKeyword_self]
    exact (Openness.merge?_comm (fun _ => isReadable_of_restricted hleft)
      (fun _ => isReadable_of_restricted hright)).2 _ _ hopenness hopenness'
  by_cases hnullable : key = "nullable"
  · subst hnullable
    rw [nullable_mergeInto hmerged, nullable_mergeInto hmerged', Bool.or_comm]
    split <;> rfl
  by_cases hallOf : key = "allOf"
  · subst hallOf
    rw [allOf_mergeInto hmerged, allOf_mergeInto hmerged']
    rfl
  by_cases htype : key = "type"
  · exact htype ▸ same_type_mergeInto hleft hright hmerged hmerged' hagree
  by_cases hproperties : key = "properties"
  · exact hproperties ▸ same_properties_mergeInto hleft hright hmerged hmerged' hagree
  simp only [isListKeyword, Bool.or_eq_false_iff, decide_eq_false_iff_not] at hkey
  have htaken : isTaken key = true := by
    simp [isTaken, hkey.1, hkey.2, hadditional, hnullable, hallOf]
  have hnodup := nodup_keys_getD_members hleft.keys
  have hnodup' := nodup_keys_getD_members hright.keys
  rw [get?_mergeInto_of_other htype htaken hproperties hnodup' hmerged,
    get?_mergeInto_of_other htype htaken hproperties hnodup hmerged']
  refine sameOption_or_comm (fun _ => hleft.get?) (fun _ => hright.get?) (hagree.others key ?_)
  simp [hkey.1, hkey.2, hadditional, hnullable, hallOf, hproperties]

/-- The merges are equal when the lists of the first are put in the order of the second. -/
theorem same_reordered_mergeInto :
    ∃ reordered, Reordered merged reordered ∧
      (Json.obj reordered).same (.obj merged') = true := by
  have hnodup := nodup_keys_mergeInto hleft.nodup hmerged
  have hnodup' := nodup_keys_mergeInto hright.nodup hmerged'
  -- The lists come from the other merge, every other value stays.
  let reorder (key : String) (value : Json) : Json :=
    if isListKeyword key then (Entries.get? key merged').getD value else value
  refine ⟨merged.map fun entry => (entry.1, reorder entry.1 entry.2), ?_, ?_⟩
  · refine List.forall₂_map_right_iff.mpr (List.forall₂_same.mpr fun entry hentry => ⟨rfl, ?_⟩)
    obtain ⟨key, value⟩ := entry
    cases hkey : isListKeyword key with
    | false => exact .inl (by simp [reorder, hkey])
    | true =>
      have hvalue := Entries.get?_of_mem hnodup hentry
      rcases perm_mergeInto hleft hright hmerged hmerged' hagree hkey with
        ⟨hnone, -⟩ | ⟨xs, ys, hxs, hys, hperm, -⟩
      · simp [hvalue] at hnone
      · obtain rfl := Option.some.inj (hvalue.symm.trans hxs)
        exact .inr ⟨rfl, xs, ys, rfl, by simp [reorder, hkey, hys], hperm⟩
  · refine Json.same_obj_of_forall (by rwa [Entries.keys_map]) hnodup' fun key => ?_
    rw [Entries.get?_map]
    cases hkey : isListKeyword key with
    | false =>
      simpa [reorder, hkey] using same_mergeInto hleft hright hmerged hmerged' hagree hkey
    | true =>
      rcases perm_mergeInto hleft hright hmerged hmerged' hagree hkey with
        ⟨hnone, hnone'⟩ | ⟨xs, ys, hxs, hys, -, hreadable⟩
      · simp [hnone, hnone', Json.sameOption]
      · simpa [reorder, hkey, hxs, hys, Json.sameOption] using Json.same_self _ hreadable

end Both

/-- **It does not matter which of two schemas is merged into which.** The merges fail together, for
    the same conflict seen from the other side; and where the schemas agree on what a merge takes
    from one side only, the results are equal but for the order of `required` and `enum`. -/
theorem merge_comm (hleft : (Json.obj left).IsReadable) (hright : (Json.obj right).IsReadable) :
    (∀ conflict, merge (some left) (.obj right) = .error conflict ↔
      merge (some right) (.obj left) = .error conflict.flip) ∧
    ∀ merged merged', merge (some left) (.obj right) = .ok merged →
      merge (some right) (.obj left) = .ok merged' → Agree left right →
      ∃ reordered, Reordered merged reordered ∧
        (Json.obj reordered).same (.obj merged') = true :=
  ⟨fun conflict => (mergeInto_error_flip hleft hright conflict).symm,
    fun _ _ hmerged hmerged' hagree =>
      same_reordered_mergeInto hleft hright hmerged hmerged' hagree⟩

/-- A closed record with one property. -/
def closedRecord : List (String × Json) :=
  [("type", .str "object"), ("required", .arr [.str "id"]),
    ("properties", .obj [("id", .obj [("type", .str "string")])]),
    ("additionalProperties", .bool false), ("description", .str "A record.")]

/-- A nullable record that has the same property and one more. -/
def widerRecord : List (String × Json) :=
  [("description", .str "A record."), ("nullable", .bool true), ("minProperties", .int 1),
    ("properties", .obj [("size", .obj [("type", .str "integer")]),
      ("id", .obj [("type", .str "string")])]), ("required", .arr [.str "size"])]

theorem agree_closedRecord : Agree closedRecord widerRecord where
  others key hkey l r hl hr := by
    have hleft := Entries.mem_of_get? hl
    have hright := Entries.mem_of_get? hr
    simp only [closedRecord, widerRecord, List.mem_cons, Prod.mk.injEq, List.not_mem_nil,
      or_false] at hleft hright hkey
    rcases hright with ⟨rfl, rfl⟩ | ⟨rfl, rfl⟩ | ⟨rfl, rfl⟩ | ⟨rfl, rfl⟩ | ⟨rfl, rfl⟩ <;> simp_all
    rfl
  lists side hside key hkey value hvalue := by
    have hmem := Entries.mem_of_get? hvalue
    simp only [isListKeyword, Bool.or_eq_true, decide_eq_true_eq] at hkey
    rcases hkey with rfl | rfl <;> rcases List.mem_pair.mp hside with rfl | rfl <;>
      simp [closedRecord, widerRecord] at hmem <;> exact ⟨_, hmem⟩
  objects side hside value hvalue := by
    have hmem := Entries.mem_of_get? hvalue
    rcases List.mem_pair.mp hside with rfl | rfl <;> simp [closedRecord, widerRecord] at hmem <;>
      exact ⟨_, hmem⟩
  shared old new hold hnew name l r hl hr := by
    obtain rfl : _ = old := Json.obj.inj (Option.some.inj hold)
    obtain rfl : _ = new := Json.obj.inj (Option.some.inj hnew)
    have hleft := Entries.mem_of_get? hl
    simp only [List.mem_singleton, Prod.mk.injEq] at hleft
    obtain ⟨rfl, rfl⟩ := hleft
    obtain rfl := Option.some.inj hr
    rfl

theorem merge_comm_closedRecord :
    ∃ merged merged', merge (some closedRecord) (.obj widerRecord) = .ok merged ∧
      merge (some widerRecord) (.obj closedRecord) = .ok merged' ∧
      ∃ reordered, Reordered merged reordered ∧
        (Json.obj reordered).same (.obj merged') = true :=
  ⟨_, _, rfl, rfl, (merge_comm ⟨by decide, by decide⟩ ⟨by decide, by decide⟩).2 _ _ rfl rfl
    agree_closedRecord⟩

end ApiTypes.Schema

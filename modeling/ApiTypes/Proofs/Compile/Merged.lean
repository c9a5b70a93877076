import ApiTypes.Proofs.Compile.Flatten
import ApiTypes.Proofs.Compile.Unions
import Mathlib.Data.List.Perm.Subperm

/-!
  Merging what pruning left.

  Where the members of an `allOf` merge, the cleaned members, if they merge too, give a schema that
  says the same. A member of which the cleanup leaves nothing may be missing among them.

  A merge treats some keywords apart; all others it takes over one by one, before the cleanup or
  after it (`cleanMembers_foldl_takeKeyword`). The keywords apart are followed by what they say.
-/

namespace ApiTypes

open Prune

variable {allowed : List String} {kept : String → Prop} {members : List (String × Json)}
  {keepType : Bool}

/-! ## 1. Keywords that are taken over -/

/-- Whether a merge takes a keyword over, and does not treat it apart. -/
def isTaken (key : String) : Bool :=
  !(["required", "enum", "nullable", "additionalProperties", "allOf"].contains key)

/-- The members with keywords that a merge takes over. -/
def takenOf (members : List (String × Json)) : List (String × Json) :=
  members.filter fun entry => isTaken entry.1

theorem get?_takenOf {key : String} (h : isTaken key = true) :
    Entries.get? key (takenOf members) = Entries.get? key members :=
  (Entries.get?_filter isTaken).trans (if_pos h)

theorem takenOf_insert_of_not {key : String} {value : Json} (h : isTaken key = false) :
    takenOf (Entries.insert key value members) = takenOf members :=
  (Entries.filter_insert isTaken).trans (by rw [h]; rfl)

theorem takenOf_insert {key : String} {value : Json} (h : isTaken key = true) :
    takenOf (Entries.insert key value members) = Entries.insert key value (takenOf members) :=
  (Entries.filter_insert isTaken).trans (by rw [h]; rfl)

theorem takenOf_appendList {key : String} {value : Json} (h : isTaken key = false) :
    takenOf (Schema.appendList key value members) = takenOf members := by
  unfold Schema.appendList
  split
  · split <;> exact takenOf_insert_of_not h
  · rfl

theorem takenOf_takeKeyword (entry : String × Json) :
    takenOf (Schema.takeKeyword keepType members entry) =
      if isTaken entry.1 then Schema.takeKeyword keepType (takenOf members) entry
      else takenOf members := by
  obtain ⟨key, value⟩ := entry
  have hproperties : Entries.get? "properties" (takenOf members) =
      Entries.get? "properties" members := get?_takenOf rfl
  simp only [Schema.takeKeyword, Bool.and_eq_true, Bool.or_eq_true, decide_eq_true_eq]
  split_ifs with htype htaken hlist htaken hprops htaken hapart htaken htaken
  · rfl
  · rfl
  · rcases hlist with rfl | rfl <;> exact absurd htaken (by decide)
  · exact takenOf_appendList (by simpa using htaken)
  · subst hprops
    rw [hproperties, takenOf_insert htaken]
  · exact takenOf_insert_of_not (by simpa using htaken)
  · rfl
  · rfl
  · exact takenOf_insert htaken
  · exact takenOf_insert_of_not (by simpa using htaken)

theorem takenOf_foldl_takeKeyword (into right : List (String × Json)) :
    takenOf (right.foldl (Schema.takeKeyword keepType) into) =
      (takenOf right).foldl (Schema.takeKeyword keepType) (takenOf into) := by
  induction right generalizing into with
  | nil => rfl
  | cons entry rest ih =>
    rw [List.foldl_cons, ih, takenOf_takeKeyword]
    cases htaken : isTaken entry.1 <;> simp [takenOf, htaken]

/-- Two values of `properties` may be united before the cleanup or after it. -/
theorem clean_unitedProperties (old new : Json) :
    clean allowed (.mapOf .schema) (Schema.unitedProperties old new) =
      Schema.unitedProperties (clean allowed (.mapOf .schema) old)
        (clean allowed (.mapOf .schema) new) := by
  have hinserts : ∀ (right left : List (String × Json)),
      cleanMembers allowed (.mapOf .schema)
          (right.foldl (fun acc entry => Entries.insert entry.1 entry.2 acc) left) =
        (cleanMembers allowed (.mapOf .schema) right).foldl
          (fun acc entry => Entries.insert entry.1 entry.2 acc)
          (cleanMembers allowed (.mapOf .schema) left) := by
    intro right
    induction right with
    | nil => exact fun _ => rfl
    | cons entry rest ih =>
      intro left
      rw [List.foldl_cons, ih, cleanMembers_insert]
      rfl
  cases old <;> cases new <;> first | rfl | exact congrArg Json.obj (hinserts _ _)

/-- A keyword that is taken over may be taken before the cleanup or after it. -/
theorem cleanMembers_takeKeyword {entry : String × Json} (h : isTaken entry.1 = true) :
    cleanMembers allowed .schema (Schema.takeKeyword keepType members entry) =
      if keepsKey allowed .schema entry.1 then
        Schema.takeKeyword keepType (cleanMembers allowed .schema members)
          (entry.1, clean allowed (schemaPart entry.1) entry.2)
      else cleanMembers allowed .schema members := by
  obtain ⟨key, value⟩ := entry
  change isTaken key = true at h
  simp only [Schema.takeKeyword, Bool.and_eq_true, Bool.or_eq_true, decide_eq_true_eq]
  split_ifs with htype hkeep hlist hkeep hprops hkeep hapart hkeep hkeep
  · rfl
  · rfl
  · rcases hlist with rfl | rfl <;> exact absurd h (by decide)
  · rcases hlist with rfl | rfl <;> exact absurd h (by decide)
  · subst hprops
    have hold : (Entries.get? "properties" (cleanMembers allowed .schema members)).getD (.obj []) =
        clean allowed (.mapOf .schema) ((Entries.get? "properties" members).getD (.obj [])) := by
      have hget : Entries.get? "properties" (cleanMembers allowed .schema members) =
          (Entries.get? "properties" members).map (clean allowed (.mapOf .schema)) :=
        @get?_clean_of_isLasting allowed .schema "properties" (.obj members) rfl
      rw [hget]
      cases Entries.get? "properties" members <;> rfl
    rw [cleanMembers_insert, if_pos hkeep, hold]
    exact congrArg (Entries.insert "properties" · _) (clean_unitedProperties _ _)
  · rw [cleanMembers_insert, if_neg hkeep]
  · rcases hapart with (rfl | rfl) | rfl <;> exact absurd h (by decide)
  · rcases hapart with (rfl | rfl) | rfl <;> exact absurd h (by decide)
  · rw [cleanMembers_insert, if_pos hkeep]
    rfl
  · rw [cleanMembers_insert, if_neg hkeep]

/-- **What is taken over may be taken before the cleanup or after it.** -/
theorem cleanMembers_foldl_takeKeyword {right : List (String × Json)}
    (h : ∀ entry ∈ right, isTaken entry.1 = true) (into : List (String × Json)) :
    cleanMembers allowed .schema (right.foldl (Schema.takeKeyword keepType) into) =
      (cleanMembers allowed .schema right).foldl (Schema.takeKeyword keepType)
        (cleanMembers allowed .schema into) := by
  induction right generalizing into with
  | nil => rfl
  | cons entry rest ih =>
    obtain ⟨hentry, hrest⟩ := List.forall_mem_cons.mp h
    rw [List.foldl_cons, ih hrest, cleanMembers_takeKeyword hentry]
    obtain ⟨key, value⟩ := entry
    cases hkeep : keepsKey allowed .schema key <;> simp [cleanMembers, hkeep, childPart]

/-- Properties that are united with none stay as they are. -/
theorem unitedProperties_nil {value : Json} (hkeys : value.hasDistinctKeys = true) :
    Schema.unitedProperties (.obj []) value = value := by
  cases value with
  | obj entries =>
    refine congrArg Json.obj (Entries.foldl_append (Json.hasDistinctKeys_obj.mp hkeys).1
      (fun into entry _ hnew => Entries.insert_of_not_mem hnew) [] (by simp [Entries.keys]))
  | _ => rfl

/-- Keywords that are taken over into nothing are there as they were. -/
theorem foldl_takeKeyword_nil {right : List (String × Json)}
    (hkeys : (Json.obj right).hasDistinctKeys = true)
    (h : ∀ entry ∈ right, isTaken entry.1 = true) :
    right.foldl (Schema.takeKeyword false) [] = right := by
  obtain ⟨hnodup, hvalues⟩ := Json.hasDistinctKeys_obj.mp hkeys
  refine Entries.foldl_append hnodup (fun into entry hentry hnew => ?_) [] (by simp [Entries.keys])
  have htaken := h entry hentry
  have hvalue := hvalues entry hentry
  obtain ⟨key, value⟩ := entry
  change isTaken key = true at htaken
  simp only [Schema.takeKeyword, Bool.and_false, Bool.false_eq_true, if_false, Bool.or_eq_true,
    decide_eq_true_eq]
  split_ifs with hlist hprops hapart
  · rcases hlist with rfl | rfl <;> exact absurd htaken (by decide)
  · subst hprops
    rw [Entries.get?_eq_none_iff.mpr hnew, Option.getD_none, unitedProperties_nil hvalue,
      Entries.insert_of_not_mem hnew]
  · rcases hapart with (rfl | rfl) | rfl <;> exact absurd htaken (by decide)
  · exact Entries.insert_of_not_mem hnew

/-! ## 2. Additional properties -/

namespace Schema.Openness

/-- What the cleanup leaves of what a schema says of properties that it does not name. -/
def trimmed (allowed : List String) : Openness → Openness
  | .restricted schema => ofKeyword (some (clean allowed .schema schema))
  | openness => openness

/-- Whether a restriction says something. -/
def IsProper (openness : Openness) : Prop :=
  ∀ schema, openness = .restricted schema → ofKeyword (some schema) = .restricted schema

variable {openness left right merged : Openness}

theorem isProper_ofKeyword (value : Option Json) : IsProper (ofKeyword value) := by
  intro schema h
  unfold ofKeyword at h
  split at h
  · simp at h
  · simp at h
  · split at h
    · simp at h
    · rename_i hempty
      obtain rfl := Openness.restricted.inj h
      simp only [ofKeyword, if_neg hempty]
  · simp at h

/-- A restriction is what the keyword holds. -/
theorem eq_some_of_restricted {value : Option Json} {schema : Json}
    (h : ofKeyword value = .restricted schema) : value = some schema := by
  unfold ofKeyword at h
  split at h
  · simp at h
  · simp at h
  · split at h
    · simp at h
    · exact congrArg some (Openness.restricted.inj h)
  · simp at h

theorem ofKeyword_keyword? (h : IsProper openness) : ofKeyword openness.keyword? = openness := by
  cases openness with
  | restricted schema => exact h schema rfl
  | _ => rfl

/-- The cleaned keyword says what the cleanup leaves. -/
theorem ofKeyword_clean (value : Option Json) :
    ofKeyword (value.map (clean allowed .schema)) = (ofKeyword value).trimmed allowed := by
  cases value with
  | none => rfl
  | some value =>
    cases value with
    | obj members =>
      cases members with
      | nil => rfl
      | cons entry rest => rfl
    | bool b => cases b <;> rfl
    | _ => rfl

theorem merge?_unsaid (openness : Openness) : openness.merge? .unsaid = some openness := by
  cases openness <;> rfl

theorem unsaid_merge? (openness : Openness) : merge? .unsaid openness = some openness := by
  cases openness <;> rfl

theorem eq_unsaid_of_trimmed (h : IsProper openness)
    (htrimmed : openness.trimmed allowed = .unsaid) :
    openness = .unsaid := by
  cases openness with
  | restricted schema =>
    have hproper := h schema rfl
    cases schema with
    | obj members =>
      simp only [trimmed, clean, ofKeyword] at htrimmed
      split at htrimmed <;> simp at htrimmed
    | bool b => cases b <;> simp [ofKeyword] at hproper
    | _ => simp [ofKeyword] at hproper
  | _ => exact htrimmed

/-- Two members say together what one of them says. -/
theorem eq_or_eq_of_merge? (h : left.merge? right = some merged) :
    merged = left ∨ merged = right := by
  cases left <;> cases right <;> simp only [merge?] at h <;>
    first
    | exact .inl (Option.some.inj h).symm
    | exact .inr (Option.some.inj h).symm
    | split at h
      · exact .inl (Option.some.inj h).symm
      · simp at h

theorem isProper_merge? (hleft : IsProper left) (hright : IsProper right)
    (h : left.merge? right = some merged) : IsProper merged := by
  rcases eq_or_eq_of_merge? h with rfl | rfl
  · exact hleft
  · exact hright

/-- Deeply equal objects have the same keys. -/
theorem keys_subset_of_same {members others : List (String × Json)}
    (hkeys : (Entries.keys members).Nodup)
    (hsame : Json.same (.obj members) (.obj others) = true) :
    Entries.keys others ⊆ Entries.keys members := by
  simp only [Json.same, Bool.and_eq_true, beq_iff_eq] at hsame
  obtain ⟨hlength, hmembers⟩ := hsame
  have hsub : Entries.keys members ⊆ Entries.keys others := by
    clear hkeys hlength
    induction members with
    | nil => simp [Entries.keys]
    | cons entry rest ih =>
      obtain ⟨key, value⟩ := entry
      rw [Json.sameMembers, Bool.and_eq_true] at hmembers
      refine List.cons_subset.mpr ⟨?_, ih hmembers.2⟩
      by_contra hkey
      simp [Entries.get?_eq_none_iff.mpr hkey] at hmembers
  have hperm := (List.subperm_of_subset hkeys hsub).perm_of_length_le
    (by simp [Entries.keys, hlength])
  exact hperm.symm.subset

theorem cleanMembers_eq_nil_iff {members : List (String × Json)} :
    cleanMembers allowed .schema members = [] ↔
      ∀ key ∈ Entries.keys members, keepsKey allowed .schema key = false := by
  simp [cleanMembers_eq, Entries.keys]

/-- A restriction that says something has members. -/
theorem exists_members_of_isProper {schema : Json} (h : IsProper (.restricted schema)) :
    ∃ members, schema = .obj members := by
  have hschema := h schema rfl
  cases schema with
  | obj members => exact ⟨members, rfl⟩
  | bool b => cases b <;> simp [ofKeyword] at hschema
  | _ => simp [ofKeyword] at hschema

@[simp] theorem trimmed_closed : trimmed allowed .closed = .closed := rfl

@[simp] theorem trimmed_open : trimmed allowed .open = .open := rfl

@[simp] theorem trimmed_unsaid : trimmed allowed .unsaid = .unsaid := rfl

theorem trimmed_restricted (members : List (String × Json)) :
    (restricted (.obj members)).trimmed allowed =
      if (cleanMembers allowed .schema members).isEmpty then .open
      else .restricted (.obj (cleanMembers allowed .schema members)) := rfl

/-- A restriction is one after the cleanup, or restricts nothing. -/
theorem trimmed_of_isProper {schema : Json} (h : IsProper (.restricted schema)) :
    (restricted schema).trimmed allowed = .open ∨
      ∃ cleaned, (restricted schema).trimmed allowed = .restricted cleaned := by
  obtain ⟨members, rfl⟩ := exists_members_of_isProper h
  rw [trimmed_restricted]
  split
  · exact .inl rfl
  · exact .inr ⟨_, rfl⟩

/-- Whether no other properties are allowed. -/
def isClosed : Openness → Bool
  | .closed => true
  | _ => false

theorem isClosed_trimmed (h : IsProper openness) :
    (openness.trimmed allowed).isClosed = openness.isClosed := by
  cases openness with
  | restricted schema =>
    rcases trimmed_of_isProper h with htrimmed | ⟨cleaned, htrimmed⟩ <;>
      rw [htrimmed] <;> rfl
  | _ => rfl

/-- **What two members say together may be cleaned before or after**, if the cleaned members do
    not contradict each other. -/
theorem trimmed_merge? (hleft : IsProper left) (hright : IsProper right)
    (hkeys : ∀ schema, left = .restricted schema → schema.hasDistinctKeys = true)
    (h : left.merge? right = some merged) {other : Openness}
    (hother : (left.trimmed allowed).merge? (right.trimmed allowed) = some other) :
    other = merged.trimmed allowed := by
  cases left with
  | restricted l =>
    obtain ⟨a, rfl⟩ := exists_members_of_isProper hleft
    have hnodup := (Json.hasDistinctKeys_obj.mp (hkeys _ rfl)).1
    cases right with
    | restricted r =>
      obtain ⟨b, rfl⟩ := exists_members_of_isProper hright
      simp only [merge?] at h
      split at h
      · rename_i hsame
        obtain rfl := Option.some.inj h
        have hkeysSub := keys_subset_of_same hnodup hsame
        simp only [trimmed_restricted] at hother ⊢
        by_cases hempty : cleanMembers allowed .schema a = []
        · have hnone : cleanMembers allowed .schema b = [] :=
            cleanMembers_eq_nil_iff.mpr fun key hkey =>
              cleanMembers_eq_nil_iff.mp hempty key (hkeysSub hkey)
          simpa [hempty, hnone, merge?] using hother.symm
        · simp only [List.isEmpty_iff, hempty, if_false] at hother ⊢
          split at hother
          · exact (Option.some.inj hother).symm
          · simp only [merge?] at hother
            split at hother
            · exact (Option.some.inj hother).symm
            · simp at hother
      · simp at h
    | _ =>
      obtain rfl := Option.some.inj h
      rcases trimmed_of_isProper hleft with htrimmed | ⟨cleaned, htrimmed⟩ <;>
        rw [htrimmed] at hother <;> obtain rfl := Option.some.inj hother <;>
          first | rfl | exact htrimmed.symm
  | _ =>
    cases right with
    | restricted r =>
      obtain rfl := Option.some.inj h
      rcases trimmed_of_isProper hright with htrimmed | ⟨cleaned, htrimmed⟩ <;>
        rw [htrimmed] at hother <;> obtain rfl := Option.some.inj hother <;>
          first | rfl | exact htrimmed.symm
    | _ =>
      obtain rfl := Option.some.inj h
      exact (Option.some.inj hother).symm

end Schema.Openness

/-! ## 3. What a merge says -/

theorem get?_erase_of_ne {α : Type} {key other : String} (h : other ≠ key)
    (entries : List (String × α)) :
    Entries.get? other (Entries.erase key entries) = Entries.get? other entries :=
  (Entries.get?_filter fun name => name ≠ key).trans (if_pos (by simpa using h))

theorem get?_setKeyword_self (key : String) (value : Option Json) :
    Entries.get? key (Schema.setKeyword key value members) = value := by
  cases value with
  | none => exact Entries.get?_erase_self key members
  | some value => exact Entries.get?_insert_self key value members

theorem get?_setKeyword_of_ne {key other : String} (h : other ≠ key) (value : Option Json) :
    Entries.get? other (Schema.setKeyword key value members) = Entries.get? other members := by
  cases value with
  | none => exact get?_erase_of_ne h members
  | some value => exact Entries.get?_insert_of_ne h value members

theorem takenOf_erase {key : String} (h : isTaken key = false) :
    takenOf (Entries.erase key members) = takenOf members := by
  rw [takenOf, Entries.erase, List.filter_filter, takenOf]
  refine List.filter_congr fun entry _ => ?_
  by_cases hkey : entry.1 = key
  · simp [hkey, h]
  · simp [hkey]

theorem takenOf_setKeyword {key : String} (h : isTaken key = false) (value : Option Json) :
    takenOf (Schema.setKeyword key value members) = takenOf members := by
  cases value with
  | none => exact takenOf_erase h
  | some value => exact takenOf_insert_of_not h

variable {left merged : List (String × Json)} {node : Json}

theorem get?_getD_members (key : String) (node : Json) :
    Entries.get? key (node.members?.getD []) = node.get? key := by
  cases node <;> rfl

/-- What a merge makes of both sides, keyword by keyword. -/
theorem mergeInto_eq_ok (h : Schema.mergeInto left node = .ok merged) :
    ∃ openness nullable,
      (Schema.Openness.ofKeyword (Entries.get? "additionalProperties" left)).merge?
        (.ofKeyword (node.get? "additionalProperties")) = some openness ∧
      merged = Schema.setKeyword "nullable" nullable
        (Schema.setKeyword "additionalProperties" openness.keyword? (Entries.erase "allOf"
          ((node.members?.getD []).foldl
            (Schema.takeKeyword (Entries.get? "type" left).isSome) left))) := by
  simp only [Schema.mergeInto, Json.get?_obj] at h
  split at h
  · simp at h
  · split at h
    · simp at h
    · rename_i openness hopenness
      exact ⟨openness, _, hopenness, (Except.ok.inj h).symm⟩

/-- **What a merge takes over** it takes over from the right side into the left. -/
theorem takenOf_mergeInto (h : Schema.mergeInto left node = .ok merged) :
    takenOf merged = (takenOf (node.members?.getD [])).foldl
      (Schema.takeKeyword (Entries.get? "type" left).isSome) (takenOf left) := by
  obtain ⟨openness, nullable, -, rfl⟩ := mergeInto_eq_ok h
  rw [takenOf_setKeyword (by decide), takenOf_setKeyword (by decide), takenOf_erase (by decide),
    takenOf_foldl_takeKeyword]

theorem openness_mergeInto (h : Schema.mergeInto left node = .ok merged) :
    (Schema.Openness.ofKeyword (Entries.get? "additionalProperties" left)).merge?
        (.ofKeyword (node.get? "additionalProperties")) =
      some (.ofKeyword (Entries.get? "additionalProperties" merged)) := by
  obtain ⟨openness, nullable, hopenness, rfl⟩ := mergeInto_eq_ok h
  rw [get?_setKeyword_of_ne (by decide), get?_setKeyword_self,
    Schema.Openness.ofKeyword_keyword? (Schema.Openness.isProper_merge?
      (Schema.Openness.isProper_ofKeyword _) (Schema.Openness.isProper_ofKeyword _) hopenness),
    hopenness]

theorem allOf_mergeInto (h : Schema.mergeInto left node = .ok merged) :
    Entries.get? "allOf" merged = none := by
  obtain ⟨openness, nullable, -, rfl⟩ := mergeInto_eq_ok h
  rw [get?_setKeyword_of_ne (by decide), get?_setKeyword_of_ne (by decide),
    Entries.get?_erase_self]

theorem get?_takeKeyword_of_ne {key : String} {entry : String × Json} (h : key ≠ entry.1) :
    Entries.get? key (Schema.takeKeyword keepType members entry) = Entries.get? key members := by
  obtain ⟨name, value⟩ := entry
  have hlist : Entries.get? key (Schema.appendList name value members) =
      Entries.get? key members := by
    unfold Schema.appendList
    split
    · split <;> exact Entries.get?_insert_of_ne h _ _
    · rfl
  simp only [Schema.takeKeyword]
  split_ifs
  · rfl
  · exact hlist
  · exact Entries.get?_insert_of_ne h _ _
  · rfl
  · exact Entries.get?_insert_of_ne h _ _

/-- A list of values is taken over. -/
theorem isSome_enum_takeKeyword (items : List Json) :
    (Entries.get? "enum"
      (Schema.takeKeyword keepType members ("enum", .arr items))).isSome = true := by
  have htake : Schema.takeKeyword keepType members ("enum", .arr items) =
      Schema.appendList "enum" (.arr items) members := by simp [Schema.takeKeyword]
  rw [htake, Schema.appendList]
  split <;> rw [Entries.get?_insert_self] <;> rfl

theorem isSome_enum_foldl {right : List (String × Json)}
    (hlists : ∀ values, ("enum", values) ∈ right → ∃ items, values = .arr items)
    (into : List (String × Json)) :
    (Entries.get? "enum" (right.foldl (Schema.takeKeyword keepType) into)).isSome =
      ((Entries.get? "enum" into).isSome || (Entries.get? "enum" right).isSome) := by
  induction right generalizing into with
  | nil => simp
  | cons entry rest ih =>
    rw [List.foldl_cons, ih fun values hmem => hlists values (List.mem_cons_of_mem _ hmem)]
    obtain ⟨name, value⟩ := entry
    by_cases hname : name = "enum"
    · subst hname
      obtain ⟨items, rfl⟩ := hlists value List.mem_cons_self
      simp [isSome_enum_takeKeyword, Entries.get?_cons]
    · rw [get?_takeKeyword_of_ne (Ne.symm hname)]
      simp [Entries.get?_cons, hname]

theorem isSome_enum_mergeInto
    (hlists : ∀ values, ("enum", values) ∈ node.members?.getD [] → ∃ items, values = .arr items)
    (h : Schema.mergeInto left node = .ok merged) :
    (Entries.get? "enum" merged).isSome =
      ((Entries.get? "enum" left).isSome || (node.get? "enum").isSome) := by
  obtain ⟨openness, nullable, -, rfl⟩ := mergeInto_eq_ok h
  rw [get?_setKeyword_of_ne (by decide), get?_setKeyword_of_ne (by decide),
    get?_erase_of_ne (by decide), isSome_enum_foldl hlists, get?_getD_members]

/-- What stands under a list keyword after a value of the right side was appended. -/
def appendedValue (old : Option Json) (value : Json) : Option Json :=
  match value, old with
  | .arr extra, some (.arr existing) => some (.arr (existing ++ extra))
  | .arr extra, _ => some (.arr extra)
  | _, old => old

/-- What stands under a keyword after a value of the right side was taken over. -/
def takenValue (keepType : Bool) (key : String) (old : Option Json) (value : Json) : Option Json :=
  if key = "type" && keepType then old
  else if key = "required" || key = "enum" then appendedValue old value
  else if key = "properties" then some (Schema.unitedProperties (old.getD (.obj [])) value)
  else if key = "additionalProperties" || key = "nullable" || key = "allOf" then old
  else some value

theorem get?_takeKeyword_self (key : String) (value : Json) :
    Entries.get? key (Schema.takeKeyword keepType members (key, value)) =
      takenValue keepType key (Entries.get? key members) value := by
  have hlist : Entries.get? key (Schema.appendList key value members) =
      appendedValue (Entries.get? key members) value := by
    cases value with
    | arr extra =>
      rcases hold : Entries.get? key members with _ | old
      · simp [Schema.appendList, appendedValue, hold, Entries.get?_insert_self]
      · cases old <;> simp [Schema.appendList, appendedValue, hold, Entries.get?_insert_self]
    | _ => rfl
  unfold Schema.takeKeyword takenValue
  dsimp only
  split_ifs with htype hkeys hproperties hapart
  · rfl
  · exact hlist
  · subst hproperties
    rw [Entries.get?_insert_self]
  · rfl
  · rw [Entries.get?_insert_self]

/-- **What a keyword holds after the right side was taken over** depends on what both sides hold
    under it, and on nothing else. -/
theorem get?_foldl_takeKeyword {right : List (String × Json)} (hright : (Entries.keys right).Nodup)
    (key : String) (into : List (String × Json)) :
    Entries.get? key (right.foldl (Schema.takeKeyword keepType) into) =
      match Entries.get? key right with
      | some value => takenValue keepType key (Entries.get? key into) value
      | none => Entries.get? key into := by
  induction right generalizing into with
  | nil => rfl
  | cons entry rest ih =>
    obtain ⟨name, value⟩ := entry
    obtain ⟨hnew, hrest⟩ := List.nodup_cons.mp hright
    rw [List.foldl_cons, ih hrest, Entries.get?_cons]
    by_cases hname : name = key
    · subst hname
      rw [Entries.get?_eq_none_iff.mpr hnew, if_pos rfl, get?_takeKeyword_self]
    · rw [get?_takeKeyword_of_ne (Ne.symm hname), if_neg hname]

/-- Of a keyword that is treated like most the right side wins. -/
theorem takenValue_of_other {key : String} (htype : key ≠ "type") (htaken : isTaken key = true)
    (hproperties : key ≠ "properties") (old : Option Json) (value : Json) :
    takenValue keepType key old value = some value := by
  simp only [isTaken, List.contains_cons, List.contains_nil, Bool.or_false, Bool.not_eq_true',
    Bool.or_eq_false_iff, beq_eq_false_iff_ne] at htaken
  obtain ⟨hrequired, henum, hnullable, hadditional, hallOf⟩ := htaken
  simp [takenValue, htype, hrequired, henum, hproperties, hadditional, hnullable, hallOf]

/-- **What a merge makes of a keyword**, apart from those that it sets itself. -/
theorem get?_mergeInto {key : String} (hadditional : key ≠ "additionalProperties")
    (hnullable : key ≠ "nullable") (hallOf : key ≠ "allOf")
    (hnode : (Entries.keys (node.members?.getD [])).Nodup)
    (h : Schema.mergeInto left node = .ok merged) :
    Entries.get? key merged =
      match node.get? key with
      | some value =>
        takenValue (Entries.get? "type" left).isSome key (Entries.get? key left) value
      | none => Entries.get? key left := by
  obtain ⟨openness, nullable, -, rfl⟩ := mergeInto_eq_ok h
  rw [get?_setKeyword_of_ne hnullable, get?_setKeyword_of_ne hadditional, get?_erase_of_ne hallOf,
    get?_foldl_takeKeyword hnode, get?_getD_members]

/-- Of a keyword that is treated like most a merge takes the right side, or else the left. -/
theorem get?_mergeInto_of_other {key : String} (htype : key ≠ "type")
    (htaken : isTaken key = true) (hproperties : key ≠ "properties")
    (hnode : (Entries.keys (node.members?.getD [])).Nodup)
    (h : Schema.mergeInto left node = .ok merged) :
    Entries.get? key merged = (node.get? key).or (Entries.get? key left) := by
  have hapart : key ≠ "additionalProperties" ∧ key ≠ "nullable" ∧ key ≠ "allOf" := by
    refine ⟨?_, ?_, ?_⟩ <;> rintro rfl <;> exact absurd htaken (by decide)
  rw [get?_mergeInto hapart.1 hapart.2.1 hapart.2.2 hnode h]
  cases node.get? key with
  | none => rfl
  | some value => exact takenValue_of_other htype htaken hproperties _ value

theorem nodup_keys_getD_members (hkeys : node.hasDistinctKeys = true) :
    (Entries.keys (node.members?.getD [])).Nodup := by
  cases node with
  | obj members => exact (Json.hasDistinctKeys_obj.mp hkeys).1
  | _ => exact List.nodup_nil

/-- **Schemas that are no unions merge to none.** -/
theorem hasUnion_mergeInto (hkeys : node.hasDistinctKeys = true)
    (hleft : Schema.hasUnion (.obj left) = false) (hnode : Schema.hasUnion node = false)
    (h : Schema.mergeInto left node = .ok merged) : Schema.hasUnion (.obj merged) = false := by
  have hright := nodup_keys_getD_members hkeys
  have hmembers : ∀ key, key = "anyOf" ∨ key = "oneOf" →
      Schema.membersOf key (.obj left) = [] → Schema.membersOf key node = [] →
      Schema.membersOf key (.obj merged) = [] := by
    intro key hkey hl hr
    have hget : Entries.get? key merged = (node.get? key).or (Entries.get? key left) := by
      rcases hkey with rfl | rfl <;>
        exact get?_mergeInto_of_other (by decide) (by decide) (by decide) hright h
    rw [Schema.membersOf, Json.get?_obj, hget]
    cases hvalue : node.get? key with
    | some value => rwa [Schema.membersOf, hvalue] at hr
    | none => exact hl
  simp only [Schema.hasUnion, Bool.or_eq_false_iff, Bool.not_eq_false', List.isEmpty_iff]
    at hleft hnode ⊢
  exact ⟨hmembers _ (.inl rfl) hleft.1 hnode.1, hmembers _ (.inr rfl) hleft.2 hnode.2⟩

/-! ## 4. Merging step by step -/

/-- A member that a merge takes over: it is sound and refers to nothing. -/
structure Plain (allowed : List String) (kept : String → Prop) (entry : String × Json) : Prop where
  sound : Sound allowed kept (schemaPart entry.1) entry.2
  reference : entry.1 = "$ref" → entry.2.string? = none

/-- Two schemas that say the same, the second after a cleanup. Beside their members they may differ
    in what a merge treats apart, as long as that says the same. -/
structure Mirrors (allowed : List String) (kept : String → Prop)
    (members members' : List (String × Json)) : Prop where
  taken : takenOf members' = cleanMembers allowed .schema (takenOf members)
  enum : (Entries.get? "enum" members').isSome = (Entries.get? "enum" members).isSome
  openness : Schema.Openness.ofKeyword (Entries.get? "additionalProperties" members') =
    (Schema.Openness.ofKeyword (Entries.get? "additionalProperties" members)).trimmed allowed
  plain : ∀ entry ∈ takenOf members, Plain allowed kept entry
  restricted : ∀ schema, Schema.Openness.ofKeyword (Entries.get? "additionalProperties" members) =
    .restricted schema → Sound allowed kept .schema schema

/-- A merge so far, and the merge of what the cleanup leaves: they say the same. -/
structure Merging (allowed : List String) (kept : String → Prop)
    (left left' : List (String × Json)) : Prop extends Mirrors allowed kept left left' where
  allOf : Schema.membersOf "allOf" (.obj left) = []
  allOf' : Schema.membersOf "allOf" (.obj left') = []
  union : Schema.hasUnion (.obj left) = false

/-- A schema that is merged: it is flat and no union. -/
structure Mergeable (allowed : List String) (kept : String → Prop) (node : Json) : Prop
    extends Flat allowed kept node where
  union : Schema.hasUnion node = false

theorem takenOf_clean (members : List (String × Json)) :
    takenOf (cleanMembers allowed .schema members) =
      cleanMembers allowed .schema (takenOf members) :=
  (cleanMembers_filter isTaken).symm

theorem members?_clean_schema (node : Json) :
    (clean allowed .schema node).members?.getD [] =
      cleanMembers allowed .schema (node.members?.getD []) := by
  cases node <;> rfl

/-- Sound properties are sound together. -/
theorem sound_unitedProperties {old new : Json} (hold : Sound allowed kept (.mapOf .schema) old)
    (hnew : Sound allowed kept (.mapOf .schema) new) :
    Sound allowed kept (.mapOf .schema) (Schema.unitedProperties old new) := by
  cases new with
  | obj right =>
    cases old with
    | obj left =>
      simp only [Schema.unitedProperties]
      have hright : ∀ entry ∈ right, Sound allowed kept .schema entry.2 :=
        fun entry hentry => hnew.named hentry
      clear hnew
      induction right generalizing left with
      | nil => exact hold
      | cons entry rest ih =>
        obtain ⟨hentry, hrest⟩ := List.forall_mem_cons.mp hright
        exact ih _ (hold.insertNamed hentry) hrest
    | _ => exact hnew
  | _ => cases old <;> exact hnew

/-- What restricts the properties that a sound schema does not name is sound. -/
theorem Sound.restricted {schema : Json} (h : Sound allowed kept .schema node)
    (hschema : Schema.Openness.ofKeyword (node.get? "additionalProperties") = .restricted schema) :
    Sound allowed kept .schema schema :=
  h.get? (by simp) rfl
    (Schema.Openness.eq_some_of_restricted hschema)

/-- The cleaned schema says of other properties what the cleanup leaves. -/
theorem openness_clean (node : Json) :
    Schema.Openness.ofKeyword ((clean allowed .schema node).get? "additionalProperties") =
      (Schema.Openness.ofKeyword (node.get? "additionalProperties")).trimmed allowed := by
  rw [get?_clean_of_isLasting rfl]
  exact Schema.Openness.ofKeyword_clean _

theorem membersOf_getD_members (key : String) (node : Json) :
    Schema.membersOf key (.obj (node.members?.getD [])) = Schema.membersOf key node := by
  rw [Schema.membersOf, Json.get?_obj, get?_getD_members, Schema.membersOf]

theorem hasUnion_getD_members :
    Schema.hasUnion (.obj (node.members?.getD [])) = Schema.hasUnion node := by
  simp only [Schema.hasUnion, membersOf_getD_members]

/-- What is taken over stays plain. -/
theorem Plain.takeKeyword {entry : String × Json}
    (hleft : ∀ entry ∈ members, Plain allowed kept entry) (hentry : Plain allowed kept entry)
    (htaken : isTaken entry.1 = true) :
    ∀ new ∈ Schema.takeKeyword keepType members entry, Plain allowed kept new := by
  obtain ⟨key, value⟩ := entry
  change isTaken key = true at htaken
  intro new hnew
  simp only [Schema.takeKeyword, Bool.and_eq_true, Bool.or_eq_true, decide_eq_true_eq] at hnew
  split_ifs at hnew with htype hlist hprops hapart
  · exact hleft new hnew
  · rcases hlist with rfl | rfl <;> exact absurd htaken (by decide)
  · subst hprops
    rcases Entries.mem_insert hnew with rfl | hnew
    · have hold : Sound allowed kept (.mapOf .schema)
          ((Entries.get? "properties" members).getD (.obj [])) := by
        cases hget : Entries.get? "properties" members with
        | none => exact .noNames
        | some old => exact (hleft _ (Entries.mem_of_get? hget)).sound
      exact ⟨sound_unitedProperties hold hentry.sound, by simp⟩
    · exact hleft new hnew
  · exact hleft new hnew
  · rcases Entries.mem_insert hnew with rfl | hnew
    · exact hentry
    · exact hleft new hnew

theorem Plain.foldl_takeKeyword {right : List (String × Json)}
    (hright : ∀ entry ∈ takenOf right, Plain allowed kept entry)
    (hleft : ∀ entry ∈ members, Plain allowed kept entry) :
    ∀ new ∈ (takenOf right).foldl (Schema.takeKeyword keepType) members,
      Plain allowed kept new := by
  have htaken : ∀ entry ∈ takenOf right, isTaken entry.1 = true :=
    fun entry hentry => (List.mem_filter.mp hentry).2
  generalize takenOf right = taken at hright htaken
  induction taken generalizing members with
  | nil => exact hleft
  | cons entry rest ih =>
    obtain ⟨hentry, hrest⟩ := List.forall_mem_cons.mp hright
    obtain ⟨htakenEntry, htakenRest⟩ := List.forall_mem_cons.mp htaken
    exact ih (Plain.takeKeyword hleft hentry htakenEntry) hrest htakenRest

theorem Sound.plain (h : Sound allowed kept .schema node)
    (hreference : Schema.reference? node = none) :
    ∀ entry ∈ takenOf (node.members?.getD []), Plain allowed kept entry := by
  cases node with
  | obj members =>
    intro entry hentry
    have hmem : entry ∈ members := List.mem_of_mem_filter hentry
    have hget : Entries.get? entry.1 members = some entry.2 :=
      Entries.get?_of_mem (Json.hasDistinctKeys_obj.mp h.keys).1 hmem
    refine ⟨h.schemaMember hmem, fun hkey => ?_⟩
    rwa [Schema.reference?, Schema.text?, Json.get?_obj, ← hkey, hget] at hreference
  | _ => simp [takenOf, Json.members?]

/-- A sound schema that refers to nothing says the same after the cleanup. -/
theorem Sound.mirrors (h : Sound allowed kept .schema node)
    (hreference : Schema.reference? node = none) :
    Mirrors allowed kept (node.members?.getD [])
      ((clean allowed .schema node).members?.getD []) where
  taken := by rw [members?_clean_schema, takenOf_clean]
  enum := by rw [get?_getD_members, get?_getD_members, isSome_get?_clean rfl]
  openness := by rw [get?_getD_members, get?_getD_members, openness_clean]
  plain := h.plain hreference
  restricted schema hschema := by
    rw [get?_getD_members] at hschema
    exact h.restricted hschema

namespace Flat

variable (h : Flat allowed kept node)
include h

/-- What is taken over of the cleaned schema has distinct keys. -/
theorem keys_taken_clean :
    (Json.obj (takenOf ((clean allowed .schema node).members?.getD []))).hasDistinctKeys =
      true := by
  rw [members?_clean_schema, takenOf_clean]
  cases node with
  | obj members =>
    exact hasDistinctKeys_clean allowed .schema _ (h.sound.filter isTaken).keys
  | _ => rfl

theorem enumList : ∀ values, ("enum", values) ∈ node.members?.getD [] →
    ∃ items, values = .arr items := by
  cases node with
  | obj members =>
    intro values hmem
    exact h.sound.enum (Entries.get?_of_mem (Json.hasDistinctKeys_obj.mp h.sound.keys).1 hmem)
  | _ => simp [Json.members?]

theorem enumList_clean : ∀ values,
    ("enum", values) ∈ (clean allowed .schema node).members?.getD [] →
      ∃ items, values = .arr items := by
  intro values hmem
  rw [members?_clean_schema, cleanMembers_eq] at hmem
  obtain ⟨⟨key, old⟩, hold, heq⟩ := List.mem_map.mp hmem
  obtain ⟨rfl, rfl⟩ := Prod.mk.inj heq
  obtain ⟨items, rfl⟩ := h.enumList old (List.mem_of_mem_filter hold)
  exact ⟨items, rfl⟩

end Flat

/-- Both sides have a type, or neither. -/
theorem Mirrors.isSome_type {members' : List (String × Json)}
    (h : Mirrors allowed kept members members') :
    (Entries.get? "type" members').isSome = (Entries.get? "type" members).isSome := by
  have hclean : ((clean allowed .schema (.obj (takenOf members))).get? "type").isSome =
      ((Json.obj (takenOf members)).get? "type").isSome := isSome_get?_clean rfl
  simp only [clean, Json.get?_obj] at hclean
  rw [← get?_takenOf (by decide), h.taken, hclean, get?_takenOf (by decide)]

namespace Merging

variable {left' merged' : List (String × Json)}

/-- Before anything is merged. -/
theorem nil : Merging allowed kept [] [] where
  taken := rfl
  enum := rfl
  openness := rfl
  allOf := rfl
  allOf' := rfl
  plain := by simp [takenOf]
  restricted := by simp [Schema.Openness.ofKeyword]
  union := rfl

/-- The first member is merged as it is. -/
theorem first (hnode : Mergeable allowed kept node) :
    Merging allowed kept (node.members?.getD [])
      ((clean allowed .schema node).members?.getD []) where
  toMirrors := hnode.sound.mirrors hnode.reference
  allOf := (membersOf_getD_members _ _).trans hnode.allOf
  allOf' := by rw [membersOf_getD_members, membersOf_clean rfl rfl, hnode.allOf, List.map_nil]
  union := hasUnion_getD_members.trans hnode.union

/-- What of a merge does not depend on the other side. -/
theorem plain_mergeInto (h : Merging allowed kept left left') (hnode : Mergeable allowed kept node)
    (hok : Schema.mergeInto left node = .ok merged) :
    ∀ entry ∈ takenOf merged, Plain allowed kept entry := by
  rw [takenOf_mergeInto hok]
  exact Plain.foldl_takeKeyword (hnode.sound.plain hnode.reference) h.plain

theorem restricted_mergeInto (h : Merging allowed kept left left')
    (hnode : Mergeable allowed kept node) (hok : Schema.mergeInto left node = .ok merged) :
    ∀ schema, Schema.Openness.ofKeyword (Entries.get? "additionalProperties" merged) =
      .restricted schema → Sound allowed kept .schema schema := by
  intro schema hschema
  rcases Schema.Openness.eq_or_eq_of_merge? (openness_mergeInto hok) with heq | heq
  · exact h.restricted schema (heq ▸ hschema)
  · exact hnode.sound.restricted (heq ▸ hschema)

theorem union_mergeInto (h : Merging allowed kept left left') (hnode : Mergeable allowed kept node)
    (hok : Schema.mergeInto left node = .ok merged) : Schema.hasUnion (.obj merged) = false :=
  hasUnion_mergeInto hnode.sound.keys h.union hnode.union hok

theorem allOf_of_mergeInto {members : List (String × Json)}
    (hok : Schema.mergeInto members node = .ok merged) :
    Schema.membersOf "allOf" (.obj merged) = [] := by
  rw [Schema.membersOf, Json.get?_obj, allOf_mergeInto hok]
  rfl

/-- **Merging a member and the cleaned member** keeps both merges alike. -/
theorem step (h : Merging allowed kept left left') (hnode : Mergeable allowed kept node)
    (hok : Schema.mergeInto left node = .ok merged)
    (hok' : Schema.mergeInto left' (clean allowed .schema node) = .ok merged') :
    Merging allowed kept merged merged' where
  taken := by
    have htaken : ∀ entry ∈ takenOf (node.members?.getD []), isTaken entry.1 = true :=
      fun entry hentry => (List.mem_filter.mp hentry).2
    rw [takenOf_mergeInto hok', takenOf_mergeInto hok, cleanMembers_foldl_takeKeyword htaken,
      h.isSome_type, h.taken, members?_clean_schema, takenOf_clean]
  enum := by
    rw [isSome_enum_mergeInto hnode.enumList hok, isSome_enum_mergeInto hnode.enumList_clean hok',
      h.enum, isSome_get?_clean rfl]
  openness := by
    have hopenness := openness_mergeInto hok'
    rw [h.openness, openness_clean] at hopenness
    exact Schema.Openness.trimmed_merge? (Schema.Openness.isProper_ofKeyword _)
      (Schema.Openness.isProper_ofKeyword _)
      (fun schema hschema => (h.restricted schema hschema).keys)
      (openness_mergeInto hok) hopenness
  allOf := allOf_of_mergeInto hok
  allOf' := allOf_of_mergeInto hok'
  plain := h.plain_mergeInto hnode hok
  restricted := h.restricted_mergeInto hnode hok
  union := h.union_mergeInto hnode hok

/-- A member of which the cleanup leaves nothing says nothing of what is merged. -/
theorem skip (h : Merging allowed kept left left') (hnode : Mergeable allowed kept node)
    (hempty : clean allowed .schema node = .obj [])
    (hok : Schema.mergeInto left node = .ok merged) : Merging allowed kept merged left' where
  taken := by
    have htaken : ∀ entry ∈ takenOf (node.members?.getD []), isTaken entry.1 = true :=
      fun entry hentry => (List.mem_filter.mp hentry).2
    have hnone : cleanMembers allowed .schema (takenOf (node.members?.getD [])) = [] := by
      rw [← takenOf_clean, ← members?_clean_schema, hempty]
      rfl
    rw [takenOf_mergeInto hok, cleanMembers_foldl_takeKeyword htaken, hnone, List.foldl_nil,
      h.taken]
  enum := by
    have hnone : (node.get? "enum").isSome = false := by
      have hclean : ((clean allowed .schema node).get? "enum").isSome =
          (node.get? "enum").isSome := isSome_get?_clean rfl
      rw [← hclean, hempty]
      rfl
    rw [isSome_enum_mergeInto hnode.enumList hok, hnone, Bool.or_false, h.enum]
  openness := by
    have hopenness := openness_mergeInto hok
    have hnone : node.get? "additionalProperties" = none := by
      have hclean : ((clean allowed .schema node).get? "additionalProperties").isSome =
          (node.get? "additionalProperties").isSome := isSome_get?_clean rfl
      rw [← Option.not_isSome_iff_eq_none, ← hclean, hempty]
      exact Bool.false_ne_true
    rw [hnone] at hopenness
    have heq := (Schema.Openness.merge?_unsaid _).symm.trans hopenness
    rw [h.openness, Option.some.inj heq]
  allOf := allOf_of_mergeInto hok
  allOf' := h.allOf'
  plain := h.plain_mergeInto hnode hok
  restricted := h.restricted_mergeInto hnode hok
  union := h.union_mergeInto hnode hok

/-- The first member of which the cleanup leaves something is merged as it is, though others of
    which it leaves nothing came before. -/
theorem fresh (h : Merging allowed kept left []) (hnode : Mergeable allowed kept node)
    (hok : Schema.mergeInto left node = .ok merged) :
    Merging allowed kept merged ((clean allowed .schema node).members?.getD []) where
  taken := by
    have htaken : ∀ entry ∈ takenOf (node.members?.getD []), isTaken entry.1 = true :=
      fun entry hentry => (List.mem_filter.mp hentry).2
    have hkeepType : (Entries.get? "type" left).isSome = false := h.isSome_type.symm
    have hnone : cleanMembers allowed .schema (takenOf left) = [] := h.taken.symm
    rw [takenOf_mergeInto hok, cleanMembers_foldl_takeKeyword htaken, hnone, hkeepType,
      ← takenOf_clean, ← members?_clean_schema]
    exact (foldl_takeKeyword_nil hnode.keys_taken_clean
      fun entry hentry => (List.mem_filter.mp hentry).2).symm
  enum := by
    have hnone : (Entries.get? "enum" left).isSome = false := h.enum.symm
    rw [isSome_enum_mergeInto hnode.enumList hok, hnone, Bool.false_or, get?_getD_members,
      isSome_get?_clean rfl]
  openness := by
    have hunsaid := Schema.Openness.eq_unsaid_of_trimmed
      (Schema.Openness.isProper_ofKeyword _) h.openness.symm
    have hopenness := openness_mergeInto hok
    rw [hunsaid, Schema.Openness.unsaid_merge?] at hopenness
    rw [get?_getD_members, openness_clean, Option.some.inj hopenness]
  allOf := allOf_of_mergeInto hok
  allOf' := by rw [membersOf_getD_members, membersOf_clean rfl rfl, hnode.allOf, List.map_nil]
  plain := h.plain_mergeInto hnode hok
  restricted := h.restricted_mergeInto hnode hok
  union := h.union_mergeInto hnode hok

end Merging

/-! ## 5. Merging lists -/

theorem mergeAll_cons_eq_ok {start merged : Option (List (String × Json))} {node : Json}
    {rest : List Json} :
    Schema.mergeAll start (node :: rest) = .ok merged ↔
      ∃ first, Schema.merge start node = .ok first ∧
        Schema.mergeAll (some first) rest = .ok merged := by
  unfold Schema.mergeAll
  rw [List.foldlM_cons]
  cases Schema.merge start node <;> simp [Except.map, bind, Except.bind]

namespace Schema

/-- The schema that was merged so far. -/
def soFar (start : Option (List (String × Json))) : Json := .obj (start.getD [])

/-- **What every member keeps, a merge of all of them keeps.** -/
theorem mergeAll_induction {P : Json → Prop} {start result : Option (List (String × Json))}
    {nodes : List Json}
    (hstep : ∀ start merged, ∀ node ∈ nodes, P (soFar start) → merge start node = .ok merged →
      P (.obj merged))
    (hstart : P (soFar start)) (h : mergeAll start nodes = .ok result) : P (soFar result) := by
  induction nodes generalizing start with
  | nil => exact Except.ok.inj h ▸ hstart
  | cons node rest ih =>
    obtain ⟨next, hnext, h⟩ := mergeAll_cons_eq_ok.mp h
    have hrest := fun start merged node hnode =>
      hstep start merged node (List.mem_cons_of_mem _ hnode)
    refine ih hrest ?_ h
    exact hstep start next node List.mem_cons_self hstart hnext

end Schema

/-- A list merged so far, if anything came yet, and what the cleanup leaves of it. -/
inductive MergedAlike (allowed : List String) (kept : String → Prop) :
    Option (List (String × Json)) → Option (List (String × Json)) → Prop where
  | nothing : MergedAlike allowed kept none none
  | merged {left : List (String × Json)} {left' : Option (List (String × Json))}
    (h : Merging allowed kept left (left'.getD [])) : MergedAlike allowed kept (some left) left'

namespace MergedAlike

variable {start start' : Option (List (String × Json))}

theorem keep (h : MergedAlike allowed kept start start') (hnode : Mergeable allowed kept node)
    {merged' : List (String × Json)} (hok : Schema.merge start node = .ok merged)
    (hok' : Schema.merge start' (clean allowed .schema node) = .ok merged') :
    MergedAlike allowed kept (some merged) (some merged') := by
  cases h with
  | nothing =>
    obtain rfl := Except.ok.inj hok
    obtain rfl := Except.ok.inj hok'
    exact .merged (.first hnode)
  | merged h =>
    cases start' with
    | none =>
      obtain rfl := Except.ok.inj hok'
      exact .merged (h.fresh hnode hok)
    | some left' => exact .merged (h.step hnode hok hok')

theorem skip (h : MergedAlike allowed kept start start') (hnode : Mergeable allowed kept node)
    (hempty : clean allowed .schema node = .obj []) (hok : Schema.merge start node = .ok merged) :
    MergedAlike allowed kept (some merged) start' := by
  cases h with
  | nothing =>
    obtain rfl := Except.ok.inj hok
    have hfirst := Merging.first hnode
    rw [hempty] at hfirst
    exact .merged hfirst
  | merged h => exact .merged (h.skip hnode hempty hok)

/-- **Lists merge alike**, where the cleaned list merges at all. -/
theorem mergeAll {nodes nodes' : List Json} {merged merged' : Option (List (String × Json))}
    (hthinned : Thinned allowed nodes nodes') (h : MergedAlike allowed kept start start')
    (hnodes : ∀ node ∈ nodes, Mergeable allowed kept node)
    (hok : Schema.mergeAll start nodes = .ok merged)
    (hok' : Schema.mergeAll start' nodes' = .ok merged') :
    MergedAlike allowed kept merged merged' := by
  induction hthinned generalizing start start' with
  | nil =>
    obtain rfl := Except.ok.inj hok
    obtain rfl := Except.ok.inj hok'
    exact h
  | keep node _ ih =>
    obtain ⟨hnode, hrest⟩ := List.forall_mem_cons.mp hnodes
    obtain ⟨first, hfirst, hok⟩ := mergeAll_cons_eq_ok.mp hok
    obtain ⟨first', hfirst', hok'⟩ := mergeAll_cons_eq_ok.mp hok'
    exact ih (h.keep hnode hfirst hfirst') hrest hok hok'
  | skip hempty _ ih =>
    obtain ⟨hnode, hrest⟩ := List.forall_mem_cons.mp hnodes
    obtain ⟨first, hfirst, hok⟩ := mergeAll_cons_eq_ok.mp hok
    exact ih (h.skip hnode hempty hfirst) hrest hok hok'

theorem getD (h : MergedAlike allowed kept start start') :
    Merging allowed kept (start.getD []) (start'.getD []) := by
  cases h with
  | nothing => exact .nil
  | merged h => exact h

end MergedAlike

/-- **The cleaned members merge alike**, or do not merge. -/
theorem Trims.mergedMembers {env env' : Env} {site site' : Site}
    (h : Trims allowed kept env env') {own own' : Option (List (String × Json))}
    {members : List Json} {merged : List (String × Json)}
    (hown : MergedAlike allowed kept own own')
    (hmembers : ∀ member ∈ members, Sound allowed kept .schema member)
    (hunion : env.anyUnion site members = .ok false)
    (hok : env.mergedMembers site own members = .ok merged) :
    Finds (env'.mergedMembers site' own' (members.map (clean allowed .schema)))
      (Merging allowed kept merged) := by
  obtain ⟨flat, hflatten, hok⟩ := bind_eq_ok.mp hok
  obtain ⟨⟨flat', hflatten', hthinned⟩, hflat⟩ := h.flatten hmembers hflatten
  unfold Env.mergedMembers
  rw [hflatten']
  cases hmerge : Schema.mergeAll own flat with
  | error conflict => simp [hmerge] at hok
  | ok result =>
    simp only [hmerge] at hok
    obtain rfl := Except.ok.inj hok
    cases hmerge' : Schema.mergeAll own' flat' with
    | error conflict =>
      simp only [bind, Except.bind, hmerge']
      rfl
    | ok result' =>
      simp only [bind, Except.bind, hmerge']
      have hmergeable : ∀ node ∈ flat, Mergeable allowed kept node := fun node hnode =>
        ⟨hflat node hnode, Env.hasUnion_of_mem_flatten h.size hunion hflatten node hnode⟩
      exact (hown.mergeAll hthinned hmergeable hmerge hmerge').getD

end ApiTypes

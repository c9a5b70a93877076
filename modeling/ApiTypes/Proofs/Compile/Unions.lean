import ApiTypes.Proofs.Compile.Flatten

/-!
  Looking for unions in a document and in a pruned one.

  The search for a union has a limit. The limit is far enough: no step beyond it changes the answer
  (`anyUnion_eq`), for a step follows a reference that was not followed before, or goes down from
  where the last reference led. So the limit may be the same in both documents, and then the
  searches go the same way.
-/

namespace ApiTypes

open Prune

/-! ## 1. Sizes and texts -/

namespace Json

mutual

/-- The texts in a value. -/
def texts : Json → List String
  | .str s => [s]
  | .arr items => textsOfItems items
  | .obj members => textsOfMembers members
  | .null | .bool _ | .int _ | .float _ => []
termination_by structural value => value

/-- The texts in the elements of an array. -/
def textsOfItems : List Json → List String
  | [] => []
  | item :: rest => item.texts ++ textsOfItems rest
termination_by structural items => items

/-- The texts in the members of an object. -/
def textsOfMembers : List (String × Json) → List String
  | [] => []
  | (_, value) :: rest => value.texts ++ textsOfMembers rest
termination_by structural members => members

end

mutual

theorem length_texts_le : (value : Json) → value.texts.length ≤ value.size
  | .str _ => Nat.le_refl _
  | .arr items => by
    have h := length_textsOfItems_le items
    simp only [texts, size]
    omega
  | .obj members => by
    have h := length_textsOfMembers_le members
    simp only [texts, size]
    omega
  | .null | .bool _ | .int _ | .float _ => Nat.zero_le _

/-- There are no more texts than values. -/
theorem length_textsOfItems_le : (items : List Json) →
    (textsOfItems items).length ≤ sizeOfItems items
  | [] => Nat.le_refl _
  | item :: rest => by
    have hitem := length_texts_le item
    have hrest := length_textsOfItems_le rest
    simp only [textsOfItems, sizeOfItems, List.length_append]
    omega

theorem length_textsOfMembers_le : (members : List (String × Json)) →
    (textsOfMembers members).length ≤ sizeOfMembers members
  | [] => Nat.le_refl _
  | (_, value) :: rest => by
    have hvalue := length_texts_le value
    have hrest := length_textsOfMembers_le rest
    simp only [textsOfMembers, sizeOfMembers, List.length_append]
    omega

end

theorem size_pos (value : Json) : 0 < value.size := by
  cases value <;> simp only [size] <;> omega

/-- A value with at most so many values in it, and no texts but these. -/
structure Within (limit : Nat) (known : List String) (value : Json) : Prop where
  size : value.size ≤ limit
  texts : value.texts ⊆ known

namespace Within

variable {limit : Nat} {known : List String} {value part : Json}

theorem self (value : Json) : value.Within value.size value.texts :=
  ⟨Nat.le_refl _, List.Subset.refl _⟩

theorem mono (h : value.Within limit known) {more : Nat} {others : List String}
    (hlimit : limit ≤ more) (hknown : known ⊆ others) : value.Within more others :=
  ⟨h.size.trans hlimit, List.Subset.trans h.texts hknown⟩

theorem of_mem_items {items : List Json} (h : part ∈ items) :
    part.Within (sizeOfItems items) (textsOfItems items) := by
  induction items with
  | nil => exact absurd h List.not_mem_nil
  | cons item rest ih =>
    rcases List.mem_cons.mp h with rfl | hrest
    · exact ⟨Nat.le_add_right _ _, List.subset_append_left _ _⟩
    · exact (ih hrest).mono (Nat.le_add_left _ _) (List.subset_append_right _ _)

theorem of_mem_members {key : String} {members : List (String × Json)}
    (h : (key, part) ∈ members) :
    part.Within (sizeOfMembers members) (textsOfMembers members) := by
  induction members with
  | nil => exact absurd h List.not_mem_nil
  | cons entry rest ih =>
    obtain ⟨name, other⟩ := entry
    rcases List.mem_cons.mp h with heq | hrest
    · obtain ⟨-, rfl⟩ := Prod.mk.inj heq
      exact ⟨Nat.le_add_right _ _, List.subset_append_left _ _⟩
    · exact (ih hrest).mono (Nat.le_add_left _ _) (List.subset_append_right _ _)

/-- A child is smaller than its value. -/
theorem of_child? {token : String} (h : value.child? token = some part) :
    part.Within (value.size - 1) value.texts := by
  cases value with
  | obj members =>
    refine (of_mem_members (Entries.mem_of_get? h)).mono ?_ (List.Subset.refl _)
    simp only [Json.size]
    omega
  | arr items =>
    obtain ⟨index, -, hitem⟩ := Option.bind_eq_some_iff.mp h
    refine (of_mem_items (List.mem_of_getElem? hitem)).mono ?_ (List.Subset.refl _)
    simp only [Json.size]
    omega
  | _ => simp [Json.child?] at h

theorem of_at? : ∀ {path : List String} {value : Json}, value.at? path = some part →
    part.Within value.size value.texts
  | [], _, h => by
    obtain rfl := Option.some.inj h
    exact self _
  | _ :: _, _, h => by
    obtain ⟨next, hnext, hpart⟩ := Option.bind_eq_some_iff.mp h
    have hchild := of_child? hnext
    exact (of_at? hpart).mono (hchild.size.trans (Nat.sub_le _ _)) hchild.texts

/-- What a reference points at is no larger than the document. -/
theorem of_resolve? {reference : String} (h : value.resolve? reference = some part) :
    part.Within value.size value.texts := by
  unfold Json.resolve? at h
  split at h
  · obtain rfl := Option.some.inj h
    exact self _
  · exact of_at? h
  · simp at h

/-- The members of a combinator are smaller than the schema. -/
theorem of_mem_membersOf {key : String} (h : part ∈ Schema.membersOf key value) :
    part.Within (value.size - 1) value.texts := by
  cases hget : value.get? key with
  | none => simp [Schema.membersOf, hget] at h
  | some list =>
    have hlist := of_child? (Json.child?_of_get? hget)
    cases list with
    | arr items =>
      have hmem : part ∈ items := by simpa [Schema.membersOf, hget, Json.items?] using h
      refine (of_mem_items hmem).mono ?_ hlist.texts
      have hsize := hlist.size
      simp only [Json.size] at hsize
      omega
    | _ => simp [Schema.membersOf, hget, Json.items?] at h

end Within

/-- The reference of a node is one of its texts. -/
theorem reference?_mem_texts {node : Json} {reference : String}
    (h : Schema.reference? node = some reference) : reference ∈ node.texts := by
  obtain ⟨value, hget, hstring⟩ := Option.bind_eq_some_iff.mp h
  cases value with
  | str text =>
    obtain rfl := Option.some.inj hstring
    exact (Within.of_child? (Json.child?_of_get? hget)).texts List.mem_cons_self
  | _ => simp [Json.string?] at hstring

end Json

/-! ## 2. How far a search goes -/

/-- How many of the texts were not seen. -/
def unseen (texts seen : List String) : Nat := (texts.filter (!seen.contains ·)).length

theorem unseen_le (texts : List String) {seen more : List String} (h : seen ⊆ more) :
    unseen texts more ≤ unseen texts seen := by
  refine (List.monotone_filter_right _ fun text htext => ?_).length_le
  simp only [Bool.not_eq_true', List.contains_eq_mem, decide_eq_false_iff_not] at htext ⊢
  exact fun hmem => htext (h hmem)

/-- Seeing a text leaves fewer. -/
theorem unseen_cons_lt {texts seen : List String} {text : String} (hmem : text ∈ texts)
    (hnot : text ∉ seen) : unseen texts (text :: seen) < unseen texts seen := by
  have hsplit : texts.filter (fun other => !(text :: seen).contains other) =
      (texts.filter (fun other => !seen.contains other)).filter (· != text) := by
    rw [List.filter_filter]
    refine List.filter_congr fun other _ => ?_
    by_cases hother : other = text <;> simp [hother]
  unfold unseen
  rw [hsplit]
  refine List.length_filter_lt_length_iff_exists.mpr ⟨text, List.mem_filter.mpr ⟨hmem, ?_⟩, ?_⟩
  · simpa using hnot
  · simp

/-- How many steps a search may still take from a node: each text is a reference to follow once,
    to a value of limited size. -/
def searchLeft (limit : Nat) (texts seen : List String) (node : Json) : Nat :=
  unseen texts seen * (limit + 1) + node.size

namespace Env

variable {env : Env} {site : Site} {limit : Nat} {known seen : List String} {node target : Json}

theorem within_follow (hdoc : env.doc.root.Within limit known) {hops : Nat}
    (hnode : node.Within limit known) (h : env.follow site hops node = .ok target) :
    target.Within limit known := by
  induction hops generalizing node with
  | zero =>
    unfold Env.follow at h
    split at h
    · exact Except.ok.inj h ▸ hnode
    · simp at h
  | succ hops ih =>
    unfold Env.follow at h
    split at h
    · exact Except.ok.inj h ▸ hnode
    · obtain ⟨next, hnext, h⟩ := bind_eq_ok.mp h
      have hwithin := Json.Within.of_resolve? (resolve_eq_ok.mp hnext)
      exact ih (hwithin.mono hdoc.size hdoc.texts) h

/-- A node without a reference stands for itself. -/
theorem deref_of_reference?_eq_none (h : Schema.reference? node = none) :
    env.deref node site = .ok node := by
  rw [Env.deref, Env.follow, h]

/-- **A step of a search uses one of the steps that are left.** -/
theorem searchLeft_step (hdoc : env.doc.root.Within limit known) (hnode : node.Within limit known)
    (hnew : (Schema.reference? node).any seen.contains = false)
    (htarget : env.deref node site = .ok target) {member : Json}
    (hmember : member ∈ Schema.membersOf "allOf" target) :
    searchLeft limit known ((Schema.reference? node).toList ++ seen) member <
      searchLeft limit known seen node := by
  have hsmaller := (Json.Within.of_mem_membersOf hmember).size
  have hpos := target.size_pos
  cases hreference : Schema.reference? node with
  | none =>
    rw [deref_of_reference?_eq_none hreference] at htarget
    obtain rfl := Except.ok.inj htarget
    simp only [searchLeft, Option.toList_none, List.nil_append]
    omega
  | some reference =>
    have hlimit := (within_follow hdoc hnode htarget).size
    have hfewer : unseen known (reference :: seen) < unseen known seen := by
      refine unseen_cons_lt (hnode.texts (Json.reference?_mem_texts hreference)) ?_
      simpa [hreference] using hnew
    have hpaid := Nat.mul_le_mul_right (limit + 1) (Nat.succ_le_of_lt hfewer)
    rw [Nat.succ_mul] at hpaid
    simp only [searchLeft, Option.toList_some, List.singleton_append]
    omega

/-- A search through nodes looks only where references were seen before. -/
theorem anyUnionIn_congr
    {look look' : List String → Json → Except CompileError (Bool × List String)}
    {nodes : List Json}
    (hgrows : ∀ {seen node found seen'}, look seen node = .ok (found, seen') → seen ⊆ seen')
    (h : ∀ node ∈ nodes, ∀ more, seen ⊆ more → look more node = look' more node) :
    anyUnionIn look seen nodes = anyUnionIn look' seen nodes := by
  induction nodes generalizing seen with
  | nil => rfl
  | cons node rest ih =>
    obtain ⟨hnode, hrest⟩ := List.forall_mem_cons.mp h
    have hfirst := hnode seen (List.Subset.refl _)
    unfold anyUnionIn
    rw [← hfirst]
    cases hlook : look seen node with
    | error e => rfl
    | ok result =>
      obtain ⟨found, seen'⟩ := result
      cases found with
      | true => rfl
      | false =>
        exact ih fun node hmem more hmore =>
          hrest node hmem more (List.Subset.trans (hgrows hlook) hmore)

theorem subset_of_anyUnionIn
    {look : List String → Json → Except CompileError (Bool × List String)} {nodes : List Json}
    (hgrows : ∀ {seen node found seen'}, look seen node = .ok (found, seen') → seen ⊆ seen')
    {found : Bool} {seen' : List String} (h : anyUnionIn look seen nodes = .ok (found, seen')) :
    seen ⊆ seen' := by
  induction nodes generalizing seen with
  | nil =>
    obtain ⟨-, rfl⟩ := Prod.mk.inj (Except.ok.inj h)
    exact List.Subset.refl _
  | cons node rest ih =>
    obtain ⟨⟨found, more⟩, hlook, h⟩ := bind_eq_ok.mp h
    cases found with
    | true =>
      obtain ⟨-, rfl⟩ := Prod.mk.inj (Except.ok.inj h)
      exact hgrows hlook
    | false => exact List.Subset.trans (hgrows hlook) (ih h)

/-- What was seen stays seen. -/
theorem subset_of_leadsToUnion {fuel : Nat} {found : Bool} {seen' : List String}
    (h : env.leadsToUnion site fuel seen node = .ok (found, seen')) : seen ⊆ seen' := by
  induction fuel generalizing seen node found seen' with
  | zero =>
    obtain ⟨-, rfl⟩ := Prod.mk.inj (Except.ok.inj h)
    exact List.Subset.refl _
  | succ fuel ih =>
    unfold leadsToUnion at h
    dsimp only at h
    split at h
    · obtain ⟨-, rfl⟩ := Prod.mk.inj (Except.ok.inj h)
      exact List.Subset.refl _
    · obtain ⟨target, -, h⟩ := bind_eq_ok.mp h
      split at h
      · obtain ⟨-, rfl⟩ := Prod.mk.inj (Except.ok.inj h)
        exact List.subset_append_right _ _
      · exact List.Subset.trans (List.subset_append_right _ _) (subset_of_anyUnionIn ih h)

/-- **A step more than enough** changes nothing. -/
theorem leadsToUnion_succ (hdoc : env.doc.root.Within limit known) {fuel : Nat}
    (hnode : node.Within limit known) (hfuel : searchLeft limit known seen node ≤ fuel) :
    env.leadsToUnion site (fuel + 1) seen node = env.leadsToUnion site fuel seen node := by
  induction fuel generalizing seen node with
  | zero =>
    have hpos := node.size_pos
    unfold searchLeft at hfuel
    omega
  | succ fuel ih =>
    unfold leadsToUnion
    dsimp only
    split
    · rfl
    · rename_i hnew
      cases htarget : env.deref node site with
      | error e => rfl
      | ok target =>
        have hwithin := within_follow hdoc hnode htarget
        change (if Schema.hasUnion target = true then _ else _) =
          (if Schema.hasUnion target = true then _ else _)
        split
        · rfl
        · refine anyUnionIn_congr subset_of_leadsToUnion fun member hmember more hmore => ?_
          have hmemberWithin := Json.Within.of_mem_membersOf hmember
          refine ih (hmemberWithin.mono ((Nat.sub_le _ _).trans hwithin.size) hwithin.texts) ?_
          have hstep := searchLeft_step hdoc hnode (by simpa using hnew) htarget hmember
          have hless := Nat.mul_le_mul_right (limit + 1) (unseen_le known hmore)
          unfold searchLeft at hstep hfuel ⊢
          omega

theorem leadsToUnion_of_le (hdoc : env.doc.root.Within limit known) {fuel more : Nat}
    (hnode : node.Within limit known) (hfuel : searchLeft limit known seen node ≤ fuel)
    (hmore : fuel ≤ more) :
    env.leadsToUnion site more seen node = env.leadsToUnion site fuel seen node := by
  induction more, hmore using Nat.le_induction with
  | base => rfl
  | succ more hmore ih => rw [leadsToUnion_succ hdoc hnode (hfuel.trans hmore), ih]

/-- How far the search through members goes. -/
def searchLimit (env : Env) (members : List Json) : Nat :=
  (env.size + Json.sizeOfItems members + 1) * (env.size + Json.sizeOfItems members + 1)

/-- The texts that a search may come through. -/
def searchTexts (env : Env) (members : List Json) : List String :=
  env.doc.root.texts ++ Json.textsOfItems members

theorem within_search (hsize : env.size = env.doc.root.size) (members : List Json) :
    env.doc.root.Within (env.size + Json.sizeOfItems members) (env.searchTexts members) ∧
      ∀ member ∈ members,
        member.Within (env.size + Json.sizeOfItems members) (env.searchTexts members) :=
  ⟨⟨hsize ▸ Nat.le_add_right _ _, List.subset_append_left _ _⟩, fun _ hmember =>
    (Json.Within.of_mem_items hmember).mono (Nat.le_add_left _ _) (List.subset_append_right _ _)⟩

theorem searchLeft_le (hsize : env.size = env.doc.root.size) {members : List Json} {member : Json}
    (hmember : member ∈ members) (seen : List String) :
    searchLeft (env.size + Json.sizeOfItems members) (env.searchTexts members) seen member ≤
      env.searchLimit members := by
  have hknown : (env.searchTexts members).length ≤ env.size + Json.sizeOfItems members := by
    have htexts := env.doc.root.length_texts_le
    have hitems := Json.length_textsOfItems_le members
    simp only [searchTexts, List.length_append, hsize]
    omega
  have hunseen : unseen (env.searchTexts members) seen ≤ env.size + Json.sizeOfItems members :=
    List.filter_sublist.length_le.trans hknown
  have hpaid := Nat.mul_le_mul_right (env.size + Json.sizeOfItems members + 1) hunseen
  have hmemberSize := (Json.Within.of_mem_items hmember).size
  have hlimit : env.searchLimit members =
      (env.size + Json.sizeOfItems members) * (env.size + Json.sizeOfItems members + 1) +
        (env.size + Json.sizeOfItems members + 1) := Nat.succ_mul _ _
  unfold searchLeft
  omega

/-- **The limit of the search is far enough**: with any larger one the answer is the same. -/
theorem anyUnion_eq (hsize : env.size = env.doc.root.size) {members : List Json} {fuel : Nat}
    (hfuel : env.searchLimit members ≤ fuel) :
    env.anyUnion site members =
      (·.1) <$> anyUnionIn (env.leadsToUnion site fuel) [] members := by
  obtain ⟨hdoc, hmembers⟩ := within_search hsize members
  have hsame : anyUnionIn (env.leadsToUnion site (env.searchLimit members)) [] members =
      anyUnionIn (env.leadsToUnion site fuel) [] members :=
    anyUnionIn_congr subset_of_leadsToUnion fun member hmember more _ =>
      (leadsToUnion_of_le hdoc (hmembers member hmember) (searchLeft_le hsize hmember more)
        hfuel).symm
  rw [← hsame]
  unfold Env.anyUnion
  rw [map_eq_pure_bind]
  rfl

end Env

/-! ## 3. What a search has seen -/

namespace Env

variable {env : Env} {site : Site} {limit : Nat} {known seen : List String} {node target : Json}

/-- A node that leads to no union, if the references that were seen do not. -/
inductive Covered (seen : List String) : Json → Prop where
  | reference {node : Json} {reference : String}
    (hreference : Schema.reference? node = some reference) (hseen : reference ∈ seen) :
    Covered seen node
  | schema {node : Json} (hreference : Schema.reference? node = none)
    (hunion : Schema.hasUnion node = false)
    (hmembers : ∀ member ∈ Schema.membersOf "allOf" node, Covered seen member) : Covered seen node

theorem Covered.mono (h : Covered seen node) {more : List String} (hmore : seen ⊆ more) :
    Covered more node := by
  induction h with
  | reference hreference hseen => exact .reference hreference (hmore hseen)
  | schema hreference hunion _ ih => exact .schema hreference hunion ih

/-- What a reference leads to is covered. -/
def CoversTarget (env : Env) (site : Site) (seen : List String) (reference : String) : Prop :=
  ∀ {node target : Json}, Schema.reference? node = some reference →
    env.deref node site = .ok target → Covered seen target

theorem CoversTarget.mono {reference : String} (h : env.CoversTarget site seen reference)
    {more : List String} (hmore : seen ⊆ more) : env.CoversTarget site more reference :=
  fun hnode htarget => (h hnode htarget).mono hmore

theorem deref_congr {other : Json} (h : Schema.reference? node = Schema.reference? other)
    {reference : String} (hreference : Schema.reference? node = some reference) :
    env.deref node site = env.deref other site := by
  unfold Env.deref Env.follow
  rw [← h, hreference]

theorem reference?_of_follow {hops : Nat} (h : env.follow site hops node = .ok target) :
    Schema.reference? target = none := by
  induction hops generalizing node with
  | zero =>
    unfold Env.follow at h
    split at h
    · rename_i hnone
      exact Except.ok.inj h ▸ hnone
    · simp at h
  | succ hops ih =>
    unfold Env.follow at h
    split at h
    · rename_i hnone
      exact Except.ok.inj h ▸ hnone
    · obtain ⟨next, -, h⟩ := bind_eq_ok.mp h
      exact ih h

/-- A search through nodes that finds nothing has covered them, and what it came through. -/
theorem covered_of_anyUnionIn {look : List String → Json → Except CompileError (Bool × List String)}
    {nodes : List Json} {seen' : List String}
    (hgrows : ∀ {seen node found seen'}, look seen node = .ok (found, seen') → seen ⊆ seen')
    (hlook : ∀ node ∈ nodes, ∀ more seen', seen ⊆ more → look more node = .ok (false, seen') →
      Covered seen' node ∧ ∀ r ∈ seen', r ∈ more ∨ env.CoversTarget site seen' r)
    (h : anyUnionIn look seen nodes = .ok (false, seen')) :
    (∀ node ∈ nodes, Covered seen' node) ∧
      ∀ r ∈ seen', r ∈ seen ∨ env.CoversTarget site seen' r := by
  induction nodes generalizing seen with
  | nil =>
    obtain ⟨-, rfl⟩ := Prod.mk.inj (Except.ok.inj h)
    exact ⟨by simp, fun r hr => .inl hr⟩
  | cons node rest ih =>
    obtain ⟨hnode, hrest⟩ := List.forall_mem_cons.mp hlook
    obtain ⟨⟨found, more⟩, hfirst, h⟩ := bind_eq_ok.mp h
    cases found with
    | true => exact absurd (Prod.mk.inj (Except.ok.inj h)).1 (by decide)
    | false =>
      obtain ⟨hcovered, hseen⟩ := hnode seen more (List.Subset.refl _) hfirst
      have hmore : more ⊆ seen' := subset_of_anyUnionIn hgrows h
      obtain ⟨hrestCovered, hrestSeen⟩ := ih (fun node hmem other seen' hother =>
        hrest node hmem other seen' (List.Subset.trans (hgrows hfirst) hother)) h
      refine ⟨List.forall_mem_cons.mpr ⟨hcovered.mono hmore, hrestCovered⟩, fun r hr => ?_⟩
      rcases hrestSeen r hr with hmem | hcovers
      · exact (hseen r hmem).imp_right (·.mono hmore)
      · exact .inr hcovers

/-- **A search that finds no union has covered** the node, and what the references lead to that it
    saw on the way. -/
theorem covered_of_leadsToUnion (hdoc : env.doc.root.Within limit known) {fuel : Nat}
    {seen' : List String} (hnode : node.Within limit known)
    (hfuel : searchLeft limit known seen node ≤ fuel)
    (h : env.leadsToUnion site fuel seen node = .ok (false, seen')) :
    Covered seen' node ∧ ∀ r ∈ seen', r ∈ seen ∨ env.CoversTarget site seen' r := by
  induction fuel generalizing seen node seen' with
  | zero =>
    have hpos := node.size_pos
    unfold searchLeft at hfuel
    omega
  | succ fuel ih =>
    unfold leadsToUnion at h
    dsimp only at h
    split at h
    · rename_i hseen
      obtain ⟨-, rfl⟩ := Prod.mk.inj (Except.ok.inj h)
      cases hreference : Schema.reference? node with
      | none => simp [hreference] at hseen
      | some reference =>
        have hmem : reference ∈ seen := by simpa [hreference] using hseen
        exact ⟨.reference hreference hmem, fun r hr => .inl hr⟩
    · rename_i hnew
      obtain ⟨target, htarget, h⟩ := bind_eq_ok.mp h
      have hwithin := within_follow hdoc hnode htarget
      have htargetReference := reference?_of_follow htarget
      split at h
      · exact absurd (Prod.mk.inj (Except.ok.inj h)).1 (by decide)
      · rename_i hunion
        obtain ⟨hmembers, hcovers⟩ := covered_of_anyUnionIn
          subset_of_leadsToUnion (fun member hmember more seen' hmore hlook => by
            have hmemberWithin := Json.Within.of_mem_membersOf hmember
            refine ih (hmemberWithin.mono ((Nat.sub_le _ _).trans hwithin.size)
              hwithin.texts) ?_ hlook
            have hstep := searchLeft_step hdoc hnode (by simpa using hnew) htarget hmember
            have hless := Nat.mul_le_mul_right (limit + 1) (unseen_le known hmore)
            unfold searchLeft at hstep hfuel ⊢
            omega) h
        have hgrown := subset_of_anyUnionIn subset_of_leadsToUnion h
        have hcovered : Covered seen' target :=
          .schema htargetReference (by simpa using hunion) hmembers
        cases hreference : Schema.reference? node with
        | none =>
          rw [deref_of_reference?_eq_none hreference] at htarget
          obtain rfl := Except.ok.inj htarget
          exact ⟨hcovered, by simpa [hreference] using hcovers⟩
        | some reference =>
          have hown : reference ∈ seen' := hgrown (by simp [hreference])
          refine ⟨.reference hreference hown, fun r hr => ?_⟩
          rcases hcovers r hr with hmem | hcovers
          · simp only [hreference, Option.toList_some, List.singleton_append,
              List.mem_cons] at hmem
            rcases hmem with rfl | hmem
            · refine .inr fun hother hderef => ?_
              rw [deref_congr (hother.trans hreference.symm) hother, htarget] at hderef
              exact Except.ok.inj hderef ▸ hcovered
            · exact .inl hmem
          · exact .inr hcovers

/-- **A covered node leads to a covered schema**, where the references that were seen do. -/
theorem Covered.deref (h : Covered seen node) (hcovers : ∀ r ∈ seen, env.CoversTarget site seen r)
    (htarget : env.deref node site = .ok target) : Covered seen target := by
  cases h with
  | reference hreference hseen => exact hcovers _ hseen hreference htarget
  | schema hreference hunion hmembers =>
    rw [deref_of_reference?_eq_none hreference] at htarget
    exact Except.ok.inj htarget ▸ .schema hreference hunion hmembers

/-- What covered members flatten to is no union. -/
theorem hasUnion_of_covered {levels : Nat} {members flat : List Json}
    (hcovers : ∀ r ∈ seen, env.CoversTarget site seen r)
    (hmembers : ∀ member ∈ members, Covered seen member)
    (h : env.flatten site levels members = .ok flat) :
    ∀ node ∈ flat, Schema.hasUnion node = false := by
  induction levels generalizing members flat with
  | zero => simp [Env.flatten] at h
  | succ levels ih =>
    induction members generalizing flat with
    | nil =>
      obtain rfl := Except.ok.inj h
      simp
    | cons member rest ihrest =>
      obtain ⟨hmember, hrest⟩ := List.forall_mem_cons.mp hmembers
      obtain ⟨first, others, hfirst, hothers, rfl⟩ := flatten_cons_eq_ok.mp h
      refine List.forall_mem_append.mpr ⟨?_, ihrest hrest hothers⟩
      obtain ⟨node, hnode, hfirst⟩ := bind_eq_ok.mp hfirst
      cases hmember.deref hcovers hnode with
      | reference hreference _ => simp [reference?_of_follow hnode] at hreference
      | schema _ hunion hbelow =>
        dsimp only at hfirst
        split at hfirst
        · obtain rfl := Except.ok.inj hfirst
          simpa using hunion
        · obtain ⟨below, hflatten, hfirst⟩ := bind_eq_ok.mp hfirst
          obtain rfl := Except.ok.inj hfirst
          refine List.forall_mem_append.mpr ⟨fun own hown => ?_, ih hbelow hflatten⟩
          rw [hasUnion_of_mem_besidesAllOf hown, hunion]

/-- **Where no member leads to a union, all are covered** by the references that were seen, and so
    is what these lead to. -/
theorem covered_of_anyUnion (hsize : env.size = env.doc.root.size) {members : List Json}
    (hunion : env.anyUnion site members = .ok false) :
    ∃ seen, (∀ r ∈ seen, env.CoversTarget site seen r) ∧ ∀ member ∈ members, Covered seen member := by
  rw [anyUnion_eq hsize (Nat.le_refl _)] at hunion
  obtain ⟨⟨found, seen⟩, hsearch, rfl⟩ := map_eq_ok.mp hunion
  obtain ⟨hdoc, hmembers⟩ := within_search hsize members
  obtain ⟨hcovered, hseen⟩ := covered_of_anyUnionIn
    subset_of_leadsToUnion (fun member hmember more seen' _ hlook =>
      covered_of_leadsToUnion hdoc (hmembers member hmember)
        (searchLeft_le hsize hmember more) hlook) hsearch
  exact ⟨seen, fun r hr => (hseen r hr).resolve_left List.not_mem_nil, hcovered⟩

/-- **Where no member leads to a union, none of the merged schemas is one.** -/
theorem hasUnion_of_mem_flatten (hsize : env.size = env.doc.root.size) {members flat : List Json}
    {levels : Nat} (hunion : env.anyUnion site members = .ok false)
    (h : env.flatten site levels members = .ok flat) :
    ∀ node ∈ flat, Schema.hasUnion node = false := by
  obtain ⟨seen, hcovers, hcovered⟩ := covered_of_anyUnion hsize hunion
  exact hasUnion_of_covered hcovers hcovered h

end Env

/-! ## 4. The same search in both documents -/

namespace Trims

variable {allowed : List String} {kept : String → Prop} {env env' : Env} {site site' : Site}

theorem anyUnionIn {look look' : List String → Json → Except CompileError (Bool × List String)}
    {nodes : List Json} {seen : List String} {result : Bool × List String}
    (hlook : ∀ node ∈ nodes, ∀ seen result, look seen node = .ok result →
      look' seen (clean allowed .schema node) = .ok result)
    (hok : Env.anyUnionIn look seen nodes = .ok result) :
    Env.anyUnionIn look' seen (nodes.map (clean allowed .schema)) = .ok result := by
  induction nodes generalizing seen with
  | nil => exact hok
  | cons node rest ih =>
    obtain ⟨hnode, hrest⟩ := List.forall_mem_cons.mp hlook
    obtain ⟨⟨found, more⟩, hfirst, hok⟩ := bind_eq_ok.mp hok
    refine bind_eq_ok.mpr ⟨_, hnode _ _ hfirst, ?_⟩
    cases found with
    | true => exact hok
    | false => exact ih hrest hok

theorem leadsToUnion (h : Trims allowed kept env env') {fuel : Nat} {seen : List String}
    {node : Json} {result : Bool × List String} (hnode : Sound allowed kept .schema node)
    (hok : env.leadsToUnion site fuel seen node = .ok result) :
    env'.leadsToUnion site' fuel seen (clean allowed .schema node) = .ok result := by
  induction fuel generalizing seen node result with
  | zero => exact hok
  | succ fuel ih =>
    unfold Env.leadsToUnion at hok ⊢
    rw [reference?_clean (by simp [kindsOf])]
    dsimp only at hok ⊢
    split at hok
    · rename_i hseen
      rw [if_pos hseen]
      exact hok
    · rename_i hseen
      obtain ⟨target, htarget, hok⟩ := bind_eq_ok.mp hok
      obtain ⟨htarget', hsound, -⟩ := h.derefSchema hnode htarget
      rw [if_neg hseen]
      refine bind_eq_ok.mpr ⟨_, htarget', ?_⟩
      rw [hasUnion_clean]
      split at hok
      · rename_i hunion
        rw [if_pos hunion]
        exact hok
      · rename_i hunion
        rw [if_neg hunion, membersOf_clean rfl rfl]
        exact anyUnionIn (fun member hmember seen result hresult =>
          ih (hsound.membersOf (by simp) rfl rfl hmember) hresult) hok

/-- **A search through cleaned members ends alike.** -/
theorem anyUnion (h : Trims allowed kept env env') {members : List Json} {found : Bool}
    (hmembers : ∀ member ∈ members, Sound allowed kept .schema member)
    (hok : env.anyUnion site members = .ok found) :
    env'.anyUnion site' (members.map (clean allowed .schema)) = .ok found := by
  let fuel := max (env.searchLimit members)
    (env'.searchLimit (members.map (clean allowed .schema)))
  rw [Env.anyUnion_eq h.size (Nat.le_max_left _ _)] at hok
  rw [Env.anyUnion_eq h.size' (Nat.le_max_right _ _)]
  obtain ⟨result, hresult, rfl⟩ := map_eq_ok.mp hok
  exact map_eq_ok.mpr ⟨result, anyUnionIn (fun member hmember seen result hlook =>
    h.leadsToUnion (hmembers member hmember) hlook) hresult, rfl⟩

end Trims

end ApiTypes

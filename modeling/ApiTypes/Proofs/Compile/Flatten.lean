import ApiTypes.Proofs.Compile.Lookups

/-!
  Flattening what pruning left.

  The cleaned members of an `allOf` flatten to the cleaned schemas that the members flatten to. What
  a member says beside its own members may be missing, if the cleanup leaves nothing of it.
-/

namespace ApiTypes

open Prune

variable {allowed : List String} {kept : String → Prop} {env env' : Env} {site site' : Site}

/-- The cleaned nodes of a list, without some of which the cleanup leaves nothing. -/
inductive Thinned (allowed : List String) : List Json → List Json → Prop where
  | nil : Thinned allowed [] []
  | keep (node : Json) {nodes rest : List Json} (h : Thinned allowed nodes rest) :
    Thinned allowed (node :: nodes) (clean allowed .schema node :: rest)
  | skip {node : Json} {nodes rest : List Json} (hempty : clean allowed .schema node = .obj [])
    (h : Thinned allowed nodes rest) : Thinned allowed (node :: nodes) rest

theorem Thinned.append {nodes rest others more : List Json} (h : Thinned allowed nodes rest)
    (hmore : Thinned allowed others more) : Thinned allowed (nodes ++ others) (rest ++ more) := by
  induction h with
  | nil => exact hmore
  | keep node _ ih => exact .keep node ih
  | skip hempty _ ih => exact .skip hempty ih

/-- A schema that is merged: it is no reference and has no members of its own. -/
structure Flat (allowed : List String) (kept : String → Prop) (node : Json) : Prop where
  sound : Sound allowed kept .schema node
  reference : Schema.reference? node = none
  allOf : Schema.membersOf "allOf" node = []

/-- The schemas behind one member. -/
def Env.flattenMember (env : Env) (site : Site) (levels : Nat) (member : Json) :
    Except CompileError (List Json) := do
  let node ← env.deref member site
  let nested := Schema.membersOf "allOf" node
  if nested.isEmpty then return [node]
  else return besidesAllOf node ++ (← env.flatten site levels nested)

theorem flatten_succ (env : Env) (site : Site) (levels : Nat) (members : List Json) :
    env.flatten site (levels + 1) members =
      (do return (← members.mapM (env.flattenMember site levels)).flatten) := rfl

theorem flatten_cons_eq_ok {levels : Nat} {member : Json} {rest flat : List Json} :
    env.flatten site (levels + 1) (member :: rest) = .ok flat ↔
      ∃ first others, env.flattenMember site levels member = .ok first ∧
        env.flatten site (levels + 1) rest = .ok others ∧ first ++ others = flat := by
  simp only [flatten_succ, List.mapM_cons, bind_eq_ok, pure_eq_ok]
  constructor
  · rintro ⟨_, ⟨first, hfirst, parts, hparts, rfl⟩, rfl⟩
    exact ⟨first, _, hfirst, ⟨parts, hparts, rfl⟩, rfl⟩
  · rintro ⟨first, _, hfirst, ⟨parts, hparts, rfl⟩, rfl⟩
    exact ⟨_, ⟨first, hfirst, parts, hparts, rfl⟩, rfl⟩

theorem flatten_append_eq_ok {levels : Nat} {members more flat : List Json} :
    env.flatten site (levels + 1) (members ++ more) = .ok flat ↔
      ∃ first others, env.flatten site (levels + 1) members = .ok first ∧
        env.flatten site (levels + 1) more = .ok others ∧ first ++ others = flat := by
  induction members generalizing flat with
  | nil =>
    have hnil : env.flatten site (levels + 1) [] = .ok [] := rfl
    simp [hnil]
  | cons member rest ih =>
    simp only [List.cons_append, flatten_cons_eq_ok, ih]
    constructor
    · rintro ⟨part, _, hpart, ⟨first, others, hfirst, hothers, rfl⟩, rfl⟩
      exact ⟨_, others, ⟨part, first, hpart, hfirst, rfl⟩, hothers, List.append_assoc _ _ _⟩
    · rintro ⟨_, others, ⟨part, first, hpart, hfirst, rfl⟩, hothers, rfl⟩
      exact ⟨part, _, hpart, ⟨first, others, hfirst, hothers, rfl⟩, (List.append_assoc _ _ _).symm⟩

/-- What a sound schema says beside its members is flat. -/
theorem Sound.flat_erase {members : List (String × Json)}
    (h : Sound allowed kept .schema (.obj members))
    (hreference : Schema.reference? (.obj members) = none) :
    Flat allowed kept (.obj (Entries.erase "allOf" members)) := by
  refine ⟨h.filter fun key => key ≠ "allOf", ?_, ?_⟩
  · have hget : Entries.get? "$ref" (Entries.erase "allOf" members) =
        Entries.get? "$ref" members :=
      (Entries.get?_filter fun key => key ≠ "allOf").trans (if_pos (by decide))
    rw [Schema.reference?, Schema.text?, Json.get?_obj, hget]
    exact hreference
  · simp [Schema.membersOf, Entries.get?_erase_self]

/-- What a schema says beside its members is a union if the schema is. -/
theorem hasUnion_erase (members : List (String × Json)) :
    Schema.hasUnion (.obj (Entries.erase "allOf" members)) = Schema.hasUnion (.obj members) := by
  have hget : ∀ key, key ≠ "allOf" → Entries.get? key (Entries.erase "allOf" members) =
      Entries.get? key members :=
    fun key hkey =>
      (Entries.get?_filter fun key => key ≠ "allOf").trans (if_pos (by simpa using hkey))
  simp only [Schema.hasUnion, Schema.membersOf, Json.get?_obj, hget "anyOf" (by decide),
    hget "oneOf" (by decide)]

theorem hasUnion_of_mem_besidesAllOf {node own : Json} (h : own ∈ Env.besidesAllOf node) :
    Schema.hasUnion own = Schema.hasUnion node := by
  cases node with
  | obj members =>
    simp only [Env.besidesAllOf] at h
    split at h
    · simp at h
    · obtain rfl := List.mem_singleton.mp h
      exact hasUnion_erase members
  | _ => simp [Env.besidesAllOf] at h

/-- What a schema with members says itself is merged as well, unless the cleanup leaves nothing of
    it. -/
theorem thinned_besidesAllOf {node : Json} (hnode : Sound allowed kept .schema node)
    (hreference : Schema.reference? node = none) :
    Thinned allowed (Env.besidesAllOf node)
        (Env.besidesAllOf (clean allowed .schema node)) ∧
      ∀ own ∈ Env.besidesAllOf node, Flat allowed kept own := by
  cases node with
  | obj members =>
    have herase : Entries.erase "allOf" (cleanMembers allowed .schema members) =
        cleanMembers allowed .schema (Entries.erase "allOf" members) :=
      (cleanMembers_filter fun key => key ≠ "allOf").symm
    have hflat := hnode.flat_erase hreference
    simp only [Env.besidesAllOf, clean, herase]
    generalize Entries.erase "allOf" members = own at hflat
    cases own with
    | nil => exact ⟨.nil, by simp⟩
    | cons entry rest =>
      refine ⟨?_, by simpa using hflat⟩
      cases hown : cleanMembers allowed .schema (entry :: rest) with
      | nil => exact .skip (congrArg Json.obj hown) .nil
      | cons first others =>
        have hkeep : Thinned allowed [.obj (entry :: rest)]
            [clean allowed .schema (.obj (entry :: rest))] := .keep _ .nil
        rw [clean, hown] at hkeep
        exact hkeep
  | _ => exact ⟨.nil, by simp [Env.besidesAllOf]⟩

theorem Trims.flattenMember (h : Trims allowed kept env env') {levels : Nat} {member : Json}
    {flat : List Json} (hmember : Sound allowed kept .schema member)
    (hflatten : ∀ {members flat : List Json},
      (∀ member ∈ members, Sound allowed kept .schema member) →
      env.flatten site levels members = .ok flat →
      (∃ flat', env'.flatten site' levels (members.map (clean allowed .schema)) = .ok flat' ∧
        Thinned allowed flat flat') ∧ ∀ node ∈ flat, Flat allowed kept node)
    (hok : env.flattenMember site levels member = .ok flat) :
    (∃ flat', env'.flattenMember site' levels (clean allowed .schema member) = .ok flat' ∧
        Thinned allowed flat flat') ∧ ∀ node ∈ flat, Flat allowed kept node := by
  obtain ⟨node, hnode, hok⟩ := bind_eq_ok.mp hok
  obtain ⟨hnode', hsound, hreference⟩ := h.derefSchema hmember hnode
  unfold Env.flattenMember
  rw [hnode']
  have hmembers : Schema.membersOf "allOf" (clean allowed .schema node) =
      (Schema.membersOf "allOf" node).map (clean allowed .schema) := membersOf_clean rfl rfl
  simp only [bind, Except.bind, hmembers, List.isEmpty_map]
  cases hnested : Schema.membersOf "allOf" node with
  | nil =>
    simp only [hnested, List.isEmpty_nil, if_true] at hok ⊢
    obtain rfl := Except.ok.inj hok
    exact ⟨⟨_, rfl, .keep node .nil⟩, by simpa using ⟨hsound, hreference, hnested⟩⟩
  | cons first rest =>
    simp only [hnested, List.isEmpty_cons, Bool.false_eq_true, if_false] at hok ⊢
    obtain ⟨below, hbelow, hok⟩ := bind_eq_ok.mp hok
    obtain rfl := Except.ok.inj hok
    obtain ⟨⟨below', hbelow', hthinned⟩, hflat⟩ := hflatten
      (fun member hmem => hsound.membersOf (by simp) rfl rfl (hnested ▸ hmem)) hbelow
    obtain ⟨hown, hownFlat⟩ := thinned_besidesAllOf hsound hreference
    rw [hbelow']
    exact ⟨⟨_, rfl, hown.append hthinned⟩, List.forall_mem_append.mpr ⟨hownFlat, hflat⟩⟩

/-- **Flattening cleaned members** gives the cleaned schemas, without some of which nothing is
    left. -/
theorem Trims.flatten (h : Trims allowed kept env env') {levels : Nat} {members flat : List Json}
    (hmembers : ∀ member ∈ members, Sound allowed kept .schema member)
    (hok : env.flatten site levels members = .ok flat) :
    (∃ flat', env'.flatten site' levels (members.map (clean allowed .schema)) = .ok flat' ∧
        Thinned allowed flat flat') ∧
      ∀ node ∈ flat, Flat allowed kept node := by
  induction levels generalizing members flat with
  | zero => simp [Env.flatten] at hok
  | succ levels ih =>
    induction members generalizing flat with
    | nil =>
      obtain rfl := Except.ok.inj hok
      exact ⟨⟨[], rfl, .nil⟩, by simp⟩
    | cons member rest ihrest =>
      obtain ⟨hmember, hrest⟩ := List.forall_mem_cons.mp hmembers
      obtain ⟨first, others, hfirst, hothers, rfl⟩ := flatten_cons_eq_ok.mp hok
      obtain ⟨⟨first', hfirst', hthinned⟩, hflat⟩ :=
        h.flattenMember hmember ih hfirst
      obtain ⟨⟨others', hothers', hmore⟩, hothersFlat⟩ := ihrest hrest hothers
      exact ⟨⟨_, flatten_cons_eq_ok.mpr ⟨first', others', hfirst', hothers', rfl⟩,
        hthinned.append hmore⟩, List.forall_mem_append.mpr ⟨hflat, hothersFlat⟩⟩

end ApiTypes

import ApiTypes.Proofs.Compile.Unions

/-!
  The search for unions finds what there is to find.

  A node with a reference stands for the schema at the end of the chain of references that starts
  with it (`Document.LeadsTo`). The schemas that members reach are those at the ends of their chains
  and, from each of them on, those at the ends of the chains of its own members
  (`Document.Reaches`). References may go in circles there, and many may lead to one place.

  * A chain within the limit is what is followed (`Env.follow_eq_ok_iff`).
  * A search that finds a union has reached one (`Env.exists_leadsToUnion`), and a search that finds
    none has covered all that there is to reach (`Env.covered_of_meets`).
  * **The search is exact** (`Env.anyUnion_exact`): it ends, and it has found a union if and only if
    the members reach one.
-/

namespace ApiTypes

open Schema

/-! ## 1. What members reach -/

namespace Document

/-- A chain of so many references leads from a node to a schema: each reference points at the next
    node, and the schema is the first that has none. -/
inductive LeadsTo (doc : Document) : Nat → Json → Json → Prop where
  | schema {node : Json} (hreference : reference? node = none) : LeadsTo doc 0 node node
  | hop {hops : Nat} {node next schema : Json} {reference : String}
    (hreference : reference? node = some reference) (hnext : doc.resolve? reference = some next)
    (hrest : LeadsTo doc hops next schema) : LeadsTo doc (hops + 1) node schema

/-- The nodes that are met on the way from members: the members themselves, and the members of
    every schema that a node leads to. -/
inductive Meets (doc : Document) (members : List Json) : Json → Prop where
  | member {node : Json} (hmember : node ∈ members) : Meets doc members node
  | nested {node schema inner : Json} {hops : Nat} (hnode : Meets doc members node)
    (hschema : doc.LeadsTo hops node schema) (hinner : inner ∈ membersOf "allOf" schema) :
    Meets doc members inner

/-- Members reach the schemas that the nodes on the way lead to. -/
def Reaches (doc : Document) (members : List Json) (schema : Json) : Prop :=
  ∃ node hops, doc.Meets members node ∧ doc.LeadsTo hops node schema

variable {doc : Document} {members nodes : List Json} {node schema other : Json}
  {hops count : Nat}

theorem LeadsTo.reference?_eq_none (h : doc.LeadsTo hops node schema) :
    reference? schema = none := by
  induction h with
  | schema hreference => exact hreference
  | hop _ _ _ ih => exact ih

/-- A node leads to one schema. -/
theorem LeadsTo.unique (h : doc.LeadsTo hops node schema) (hother : doc.LeadsTo count node other) :
    other = schema := by
  induction h generalizing count with
  | schema hreference =>
    cases hother with
    | schema => rfl
    | hop hsome => simp [hreference] at hsome
  | hop hreference hnext _ ih =>
    cases hother with
    | schema hnone => simp [hreference] at hnone
    | hop hreference' hnext' hrest' =>
      obtain rfl := Option.some.inj (hreference.symm.trans hreference')
      obtain rfl := Option.some.inj (hnext.symm.trans hnext')
      exact ih hrest'

/-- No other nodes are met than those of a list that has the members and, of each node in it, the
    members behind that. -/
theorem Meets.mem_of_closed (hmembers : members ⊆ nodes)
    (hclosed : ∀ node ∈ nodes, ∃ hops schema, doc.LeadsTo hops node schema ∧
      membersOf "allOf" schema ⊆ nodes)
    (h : doc.Meets members node) : node ∈ nodes := by
  induction h with
  | member hmember => exact hmembers hmember
  | nested _ hschema hinner ih =>
    obtain ⟨hops, schema, hleads, hsubset⟩ := hclosed _ ih
    exact hsubset (hleads.unique hschema ▸ hinner)

end Document

namespace Env

variable {env : Env} {site : Site} {members : List Json} {node schema : Json}

/-- **What is followed is the chain**, where it is no longer than the limit. -/
theorem follow_eq_ok_iff {limit : Nat} :
    env.follow site limit node = .ok schema ↔ ∃ hops ≤ limit, env.doc.LeadsTo hops node schema := by
  induction limit generalizing node with
  | zero =>
    unfold follow
    cases hreference : reference? node with
    | none =>
      constructor
      · intro h
        exact ⟨0, Nat.le_refl _, Except.ok.inj h ▸ .schema hreference⟩
      · rintro ⟨_, -, hleads⟩
        exact congrArg _ ((Document.LeadsTo.schema hreference).unique hleads).symm
    | some reference =>
      refine ⟨fun h => by simp at h, ?_⟩
      rintro ⟨hops, hlimit, hleads⟩
      cases hleads with
      | schema hnone => simp [hreference] at hnone
      | hop => exact absurd hlimit (Nat.not_succ_le_zero _)
  | succ limit ih =>
    unfold follow
    cases hreference : reference? node with
    | none =>
      constructor
      · intro h
        exact ⟨0, Nat.zero_le _, Except.ok.inj h ▸ .schema hreference⟩
      · rintro ⟨_, -, hleads⟩
        exact congrArg _ ((Document.LeadsTo.schema hreference).unique hleads).symm
    | some reference =>
      dsimp only
      rw [bind_eq_ok]
      constructor
      · rintro ⟨next, hnext, h⟩
        obtain ⟨hops, hlimit, hleads⟩ := ih.mp h
        exact ⟨hops + 1, Nat.succ_le_succ hlimit, .hop hreference (resolve_eq_ok.mp hnext) hleads⟩
      · rintro ⟨hops, hlimit, hleads⟩
        cases hleads with
        | schema hnone => simp [hreference] at hnone
        | hop hreference' hnext hrest =>
          obtain rfl := Option.some.inj (hreference.symm.trans hreference')
          exact ⟨_, resolve_eq_ok.mpr hnext, ih.mpr ⟨_, Nat.le_of_succ_le_succ hlimit, hrest⟩⟩

/-! ## 2. What a search finds is reached -/

/-- A search through nodes ends where the search from each ends, and a union that it finds is one
    that they find. -/
theorem exists_anyUnionIn {look : List String → Json → Except CompileError (Bool × List String)}
    {nodes : List Json} {P : Prop}
    (hlook : ∀ node ∈ nodes, ∀ seen, ∃ found seen',
      look seen node = .ok (found, seen') ∧ (found = true → P)) (seen : List String) :
    ∃ found seen', anyUnionIn look seen nodes = .ok (found, seen') ∧ (found = true → P) := by
  induction nodes generalizing seen with
  | nil => exact ⟨false, seen, rfl, by simp⟩
  | cons node rest ih =>
    obtain ⟨hnode, hrest⟩ := List.forall_mem_cons.mp hlook
    obtain ⟨found, more, hfirst, hfound⟩ := hnode seen
    unfold anyUnionIn
    rw [hfirst]
    cases found with
    | true => exact ⟨true, more, rfl, hfound⟩
    | false => exact ih hrest more

variable (hresolve : ∀ node, env.doc.Meets members node →
  ∃ hops ≤ maxHops, ∃ schema, env.doc.LeadsTo hops node schema)
include hresolve

/-- What is met leads to a schema. -/
theorem exists_deref (site : Site) (hnode : env.doc.Meets members node) :
    ∃ hops schema, env.doc.LeadsTo hops node schema ∧ env.deref node site = .ok schema := by
  obtain ⟨hops, hlimit, schema, hleads⟩ := hresolve node hnode
  exact ⟨hops, schema, hleads, follow_eq_ok_iff.mpr ⟨hops, hlimit, hleads⟩⟩

/-- **The search from a node that is met ends**, and a union that it finds is reached. -/
theorem exists_leadsToUnion (site : Site) (fuel : Nat) (seen : List String)
    (hnode : env.doc.Meets members node) :
    ∃ found seen', env.leadsToUnion site fuel seen node = .ok (found, seen') ∧
      (found = true → ∃ schema, env.doc.Reaches members schema ∧ hasUnion schema = true) := by
  induction fuel generalizing seen node with
  | zero => exact ⟨false, seen, rfl, by simp⟩
  | succ fuel ih =>
    obtain ⟨hops, schema, hleads, hderef⟩ := exists_deref hresolve site hnode
    unfold leadsToUnion
    dsimp only
    split
    · exact ⟨false, seen, rfl, by simp⟩
    · rw [hderef]
      change ∃ found seen', (if hasUnion schema = true then _ else _) = _ ∧ _
      split
      · rename_i hunion
        exact ⟨true, _, rfl, fun _ => ⟨schema, ⟨node, hops, hnode, hleads⟩, hunion⟩⟩
      · exact exists_anyUnionIn (fun inner hinner seen => ih seen (.nested hnode hleads hinner)) _

/-! ## 3. What is reached is covered -/

/-- **What is met is covered**, where the members are and what was seen leads to covered schemas. -/
theorem covered_of_meets {seen : List String}
    (hcovers : ∀ r ∈ seen, env.CoversTarget site seen r)
    (hmembers : ∀ member ∈ members, Covered seen member)
    (hnode : env.doc.Meets members node) : Covered seen node := by
  induction hnode with
  | member hmember => exact hmembers _ hmember
  | nested hnode hschema hinner ih =>
    obtain ⟨hops, schema, hleads, hderef⟩ := exists_deref hresolve site hnode
    obtain rfl := hleads.unique hschema
    cases ih.deref hcovers hderef with
    | reference hreference => simp [hschema.reference?_eq_none] at hreference
    | schema _ _ hbelow => exact hbelow _ hinner

/-- A search that finds nothing leaves no union to reach. -/
theorem hasUnion_of_reaches (hsize : env.size = env.doc.root.size)
    (hnone : env.anyUnion site members = .ok false) (hschema : env.doc.Reaches members schema) :
    hasUnion schema = false := by
  obtain ⟨seen, hcovers, hmembers⟩ := covered_of_anyUnion hsize hnone
  obtain ⟨node, hops, hnode, hleads⟩ := hschema
  obtain ⟨_, _, hleads', hderef⟩ := exists_deref hresolve site hnode
  obtain rfl := hleads.unique hleads'
  cases (covered_of_meets hresolve hcovers hmembers hnode).deref hcovers hderef with
  | reference hreference => simp [hleads.reference?_eq_none] at hreference
  | schema _ hunion => exact hunion

end Env

theorem Schema.hasUnion_iff {schema : Json} : hasUnion schema = true ↔
    membersOf "anyOf" schema ≠ [] ∨ membersOf "oneOf" schema ≠ [] := by
  simp [hasUnion]

/-! ## 4. The search is exact -/

/-- **The search for unions is exact.** Where all references on the way lead to schemas, it ends,
    whatever circles there are, and it has found a union if and only if the members reach one. -/
theorem Env.anyUnion_exact (doc : Document) (options : Options) (site : Site) (members : List Json)
    (hresolve : ∀ node, doc.Meets members node →
      ∃ hops ≤ maxHops, ∃ schema, doc.LeadsTo hops node schema) :
    ∃ found, Env.anyUnion { doc, options } site members = .ok found ∧
      (found = true ↔ ∃ schema, doc.Reaches members schema ∧
        (membersOf "anyOf" schema ≠ [] ∨ membersOf "oneOf" schema ≠ [])) := by
  let env : Env := { doc, options }
  have hresolve : ∀ node, env.doc.Meets members node →
      ∃ hops ≤ maxHops, ∃ schema, env.doc.LeadsTo hops node schema := hresolve
  obtain ⟨found, seen, hsearch, hfound⟩ := exists_anyUnionIn (fun node hnode seen =>
    exists_leadsToUnion hresolve site (env.searchLimit members) seen (.member hnode)) []
  have hanswer : env.anyUnion site members = .ok found := by
    rw [anyUnion_eq rfl (Nat.le_refl _), hsearch]
    rfl
  refine ⟨found, hanswer, ?_⟩
  simp only [← hasUnion_iff]
  refine ⟨hfound, fun ⟨schema, hreaches, hunion⟩ => ?_⟩
  cases found with
  | true => rfl
  | false => exact absurd hunion (by simp [hasUnion_of_reaches hresolve rfl hanswer hreaches])

/-- A reference to a component schema and nothing else. -/
def Schema.referenceTo (name : String) : Json :=
  .obj [("$ref", .str ("#/components/schemas/" ++ name))]

/-- Schemas that refer to each other in a circle, which one of them leaves for another name of a
    union. -/
def circleWithUnion : Document where
  members := [("components", .obj [("schemas", .obj [
    ("A", .obj [("allOf", .arr [referenceTo "B", referenceTo "C"])]),
    ("B", .obj [("allOf", .arr [referenceTo "A", .obj [("type", .str "object")]])]),
    ("C", referenceTo "D"),
    ("D", .obj [("oneOf", .arr [.obj [("type", .str "string")]])])])])]

/-- The search from two members of the circle comes out of it and finds the union. -/
theorem anyUnion_exact_circle :
    (∀ node, circleWithUnion.Meets [referenceTo "B", referenceTo "A"] node →
        ∃ hops ≤ maxHops, ∃ schema, circleWithUnion.LeadsTo hops node schema) ∧
      Env.anyUnion { doc := circleWithUnion } {} [referenceTo "B", referenceTo "A"] = .ok true ∧
      ∃ schema, circleWithUnion.Reaches [referenceTo "B", referenceTo "A"] schema ∧
        (membersOf "anyOf" schema ≠ [] ∨ membersOf "oneOf" schema ≠ []) := by
  let nodes := [referenceTo "A", referenceTo "B", referenceTo "C", .obj [("type", .str "object")]]
  have hleads : ∀ node ∈ nodes, ∃ hops ≤ maxHops, ∃ schema,
      circleWithUnion.LeadsTo hops node schema ∧ membersOf "allOf" schema ⊆ nodes := by
    simp only [nodes, List.forall_mem_cons, List.not_mem_nil, false_implies, implies_true, and_true]
    refine ⟨⟨1, by decide, _, .hop rfl rfl (.schema rfl), ?_⟩,
      ⟨1, by decide, _, .hop rfl rfl (.schema rfl), ?_⟩,
      ⟨2, by decide, _, .hop rfl rfl (.hop rfl rfl (.schema rfl)), ?_⟩,
      ⟨0, by decide, _, .schema rfl, ?_⟩⟩
    · change [referenceTo "B", referenceTo "C"] ⊆ _
      simp
    · change [referenceTo "A", _] ⊆ _
      simp
    · change [] ⊆ _
      simp
    · change [] ⊆ _
      simp
  have hresolve : ∀ node, circleWithUnion.Meets [referenceTo "B", referenceTo "A"] node →
      ∃ hops ≤ maxHops, ∃ schema, circleWithUnion.LeadsTo hops node schema := by
    intro node hnode
    have hmem : node ∈ nodes := hnode.mem_of_closed (by simp [nodes]) fun node hnode => by
      obtain ⟨hops, -, schema, hschema, hsubset⟩ := hleads node hnode
      exact ⟨hops, schema, hschema, hsubset⟩
    obtain ⟨hops, hlimit, schema, hschema, -⟩ := hleads node hmem
    exact ⟨hops, hlimit, schema, hschema⟩
  obtain ⟨found, hanswer, hexact⟩ := Env.anyUnion_exact circleWithUnion {} {} _ hresolve
  have hfound : Env.anyUnion { doc := circleWithUnion } {} [referenceTo "B", referenceTo "A"] =
      .ok true := rfl
  obtain rfl := Except.ok.inj (hanswer.symm.trans hfound)
  exact ⟨hresolve, hfound, hexact.mp rfl⟩

end ApiTypes

import ApiTypes.Proofs.Compile.Overrides
import ApiTypes.Proofs.Compile.Traversal
import ApiTypes.Proofs.Merge.Substance

/-!
  What stands beside a reference inside an `allOf`.

  Outside an `allOf` a reference with keywords beside it is the `allOf` of the reference and the
  keywords. Inside one the keywords are lost, because only the target of the reference is merged.

  * `Schema.SaysSame`: two members differ in what stands beside references, theirs or those of
    nested members. Every reference says the same as a bare one (`SaysSame.bareReference`).
  * **Members that say the same make the same of a schema** (`resolveAt_of_saysSame`): the same
    error, or the same shape with the same session.
  * So keywords beside a reference and the same keywords as a member of their own make different
    things of a schema (`compile_allOf_loses_siblings`).
-/

namespace ApiTypes

open Schema

/-- Two members of an `allOf` that differ in what stands beside references. -/
inductive Schema.SaysSame : Json → Json → Prop where
  | self (node : Json) : SaysSame node node
  /-- The same reference. What stands beside it may make it nullable and describe it, alike. -/
  | reference {node other : Json} {reference : String} (hnode : reference? node = some reference)
    (hother : reference? other = some reference) (hnullable : isNullable other = isNullable node)
    (hdescription : description? other = description? node) : SaysSame node other
  /-- Nested members that say the same, and nothing else that differs. -/
  | nested {fields others : List (String × Json)}
    (hrest : Entries.erase "allOf" others = Entries.erase "allOf" fields)
    (hmembers : membersOf "allOf" (.obj fields) ≠ [])
    (hsame : List.Forall₂ SaysSame (membersOf "allOf" (.obj fields))
      (membersOf "allOf" (.obj others))) : SaysSame (.obj fields) (.obj others)

variable {env : Env} {site : Site} {node other : Json} {members others : List Json}

/-! ## 1. Members -/

/-- A keyword but `allOf` is the same. -/
theorem get?_of_erase_eq {key : String} {fields others : List (String × Json)}
    (hrest : Entries.erase "allOf" others = Entries.erase "allOf" fields) (hkey : key ≠ "allOf") :
    (Json.obj others).get? key = (Json.obj fields).get? key := by
  rw [Json.get?_obj, Json.get?_obj, ← get?_erase_of_ne hkey, hrest, get?_erase_of_ne hkey]

namespace Schema.SaysSame

theorem reference?_eq (h : SaysSame node other) : reference? other = reference? node := by
  cases h with
  | self => rfl
  | reference hnode hother => rw [hnode, hother]
  | nested hrest => simp only [reference?, text?, get?_of_erase_eq hrest (by decide : "$ref" ≠ _)]

/-- Members that say the same lead to one schema, or are no references. -/
theorem deref (h : SaysSame node other) (env : Env) (site : Site) :
    env.deref other site = env.deref node site ∨
      env.deref node site = .ok node ∧ env.deref other site = .ok other := by
  cases hreference : reference? node with
  | some reference =>
    exact .inl (Env.deref_congr h.reference?_eq (h.reference?_eq.trans hreference))
  | none =>
    exact .inr ⟨Env.deref_of_reference?_eq_none hreference,
      Env.deref_of_reference?_eq_none (h.reference?_eq.trans hreference)⟩

/-- Members that say the same and are no references are one schema, or have nested members. -/
theorem eq_or_nested (h : SaysSame node other) (hreference : reference? node = none) :
    other = node ∨ ∃ fields others, node = .obj fields ∧ other = .obj others ∧
      Entries.erase "allOf" others = Entries.erase "allOf" fields ∧
      membersOf "allOf" node ≠ [] ∧ membersOf "allOf" other ≠ [] ∧
      List.Forall₂ SaysSame (membersOf "allOf" node) (membersOf "allOf" other) := by
  cases h with
  | self => exact .inl rfl
  | reference hnode => simp [hnode] at hreference
  | @nested fields others hrest hmembers hsame =>
    refine .inr ⟨fields, others, rfl, rfl, hrest, hmembers, fun hnil => hmembers ?_, hsame⟩
    rw [hnil] at hsame
    exact List.forall₂_nil_right_iff.mp hsame

theorem isMetadataOnly_eq (h : SaysSame node other) (hreference : reference? node = none) :
    isMetadataOnly other = isMetadataOnly node := by
  have hfalse : ∀ fields : List (String × Json), membersOf "allOf" (.obj fields) ≠ [] →
      isMetadataOnly (.obj fields) = false := by
    intro fields hmembers
    obtain ⟨member, hmember⟩ := List.exists_mem_of_ne_nil _ hmembers
    obtain ⟨items, hitems, -⟩ := exists_of_mem_membersOf hmember
    have hkey : isMetadataKey "allOf" = false := by decide
    exact List.all_eq_false.mpr ⟨_, Entries.mem_of_get? hitems, by simp [hkey]⟩
  rcases h.eq_or_nested hreference with rfl | ⟨fields, others, rfl, rfl, -, hnode, hother, -⟩
  · rfl
  · rw [hfalse fields hnode, hfalse others hother]

/-- **Every reference says the same as a bare one**, which keeps what makes it nullable and what
    describes it. -/
theorem bareReference {reference : String} (h : reference? node = some reference) :
    ∃ bare, isBareReference bare = true ∧ SaysSame node bare := by
  have hkey : isMetadataKey "description" = true := by decide
  cases hdescription : description? node with
  | none =>
    refine ⟨.obj [("$ref", .str reference), ("nullable", .bool (isNullable node))], ?_,
      .reference h rfl rfl ?_⟩
    · simp [isBareReference]
    · rw [hdescription]
      rfl
  | some text =>
    refine ⟨.obj [("$ref", .str reference), ("nullable", .bool (isNullable node)),
      ("description", .str text)], ?_, .reference h rfl rfl ?_⟩
    · simp [isBareReference, hkey]
    · rw [hdescription]
      rfl

end Schema.SaysSame

namespace Env

theorem besidesAllOf_of_erase_eq {fields others : List (String × Json)}
    (h : Entries.erase "allOf" others = Entries.erase "allOf" fields) :
    besidesAllOf (.obj others) = besidesAllOf (.obj fields) := by
  rw [besidesAllOf, besidesAllOf, h]

/-- **Members that say the same flatten to the same schemas.** -/
theorem flatten_of_saysSame {levels : Nat} (h : List.Forall₂ SaysSame members others) :
    env.flatten site levels others = env.flatten site levels members := by
  induction levels generalizing members others with
  | zero => rfl
  | succ levels ih =>
    have hmember : ∀ node other, SaysSame node other →
        env.flattenMember site levels other = env.flattenMember site levels node := by
      intro node other hsame
      unfold flattenMember
      rcases hsame.deref env site with heq | ⟨hnode, hother⟩
      · rw [heq]
      · rw [hnode, hother]
        rcases hsame.eq_or_nested (reference?_of_follow hnode) with
          rfl | ⟨fields, others, rfl, rfl, hrest, hnonempty, hnonempty', hnested⟩
        · rfl
        · simp only [bind, Except.bind, List.isEmpty_iff, hnonempty, hnonempty', if_false,
            ih hnested, besidesAllOf_of_erase_eq hrest]
    have hparts : others.mapM (env.flattenMember site levels) =
        members.mapM (env.flattenMember site levels) := by
      induction h with
      | nil => rfl
      | cons hfirst _ ihrest => rw [List.mapM_cons, List.mapM_cons, hmember _ _ hfirst, ihrest]
    rw [flatten_succ, flatten_succ, hparts]

/-- **Members that say the same lead to the same unions.** -/
theorem anyUnion_of_saysSame (hsize : env.size = env.doc.root.size)
    (h : List.Forall₂ SaysSame members others) :
    env.anyUnion site others = env.anyUnion site members := by
  have hlist : ∀ look : List String → Json → Except CompileError (Bool × List String),
      (∀ node other, SaysSame node other → ∀ seen, look seen other = look seen node) →
      ∀ {members others}, List.Forall₂ SaysSame members others →
        ∀ seen, anyUnionIn look seen others = anyUnionIn look seen members := by
    intro look hlook members others hsame
    induction hsame with
    | nil => exact fun _ => rfl
    | cons hfirst _ ih =>
      intro seen
      unfold anyUnionIn
      rw [hlook _ _ hfirst]
      refine bind_congr fun pair => ?_
      obtain ⟨found, more⟩ := pair
      simp only [ih]
  have hleads : ∀ fuel node other, SaysSame node other → ∀ seen,
      env.leadsToUnion site fuel seen other = env.leadsToUnion site fuel seen node := by
    intro fuel
    induction fuel with
    | zero => exact fun _ _ _ _ => rfl
    | succ fuel ih =>
      intro node other hsame seen
      unfold leadsToUnion
      rw [hsame.reference?_eq]
      rcases hsame.deref env site with heq | ⟨hnode, hother⟩
      · rw [heq]
      · rw [hnode, hother]
        rcases hsame.eq_or_nested (reference?_of_follow hnode) with
          rfl | ⟨fields, others, rfl, rfl, hrest, -, -, hnested⟩
        · rfl
        · have hunion : hasUnion (.obj others) = hasUnion (.obj fields) := by
            rw [← hasUnion_erase, hrest, hasUnion_erase]
          simp only [bind, Except.bind, hunion, hlist _ ih hnested]
  let fuel := max (env.searchLimit members) (env.searchLimit others)
  rw [anyUnion_eq hsize (Nat.le_max_right _ _ : _ ≤ fuel),
    anyUnion_eq hsize (Nat.le_max_left _ _ : _ ≤ fuel), hlist _ (hleads fuel) h]

/-- The only reference is the same, or there is none in either list. -/
theorem onlyReference?_of_saysSame (h : List.Forall₂ SaysSame members others) :
    onlyReference? members = none ∧ onlyReference? others = none ∨
      ∃ member member' reference, onlyReference? members = some (member, reference) ∧
        onlyReference? others = some (member', reference) ∧ SaysSame member member' := by
  let isReference (member : Json) : Bool := (reference? member).isSome
  have hfilter : List.Forall₂ SaysSame (members.filter isReference)
      (others.filter isReference) :=
    List.rel_filter (fun member member' hsame => by simp [isReference, hsame.reference?_eq]) h
  have hall : (others.all fun m => isReference m || isMetadataOnly m) =
      members.all fun m => isReference m || isMetadataOnly m := by
    clear hfilter
    induction h with
    | nil => rfl
    | @cons member member' _ _ hfirst _ ih =>
      rw [List.all_cons, List.all_cons, ih]
      congr 1
      cases hreference : reference? member with
      | some reference => simp [isReference, hreference, hfirst.reference?_eq]
      | none => rw [hfirst.isMetadataOnly_eq hreference]; simp [isReference, hfirst.reference?_eq]
  unfold onlyReference?
  dsimp only
  rw [hall]
  revert hfilter
  generalize members.filter isReference = found
  generalize others.filter isReference = found'
  generalize (members.all fun m => isReference m || isMetadataOnly m) = only
  intro hfilter
  cases hfilter with
  | nil => exact .inl ⟨rfl, rfl⟩
  | @cons member member' rest rest' hfirst hrest =>
    cases hrest with
    | cons => exact .inl ⟨rfl, rfl⟩
    | nil =>
      dsimp only
      rw [hfirst.reference?_eq]
      cases only with
      | false => exact .inl ⟨rfl, rfl⟩
      | true =>
        cases reference? member with
        | none => exact .inl ⟨rfl, rfl⟩
        | some reference => exact .inr ⟨member, member', reference, rfl, rfl, hfirst⟩

theorem narrowedComponent?_of_saysSame (h : List.Forall₂ SaysSame members others) (merged : Json) :
    narrowedComponent? others merged = narrowedComponent? members merged := by
  have hreferences : others.filterMap reference? = members.filterMap reference? := by
    induction h with
    | nil => rfl
    | cons hfirst _ ih => rw [List.filterMap_cons, List.filterMap_cons, hfirst.reference?_eq, ih]
  rw [narrowedComponent?, narrowedComponent?, hreferences]

end Env

/-! ## 2. Shapes without the node they were made from -/

/-- A shape that does not say which node it was made from. -/
def Shape.unlabelled (shape : Shape) : Shape := { shape with source := none }

/-- What combinators come to, without the node it was made from. -/
def Combined.unlabelled : Combined → Combined
  | .complete shape => .complete shape.unlabelled
  | .partly shape => .partly shape.unlabelled

namespace Resolve

variable {α β γ : Type}

theorem eq_of_outcome {act other : Resolve α} (h : ∀ s, act.outcome s = other.outcome s) :
    act = other :=
  funext h

theorem outcome_map (f : α → β) (act : Resolve α) (s : Session) :
    (f <$> act).outcome s = ((act.outcome s).1.map f, (act.outcome s).2) := by
  rw [← bind_pure_comp, outcome_bind]
  rcases act.outcome s with ⟨result, m⟩
  cases result <;> rfl

/-- **What goes on alike after alike results** ends the same. -/
theorem bind_congr_of_map {f : α → γ} {act other : Resolve α} {next next' : α → Resolve β}
    (h : f <$> other = f <$> act) (hnext : ∀ a a', f a' = f a → next' a' = next a) :
    other >>= next' = act >>= next := by
  refine eq_of_outcome fun s => ?_
  have hmap := congrArg (fun act => act.outcome s) h
  simp only [outcome_map] at hmap
  rw [outcome_bind, outcome_bind]
  rcases houtcome : act.outcome s with ⟨result, m⟩
  rcases houtcome' : other.outcome s with ⟨result', m'⟩
  rw [houtcome, houtcome'] at hmap
  obtain ⟨hresult, rfl⟩ := Prod.mk.inj hmap
  cases result with
  | error e =>
    cases result' with
    | error e' =>
      obtain rfl := Except.error.inj hresult
      rfl
    | ok a' => simp [Except.map] at hresult
  | ok a =>
    cases result' with
    | error e' => simp [Except.map] at hresult
    | ok a' =>
      have heq : f a' = f a := Except.ok.inj hresult
      simp only [hnext a a' heq]

theorem map_deeper (f : α → β) (site : Site) (act : Resolve α) :
    f <$> deeper site act = deeper site (f <$> act) := by
  have hwithin : ∀ before after : Session → Session,
      f <$> within before after act = within before after (f <$> act) := by
    intro before after
    have houtcome : ∀ {δ : Type} (act : Resolve δ) (s : Session),
        (within before after act).outcome s =
          ((act.outcome (before s)).1, after (act.outcome (before s)).2) := fun _ _ => rfl
    refine eq_of_outcome fun s => ?_
    rw [outcome_map, houtcome, houtcome, outcome_map]
  unfold deeper
  rw [map_bind]
  refine bind_congr fun session => ?_
  split
  · rfl
  · exact hwithin _ _

end Resolve

namespace Env

open Resolve

/-- A reference to one place makes one shape, whatever stands beside it. -/
theorem resolveAt_reference_of_saysSame {levels : Nat} {reference : String}
    (h : SaysSame node other) (hreference : reference? node = some reference) :
    Shape.unlabelled <$> env.resolveAt levels other (site.withReference reference) =
      Shape.unlabelled <$> env.resolveAt levels node (site.withReference reference) := by
  obtain ⟨hnullable, hdescription⟩ :
      isNullable other = isNullable node ∧ description? other = description? node := by
    cases h with
    | self => exact ⟨rfl, rfl⟩
    | reference _ _ hnullable hdescription => exact ⟨hnullable, hdescription⟩
    | nested hrest =>
      simp only [isNullable, admitsNull, flag, description?, text?,
        get?_of_erase_eq hrest (by decide : "type" ≠ _),
        get?_of_erase_eq hrest (by decide : "nullable" ≠ _),
        get?_of_erase_eq hrest (by decide : "description" ≠ _), and_self]
  have hbuild : ∀ {node : Json} (resolve : Resolver), reference? node = some reference →
      env.build resolve node (site.withReference reference) =
        env.referenceShape resolve node reference (site.withReference reference) := by
    intro node resolve hnode
    cases node with
    | obj members => rfl
    | _ => simp [reference?, text?, Json.get?, Json.members?] at hnode
  have hbeside : ∀ shape : Shape, (besideReference other shape).unlabelled =
      (besideReference node shape).unlabelled := by
    intro shape
    simp [besideReference, Shape.unlabelled, hnullable, hdescription]
  cases levels with
  | zero => rfl
  | succ levels =>
    simp only [resolveAt, map_deeper]
    rw [hbuild _ hreference, hbuild _ (h.reference?_eq.trans hreference)]
    congr 1
    unfold referenceShape
    split
    · simp only [map_bind, map_pure, hbeside]
    · split
      · simp only [map_bind, map_pure, hbeside]
      · rfl

/-- **What members that say the same come to together.** -/
theorem allOfShape_of_saysSame (hsize : env.size = env.doc.root.size) {levels : Nat}
    {withOwn : Bool} (hown : ownKeywords other = ownKeywords node)
    (h : List.Forall₂ SaysSame members others) (hunion : env.anyUnion site members = .ok false) :
    Combined.unlabelled <$> env.allOfShape (env.resolveAt levels) other others withOwn site =
      Combined.unlabelled <$> env.allOfShape (env.resolveAt levels) node members withOwn site := by
  have hask : ∀ {α : Type} (a : α), Resolve.ask (.ok a) = pure a := fun _ => rfl
  have hmerged : ∀ own, env.mergedMembers site own others = env.mergedMembers site own members :=
    fun own => by rw [mergedMembers, mergedMembers, flatten_of_saysSame h]
  unfold allOfShape
  simp only [anyUnion_of_saysSame hsize h, hunion, hask, pure_bind, Bool.false_eq_true, if_false,
    hown, hmerged, narrowedComponent?_of_saysSame h]
  rcases onlyReference?_of_saysSame h with
    ⟨hnone, hnone'⟩ | ⟨member, member', reference, honly, honly', hsame⟩
  · rw [hnone, hnone']
  · rw [honly, honly']
    generalize (if withOwn then ownKeywords node else none) = own
    cases own with
    | some found => rfl
    | none =>
      simp only [map_bind, map_pure]
      refine bind_congr_of_map (resolveAt_reference_of_saysSame hsame
        (PartLaw.mem_of_onlyReference? honly).2) fun shape shape' hshape => ?_
      simp only [Combined.unlabelled, hshape]

/-! ## 3. Nodes -/

/-- A union asks its node for the discriminator alone. -/
theorem union_congr {resolve : Resolver} {elements : List Json}
    (hdiscriminator : other.get? "discriminator" = node.get? "discriminator") :
    env.union resolve other elements site = env.union resolve node elements site := by
  have hproperty : discriminatorProperty? other = discriminatorProperty? node := by
    rw [discriminatorProperty?, hdiscriminator, discriminatorProperty?]
  have hmapping : declaredMapping other = declaredMapping node := by
    rw [declaredMapping, hdiscriminator, declaredMapping]
  simp only [union, variantUnion, hproperty, hmapping]

section Nodes

variable {fields fields' : List (String × Json)}
  (hrest : Entries.erase "allOf" fields' = Entries.erase "allOf" fields)
include hrest

/-- The extensions stand outside the `allOf`. -/
theorem extensionsAt_of_erase_eq (path : String) :
    extensionsAt (.obj fields') path = extensionsAt (.obj fields) path := by
  have herase : ∀ fields, Extensions.ofNode (.obj (Entries.erase "allOf" fields)) =
      Extensions.ofNode (.obj fields) := by
    have hrecognized : ∀ key ∈ Extensions.recognized, key ≠ "allOf" := by decide
    exact fun fields => ofNode_filter fun entry hentry => by simpa using hrecognized entry.1 hentry
  rw [extensionsAt, extensionsAt, ← herase fields', hrest, herase]

theorem membersOf_of_erase_eq {key : String} (hkey : key ≠ "allOf") :
    membersOf key (.obj fields') = membersOf key (.obj fields) := by
  rw [membersOf, get?_of_erase_eq hrest hkey, membersOf]

theorem text?_of_erase_eq {key : String} (hkey : key ≠ "allOf") :
    text? key (.obj fields') = text? key (.obj fields) := by
  rw [text?, get?_of_erase_eq hrest hkey, text?]

theorem isNullable_of_erase_eq : isNullable (.obj fields') = isNullable (.obj fields) := by
  rw [isNullable, admitsNull, flag, get?_of_erase_eq hrest (by decide),
    get?_of_erase_eq hrest (by decide), isNullable, admitsNull, flag]

theorem declaredTypes_of_erase_eq :
    declaredTypes (.obj fields') = declaredTypes (.obj fields) :=
  declaredTypes_congr (get?_of_erase_eq hrest (by decide))

theorem constraints_of_erase_eq :
    Constraints.ofSchema (.obj fields') = Constraints.ofSchema (.obj fields) := by
  have hget : ∀ key, key ≠ "allOf" → (Json.obj fields').get? key = (Json.obj fields).get? key :=
    fun _ hkey => get?_of_erase_eq hrest hkey
  have htext : ∀ key, key ≠ "allOf" → text? key (.obj fields') = text? key (.obj fields) :=
    fun _ hkey => text?_of_erase_eq hrest hkey
  simp (disch := decide) only [Constraints.ofSchema, Constraints.extract, Constraints.count?,
    Constraints.bound?, Constraints.Numeric.ofSchema, flag, declaredTypes_of_erase_eq hrest,
    isNullable_of_erase_eq hrest, htext, hget]

/-- A node says the same itself. -/
theorem plainShape_of_erase_eq (resolve : Resolver) (extensions : Extensions) (site : Site) :
    env.plainShape resolve (.obj fields') extensions site =
      env.plainShape resolve (.obj fields) extensions site := by
  have hget : ∀ key, key ≠ "allOf" → (Json.obj fields').get? key = (Json.obj fields).get? key :=
    fun _ hkey => get?_of_erase_eq hrest hkey
  have htext : ∀ key, key ≠ "allOf" → text? key (.obj fields') = text? key (.obj fields) :=
    fun _ hkey => text?_of_erase_eq hrest hkey
  have henum : enumShape (.obj fields') = enumShape (.obj fields) := by
    funext declared extensions
    simp (disch := decide) only [enumShape, membersOf, htext, hget]
  have hobject : env.objectShape resolve (.obj fields') =
      env.objectShape resolve (.obj fields) := by
    funext site
    simp (disch := decide) only [objectShape, additionalFields, fieldlessShape, requiredNames,
      properties?, declaredTypes_of_erase_eq hrest, hget]
  have htyped : env.typedShape resolve (.obj fields') = env.typedShape resolve (.obj fields) := by
    funext type site
    simp (disch := decide) only [typedShape, arrayShape, htext, hget]
  simp (disch := decide) only [plainShape, types, declaredTypes_of_erase_eq hrest, hget, henum,
    hobject, htyped]

theorem union_of_erase_eq (resolve : Resolver) (elements : List Json) (site : Site) :
    env.union resolve (.obj fields') elements site =
      env.union resolve (.obj fields) elements site :=
  union_congr (get?_of_erase_eq hrest (by decide))

theorem description?_of_erase_eq :
    description? (.obj fields') = description? (.obj fields) :=
  text?_of_erase_eq hrest (by decide)

theorem ownKeywords_of_erase_eq : ownKeywords (.obj fields') = ownKeywords (.obj fields) := by
  simp only [ownKeywords, hrest]

variable (hsize : env.size = env.doc.root.size)
  (hsame : List.Forall₂ SaysSame (membersOf "allOf" (.obj fields))
    (membersOf "allOf" (.obj fields')))
  (hmembers : membersOf "allOf" (.obj fields) ≠ [])
  (hunion : env.anyUnion site (membersOf "allOf" (.obj fields)) = .ok false)
include hsize hsame hmembers hunion

theorem mixedShape_of_saysSame (levels : Nat) :
    env.mixedShape (env.resolveAt levels) (.obj fields') site =
      env.mixedShape (env.resolveAt levels) (.obj fields) site := by
  have hmembers' : membersOf "allOf" (.obj fields') ≠ [] := fun hnil => by
    rw [hnil] at hsame
    exact hmembers (List.forall₂_nil_right_iff.mp hsame)
  have htake : env.takeUnion (env.resolveAt levels) (.obj fields') =
      env.takeUnion (env.resolveAt levels) (.obj fields) := by
    funext site acc part
    simp only [takeUnion, union_of_erase_eq hrest]
  have hmerged : ∀ c c' : Combined, c'.unlabelled = c.unlabelled →
      takeMerged {} c' = takeMerged {} c := by
    have hunlabelled : ∀ c : Combined, takeMerged {} c = takeMerged {} c.unlabelled := by
      intro c
      cases c <;> rfl
    exact fun c c' hc => by rw [hunlabelled, hc, ← hunlabelled]
  unfold mixedShape
  simp only [List.isEmpty_iff, hmembers, hmembers', if_false, htake,
    membersOf_of_erase_eq hrest (by decide : "anyOf" ≠ "allOf"),
    membersOf_of_erase_eq hrest (by decide : "oneOf" ≠ "allOf"), pure_bind]
  refine bind_congr_of_map (allOfShape_of_saysSame hsize (ownKeywords_of_erase_eq hrest) hsame
    hunion) fun c c' hc => ?_
  rw [hmerged c c' hc]

theorem combined?_of_saysSame (levels : Nat) :
    Option.map Combined.unlabelled <$> env.combined? (env.resolveAt levels) (.obj fields') site =
      Option.map Combined.unlabelled <$>
        env.combined? (env.resolveAt levels) (.obj fields) site := by
  have hanyOf := membersOf_of_erase_eq hrest (by decide : "anyOf" ≠ "allOf")
  have honeOf := membersOf_of_erase_eq hrest (by decide : "oneOf" ≠ "allOf")
  have hfields : (fieldKeywords.any fun key => ((Json.obj fields').get? key).isSome) =
      fieldKeywords.any fun key => ((Json.obj fields).get? key).isSome := by
    have hget : ∀ key, key ≠ "allOf" →
        (Json.obj fields').get? key = (Json.obj fields).get? key :=
      fun _ hkey => get?_of_erase_eq hrest hkey
    simp (disch := decide) only [fieldKeywords, List.any_cons, List.any_nil, hget]
  have hshape : Combined.unlabelled <$> env.allOfShape (env.resolveAt levels) (.obj fields')
        (membersOf "allOf" (.obj fields')) true site =
      Combined.unlabelled <$> env.allOfShape (env.resolveAt levels) (.obj fields)
        (membersOf "allOf" (.obj fields)) true site :=
    allOfShape_of_saysSame hsize (ownKeywords_of_erase_eq hrest) hsame hunion
  have hmixed := mixedShape_of_saysSame hrest hsize hsame hmembers hunion levels
  unfold combined?
  dsimp only
  rw [hanyOf, honeOf, hfields, hmixed]
  cases hlist : membersOf "allOf" (.obj fields) with
  | nil => exact absurd hlist hmembers
  | cons first rest =>
    cases hlist' : membersOf "allOf" (.obj fields') with
    | nil =>
      rw [hlist, hlist'] at hsame
      exact absurd hsame (by simp)
    | cons first' rest' =>
      rw [hlist, hlist'] at hshape
      cases membersOf "anyOf" (.obj fields) with
      | cons => rfl
      | nil =>
        cases membersOf "oneOf" (.obj fields) with
        | cons => rfl
        | nil =>
          simp only [map_bind, map_pure]
          exact bind_congr_of_map hshape fun c c' hc => by simp only [Option.map_some, hc]

/-- **Nodes whose members say the same** come to the same shape. -/
theorem schemaShape_of_saysSame (levels : Nat) :
    Shape.unlabelled <$> env.schemaShape (env.resolveAt levels) (.obj fields') site =
      Shape.unlabelled <$> env.schemaShape (env.resolveAt levels) (.obj fields) site := by
  have hown : env.ownShape (env.resolveAt levels) (.obj fields') =
      env.ownShape (env.resolveAt levels) (.obj fields) := by
    funext extensions site
    simp only [ownShape, plainShape_of_erase_eq hrest]
  have hfinish : ∀ shape : Shape, (finish (.obj fields') shape).unlabelled =
      (finish (.obj fields) shape).unlabelled := by
    intro shape
    simp only [finish, Shape.unlabelled, constraints_of_erase_eq hrest,
      description?_of_erase_eq hrest]
  have hcombined : ∀ shape : Shape, (finishCombined (.obj fields') shape).unlabelled =
      (finishCombined (.obj fields) shape.unlabelled).unlabelled := by
    intro shape
    simp only [finishCombined, Shape.unlabelled, isNullable_of_erase_eq hrest,
      description?_of_erase_eq hrest]
  have henhance : ∀ own part : Shape, ∀ keepDecl,
      enhance own part keepDecl = enhance own part.unlabelled keepDecl := fun _ _ _ => rfl
  unfold schemaShape
  rw [extensionsAt_of_erase_eq hrest]
  simp only [map_bind]
  refine bind_congr fun extensions => ?_
  refine bind_congr_of_map
    (combined?_of_saysSame hrest hsize hsame hmembers hunion levels) fun c c' hc => ?_
  -- Whichever way the combinators go, what is done with them looks at no label.
  cases c with
  | none =>
    obtain rfl : c' = none := by simpa using hc
    simp only [hown, map_bind, map_pure, hfinish]
  | some c =>
    cases c' with
    | none => simp at hc
    | some c' =>
      have hc : c'.unlabelled = c.unlabelled := Option.some.inj hc
      cases c with
      | partly part =>
        cases c' with
        | complete shape => simp [Combined.unlabelled] at hc
        | partly part' =>
          have hpart : part'.unlabelled = part.unlabelled := Combined.partly.inj hc
          simp only [hown, map_bind, map_pure, hfinish, henhance _ part', hpart, ← henhance]
      | complete shape =>
        cases c' with
        | partly part => simp [Combined.unlabelled] at hc
        | complete shape' =>
          have hshape : shape'.unlabelled = shape.unlabelled := Combined.complete.inj hc
          have hblank : shape'.unlabelled.isBlank = shape.unlabelled.isBlank := by rw [hshape]
          have halias : shape'.unlabelled.isAlias = shape.unlabelled.isAlias := by rw [hshape]
          change shape'.isBlank = shape.isBlank at hblank
          change shape'.isAlias = shape.isAlias at halias
          dsimp only
          rw [hblank, halias]
          split
          · simp only [map_pure, hcombined shape', hshape]
            rfl
          · simp only [hown, map_bind, map_pure, hfinish, henhance _ shape', hshape, ← henhance]

end Nodes

/-- **What stands beside a reference inside an `allOf` changes nothing**, where no member leads to a
    union. Two nodes that differ in such siblings alone resolve to the same error, or to the same
    shape but for the node that it names as its source; and they leave the same session. -/
theorem resolveAt_of_saysSame (hsize : env.size = env.doc.root.size) (h : SaysSame node other)
    (hreference : reference? node = none) (hsite : site.reference = none)
    (hunion : env.anyUnion site (membersOf "allOf" node) = .ok false) (levels : Nat) :
    Shape.unlabelled <$> env.resolveAt levels other site =
      Shape.unlabelled <$> env.resolveAt levels node site := by
  have hbuild : ∀ (resolve : Resolver) (fields : List (String × Json)),
      reference? (.obj fields) = none →
        env.build resolve (.obj fields) site = env.schemaShape resolve (.obj fields) site := by
    intro resolve fields hfields
    simp only [build, hsite, hfields]
  cases h with
  | self => rfl
  | reference hnode => simp [hnode] at hreference
  | nested hrest hmembers hsame =>
    have hreference' := (SaysSame.nested hrest hmembers hsame).reference?_eq.trans hreference
    cases levels with
    | zero => rfl
    | succ levels =>
      simp only [resolveAt, map_deeper, hbuild _ _ hreference, hbuild _ _ hreference']
      rw [schemaShape_of_saysSame hrest hsize hsame hmembers hunion]

end Env

/-! ## 4. Required beside a reference -/

/-- A reference to a component with these keywords beside it. -/
def baseReference (beside : List (String × Json)) : Json :=
  .obj (("$ref", .str "#/components/schemas/Base") :: beside)

/-- That `a` is required. -/
def requiresA : List (String × Json) := [("required", .arr [.str "a"])]

/-- A record with this field. -/
def recordOf (name type : String) : Json :=
  .obj [("properties", .obj [(name, .obj [("type", .str type)])])]

/-- An `allOf` of these members. -/
def allOfNode (members : List Json) : Json := .obj [("allOf", .arr members)]

/-- A document with a record and an `allOf`. -/
def joinedDocument (members : List Json) : Json :=
  .obj [("components", .obj [("schemas", .obj [
    ("Base", recordOf "a" "string"), ("D", allOfNode members)])])]

/-- What a compilation of this document knows. -/
def joinedEnv (members : List Json) : Env := { doc := ⟨(joinedDocument members).members?.getD []⟩ }

/-- The fields of a result, and whether they are required. -/
def requiredFields (fields : List Field) : List (Option String × Bool) :=
  fields.map fun field => (field.wireName, field.constraints.required)

/-- A node that requires `a` beside a reference. -/
def requiresBeside : Json := allOfNode [baseReference requiresA, recordOf "b" "integer"]

/-- The same node without what stands beside the reference. -/
def requiresNothing : Json := allOfNode [baseReference [], recordOf "b" "integer"]

theorem resolveAt_of_saysSame_requiresBeside :
    Shape.unlabelled <$> (joinedEnv []).resolveAt 3 requiresNothing {} =
        Shape.unlabelled <$> (joinedEnv []).resolveAt 3 requiresBeside {} ∧
      (((joinedEnv []).resolveAt 3 requiresBeside {}).outcome {}).1.toOption.map
        (requiredFields ·.fields) = some [(some "a", false), (some "b", false)] := by
  have hmember : SaysSame (baseReference requiresA) (baseReference []) :=
    .reference rfl rfl rfl rfl
  have hnode : SaysSame requiresBeside requiresNothing :=
    .nested rfl (by decide) (.cons hmember (.cons (.self _) .nil))
  have hunion : (joinedEnv []).anyUnion {} (membersOf "allOf" requiresBeside) = .ok false := rfl
  exact ⟨Env.resolveAt_of_saysSame rfl hnode rfl rfl hunion 3, by decide +kernel⟩

/-- **What is required beside a reference inside an `allOf` is lost**; in a member of its own it is
    not. -/
theorem compile_allOf_loses_siblings :
    let fieldsOf (members : List Json) :=
      (compile (joinedDocument members) { prune := false }).toOption.bind fun c =>
        (c.get? "D").map (requiredFields ·.shape.fields)
    fieldsOf [baseReference requiresA, recordOf "b" "integer"] =
        some [(some "a", false), (some "b", false)] ∧
      fieldsOf [baseReference [], .obj requiresA, recordOf "b" "integer"] =
        some [(some "a", true), (some "b", false)] := by
  constructor <;> decide +kernel

end ApiTypes

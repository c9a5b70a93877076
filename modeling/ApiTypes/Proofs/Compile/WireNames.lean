import ApiTypes.Proofs.Compile.Sites
import ApiTypes.Proofs.Compile.StandsAlone
import Mathlib.Data.List.Duplicate

/-!
  Wire names that a record has twice.

  The fields of a record come from the properties of one schema, which have each name once. Only
  where a union stands beside an `allOf` are two lists of fields put together: those of the node
  itself, and those of the merged members. They are appended as they are.

  * `Env.Repeats`: a node has a property of its own and a merged member has it too, beside a union;
    or the only element of a union is such a node.
  * **No other record of a compilation has a wire name twice** (`compile_names_once`), however
    properties, members and unions are combined.
  * Such a node does (`compile_names_twice`).
-/

namespace ApiTypes

open Resolve Schema

/-- The keys on the wire of the fields of a shape. A field that embeds a definition has none. -/
def Shape.wireNames (shape : Shape) : List String := shape.fields.filterMap (·.wireName)

namespace Schema

/-- The names of the properties of a schema. -/
def propertyNames (node : Json) : List String := Entries.keys ((properties? node).getD [])

end Schema

/-- The shape that is made of a node may have this wire name twice. -/
inductive Env.Repeats (env : Env) : Json → String → Prop where
  /-- Beside a union, the node and the merged members of its `allOf` have a property of this
      name. -/
  | mixture {node : Json} {site : Site} {merged : List (String × Json)} {name : String}
    (hreference : reference? node = none) (hunion : hasUnion node = true)
    (hown : name ∈ propertyNames node)
    (hjoined : env.anyUnion site (membersOf "allOf" node) = .ok false)
    (hmerged : env.mergedMembers site none (membersOf "allOf" node) = .ok merged)
    (hthere : name ∈ propertyNames (.obj merged)) : Repeats env node name
  /-- The only element of a union, or the only one that admits more than null. -/
  | alone {node element : Json} {site : Site} {key name : String}
    (hkey : key = "anyOf" ∨ key = "oneOf")
    (helement : membersOf key node = [element] ∨
      env.nonNull site (membersOf key node) = .ok [element])
    (h : Repeats env element name) : Repeats env node name

namespace Env

variable {env : Env} {node : Json} {site : Site} {shape acc : Shape} {name : String}

/-- A shape has a wire name twice only where the node that it was made of repeats it. -/
def NamesOnce (env : Env) (shape : Shape) : Prop :=
  ∀ name, List.Duplicate name shape.wireNames →
    ∃ node, shape.source = some node ∧ env.Repeats node name

/-- The wire names of a shape that was made of a node. -/
structure NamesFrom (env : Env) (node : Json) (shape : Shape) : Prop where
  repeated : ∀ name, List.Duplicate name shape.wireNames →
    shape.source = some node ∧ env.Repeats node name
  alone : StandsAlone node → shape.wireNames ⊆ propertyNames node

/-! ## 1. Nodes that repeat nothing -/

theorem Repeats.hasUnion (h : env.Repeats node name) : hasUnion node = true := by
  cases h with
  | mixture _ hunion => exact hunion
  | @alone _ element site key _ hkey helement =>
    have hsome : membersOf key node ≠ [] := by
      intro hnil
      rw [hnil] at helement
      rcases helement with hsingle | hadmitted
      · exact List.cons_ne_nil _ _ hsingle.symm
      · exact List.cons_ne_nil _ _ (Except.ok.inj hadmitted).symm
    rcases hkey with rfl | rfl <;> simp [Schema.hasUnion, hsome]

theorem nodup_propertyNames (hkeys : node.hasDistinctKeys = true) : (propertyNames node).Nodup := by
  unfold propertyNames
  cases hproperties : properties? node with
  | none => exact List.nodup_nil
  | some properties =>
    obtain ⟨object, hobject, hmembers⟩ := Option.bind_eq_some_iff.mp hproperties
    exact Json.nodup_keys_of_members? (Json.hasDistinctKeys_of_get? hkeys hobject) hmembers

theorem NamesFrom.namesOnce (h : env.NamesFrom node shape) : env.NamesOnce shape :=
  fun name hname => ⟨node, h.repeated name hname⟩

theorem NamesOnce.of_wireNames (h : shape.wireNames = []) : env.NamesOnce shape :=
  fun name hname => absurd hname (h ▸ List.not_duplicate_nil name)

/-- A shape without fields of its own. -/
theorem NamesFrom.of_wireNames (h : shape.wireNames = []) : env.NamesFrom node shape where
  repeated name hname := absurd hname (h ▸ List.not_duplicate_nil name)
  alone _ := h ▸ List.nil_subset _

/-- A shape that has each wire name once, as a property of the node. -/
theorem NamesFrom.of_nodup (hnodup : shape.wireNames.Nodup)
    (halone : shape.wireNames ⊆ propertyNames node) : env.NamesFrom node shape where
  repeated _ hname := absurd hnodup hname.not_nodup
  alone _ := halone

/-! ## 2. Wire names that are collected -/

theorem wireNames_append (acc : Shape) (fields : List Field) (hoisted : List Definition) :
    Shape.wireNames { acc with fields := acc.fields ++ fields, hoisted } =
      acc.wireNames ++ fields.filterMap (·.wireName) :=
  List.filterMap_append

theorem wireNames_mixin (target : Option String) (nullable : Bool) :
    ((target.map (Field.mixin · nullable)).toList).filterMap (·.wireName) = [] := by
  cases target <;> rfl

theorem wireNames_refreshDecl (shape : Shape) : shape.refreshDecl.wireNames = shape.wireNames := by
  obtain ⟨decl, hdecl⟩ := Shape.refreshDecl_eq shape
  rw [hdecl]
  rfl

theorem wireNames_enhance (shape part : Shape) (keepDecl : Bool) :
    (enhance shape part keepDecl).wireNames = shape.wireNames ++ part.wireNames := by
  obtain ⟨decl, hdecl⟩ := Shape.enhance_eq shape part keepDecl
  rw [hdecl]
  exact List.filterMap_append

/-- What two lists without repetition repeat together, both have. -/
theorem mem_of_duplicate_append {left right : List String} (hleft : left.Nodup)
    (hright : right.Nodup) (h : List.Duplicate name (left ++ right)) :
    name ∈ left ∧ name ∈ right := by
  have htwo := List.duplicate_iff_two_le_count.mp h
  rw [List.count_append] at htwo
  have hleftCount := List.nodup_iff_count_le_one.mp hleft name
  have hrightCount := List.nodup_iff_count_le_one.mp hright name
  exact ⟨List.count_pos_iff.mp (by omega), List.count_pos_iff.mp (by omega)⟩

/-- The wire names of what a node says itself: each once, and each a property of the node. -/
structure OwnNames (node : Json) (shape : Shape) : Prop where
  nodup : shape.wireNames.Nodup
  subset : shape.wireNames ⊆ propertyNames node

theorem OwnNames.of_wireNames (h : shape.wireNames = []) : OwnNames node shape :=
  ⟨h ▸ List.nodup_nil, h ▸ List.nil_subset _⟩

theorem OwnNames.of_eq (hkeys : node.hasDistinctKeys = true)
    (h : shape.wireNames = propertyNames node) : OwnNames node shape :=
  ⟨h ▸ nodup_propertyNames hkeys, h ▸ List.Subset.refl _⟩

/-- Fields that were made of properties, in their order. -/
theorem filterMap_wireName_of_forall₂ {properties : List (String × Json)} {fields : List Field}
    (h : List.Forall₂ (fun property field => field.wireName = some property.1) properties fields) :
    fields.filterMap (·.wireName) = Entries.keys properties := by
  induction h with
  | nil => rfl
  | cons hfield _ ih =>
    rw [List.filterMap_cons_some hfield, ih]
    rfl

/-- The wire names of what members describe together: each once, and each a property of theirs. -/
inductive JoinedNames (env : Env) (own : Option (List (String × Json))) (members : List Json) :
    List String → Prop where
  | none : JoinedNames env own members []
  | merged {site : Site} {merged : List (String × Json)} {names : List String}
    (hunion : env.anyUnion site members = .ok false)
    (hmerged : env.mergedMembers site own members = .ok merged) (hnodup : names.Nodup)
    (hsubset : names ⊆ propertyNames (.obj merged)) : JoinedNames env own members names

theorem JoinedNames.nodup {own : Option (List (String × Json))} {members : List Json}
    {names : List String} (h : env.JoinedNames own members names) : names.Nodup := by
  cases h with
  | none => exact List.nodup_nil
  | merged _ _ hnodup => exact hnodup

/-- A wire name of what members describe together is a property of theirs. -/
theorem JoinedNames.of_mem {own : Option (List (String × Json))} {members : List Json}
    {names : List String} (h : env.JoinedNames own members names) (hname : name ∈ names) :
    ∃ site merged, env.anyUnion site members = .ok false ∧
      env.mergedMembers site own members = .ok merged ∧ name ∈ propertyNames (.obj merged) := by
  cases h with
  | none => exact absurd hname List.not_mem_nil
  | merged hunion hmerged _ hsubset => exact ⟨_, _, hunion, hmerged, hsubset hname⟩

/-- Merged members are embedded, or give their fields. -/
theorem JoinedNames.takeMerged {own : Option (List (String × Json))} {members : List Json}
    {c : Combined} (h : env.JoinedNames own members c.shape.wireNames) :
    env.JoinedNames own members (takeMerged {} c).wireNames := by
  unfold Env.takeMerged
  split
  · split
    · exact .none
    · exact h
  · exact h

/-- The wire names of a union are those of the only element, if there are any. -/
def UnionNames (env : Env) (elements : List Json) (shape : Shape) : Prop :=
  ∀ name, List.Duplicate name shape.wireNames → ∃ element site,
    (elements = [element] ∨ env.nonNull site elements = .ok [element]) ∧
      shape.source = some element ∧ env.Repeats element name

theorem UnionNames.of_wireNames {elements : List Json} (h : shape.wireNames = []) :
    env.UnionNames elements shape :=
  fun name hname => absurd hname (h ▸ List.not_duplicate_nil name)

theorem UnionNames.namesOnce {elements : List Json} (h : env.UnionNames elements shape) :
    env.NamesOnce shape := by
  intro name hname
  obtain ⟨element, -, -, hsource, hrepeats⟩ := h name hname
  exact ⟨element, hsource, hrepeats⟩

/-- What the combinators of a node come to. Parts have each wire name once, and the node repeats
    those that it has itself; a whole shape has a name twice only where the node repeats it. -/
inductive CombinedNames (env : Env) (node : Json) : Combined → Prop where
  | partly {part : Shape} (hnodup : part.wireNames.Nodup)
    (hboth : ∀ name ∈ part.wireNames, name ∈ propertyNames node → env.Repeats node name) :
    CombinedNames env node (.partly part)
  | complete {shape : Shape}
    (h : ∀ name, List.Duplicate name shape.wireNames → env.Repeats node name) :
    CombinedNames env node (.complete shape)

/-- A resolver whose shapes have the wire names of their nodes. Where the node is known to be a
    reference, there are none. -/
def NamesAt (env : Env) (resolve : Resolver) : Prop :=
  ∀ node site, node.hasDistinctKeys = true →
    Gives (fun d => env.NamesOnce d.shape) (resolve node site) fun shape =>
      env.NamesFrom node shape ∧ (site.reference.isSome = true → shape.wireNames = [])

namespace NamesAt

/-! ## 3. Definitions and references -/

theorem gives_define {location : Location} (h : env.NamesOnce shape) :
    Gives (fun d => env.NamesOnce d.shape) (env.define shape site location) fun use =>
      use.wireNames = [] := by
  refine (Resolve.gives_define fun _ => h).mono fun use huse => ?_
  obtain ⟨d, -, rfl⟩ := huse
  rfl

theorem gives_hoist {location : Location} (h : env.NamesOnce shape) :
    Gives (fun d => env.NamesOnce d.shape) (env.hoist shape site location) fun _ => True := by
  unfold Env.hoist
  split
  · exact (gives_define h).mono fun _ _ => trivial
  · exact gives_pure trivial

variable {resolve : Resolver} (h : env.NamesAt resolve)
include h

theorem gives_resolve (hkeys : node.hasDistinctKeys = true) (site : Site) :
    Gives (fun d => env.NamesOnce d.shape) (resolve node site) (env.NamesFrom node) :=
  (h node site hkeys).mono fun _ => And.left

theorem gives_referenceShape (hdoc : env.doc.root.hasDistinctKeys = true) (node : Json)
    (reference : String) (site : Site) :
    Gives (fun d => env.NamesOnce d.shape) (env.referenceShape resolve node reference site)
      fun shape => shape.wireNames = [] := by
  have hplace : Gives (fun d => env.NamesOnce d.shape) (env.placeReference resolve reference site)
      fun shape => shape.wireNames = [] := by
    unfold Env.placeReference
    refine .ask fun target htarget => .get fun session => ?_
    have hkeys := Json.hasDistinctKeys_of_resolve? hdoc (resolve_eq_ok.mp htarget)
    dsimp only
    split
    · exact gives_pure rfl
    · exact (gives_expanding (h.gives_resolve hkeys _)).bind fun shape hshape =>
        gives_define hshape.namesOnce
  unfold Env.referenceShape
  split
  · exact .ask fun name _ => gives_pure rfl
  · split
    · exact hplace.bind fun use huse => gives_pure huse
    · exact gives_throw

/-! ## 4. Members of an `allOf` -/

theorem gives_embedMember (site : Site) (hacc : acc.wireNames = []) {member : Json × Nat}
    (hmember : member.1.hasDistinctKeys = true) :
    Gives (fun d => env.NamesOnce d.shape) (env.embedMember resolve site acc member) fun acc =>
      acc.wireNames = [] := by
  have hembed : ∀ (target : Option String) (nullable : Bool) (hoisted : List Definition),
      Shape.wireNames { acc with
        fields := acc.fields ++ (target.map (Field.mixin · nullable)).toList, hoisted } = [] := by
    intro target nullable hoisted
    rw [wireNames_append, hacc, wireNames_mixin]
    rfl
  unfold Env.embedMember
  split
  · exact gives_pure hacc
  · dsimp only
    refine (h.gives_resolve hmember _).bind fun shape hshape => ?_
    split
    · exact gives_pure (hembed _ _ _)
    · split
      · exact gives_pure hacc
      · split
        · exact gives_pure (hembed _ _ _)
        · exact (gives_define hshape.namesOnce).bind fun use _ => gives_pure (hembed _ _ _)

/-- **Members that are embedded have no wire names.** -/
theorem gives_embedMembers {members : List Json}
    (hmembers : ∀ member ∈ members, member.hasDistinctKeys = true) (site : Site) :
    Gives (fun d => env.NamesOnce d.shape) (env.embedMembers resolve members site) fun shape =>
      shape.wireNames = [] := by
  unfold Env.embedMembers
  refine (gives_foldlM (fun acc => acc.wireNames = []) (fun acc member hmember hacc => ?_)
    (show Shape.wireNames {} = [] from rfl)).bind fun acc hacc => gives_pure ?_
  · exact h.gives_embedMember site hacc
      (hmembers member.1 (List.fst_mem_of_mem_zipIdx hmember))
  · rw [wireNames_refreshDecl, hacc]

/-- **What the members of an `allOf` come to**: parts that are embedded, or a shape that has the
    properties of the merged members. -/
theorem gives_allOfShape (hdoc : env.doc.root.hasDistinctKeys = true)
    (hsize : env.size = env.doc.root.size) (hkeys : node.hasDistinctKeys = true) {withOwn : Bool}
    {own : Option (List (String × Json))}
    (hown : (if withOwn then ownKeywords node else none) = own)
    (hstart : (soFar own).hasDistinctKeys = true ∧ StandsAlone (soFar own)) (site : Site) :
    Gives (fun d => env.NamesOnce d.shape)
      (env.allOfShape resolve node (membersOf "allOf" node) withOwn site) fun c =>
        env.JoinedNames own (membersOf "allOf" node) c.shape.wireNames ∧
          ∀ part, c = .partly part → part.wireNames = [] := by
  have hmembers : ∀ member ∈ membersOf "allOf" node, member.hasDistinctKeys = true :=
    fun _ => Json.inherited_hasDistinctKeys.membersOf hkeys
  have hcomplete : ∀ shape : Shape,
      env.JoinedNames own (membersOf "allOf" node) shape.wireNames →
        env.JoinedNames own (membersOf "allOf" node) (Combined.complete shape).shape.wireNames ∧
          ∀ part, Combined.complete shape = .partly part → part.wireNames = [] :=
    fun shape hshape => ⟨hshape, fun _ heq => by simp at heq⟩
  have hempty : ∀ shape : Shape, shape.wireNames = [] →
      env.JoinedNames own (membersOf "allOf" node) shape.wireNames :=
    fun shape hshape => hshape ▸ .none
  unfold Env.allOfShape
  refine .ask fun leads hleads => ?_
  split
  · refine (h.gives_embedMembers hmembers site).bind fun shape hshape => gives_pure ⟨?_, ?_⟩
    · exact hempty shape hshape
    · exact fun part heq => Combined.partly.inj heq ▸ hshape
  · rename_i hfalse
    rw [Bool.not_eq_true] at hfalse
    have hunion : env.anyUnion site (membersOf "allOf" node) = .ok false := hfalse ▸ hleads
    dsimp only
    rw [hown]
    split
    · rename_i member reference honly
      have hmember := hmembers member (PartLaw.mem_of_onlyReference? honly).1
      refine (h member (site.withReference reference) hmember).bind fun shape hshape => ?_
      exact gives_pure (hcomplete _ (hempty shape (hshape.2 rfl)))
    · refine .ask fun merged hmerged => ?_
      split
      · exact .ask fun name _ => gives_pure (hcomplete _ .none)
      · have hmergedKeys := hasDistinctKeys_mergedMembers hdoc hstart.1 hmembers hmerged
        have hmergedAlone := standsAlone_mergedMembers hsize hdoc hmembers hunion hstart.2 hmerged
        refine (h.gives_resolve hmergedKeys _).bind fun shape hshape => ?_
        refine gives_pure (hcomplete _ (.merged hunion hmerged ?_ (hshape.alone hmergedAlone)))
        -- A schema without a union repeats nothing.
        refine List.nodup_iff_forall_not_duplicate.mpr fun name hname => ?_
        have hrepeats := (hshape.repeated name hname).2.hasUnion
        rw [hmergedAlone.union] at hrepeats
        exact Bool.false_ne_true hrepeats

/-! ## 5. Unions -/

theorem gives_addVariant (property : Option String) (declared : List (String × String))
    (found : List Variant × List (String × String)) {element : Json × Nat}
    (helement : element.1.hasDistinctKeys = true) (site : Site) :
    Gives (fun d => env.NamesOnce d.shape)
      (env.addVariant resolve site property declared found element) fun _ => True := by
  obtain ⟨variants, mapping⟩ := found
  unfold Env.addVariant
  dsimp only
  refine (h.gives_resolve helement _).bind fun shape hshape => ?_
  split
  · exact gives_pure trivial
  · split
    · refine (gives_define hshape.namesOnce).bind fun use _ => ?_
      cases property with
      | none => exact gives_pure trivial
      | some property => exact .ask fun mapping _ => gives_pure trivial
    · rw [pure_bind]
      cases property with
      | none => exact gives_pure trivial
      | some property => exact .ask fun mapping _ => gives_pure trivial

/-- A union of variants has no fields. -/
theorem gives_variantUnion (node : Json) {elements : List Json}
    (helements : ∀ element ∈ elements, element.hasDistinctKeys = true) (nullable : Bool)
    (site : Site) :
    Gives (fun d => env.NamesOnce d.shape)
      (env.variantUnion resolve node elements nullable site) fun shape =>
        shape.wireNames = [] := by
  unfold Env.variantUnion
  dsimp only
  refine (gives_foldlM (fun _ => True) (fun found element helement _ =>
    h.gives_addVariant _ _ found (helements _ (List.fst_mem_of_mem_zipIdx helement)) site)
      trivial).bind fun found _ => ?_
  obtain ⟨variants, mapping⟩ := found
  dsimp only
  split
  · exact gives_throw
  · split <;> exact gives_pure rfl

/-- **A union has the wire names of its only element**, or none. -/
theorem gives_union (node : Json) {elements : List Json}
    (helements : ∀ element ∈ elements, element.hasDistinctKeys = true) (site : Site) :
    Gives (fun d => env.NamesOnce d.shape) (env.union resolve node elements site)
      (env.UnionNames elements) := by
  have hvariants : ∀ {admitted : List Json} (nullable : Bool),
      env.nonNull site elements = .ok admitted → Gives (fun d => env.NamesOnce d.shape)
        (env.variantUnion resolve node admitted nullable site) (env.UnionNames elements) := by
    intro admitted nullable hadmitted
    refine (h.gives_variantUnion node (fun element helement => ?_) nullable site).mono
      fun _ => .of_wireNames
    exact helements element (mem_of_mem_nonNull hadmitted element helement)
  unfold Env.union
  dsimp only
  split
  on_goal 1 => split
  on_goal 1 =>
    rename_i element _
    refine (h.gives_resolve (helements element (List.mem_singleton_self element)) site).mono ?_
    exact fun shape hshape name hname => ⟨element, site, .inl rfl, hshape.repeated name hname⟩
  -- Both ways on look which elements admit more than null.
  all_goals
    refine .ask fun admitted hadmitted => ?_
    split
    · exact gives_pure (.of_wireNames rfl)
    · rename_i element
      split
      · have hkeys := helements element
          (mem_of_mem_nonNull hadmitted element (List.mem_singleton_self element))
        refine (h.gives_resolve hkeys site).bind fun shape hshape => gives_pure fun name hname => ?_
        exact ⟨element, site, .inr hadmitted, hshape.repeated name hname⟩
      · exact hvariants _ hadmitted
    · exact hvariants _ hadmitted

/-! ## 6. Records and arrays -/

theorem gives_field (required : List String) {property : String × Json}
    (hproperty : property.2.hasDistinctKeys = true) (site : Site) :
    Gives (fun d => env.NamesOnce d.shape) (env.field resolve required site property)
      fun field => field.wireName = some property.1 := by
  unfold Env.field
  dsimp only
  refine (h.gives_resolve hproperty _).bind fun shape hshape => ?_
  refine (gives_hoist hshape.namesOnce).bind fun use _ => ?_
  exact .ask fun resolved _ => .ask fun extensions _ => gives_pure rfl

theorem gives_additionalFields (hkeys : node.hasDistinctKeys = true) (site : Site) :
    Gives (fun d => env.NamesOnce d.shape) (env.additionalFields resolve node site)
      fun _ => True := by
  unfold Env.additionalFields
  split
  · exact gives_pure trivial
  · exact gives_pure trivial
  · rename_i members _ hmembers
    have hadditional := Json.hasDistinctKeys_of_get? hkeys hmembers
    exact (h.gives_resolve hadditional _).bind fun shape hshape =>
      (gives_hoist hshape.namesOnce).bind fun use _ => gives_pure trivial
  · exact gives_pure trivial

/-- **A record has the names of the properties**, each once. -/
theorem gives_objectShape (hkeys : node.hasDistinctKeys = true) (site : Site) :
    Gives (fun d => env.NamesOnce d.shape) (env.objectShape resolve node site)
      (OwnNames node) := by
  have hproperties : ∀ property ∈ (properties? node).getD [],
      property.2.hasDistinctKeys = true :=
    fun _ => Json.inherited_hasDistinctKeys.entries_getD hkeys
  unfold Env.objectShape
  dsimp only
  refine (gives_mapM_forall₂ fun property hproperty =>
    h.gives_field _ (hproperties property hproperty) site).bind fun fields hfields => ?_
  refine (h.gives_additionalFields hkeys site).bind fun additional _ => ?_
  split
  · refine gives_pure (.of_wireNames ?_)
    unfold Env.fieldlessShape
    split
    · rfl
    · dsimp only
      split_ifs <;> rfl
  · refine gives_pure (.of_eq hkeys ?_)
    exact filterMap_wireName_of_forall₂ hfields

theorem gives_arrayShape (hkeys : node.hasDistinctKeys = true) (site : Site) :
    Gives (fun d => env.NamesOnce d.shape) (env.arrayShape resolve node site) (OwnNames node) := by
  have hitem : ∀ item : Shape, env.NamesOnce item → Gives (fun d => env.NamesOnce d.shape)
      (env.hoist item (site.child "Item") .property >>= fun item =>
        pure ({ decl := arrayDecl item, item := some item } : Shape)) (OwnNames node) :=
    fun item hitem => (gives_hoist hitem).bind fun use _ => gives_pure (.of_wireNames rfl)
  unfold Env.arrayShape
  dsimp only
  split
  · exact hitem Shape.any (.of_wireNames rfl)
  · rename_i items hget
    exact (h.gives_resolve (Json.hasDistinctKeys_of_get? hkeys hget) _).bind fun shape hshape =>
      hitem shape hshape.namesOnce

/-- **What a node says itself**: nothing has a wire name where its type is overridden. -/
theorem gives_ownShape (hkeys : node.hasDistinctKeys = true) (extensions : Extensions)
    (site : Site) :
    Gives (fun d => env.NamesOnce d.shape) (env.ownShape resolve node extensions site)
      fun shape => OwnNames node shape ∧
        (extensions.typeOverride.isSome = true → shape.wireNames = []) := by
  unfold Env.ownShape
  split
  · exact gives_pure ⟨.of_wireNames rfl, fun _ => rfl⟩
  · rename_i hnone
    have hplain : Gives (fun d => env.NamesOnce d.shape)
        (env.plainShape resolve node extensions site) (OwnNames node) := by
      unfold Env.plainShape
      dsimp only
      split
      · split
        · exact gives_pure (.of_wireNames rfl)
        · exact h.gives_objectShape hkeys site
      · split
        · exact h.gives_objectShape hkeys site
        · split
          · exact gives_pure (.of_wireNames rfl)
          · unfold Env.typedShape
            split
            · exact h.gives_arrayShape hkeys site
            · split
              · exact gives_pure (.of_wireNames rfl)
              · exact gives_throw
      · exact gives_pure (.of_wireNames rfl)
    exact hplain.mono fun shape hshape => ⟨hshape, fun hsome => by simp [hnone] at hsome⟩

/-! ## 7. Combinators -/

theorem gives_takeUnion (node : Json) (part : String × List Json)
    (hpart : ∀ element ∈ part.2, element.hasDistinctKeys = true) (acc : Shape) (site : Site) :
    Gives (fun d => env.NamesOnce d.shape) (env.takeUnion resolve node site acc part)
      fun shape => shape.wireNames = acc.wireNames := by
  unfold Env.takeUnion
  split
  · exact gives_pure rfl
  · dsimp only
    refine (h.gives_union node hpart _).bind fun union hunion => ?_
    refine (gives_hoist hunion.namesOnce).bind fun use _ => gives_pure ?_
    rw [wireNames_append, wireNames_mixin, List.append_nil]

/-- **Beside a union stand the wire names of the merged members.** -/
theorem gives_mixedShape (hdoc : env.doc.root.hasDistinctKeys = true)
    (hsize : env.size = env.doc.root.size) (hkeys : node.hasDistinctKeys = true) (site : Site) :
    Gives (fun d => env.NamesOnce d.shape) (env.mixedShape resolve node site) fun shape =>
      env.JoinedNames none (membersOf "allOf" node) shape.wireNames := by
  have hunions : ∀ start : Shape,
      env.JoinedNames none (membersOf "allOf" node) start.wireNames →
      Gives (fun d => env.NamesOnce d.shape) (do
        return (← [("AnyOf", membersOf "anyOf" node), ("OneOf", membersOf "oneOf" node)].foldlM
          (env.takeUnion resolve node site) start).refreshDecl) fun shape =>
            env.JoinedNames none (membersOf "allOf" node) shape.wireNames := by
    intro start hstart
    refine (gives_foldlM (fun acc => acc.wireNames = start.wireNames)
      (fun acc part hpart hacc => ?_) rfl).bind fun acc hacc => gives_pure ?_
    · have helements : ∀ element ∈ part.2, element.hasDistinctKeys = true := by
        rcases List.mem_pair.mp hpart with rfl | rfl <;>
          exact fun _ => Json.inherited_hasDistinctKeys.membersOf hkeys
      exact (h.gives_takeUnion node part helements acc site).mono fun _ hshape =>
        hshape.trans hacc
    · rwa [wireNames_refreshDecl, hacc]
  unfold Env.mixedShape
  dsimp only
  split
  · exact hunions _ .none
  · have hallOf := h.gives_allOfShape hdoc hsize hkeys (if_neg Bool.false_ne_true) ⟨rfl, .nil⟩ site
    exact hallOf.bind fun c hc => hunions _ hc.1.takeMerged

/-- **What the combinators of a node come to.** A node that stands alone has none. -/
theorem gives_combined? (hdoc : env.doc.root.hasDistinctKeys = true)
    (hsize : env.size = env.doc.root.size) (hkeys : node.hasDistinctKeys = true)
    (hreference : reference? node = none) (site : Site) :
    Gives (fun d => env.NamesOnce d.shape) (env.combined? resolve node site) fun combined =>
      ∀ c, combined = some c → ¬ StandsAlone node ∧ env.CombinedNames node c := by
  have hunion : ∀ key, (key = "anyOf" ∨ key = "oneOf") → ¬ StandsAlone node →
      Gives (fun d => env.NamesOnce d.shape) (do
        return some (Combined.complete (← env.union resolve node (membersOf key node) site)))
          fun combined => ∀ c, combined = some c →
            ¬ StandsAlone node ∧ env.CombinedNames node c := by
    intro key hkey halone
    refine (h.gives_union node (fun _ => Json.inherited_hasDistinctKeys.membersOf hkeys) site).bind
      fun shape hshape => gives_pure fun c hc => ?_
    obtain rfl := Option.some.inj hc
    refine ⟨halone, .complete fun name hname => ?_⟩
    obtain ⟨element, place, helement, -, hrepeats⟩ := hshape name hname
    exact .alone hkey helement hrepeats
  have hsome : ∀ key, (key = "anyOf" ∨ key = "oneOf") → membersOf key node ≠ [] →
      ¬ StandsAlone node := by
    rintro key (rfl | rfl) hne halone <;>
      exact Bool.false_ne_true (halone.union.symm.trans (by simp [Schema.hasUnion, hne]))
  unfold Env.combined?
  dsimp only
  split
  · exact gives_pure (by simp)
  · rename_i hallOf hanyOf honeOf
    have hfalse : hasUnion node = false := by simp [Schema.hasUnion, hanyOf, honeOf]
    have hstart := standsAlone_ownKeywords hkeys hreference hfalse
    refine (h.gives_allOfShape hdoc hsize hkeys (if_pos rfl) hstart site).bind fun c hc =>
      gives_pure fun found hfound => ?_
    obtain rfl := Option.some.inj hfound
    obtain ⟨hjoined, hparts⟩ := hc
    refine ⟨fun halone => by simp [halone.allOf] at hallOf, ?_⟩
    cases c with
    | partly part =>
      have hnil : part.wireNames = [] := hparts part rfl
      refine .partly hjoined.nodup fun name hname => ?_
      rw [hnil] at hname
      exact absurd hname List.not_mem_nil
    | complete shape => exact .complete fun name hname => absurd hjoined.nodup hname.not_nodup
  · rename_i _ hanyOf _ _
    exact hunion "anyOf" (.inl rfl) (hsome _ (.inl rfl) (by simp [hanyOf]))
  · rename_i _ _ honeOf _
    exact hunion "oneOf" (.inr rfl) (hsome _ (.inr rfl) (by simp [honeOf]))
  · rename_i hnone hmembers _ _
    have hmixed : hasUnion node = true := by
      refine (Bool.not_eq_false _).mp fun hfalse => ?_
      obtain ⟨hanyOf, honeOf⟩ : membersOf "anyOf" node = [] ∧ membersOf "oneOf" node = [] := by
        simpa [Schema.hasUnion] using hfalse
      cases hallOf : membersOf "allOf" node with
      | nil => exact hnone hallOf hanyOf honeOf
      | cons first rest => exact hmembers first rest hallOf hanyOf honeOf
    refine (h.gives_mixedShape hdoc hsize hkeys site).bind fun part hpart =>
      gives_pure fun c hc => ?_
    obtain rfl := Option.some.inj hc
    refine ⟨fun halone => Bool.false_ne_true (halone.union.symm.trans hmixed), ?_⟩
    refine .partly hpart.nodup fun name hname hown => ?_
    obtain ⟨place, merged, hleads, hmerged, hthere⟩ := hpart.of_mem hname
    exact .mixture hreference hmixed hown hleads hmerged hthere

/-! ## 8. Nodes -/

/-- **A node that is no reference** has its own wire names and those of its combinators. -/
theorem gives_schemaShape (hdoc : env.doc.root.hasDistinctKeys = true)
    (hsize : env.size = env.doc.root.size) (hkeys : node.hasDistinctKeys = true)
    (hreference : reference? node = none) (site : Site) :
    Gives (fun d => env.NamesOnce d.shape) (env.schemaShape resolve node site)
      (env.NamesFrom node) := by
  unfold Env.schemaShape
  refine .ask fun extensions _ => ?_
  dsimp only
  have hown := h.gives_ownShape hkeys extensions site
  refine (h.gives_combined? hdoc hsize hkeys hreference site).bind fun combined hcombined => ?_
  split
  · exact hown.bind fun own hshape =>
      gives_pure (NamesFrom.of_nodup hshape.1.nodup hshape.1.subset)
  · rename_i part
    obtain ⟨halone, hpart⟩ := hcombined _ rfl
    obtain ⟨hnodup, hboth⟩ | _ := hpart
    refine hown.bind fun own hshape =>
      gives_pure ⟨fun name hname => ⟨rfl, ?_⟩, fun h => absurd h halone⟩
    have happended : List.Duplicate name (own.wireNames ++ part.wireNames) :=
      wireNames_enhance own part _ ▸ hname
    obtain ⟨hleft, hright⟩ := mem_of_duplicate_append hshape.1.nodup hnodup happended
    exact hboth name hright (hshape.1.subset hleft)
  · rename_i shape
    obtain ⟨halone, hshape⟩ := hcombined _ rfl
    obtain _ | hrepeats := hshape
    split
    · exact gives_pure ⟨fun name hname => ⟨rfl, hrepeats name hname⟩, fun h => absurd h halone⟩
    · rename_i hreplaced
      have hoverridden : extensions.typeOverride.isSome = true := by
        simp only [Bool.or_eq_true, Bool.not_eq_true', not_or, Bool.not_eq_false] at hreplaced
        exact hreplaced.2
      refine hown.bind fun own hempty =>
        gives_pure ⟨fun name hname => ⟨rfl, hrepeats name ?_⟩, fun h => absurd h halone⟩
      have happended : List.Duplicate name (own.wireNames ++ shape.wireNames) :=
        wireNames_enhance own shape _ ▸ hname
      rwa [hempty.2 hoverridden, List.nil_append] at happended

theorem gives_build (hdoc : env.doc.root.hasDistinctKeys = true)
    (hsize : env.size = env.doc.root.size) (hkeys : node.hasDistinctKeys = true) (site : Site) :
    Gives (fun d => env.NamesOnce d.shape) (env.build resolve node site) fun shape =>
      env.NamesFrom node shape ∧ (site.reference.isSome = true → shape.wireNames = []) := by
  have hnil : ∀ reference, Gives (fun d => env.NamesOnce d.shape)
      (env.referenceShape resolve node reference site) fun shape =>
        env.NamesFrom node shape ∧ (site.reference.isSome = true → shape.wireNames = []) :=
    fun reference => (h.gives_referenceShape hdoc node reference site).mono
      fun shape hshape => ⟨.of_wireNames hshape, fun _ => hshape⟩
  unfold Env.build
  split
  · rename_i members
    split
    · exact hnil _
    · rename_i reference hsite hreference
      split
      · exact hnil reference
      · -- Written as an `allOf`, the reference does not stand alone, but has no union.
        refine (h.gives_schemaShape hdoc hsize (hasDistinctKeys_expandReference hkeys)
          (PartLaw.reference?_expandReference members) site).mono fun shape hshape =>
            ⟨⟨fun name hname => ?_, fun halone => ?_⟩, by simp [hsite]⟩
        · have hunion := (hshape.repeated name hname).2.hasUnion
          rw [PartLaw.hasUnion_expandReference] at hunion
          exact absurd hunion Bool.false_ne_true
        · simp [halone.reference] at hreference
    · rename_i hsite hreference
      exact (h.gives_schemaShape hdoc hsize hkeys hreference site).mono fun shape hshape =>
        ⟨hshape, by simp [hsite]⟩
  · exact gives_pure ⟨.of_wireNames rfl, fun _ => rfl⟩

end NamesAt

/-! ## 9. Compilations -/

section Compilations

variable (hdoc : env.doc.root.hasDistinctKeys = true) (hsize : env.size = env.doc.root.size)
include hdoc hsize

/-- **Every level** gives shapes the wire names of their nodes. -/
theorem namesAt_resolveAt (levels : Nat) : env.NamesAt (env.resolveAt levels) := by
  induction levels with
  | zero => exact fun _ _ _ => gives_throw
  | succ levels ih =>
    exact fun node site hkeys => gives_deeper (ih.gives_build hdoc hsize hkeys site)

/-- **Every definition of a run** repeats a wire name only where its node does. -/
theorem namesOnce_of_runAll {u : Unit} {session : Session}
    (hrun : (env.runAll (Task.ofDocument env.doc)).Yields {} u session) :
    ∀ d ∈ session.registry.definitions, env.NamesOnce d.shape := by
  have hshapes : env.ShapeLaw (fun node => node.hasDistinctKeys = true) env.NamesOnce :=
    ⟨Json.inherited_hasDistinctKeys, hdoc, hasDistinctKeys_parameterRecord?, fun site hkeys =>
      ((namesAt_resolveAt hdoc hsize maxDepth).gives_resolve hkeys site).mono
        fun _ hshape => hshape.namesOnce⟩
  exact hshapes.of_runAll hrun

end Compilations

end Env

/-- **A record has each wire name once**, in every definition of every compilation, but for the
    records of nodes that repeat it. -/
theorem compile_names_once (document : Json) (options : Options) (c : Compilation)
    (hdocument : document.hasDistinctKeys = true) (h : compile document options = .ok c) :
    ∃ doc report, prepare document options = .ok (doc, report) ∧ ∀ d ∈ c.types, ∀ name,
      List.Duplicate name d.shape.wireNames → ∃ node, d.shape.source = some node ∧
        Env.Repeats { doc, options } node name := by
  obtain ⟨doc, report, session, u, hprepare, hrun, rfl⟩ := compile_eq_ok h
  have hdoc := hasDistinctKeys_prepare hdocument hprepare
  exact ⟨doc, report, hprepare, Env.namesOnce_of_runAll hdoc rfl hrun⟩

/-- A property that stands beside a union, and again in a member beside it. -/
def namedTwice : Json :=
  .obj [("components", .obj [("schemas", .obj [
    ("A", .obj [
      ("type", .str "object"),
      ("properties", .obj [("a", .obj [("type", .str "string")])]),
      ("allOf", .arr [.obj [("properties", .obj [("a", .obj [("type", .str "string")])])]]),
      ("anyOf", .arr [
        .obj [("type", .str "object"),
          ("properties", .obj [("b", .obj [("type", .str "string")])])],
        .obj [("type", .str "object"),
          ("properties", .obj [("c", .obj [("type", .str "string")])])]])])])])]

/-- **Beside a union, a property that a merged member has too is there twice.** -/
theorem compile_names_twice :
    ((compile namedTwice { prune := false }).toOption.map fun c =>
      c.types.map fun d => (d.name, d.shape.wireNames)) =
        some [("A_AnyOf_0", ["b"]), ("A_AnyOf_1", ["c"]), ("A_AnyOf", []), ("A", ["a", "a"])] := by
  decide +kernel

theorem compile_names_once_namedTwice :
    ∃ c, compile namedTwice { prune := false } = .ok c ∧ ∃ doc report,
      prepare namedTwice { prune := false } = .ok (doc, report) ∧ ∀ d ∈ c.types, ∀ name,
        List.Duplicate name d.shape.wireNames → ∃ node, d.shape.source = some node ∧
          Env.Repeats { doc, options := { prune := false } } node name := by
  have hok : (compile namedTwice { prune := false }).toOption.isSome = true := by decide +kernel
  cases hcompile : compile namedTwice { prune := false } with
  | error e => simp [hcompile, Except.toOption] at hok
  | ok c =>
    exact ⟨c, rfl, compile_names_once namedTwice { prune := false } c (by decide +kernel) hcompile⟩

end ApiTypes

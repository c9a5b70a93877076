import ApiTypes.Proofs.Compile.Fields
import ApiTypes.Proofs.Compile.SharedPlaces
import ApiTypes.Proofs.Compile.Unions
import ApiTypes.Proofs.Constraints

/-!
  What properties ask that refer to one place.

  Such a property asks what the schema at the place says, and takes over what the shape of the
  reference asks. The first reference to the place makes that shape from the schema, with all that
  it asks; later ones use it by its name, which asks nothing.

  * `Schema.AsksItself`: the shape of a schema asks nothing but what the schema says.
  * **Then all properties that are one reference to the place ask the same**
    (`compile_places_ask_alike`), whichever of them came first.
  * A schema that is left to a single combinator may ask more, and then the first property asks more
    than the others (`compile_places_ask_apart`).
-/

namespace ApiTypes

open Schema Resolve

/-- Whether a schema is left to a single combinator, which describes it completely. -/
def Schema.isLeftToCombinator (schema : Json) : Bool :=
  match membersOf "allOf" schema, membersOf "anyOf" schema, membersOf "oneOf" schema,
      Env.fieldKeywords.any fun key => (schema.get? key).isSome with
  | _ :: _, [], [], _ => true
  | [], _ :: _, [], false => true
  | [], [], _ :: _, false => true
  | _, _, _, _ => false

/-- A schema whose shape asks nothing but what the schema says. -/
inductive Schema.AsksItself : Json → Prop where
  /-- It is not left to a combinator, and says itself that a null among its values is one. -/
  | schema {schema : Json} (hreference : reference? schema = none)
    (hcombinator : isLeftToCombinator schema = false)
    (hnull : (membersOf "enum" schema).any Json.isNull = true → isNullable schema = true) :
    AsksItself schema
  /-- It is a component, and no null beside that. -/
  | component {schema : Json} {reference : String} (hbare : isBareReference schema = true)
    (hreference : reference? schema = some reference)
    (hcomponent : (Reference.schemaName? reference).isSome = true)
    (hnull : isNullable schema = false) : AsksItself schema

namespace Env

variable {env : Env} {resolve : Resolver} {node target : Json} {site : Site} {shape : Shape}
  {s s' : Session} {reference : String} {levels : Nat}

/-! ## 1. What the shape of a schema asks -/

theorem constraints_of_objectShape (h : (env.objectShape resolve node site).Yields s shape s') :
    shape.constraints = {} := by
  unfold objectShape at h
  simp only [yields_bind] at h
  obtain ⟨fields, _, -, additional, _, -, h⟩ := h
  split at h
  · obtain ⟨rfl, -⟩ := yields_pure.mp h
    unfold fieldlessShape
    split
    · rfl
    · dsimp only
      split_ifs <;> rfl
  · obtain ⟨rfl, -⟩ := yields_pure.mp h
    rfl

theorem constraints_of_arrayShape (h : (env.arrayShape resolve node site).Yields s shape s') :
    shape.constraints = {} := by
  unfold arrayShape at h
  dsimp only at h
  split at h
  all_goals
    simp only [yields_bind, yields_pure] at h
    obtain ⟨_, _, -, _, _, -, rfl, -⟩ := h
    rfl

/-- A schema without combinators asks nothing beside its own keywords, but for a null among its
    values. -/
theorem constraints_of_ownShape {extensions : Extensions}
    (h : (env.ownShape resolve node extensions site).Yields s shape s') :
    ∃ null, shape.constraints = { nullable := null } ∧
      (null = true → (membersOf "enum" node).any Json.isNull = true) := by
  have hnone : shape.constraints = {} → ∃ null, shape.constraints = { nullable := null } ∧
      (null = true → (membersOf "enum" node).any Json.isNull = true) :=
    fun hempty => ⟨false, hempty, by simp⟩
  unfold ownShape at h
  split at h
  · obtain ⟨rfl, -⟩ := yields_pure.mp h
    exact hnone rfl
  · unfold plainShape at h
    dsimp only at h
    split at h
    · split at h
      · obtain ⟨rfl, -⟩ := yields_pure.mp h
        exact ⟨_, rfl, id⟩
      · exact hnone (constraints_of_objectShape h)
    · split at h
      · exact hnone (constraints_of_objectShape h)
      · split at h
        · obtain ⟨rfl, -⟩ := yields_pure.mp h
          exact ⟨_, rfl, id⟩
        · unfold typedShape at h
          split at h
          · exact hnone (constraints_of_arrayShape h)
          · split at h
            · obtain ⟨rfl, -⟩ := yields_pure.mp h
              exact hnone rfl
            · simp at h
    · obtain ⟨rfl, -⟩ := yields_pure.mp h
      exact hnone rfl

theorem constraints_enhance (own part : Shape) (keepDecl : Bool) :
    (enhance own part keepDecl).constraints = own.constraints := by
  obtain ⟨decl, hdecl⟩ := Shape.enhance_eq own part keepDecl
  rw [hdecl]

/-- Only what is left to a combinator is all of its shape. -/
theorem isLeftToCombinator_of_complete
    (h : (env.combined? resolve node site).Yields s (some (.complete shape)) s') :
    isLeftToCombinator node = true := by
  unfold combined? at h
  unfold isLeftToCombinator
  dsimp only at h
  split at h
  · simp at h
  · rename_i hallOf hanyOf honeOf
    simp [hallOf, hanyOf, honeOf]
  · rename_i hallOf hanyOf honeOf hfields
    simp [hallOf, hanyOf, honeOf, hfields]
  · rename_i hallOf hanyOf honeOf hfields
    simp [hallOf, hanyOf, honeOf, hfields]
  · simp at h

/-- **What a schema asks itself, its shape asks**, and nothing else; the shape of a component asks
    nothing. -/
theorem constraints_of_asksItself (hasks : AsksItself target) (hsite : site.reference = none)
    (h : (env.resolveAt levels target site).Yields s shape s') :
    shape.constraints = {} ∨ reference? target = none ∧ ∃ null,
      (null = true → isNullable target = true) ∧
        shape.constraints = (Constraints.ofSchema target).absorb { nullable := null } := by
  cases levels with
  | zero => exact absurd h yields_throw
  | succ levels =>
    obtain ⟨-, m, h, -⟩ := yields_deeper h
    cases target with
    | obj members =>
      cases hasks with
      | component hbare hreference hcomponent hnull =>
        left
        simp only [build, hsite, hreference, hbare, if_true, referenceShape, hcomponent,
          yields_bind, yields_pure] at h
        obtain ⟨name, _, -, rfl, -⟩ := h
        simp [besideReference, Shape.aliasOf, hnull]
      | schema hreference hcombinator hnull =>
        right
        have hfinish : ∀ {own : Shape} {m m' : Session} {extensions : Extensions},
            (env.ownShape (env.resolveAt levels) (.obj members) extensions site).Yields m own m' →
            ∀ result : Shape, result.constraints = own.constraints →
              ∃ null, (null = true → isNullable (.obj members) = true) ∧
                (finish (.obj members) result).constraints =
                  (Constraints.ofSchema (.obj members)).absorb { nullable := null } := by
          intro own m m' extensions hown result hresult
          obtain ⟨null, hconstraints, hvalues⟩ := constraints_of_ownShape hown
          refine ⟨null, fun h => hnull (hvalues h), ?_⟩
          rw [← hconstraints, ← hresult]
          rfl
        refine ⟨hreference, ?_⟩
        simp only [build, hsite, hreference, schemaShape, yields_bind] at h
        obtain ⟨extensions, _, -, combined, _, hcombined, h⟩ := h
        rcases combined with _ | (shape | part)
        · simp only [yields_bind, yields_pure] at h
          obtain ⟨own, _, hown, rfl, -⟩ := h
          exact hfinish hown own rfl
        · have hleft := isLeftToCombinator_of_complete hcombined
          rw [hcombinator] at hleft
          exact absurd hleft Bool.false_ne_true
        · simp only [yields_bind, yields_pure] at h
          obtain ⟨own, _, hown, rfl, -⟩ := h
          exact hfinish hown _ (constraints_enhance own part _)
    | _ =>
      obtain ⟨rfl, -⟩ := yields_pure.mp h
      exact .inl rfl

/-! ## 2. What a reference to a place asks -/

/-- **What a reference asks**: nothing where the place is used by its name, and what the shape of
    the target asks where that is made. Either way it may be null. -/
theorem constraints_of_referenceShape (hplace : Reference.schemaName? reference = none)
    (htarget : env.doc.resolve? reference = some target) (hasks : AsksItself target)
    (h : (env.referenceShape (env.resolveAt levels) node reference site).Yields s shape s') :
    shape.constraints = { nullable := isNullable node } ∨ reference? target = none ∧ ∃ null,
      (null = true → isNullable target = true) ∧ shape.constraints =
        { (Constraints.ofSchema target).absorb { nullable := null } with
          nullable := isNullable target || null || isNullable node } := by
  unfold referenceShape at h
  rw [hplace] at h
  simp only [Option.isSome_none, Bool.false_eq_true, if_false] at h
  split at h
  · simp only [yields_bind, yields_pure] at h
    obtain ⟨use, m, hplace, rfl, -⟩ := h
    unfold placeReference at hplace
    simp only [yields_bind, yields_ask, yields_get] at hplace
    obtain ⟨found, _, ⟨hfound, -⟩, _, _, -, hplace⟩ := hplace
    obtain rfl := Option.some.inj ((resolve_eq_ok.mp hfound).symm.trans htarget)
    split at hplace
    · obtain ⟨rfl, -⟩ := yields_pure.mp hplace
      exact .inl rfl
    · obtain ⟨expanded, _, hexpand, hdefine⟩ := yields_bind.mp hplace
      obtain ⟨m, hresolve, -⟩ := yields_within.mp hexpand
      obtain ⟨d, _, -, -, -, -, rfl⟩ := PartLaw.yields_define hdefine
      rcases constraints_of_asksItself hasks rfl hresolve with
        hempty | ⟨hreference, null, hnull, hasked⟩
      · left
        simp [besideReference, hempty]
      · right
        refine ⟨hreference, null, hnull, ?_⟩
        simp only [besideReference, hasked]
        rfl
  · simp at h

/-- A reference labels its shape with its node. -/
theorem source_of_referenceShape
    (h : (env.referenceShape resolve node reference site).Yields s shape s') :
    shape.source = some node := by
  unfold referenceShape at h
  split at h
  · simp only [yields_bind, yields_pure] at h
    obtain ⟨name, _, -, rfl, -⟩ := h
    rfl
  · split at h
    · simp only [yields_bind, yields_pure] at h
      obtain ⟨use, m, hplace, rfl, -⟩ := h
      have hsource : use.source = none := by
        unfold placeReference at hplace
        simp only [yields_bind] at hplace
        obtain ⟨_, _, -, _, _, -, hplace⟩ := hplace
        split at hplace
        · obtain ⟨rfl, -⟩ := yields_pure.mp hplace
          rfl
        · obtain ⟨_, _, -, hdefine⟩ := yields_bind.mp hplace
          obtain ⟨d, _, -, -, -, -, rfl⟩ := PartLaw.yields_define hdefine
          rfl
      simp [besideReference, hsource]
    · simp at h

/-- Only a reference itself makes a shape whose source is that reference. -/
theorem yields_of_source {other : Json} (hnode : reference? node = some reference)
    (hsite : site.reference = none) (hsource : shape.source = some node)
    (h : (env.resolveAt levels other site).Yields s shape s') :
    other = node ∧ ∃ levels m m',
      (env.referenceShape (env.resolveAt levels) node reference site).Yields m shape m' := by
  cases levels with
  | zero => exact absurd h yields_throw
  | succ levels =>
    obtain ⟨-, m, h, -⟩ := yields_deeper h
    cases other with
    | obj members =>
      cases hother : reference? (.obj members) with
      | none =>
        simp only [build, hsite, hother] at h
        obtain rfl := Option.some.inj ((PartLaw.source_of_schemaShape h).symm.trans hsource)
        simp [hother] at hnode
      | some found =>
        simp only [build, hsite, hother] at h
        split at h
        · obtain rfl := Option.some.inj ((source_of_referenceShape h).symm.trans hsource)
          obtain rfl := Option.some.inj (hother.symm.trans hnode)
          exact ⟨rfl, levels, _, m, h⟩
        · obtain rfl := Option.some.inj ((PartLaw.source_of_schemaShape h).symm.trans hsource)
          simp [PartLaw.reference?_expandReference] at hnode
    | _ =>
      obtain ⟨rfl, -⟩ := yields_pure.mp h
      simp [Shape.any, Shape.ofDecl] at hsource

/-! ## 3. What a property asks -/

theorem yields_field {required : List String} {property : String × Json} {field : Field}
    (h : (env.field resolve required site property).Yields s field s') :
    ∃ shape m m' resolved, (resolve property.2 (site.child property.1)).Yields s shape m ∧
      (env.hoist shape (site.child property.1) .property).Yields m field.shape m' ∧
      env.deref property.2 (site.child property.1) = .ok resolved ∧
      field.constraints = (Constraints.ofProperty resolved (required.contains property.1)
        (field.shape.constraints.nullable || isNullable property.2 ||
          admitsNull resolved)).absorb field.shape.constraints := by
  obtain ⟨name, node⟩ := property
  unfold Env.field at h
  simp only [yields_bind, yields_ask, yields_pure] at h
  obtain ⟨shape, m, hresolve, use, m', hhoist, resolved, _, ⟨hresolved, -⟩, _, _, -, rfl, -⟩ := h
  exact ⟨shape, m, m', resolved, hresolve, hhoist, hresolved, rfl⟩

/-- A shape that was hoisted has no source. -/
theorem hoist_eq_or_source {location : Location} {use : Shape}
    (h : (env.hoist shape site location).Yields s use s') : use = shape ∨ use.source = none := by
  unfold hoist at h
  split at h
  · obtain ⟨d, _, -, -, -, -, rfl⟩ := PartLaw.yields_define h
    exact .inr rfl
  · exact .inl (yields_pure.mp h).1.symm

/-- What references lead to does not depend on where they are followed, given enough hops. -/
theorem follow_of_le {other : Site} {hops more : Nat} (hle : hops ≤ more)
    (h : env.follow site hops node = .ok target) : env.follow other more node = .ok target := by
  induction hops generalizing node more with
  | zero =>
    unfold follow at h ⊢
    cases hnode : reference? node with
    | none => simpa only [hnode] using h
    | some reference => simp [hnode] at h
  | succ hops ih =>
    obtain ⟨more, rfl⟩ := Nat.exists_eq_add_of_le' (Nat.le_trans (Nat.le_add_left 1 hops) hle)
    unfold follow at h ⊢
    cases hnode : reference? node with
    | none => simpa only [hnode] using h
    | some reference =>
      simp only [hnode] at h ⊢
      obtain ⟨next, hnext, h⟩ := bind_eq_ok.mp h
      exact bind_eq_ok.mpr ⟨next, resolve_eq_ok.mpr (resolve_eq_ok.mp hnext),
        ih (Nat.le_of_succ_le_succ hle) h⟩

/-- A reference leads where its target leads. -/
theorem deref_target {other : Site} {resolved : Json} (hnode : reference? node = some reference)
    (htarget : env.doc.resolve? reference = some target)
    (h : env.deref node site = .ok resolved) : env.deref target other = .ok resolved := by
  rw [deref, maxHops, follow, hnode] at h
  obtain ⟨next, hnext, h⟩ := bind_eq_ok.mp h
  obtain rfl := Option.some.inj ((resolve_eq_ok.mp hnext).symm.trans htarget)
  exact follow_of_le (Nat.le_succ 63) h

/-- What a property asks of null is said once, whichever side says it. -/
theorem absorb_ofProperty (resolved node : Json) (required : Bool) {null : Bool}
    (hnull : (null || isNullable resolved) = (isNullable node || isNullable resolved)) :
    (Constraints.ofProperty resolved required
        (null || isNullable node || admitsNull resolved)).absorb { nullable := null } =
      (Constraints.ofProperty resolved required (isNullable node)).absorb {} := by
  rw [Constraints.absorb_nullable, Constraints.ofProperty_congr _ ?_]
  have hadmits : admitsNull resolved = true → isNullable resolved = true := fun h => by
    simp [isNullable, h]
  revert hadmits hnull
  cases null <;> cases isNullable node <;> cases admitsNull resolved <;>
    cases isNullable resolved <;> simp

/-- **What a property asks that refers to a place** does not depend on how the place is used. -/
theorem fieldLaw_place (hplace : Reference.schemaName? reference = none)
    (htarget : env.doc.resolve? reference = some target) (hasks : AsksItself target)
    (hnode : reference? node = some reference) :
    env.FieldLaw fun field => field.shape.source = some node →
      ∃ resolved, env.deref target {} = .ok resolved ∧ field.constraints =
        (Constraints.ofProperty resolved field.constraints.required
          (isNullable node)).absorb {} where
  mixin name nullable hsource := by simp [Field.mixin, Shape.reference] at hsource
  property := by
    intro levels required site property field s s' h hsource
    obtain ⟨shape, m, m', resolved, hshape, hhoist, hresolved, hconstraints⟩ := yields_field h
    rcases hoist_eq_or_source hhoist with hkept | hnone
    · rw [hkept] at hsource
      obtain ⟨hother, levels, n, n', hreference⟩ := yields_of_source hnode rfl hsource hshape
      rw [hother] at hresolved hconstraints
      have hderef : env.deref target {} = .ok resolved := deref_target hnode htarget hresolved
      have hrequired : field.constraints.required = required.contains property.1 := by
        rw [hconstraints]
        rfl
      refine ⟨resolved, hderef, ?_⟩
      rw [hrequired, hconstraints, hkept]
      rcases constraints_of_referenceShape hplace htarget hasks hreference with
        hasked | ⟨hitself, null, hnull, hasked⟩
      · rw [hasked]
        exact absorb_ofProperty resolved node _ rfl
      · obtain rfl := Except.ok.inj ((deref_of_reference?_eq_none hitself).symm.trans hderef)
        rw [hasked, Constraints.absorb_ofSchema]
        refine absorb_ofProperty target node _ ?_
        revert hnull
        cases isNullable node <;> cases isNullable target <;> cases null <;> simp
    · simp [hnone] at hsource

end Env

/-! ## 4. Compilations -/

/-- A field stands in some record of a compilation. -/
def Compilation.HasField (c : Compilation) (field : Field) : Prop :=
  ∃ d ∈ c.types, ∃ part, Shape.Within part d.shape ∧ field ∈ part.fields

/-- **Properties that are one reference to a place ask the same**, where they are required alike and
    the schema at the place asks itself what its shape asks: in whatever records they stand, and
    whether or not the place was defined when they were made. -/
theorem compile_places_ask_alike (document : Json) (options : Options) (c : Compilation)
    (reference : String) (target node : Json) (h : compile document options = .ok c)
    (hplace : Reference.schemaName? reference = none)
    (htarget : c.document.resolve? reference = some target) (hasks : AsksItself target)
    (hnode : reference? node = some reference) {field other : Field} (hfield : c.HasField field)
    (hother : c.HasField other) (hsource : field.shape.source = some node)
    (hsource' : other.shape.source = some node)
    (hrequired : other.constraints.required = field.constraints.required) :
    other.constraints = field.constraints := by
  obtain ⟨doc, report, session, u, -, hrun, rfl⟩ := compile_eq_ok h
  let env : Env := { doc, options }
  have htarget : env.doc.resolve? reference = some target := htarget
  have hlaw := Env.fieldLaw_place hplace htarget hasks hnode
  obtain ⟨d, hd, part, hpart, hfield⟩ := hfield
  obtain ⟨e, he, part', hpart', hother⟩ := hother
  obtain ⟨resolved, hresolved, hasked⟩ :=
    hlaw.allFields_of_runAll hrun d hd part hpart field hfield hsource
  obtain ⟨resolved', hresolved', hasked'⟩ :=
    hlaw.allFields_of_runAll hrun e he part' hpart' other hother hsource'
  obtain rfl := Except.ok.inj (hresolved.symm.trans hresolved')
  rw [hasked', hasked, hrequired]

/-- A document in which two required properties refer to the place of this schema. -/
def twoUses (schema : Json) : Json :=
  .obj [("components", .obj [("schemas", .obj [
    ("A", .obj [("type", .str "object"), ("properties", .obj [("x", schema)])]),
    ("B", .obj [("type", .str "object"), ("required", .arr [.str "p", .str "q"]),
      ("properties", .obj [("p", propertyReference "x"), ("q", propertyReference "x")])])])])]

/-- The reference that a shape was made from, where nothing stands beside it. -/
def Shape.bareSource? (shape : Shape) : Option String :=
  match shape.source with
  | some (.obj [(key, .str reference)]) => if key = "$ref" then some reference else none
  | _ => none

theorem Shape.source_of_bareSource? {shape : Shape} {reference : String}
    (h : shape.bareSource? = some reference) :
    shape.source = some (.obj [("$ref", .str reference)]) := by
  unfold bareSource? at h
  split at h
  · rename_i key found hsource
    split at h
    · rename_i hkey
      rw [hsource, hkey, Option.some.inj h]
    · simp at h
  · simp at h

/-- The fields of a definition: the reference that each was made from, whether it is required, and
    how long its value must be. -/
def fieldUses (name : String) (c : Compilation) :
    List (Option String × Option String × Bool × Option Nat) :=
  ((c.get? name).map fun d => d.shape.fields.map fun f =>
    (f.wireName, f.shape.bareSource?, f.constraints.required, f.constraints.minLength)).getD []

/-- Where the schema stands in `twoUses`. -/
def usedPlace : String := "#/components/schemas/A/properties/x"

/-- A text of some length. -/
def longText : Json := .obj [("type", .str "string"), ("minLength", .int 3)]

theorem compile_places_ask_alike_longText :
    ∃ (c : Compilation) (p q : Field), compile (twoUses longText) { prune := false } = .ok c ∧
      c.HasField p ∧ c.HasField q ∧ p.wireName = some "p" ∧ q.wireName = some "q" ∧
        p.constraints.minLength = some 3 ∧ q.constraints = p.constraints := by
  have huses : (compile (twoUses longText) { prune := false }).toOption.map (fieldUses "B") =
      some [(some "p", some usedPlace, true, some 3),
        (some "q", some usedPlace, true, some 3)] := by
    decide +kernel
  cases hcompile : compile (twoUses longText) { prune := false } with
  | error e => simp [hcompile, Except.toOption] at huses
  | ok c =>
    obtain ⟨doc, report, session, u, hprepare, -, hc⟩ := compile_eq_ok hcompile
    have hroot : c.document = twoUses longText := by
      rcases prepare_eq_ok hprepare with ⟨r, -, hprune, -⟩ | ⟨-, -, hroot⟩
      · simp at hprune
      · rw [hc, ← hroot]
        rfl
    simp only [hcompile, Except.toOption, Option.map_some, Option.some.injEq, fieldUses] at huses
    cases hget : c.get? "B" with
    | none => simp [hget] at huses
    | some d =>
      simp only [hget, Option.map_some, Option.getD_some, List.map_eq_cons_iff, Prod.mk.injEq,
        List.map_eq_nil_iff] at huses
      obtain ⟨p, _, hfields, ⟨hp, hpSource, hpRequired, hpLength⟩, q, _, rfl,
        ⟨hq, hqSource, hqRequired, -⟩, rfl⟩ := huses
      have hmem : ∀ field ∈ d.shape.fields, c.HasField field := fun field hfield =>
        ⟨d, List.mem_of_find?_eq_some hget, d.shape, .whole _, hfield⟩
      have hpField : c.HasField p := hmem p (by simp [hfields])
      have hqField : c.HasField q := hmem q (by simp [hfields])
      refine ⟨c, p, q, rfl, hpField, hqField, hp, hq, hpLength, ?_⟩
      exact compile_places_ask_alike (twoUses longText) { prune := false } c usedPlace longText
        (propertyReference "x") hcompile (by decide) (by rw [hroot]; rfl)
        (.schema (by decide) (by decide) (by decide)) (by decide) hpField hqField
        (Shape.source_of_bareSource? hpSource) (Shape.source_of_bareSource? hqSource)
        (hqRequired.trans hpRequired.symm)

/-- A text of some length, as the only element of a union. -/
def onlyLongText : Json := .obj [("anyOf", .arr [longText])]

/-- **The first of two properties asks more than the second**, though both are required and refer to
    the one place: what its element asks comes with the shape that the first one makes. -/
theorem compile_places_ask_apart :
    (compile (twoUses onlyLongText) { prune := false }).toOption.map (fieldUses "B") =
      some [(some "p", some usedPlace, true, some 3), (some "q", some usedPlace, true, none)] := by
  decide +kernel

end ApiTypes

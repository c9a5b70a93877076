import ApiTypes.Proofs.Compile.Exits
import ApiTypes.Proofs.Compile.Narrowed
import ApiTypes.Proofs.Compile.Siblings
import ApiTypes.Proofs.Merge.Types

/-!
  Null, from a node to its shape.

  A node says that null is a value of it by the keyword `nullable`, or by a null among its types.
  A reference, a combination and a schema each pass that on to their shapes.

  * **The keyword is never lost** (`nullable_of_flag`): it describes a reference and stays outside
    the `allOf` that a reference with keywords beside it is read as.
  * A null among the types is a keyword beside the reference and goes into the `allOf`. The merge of
    the members has it (`flag_mergeAll`), but nothing outside does.
  * **So null is lost in one place only** (`null_is_lost_iff`): among the types beside a reference
    whose members are not merged but embedded, or whose merge is replaced by an overriding type.
-/

namespace ApiTypes

open Schema Resolve

variable {env : Env} {node : Json} {site : Site} {shape : Shape} {s s' : Session} {levels : Nat}
  {members : List (String × Json)}

/-! ## 1. Nullable schemas -/

namespace Env

theorem nullable_finish (node : Json) (shape : Shape) : (finish node shape).constraints.nullable =
    (isNullable node || shape.constraints.nullable) := rfl

theorem nullable_finishCombined (node : Json) (shape : Shape) :
    (finishCombined node shape).constraints.nullable =
      (shape.constraints.nullable || isNullable node) := rfl

theorem constraints_withPart (own : Shape) (keepDecl : Bool) (c : Option Combined) :
    (withPart own keepDecl c).constraints = own.constraints := by
  rcases c with _ | (part | part)
  · rfl
  · exact constraints_enhance own part keepDecl
  · exact constraints_enhance own part keepDecl

/-- However it ends, a nullable schema has a nullable shape. -/
theorem SchemaEnd.nullable {resolve : Resolver} (h : env.SchemaEnd resolve node site s shape)
    (hnullable : isNullable node = true) : shape.constraints.nullable = true := by
  cases h with
  | combined => rw [nullable_finishCombined, hnullable, Bool.or_true]
  | own => rw [nullable_finish, hnullable, Bool.true_or]

theorem nullable_of_referenceShape {resolve : Resolver} {reference : String}
    (hnullable : isNullable node = true)
    (h : (env.referenceShape resolve node reference site).Yields s shape s') :
    shape.constraints.nullable = true := by
  obtain ⟨use, -, rfl⟩ := besideReference_of_yields h
  simp [besideReference, hnullable]

end Env

theorem isObject_of_isNullable (h : isNullable node = true) : node.isObject = true := by
  cases node <;> first | rfl | simp [isNullable, admitsNull, flag, Json.get?, Json.members?] at h

theorem isNullable_of_flag (h : flag "nullable" node = true) : isNullable node = true := by
  rw [isNullable, h, Bool.or_true]

/-- The keyword stays where it is when a reference is read as an `allOf`. -/
theorem flag_readAs (node : Json) : flag "nullable" (readAs node) = flag "nullable" node := by
  rw [flag, get?_readAs (by decide), flag]

/-- **The keyword `nullable` is never lost.** -/
theorem Env.nullable_of_flag (hflag : flag "nullable" node = true)
    (h : (env.resolveAt levels node site).Yields s shape s') :
    shape.constraints.nullable = true := by
  have hnullable := isNullable_of_flag hflag
  cases levels with
  | zero => exact absurd h yields_throw
  | succ levels =>
    rcases yields_of_isObject (isObject_of_isNullable hnullable) h with
      ⟨-, reference, m, hreference⟩ | ⟨-, hschema⟩
    · exact nullable_of_referenceShape hnullable hreference
    · exact hschema.nullable (isNullable_of_flag ((flag_readAs node).trans hflag))

/-! ## 2. Nullable members -/

/-- **A merge with a nullable member says so by the keyword**, whatever the member said it by. -/
theorem Schema.flag_mergeAll {left : List (String × Json)}
    {merged : Option (List (String × Json))} {flat : List Json}
    (h : mergeAll (some left) flat = .ok merged)
    (hnull : flag "nullable" (.obj left) = true ∨ ∃ member ∈ flat, isNullable member = true) :
    flag "nullable" (.obj (merged.getD [])) = true := by
  induction flat generalizing left with
  | nil =>
    obtain rfl := Except.ok.inj h
    simpa using hnull
  | cons member rest ih =>
    obtain ⟨next, hnext, hrest⟩ := mergeAll_cons_eq_ok.mp h
    have hflag := flag_mergeInto hnext
    refine ih hrest ?_
    rcases hnull with hleft | ⟨other, hother, hnull⟩
    · exact .inl (by rw [hflag, isNullable_of_flag hleft, Bool.true_or])
    · rcases List.mem_cons.mp hother with rfl | hother
      · exact .inl (by rw [hflag, hnull, Bool.or_true])
      · exact .inr ⟨other, hother, hnull⟩

theorem admitsNull_of_inside (hnullable : isNullable node = true)
    (hinside : isNullable (readAs node) = false) : admitsNull node = true := by
  rw [isNullable, Bool.or_eq_true] at hnullable
  refine hnullable.resolve_right fun hflag => ?_
  rw [isNullable_of_flag ((flag_readAs node).trans hflag)] at hinside
  exact absurd hinside (by decide)

namespace Env

/-- Behind members there is at least one schema. -/
theorem flatten_ne_nil {levels : Nat} {members flat : List Json} (hmembers : members ≠ [])
    (h : env.flatten site levels members = .ok flat) : flat ≠ [] := by
  induction levels generalizing members flat with
  | zero => simp [flatten] at h
  | succ levels ih =>
    obtain ⟨member, rest, rfl⟩ := List.exists_cons_of_ne_nil hmembers
    obtain ⟨first, others, hfirst, -, rfl⟩ := flatten_cons_eq_ok.mp h
    obtain ⟨target, -, hfirst⟩ := bind_eq_ok.mp hfirst
    dsimp only at hfirst
    split at hfirst
    · obtain rfl := Except.ok.inj hfirst
      simp
    · rename_i hnested
      obtain ⟨nested, hflat, hfirst⟩ := bind_eq_ok.mp hfirst
      obtain rfl := Except.ok.inj hfirst
      have := ih (by simpa using hnested) hflat
      simp [this]

/-- Of a member that is no reference, what it says itself is merged. -/
theorem exists_mem_flattenMember {members : List (String × Json)} {flat : List Json}
    (hreference : reference? (.obj members) = none)
    (hnull : admitsNull (.obj members) = true)
    (h : env.flattenMember site levels (.obj members) = .ok flat) :
    ∃ member ∈ flat, isNullable member = true := by
  obtain ⟨target, htarget, h⟩ := bind_eq_ok.mp h
  obtain rfl := Except.ok.inj ((deref_of_reference?_eq_none hreference).symm.trans htarget)
  dsimp only at h
  split at h
  · obtain rfl := Except.ok.inj h
    exact ⟨_, List.mem_singleton_self _, by rw [isNullable, hnull, Bool.true_or]⟩
  · obtain ⟨nested, -, h⟩ := bind_eq_ok.mp h
    obtain rfl := Except.ok.inj h
    -- The types are among what the member says beside its own members.
    have hsame : (Json.obj (Entries.erase "allOf" members)).get? "type" =
        (Json.obj members).get? "type" := get?_erase_of_ne (by decide) members
    have hown : admitsNull (.obj (Entries.erase "allOf" members)) = true :=
      (admitsNull_congr hsame).trans hnull
    have hsome : Entries.erase "allOf" members ≠ [] := by
      intro hnil
      rw [hnil] at hown
      exact absurd hown (by decide)
    refine ⟨.obj (Entries.erase "allOf" members), ?_, by rw [isNullable, hown, Bool.true_or]⟩
    simp [besidesAllOf, hsome]

theorem reference?_keywordsBeside (members : List (String × Json)) :
    reference? (.obj (keywordsBeside members)) = none := by
  rw [reference?, text?, Json.get?_obj, get?_keywordsBeside, if_neg (by decide)]
  rfl

theorem admitsNull_keywordsBeside (members : List (String × Json)) :
    admitsNull (.obj (keywordsBeside members)) = admitsNull (.obj members) := by
  refine admitsNull_congr ?_
  rw [Json.get?_obj, get?_keywordsBeside, if_pos (by decide), Json.get?_obj]

/-- A schema with types is more than metadata. -/
theorem isMetadataOnly_of_admitsNull {members : List (String × Json)}
    (hnull : admitsNull (.obj members) = true) : isMetadataOnly (.obj members) = false := by
  have hkey : isMetadataKey "type" = false := by decide
  cases hget : Entries.get? "type" members with
  | none => simp [admitsNull, Json.get?_obj, hget] at hnull
  | some value => exact List.all_eq_false.mpr ⟨_, Entries.mem_of_get? hget, by simp [hkey]⟩

theorem onlyReference?_expandReference (hnull : admitsNull (.obj members) = true) :
    onlyReference? (membersOf "allOf" (expandReference members)) = none := by
  have hmetadata := isMetadataOnly_of_admitsNull ((admitsNull_keywordsBeside members).trans hnull)
  rw [membersOf_expandReference]
  unfold onlyReference?
  dsimp only
  split
  · rw [if_neg]
    simp [hmetadata, reference?_keywordsBeside]
  · rfl

/-- **A null among the types beside a reference makes the merge nullable.** -/
theorem flag_mergedMembers_expandReference {merged : List (String × Json)}
    (hnull : admitsNull (.obj members) = true)
    (h : env.mergedMembers site none (membersOf "allOf" (expandReference members)) = .ok merged) :
    flag "nullable" (.obj merged) = true := by
  obtain ⟨flat, result, hflat, hmerge, rfl⟩ := mergedMembers_eq_ok.mp h
  rw [membersOf_expandReference] at hflat
  obtain ⟨target, rest, htarget, hrest, rfl⟩ := flatten_cons_eq_ok.mp hflat
  obtain ⟨beside, others, hbeside, -, rfl⟩ := flatten_cons_eq_ok.mp hrest
  obtain ⟨member, hmember, hnullable⟩ := exists_mem_flattenMember
    (reference?_keywordsBeside members) ((admitsNull_keywordsBeside members).trans hnull) hbeside
  -- The target comes first and is taken as it is, so what stands beside it is merged into it.
  have hfirst : target ≠ [] := flatten_ne_nil (List.cons_ne_nil _ [])
    (flatten_cons_eq_ok.mpr ⟨target, [], htarget, rfl, List.append_nil _⟩)
  obtain ⟨first, more, rfl⟩ := List.exists_cons_of_ne_nil hfirst
  obtain ⟨start, -, hmerge⟩ := mergeAll_cons_eq_ok.mp hmerge
  exact flag_mergeAll hmerge (.inr ⟨member, by simp [hmember], hnullable⟩)

/-- **What a reference comes to with a null among the types beside it**: parts where a union is
    behind it, and else a nullable shape. -/
theorem nullable_of_combined? {c : Option Combined} (hnull : admitsNull (.obj members) = true)
    (h : (env.combined? (env.resolveAt levels) (expandReference members) site).Yields s c s') :
    (env.anyUnion site (membersOf "allOf" (expandReference members)) = .ok true ∧
        ∃ part, c = some (.partly part)) ∨
      env.anyUnion site (membersOf "allOf" (expandReference members)) = .ok false ∧
        ∃ part, c = some (.complete part) ∧ part.constraints.nullable = true := by
  have hparts : hasUnion (expandReference members) = false :=
    PartLaw.hasUnion_expandReference members
  have hallOf := membersOf_expandReference members
  simp only [hasUnion, Bool.or_eq_false_iff, Bool.not_eq_false', List.isEmpty_iff] at hparts
  unfold combined? at h
  rw [hparts.1, hparts.2] at h
  simp only [hallOf, yields_bind, yields_pure] at h
  obtain ⟨found, m, hshape, rfl, rfl⟩ := h
  rw [← hallOf] at hshape
  rcases yields_allOfShape ((if_pos rfl).trans (ownKeywords_expandReference members))
    (.inr (onlyReference?_expandReference hnull)) hshape with
    ⟨hunion, part, rfl⟩ | ⟨hunion, merged, hmerged, hends⟩
  · exact .inl ⟨hunion, part, rfl⟩
  · have hflag := flag_mergedMembers_expandReference hnull hmerged
    refine .inr ⟨hunion, ?_⟩
    rcases hends with ⟨reference, name, -, -, rfl⟩ | ⟨-, found, hfound, rfl⟩
    · exact ⟨_, rfl, isNullable_of_flag hflag⟩
    · exact ⟨found, rfl, nullable_of_flag hflag hfound⟩

/-! ## 3. Where null is lost -/

/-- What the members come to is not all of the shape: they are embedded, or an overriding type
    replaces them. -/
def ReplacesMembers (env : Env) (levels : Nat) (node : Json) (site : Site) (s : Session) : Prop :=
  env.anyUnion site (membersOf "allOf" node) = .ok true ∨
    ∃ extensions part m, extensionsAt node site.display = .ok extensions ∧
      extensions.typeOverride.isSome = true ∧ part.isFinal = false ∧
      (env.combined? (env.resolveAt levels) node site).Yields s (some (.complete part)) m

/-- Where null is lost: it stands among the types beside a reference, and goes inside with them. -/
structure LosesNull (env : Env) (levels : Nat) (node : Json) (site : Site) (s : Session) :
    Prop where
  schema : site.readsReference node = false
  inside : isNullable (readAs node) = false
  replaced : env.ReplacesMembers levels (readAs node) site s

/-- Only what is read as an `allOf` says less than the node. -/
theorem readAs_eq_expandReference (hnullable : isNullable node = true)
    (hinside : isNullable (readAs node) = false) :
    ∃ members, node = .obj members ∧ readAs node = expandReference members := by
  obtain ⟨members, rfl⟩ := Json.exists_members_of_isObject (isObject_of_isNullable hnullable)
  refine ⟨members, rfl, ?_⟩
  rw [readAs, if_pos]
  by_contra hreference
  rw [readAs, if_neg hreference, hnullable] at hinside
  exact absurd hinside (by decide)

/-- A schema without values of its own asks for no null. -/
theorem nullable_of_ownShape {resolve : Resolver} {extensions : Extensions}
    (henum : node.get? "enum" = none)
    (h : (env.ownShape resolve node extensions site).Yields s shape s') :
    shape.constraints.nullable = false := by
  obtain ⟨null, hconstraints, hvalues⟩ := constraints_of_ownShape h
  rw [hconstraints]
  by_contra hnull
  have := hvalues (by simpa using hnull)
  simp [membersOf, henum] at this

/-- With null inside, the shape is nullable exactly where it is the shape of the members. -/
theorem SchemaEnd.not_nullable_iff (hnull : admitsNull (.obj members) = true)
    (hinside : isNullable (expandReference members) = false)
    (h : env.SchemaEnd (env.resolveAt levels) (expandReference members) site s shape) :
    shape.constraints.nullable = false ↔
      env.ReplacesMembers levels (expandReference members) site s := by
  cases h with
  | @combined extensions part m hextensions hcombined hfinal =>
    rcases nullable_of_combined? hnull hcombined with ⟨-, other, hother⟩ |
      ⟨hunion, other, hother, hkept⟩
    · simp at hother
    · obtain rfl := Combined.complete.inj (Option.some.inj hother)
      refine iff_of_false (by simp [nullable_finishCombined, hkept]) ?_
      rintro (hleads | ⟨other, replaced, m', hother, hoverrides, hlost, hyields⟩)
      · simp [hunion] at hleads
      · -- The run is the same, so what is replaced would be final.
        obtain rfl := Except.ok.inj (hextensions.symm.trans hother)
        obtain ⟨heq, -⟩ := yields_unique hcombined hyields
        obtain rfl := Combined.complete.inj (Option.some.inj heq)
        rcases hfinal with hfinal | hfree
        · simp [hlost] at hfinal
        · simp [hfree] at hoverrides
  | @own extensions c own m m' hextensions hcombined hreplaced hown =>
    have henum : (expandReference members).get? "enum" = none :=
      PartLaw.get?_expandReference_eq_none (by decide) (by decide) members
    refine iff_of_true ?_ ?_
    · rw [nullable_finish, hinside, constraints_withPart, nullable_of_ownShape henum hown]
      rfl
    · rcases nullable_of_combined? hnull hcombined with ⟨hunion, -⟩ | ⟨-, part, rfl, -⟩
      · exact .inl hunion
      · obtain ⟨hlost, hoverrides⟩ := hreplaced part rfl
        exact .inr ⟨extensions, part, m, hextensions, hoverrides, hlost, hcombined⟩

/-- **Null is lost in one place only.** The shape of a nullable node is nullable unless the node is
    a reference with null among the types beside it, whose members lead to a union or are replaced
    by an overriding type. -/
theorem null_is_lost_iff (hnullable : isNullable node = true)
    (h : (env.resolveAt (levels + 1) node site).Yields s shape s') :
    shape.constraints.nullable = false ↔
      env.LosesNull levels node site { s with depth := s.depth + 1 } := by
  rcases yields_of_isObject (isObject_of_isNullable hnullable) h with
    ⟨hreads, reference, m, hreference⟩ | ⟨hreads, hend⟩
  · refine iff_of_false (by simp [nullable_of_referenceShape hnullable hreference]) fun hlost => ?_
    exact absurd (hreads.symm.trans hlost.schema) (by decide)
  · cases hinside : isNullable (readAs node) with
    | true =>
      refine iff_of_false (by simp [hend.nullable hinside]) fun hlost => ?_
      exact absurd (hinside.symm.trans hlost.inside) (by decide)
    | false =>
      obtain ⟨members, rfl, hread⟩ := readAs_eq_expandReference hnullable hinside
      have hnull := admitsNull_of_inside hnullable hinside
      have hiff := (hread ▸ hend).not_nullable_iff hnull (hread ▸ hinside)
      refine hiff.trans ⟨fun hreplaced => ⟨hreads, hinside, hread ▸ hreplaced⟩, fun hlost => ?_⟩
      exact hread ▸ hlost.replaced

end Env

/-! ## 4. Null beside a reference -/

/-- A document with a component, and with a reference to it that has these keywords beside it. -/
def baseDocument (base : Json) (beside : List (String × Json)) : Json :=
  .obj [("components", .obj [("schemas", .obj [("Base", base), ("A", baseReference beside)])])]

/-- What a compilation of this document knows. -/
def baseEnv (base : Json) (beside : List (String × Json)) : Env :=
  { doc := ⟨(baseDocument base beside).members?.getD []⟩ }

/-- A schema of this type. -/
def typeNode (name : String) : Json := .obj [("type", .str name)]

/-- The keyword for a type, or null. -/
def typeOrNull (name : String) : List (String × Json) :=
  [("type", .arr [.str name, .str "null"])]

theorem null_is_lost_iff_text : ∃ shape s',
    ((baseEnv (typeNode "string") (typeOrNull "string")).resolveAt 3
      (baseReference (typeOrNull "string")) {}).Yields {} shape s' ∧
    isNullable (baseReference (typeOrNull "string")) = true ∧
    shape.constraints.nullable = true := by
  obtain ⟨shape, s', hrun⟩ := exists_yields (show (((baseEnv (typeNode "string")
    (typeOrNull "string")).resolveAt 3 (baseReference (typeOrNull "string")) {}).outcome
      {}).1.isOk = true by decide +kernel)
  refine ⟨shape, s', hrun, by decide, ?_⟩
  rw [← Bool.not_eq_false, Env.null_is_lost_iff (by decide) hrun]
  -- The merge is all of the shape: no union is behind the members, and no type overrides it.
  rintro ⟨-, -, hleads | ⟨extensions, part, m, hextensions, hoverrides, -, -⟩⟩
  · have hunion : (baseEnv (typeNode "string") (typeOrNull "string")).anyUnion {}
        (membersOf "allOf" (readAs (baseReference (typeOrNull "string")))) = .ok false := rfl
    simp [hunion] at hleads
  · obtain rfl : {} = extensions := Except.ok.inj hextensions
    simp at hoverrides

/-- **Null among the types beside a reference is lost** where the reference leads to a union, and
    where another type overrides what it leads to. The keyword is not. -/
theorem compile_loses_null :
    let nullableOf (base : Json) (beside : List (String × Json)) :=
      (compile (baseDocument base beside) { prune := false }).toOption.bind fun c =>
        (c.get? "A").map (·.shape.constraints.nullable)
    let union : Json := .obj [("oneOf", .arr [typeNode "string", typeNode "integer"])]
    let record : Json := recordOf "a" "string"
    let override : String × Json := ("x-type-override", .str "T")
    isNullable (baseReference (typeOrNull "string")) = true ∧
      nullableOf union (typeOrNull "string") = some false ∧
      isNullable (baseReference (override :: typeOrNull "object")) = true ∧
      nullableOf record (override :: typeOrNull "object") = some false ∧
      nullableOf union [("type", .str "string"), ("nullable", .bool true)] = some true ∧
      nullableOf record [override, ("type", .str "object"), ("nullable", .bool true)] =
        some true := by
  refine ⟨?_, ?_, ?_, ?_, ?_, ?_⟩ <;> decide +kernel

end ApiTypes

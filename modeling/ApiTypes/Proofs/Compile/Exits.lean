import ApiTypes.Proofs.Compile.PlaceConstraints

/-!
  How the resolution of a node ends.

  * A node is read as a reference, or as a schema: itself, or the `allOf` that stands for a
    reference with keywords beside it (`Schema.readAs`). `Env.yields_of_isObject` says which.
  * A reference ends with the use of a definition (`Env.besideReference_of_yields`).
  * A schema ends in one of two ways (`Env.SchemaEnd`): with what its combinators come to, or with
    what it says itself and the parts that combinators add to that.
  * What describes a reference stays outside when it is read as an `allOf`
    (`get?_expandReference`), and the rest is the second member.
-/

namespace ApiTypes

open Schema Resolve

/-! ## 1. Reading a node -/

/-- The schema that a node is read as: a reference becomes an `allOf` with what stands beside it. -/
def Schema.readAs (node : Json) : Json :=
  match node with
  | .obj members =>
    if (reference? node).isSome then Env.expandReference members else node
  | _ => node

/-- Whether a node is read as a reference: its site says so, or it is a bare one. -/
def Site.readsReference (site : Site) (node : Json) : Bool :=
  site.reference.isSome || (reference? node).isSome && isBareReference node

/-- Whether a shape is an alias, which no overriding type replaces. -/
def Shape.isFinal (shape : Shape) : Bool := !shape.isBlank && shape.isAlias

/-- The part that combinators add to what a node says itself. -/
def Env.withPart (own : Shape) (keepDecl : Bool) : Option Combined → Shape
  | none => own
  | some (.partly part) | some (.complete part) => enhance own part keepDecl

variable {env : Env} {resolve : Resolver} {node : Json} {site : Site} {shape : Shape}
  {s s' : Session} {levels : Nat} {members : List (String × Json)}

theorem Schema.reference?_readAs (node : Json) : reference? (readAs node) = none := by
  cases node with
  | obj members =>
    simp only [readAs]
    split
    · exact PartLaw.reference?_expandReference members
    · exact Option.not_isSome_iff_eq_none.mp ‹_›
  | _ => rfl

/-! ## 2. The `allOf` that stands for a reference -/

/-- Whether a keyword beside a reference stays outside the `allOf`. -/
def Schema.describes (key : String) : Bool := key = "nullable" || isMetadataKey key

/-- The keywords beside a reference that become a member of the `allOf`. -/
def Schema.keywordsBeside (members : List (String × Json)) : List (String × Json) :=
  members.filter fun entry => entry.1 ≠ "$ref" && !describes entry.1

/-- Such an `allOf` has what describes the reference, and its two members. -/
theorem get?_expandReference_eq (key : String) (members : List (String × Json)) :
    (Env.expandReference members).get? key =
      (if describes key then Entries.get? key members else none).or
        (if "allOf" = key then some (.arr [.obj (members.filter fun entry => entry.1 = "$ref"),
          .obj (keywordsBeside members)]) else none) := by
  rw [Env.expandReference, Json.get?_obj, Entries.get?_append, Entries.get?_cons, Entries.get?_nil]
  exact congrArg (Option.or · _) (Entries.get?_filter describes)

/-- **What describes a reference stays outside.** -/
theorem get?_expandReference {key : String} (hkey : describes key = true)
    (members : List (String × Json)) :
    (Env.expandReference members).get? key = Entries.get? key members := by
  have hallOf : "allOf" ≠ key := by
    rintro rfl
    revert hkey
    decide
  rw [get?_expandReference_eq, if_pos hkey, if_neg hallOf, Option.or_none]

/-- What describes a node describes what it is read as. -/
theorem get?_readAs {key : String} (hkey : describes key = true) (node : Json) :
    (readAs node).get? key = node.get? key := by
  cases node with
  | obj members =>
    simp only [readAs]
    split
    · exact get?_expandReference hkey members
    · rfl
  | _ => rfl

theorem get?_keywordsBeside (key : String) (members : List (String × Json)) :
    Entries.get? key (keywordsBeside members) =
      if key ≠ "$ref" && !describes key then Entries.get? key members else none :=
  Entries.get?_filter fun name => name ≠ "$ref" && !describes name

/-- The members of the `allOf`: the reference, and what stands beside it. -/
theorem membersOf_expandReference (members : List (String × Json)) :
    membersOf "allOf" (Env.expandReference members) =
      [.obj (members.filter fun entry => entry.1 = "$ref"), .obj (keywordsBeside members)] := by
  rw [membersOf, get?_expandReference_eq, if_neg (by decide), if_pos rfl]
  rfl

/-- Outside the `allOf` nothing constrains. -/
theorem ownKeywords_expandReference (members : List (String × Json)) :
    ownKeywords (Env.expandReference members) = none := by
  simp only [ownKeywords, Env.expandReference, Entries.erase, List.filter_append, List.any_append]
  rw [if_neg]
  simp only [Bool.or_eq_true, List.any_eq_true, List.mem_filter, not_or, not_exists, not_and]
  constructor
  · rintro entry ⟨⟨-, hdescribes⟩, -⟩
    simp only [decide_eq_true_eq] at hdescribes
    rcases hdescribes with hname | hmetadata
    · simp [hname]
    · simp [hmetadata]
  · rintro entry ⟨hmem, hname⟩
    obtain rfl := List.mem_singleton.mp hmem
    simp at hname

namespace Env

/-! ## 3. The end of a reference -/

/-- **A reference ends with the use of a definition**, by its name, and with what its node says
    beside it. -/
theorem besideReference_of_yields {reference : String}
    (h : (env.referenceShape resolve node reference site).Yields s shape s') :
    ∃ use : Shape, use.target = some use.decl ∧ shape = besideReference node use := by
  unfold referenceShape at h
  split at h
  · simp only [yields_bind, yields_pure] at h
    obtain ⟨name, _, -, rfl, -⟩ := h
    exact ⟨Shape.aliasOf name, rfl, rfl⟩
  · split at h
    · simp only [yields_bind, yields_pure] at h
      obtain ⟨use, _, hplace, rfl, -⟩ := h
      refine ⟨use, ?_, rfl⟩
      unfold placeReference at hplace
      simp only [yields_bind] at hplace
      obtain ⟨_, _, -, _, _, -, hplace⟩ := hplace
      split at hplace
      · obtain ⟨rfl, -⟩ := yields_pure.mp hplace
        rfl
      · obtain ⟨_, _, -, hdefine⟩ := yields_bind.mp hplace
        obtain ⟨d, _, -, -, -, -, rfl⟩ := PartLaw.yields_define hdefine
        rfl
    · simp at h

/-! ## 4. The ends of a schema -/

/-- How the resolution of a schema ends. -/
inductive SchemaEnd (env : Env) (resolve : Resolver) (node : Json) (site : Site) (s : Session) :
    Shape → Prop where
  /-- With what the combinators come to, where that is an alias or no type overrides it. -/
  | combined {extensions : Extensions} {part : Shape} {m : Session}
    (hextensions : extensionsAt node site.display = .ok extensions)
    (hcombined : (env.combined? resolve node site).Yields s (some (.complete part)) m)
    (hfinal : part.isFinal = true ∨ extensions.typeOverride = none) :
    SchemaEnd env resolve node site s (finishCombined node part)
  /-- With what the schema says itself. -/
  | own {extensions : Extensions} {c : Option Combined} {own : Shape} {m m' : Session}
    (hextensions : extensionsAt node site.display = .ok extensions)
    (hcombined : (env.combined? resolve node site).Yields s c m)
    (hreplaced : ∀ part, c = some (.complete part) →
      part.isFinal = false ∧ extensions.typeOverride.isSome = true)
    (hown : (env.ownShape resolve node extensions site).Yields m own m') :
    SchemaEnd env resolve node site s
      (finish node (withPart own extensions.typeOverride.isSome c))

/-- **A schema ends in one of these ways.** -/
theorem schemaEnd_of_yields (h : (env.schemaShape resolve node site).Yields s shape s') :
    env.SchemaEnd resolve node site s shape := by
  unfold schemaShape at h
  simp only [yields_bind, yields_ask] at h
  obtain ⟨extensions, _, ⟨hextensions, rfl⟩, c, m, hcombined, h⟩ := h
  rcases c with _ | (part | part)
  · simp only [yields_bind, yields_pure] at h
    obtain ⟨own, m', hown, rfl, -⟩ := h
    exact .own hextensions hcombined (by simp) hown
  · dsimp only at h
    split at h
    · rename_i hfinal
      obtain ⟨rfl, -⟩ := yields_pure.mp h
      refine .combined hextensions hcombined ?_
      simpa [Shape.isFinal] using hfinal
    · rename_i hfinal
      simp only [yields_bind, yields_pure] at h
      obtain ⟨own, m', hown, rfl, -⟩ := h
      simp only [Bool.or_eq_true, not_or, Bool.not_eq_true, Bool.not_eq_false'] at hfinal
      refine .own hextensions hcombined (fun other hother => ?_) hown
      obtain rfl := Combined.complete.inj (Option.some.inj hother)
      exact hfinal
  · simp only [yields_bind, yields_pure] at h
    obtain ⟨own, m', hown, rfl, -⟩ := h
    exact .own hextensions hcombined (by simp) hown

/-! ## 5. The ends of a node -/

/-- **A node is read as a reference, or as a schema.** -/
theorem yields_of_isObject (hobject : node.isObject = true)
    (h : (env.resolveAt (levels + 1) node site).Yields s shape s') :
    (site.readsReference node = true ∧ ∃ reference m,
      (env.referenceShape (env.resolveAt levels) node reference site).Yields
        { s with depth := s.depth + 1 } shape m) ∨
    site.readsReference node = false ∧
      env.SchemaEnd (env.resolveAt levels) (readAs node) site { s with depth := s.depth + 1 }
        shape := by
  obtain ⟨members, rfl⟩ := Json.exists_members_of_isObject hobject
  obtain ⟨-, m, h, -⟩ := yields_deeper h
  unfold build at h
  dsimp only at h
  split at h
  · rename_i reference hsite
    exact .inl ⟨by simp [Site.readsReference, hsite], reference, m, h⟩
  · rename_i reference hsite hreference
    split at h
    · rename_i hbare
      exact .inl ⟨by simp [Site.readsReference, hreference, hbare], reference, m, h⟩
    · rename_i hbare
      refine .inr ⟨by simp [Site.readsReference, hsite, hbare], ?_⟩
      rw [readAs, if_pos (by simp [hreference])]
      exact schemaEnd_of_yields h
  · rename_i hsite hreference
    refine .inr ⟨by simp [Site.readsReference, hsite, hreference], ?_⟩
    rw [readAs, if_neg (by simp [hreference])]
    exact schemaEnd_of_yields h

end Env

end ApiTypes

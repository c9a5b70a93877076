import ApiTypes.Compile.Basic
import ApiTypes.Proofs.Compile.Imitation
import ApiTypes.Proofs.Compile.Siblings

/-!
  Null among the members of a union.

  A member that admits only null is no variant. Wherever such members stand in a list, and however
  many there are, they are left out before the variants are counted, numbered and named.

  * `NullsAdded`: the same elements in the same order, with null-only elements between them.
  * **Null-only elements make the union nullable and change nothing else** (`union_of_nullsAdded`):
    not its error, not its shape, not the session. One element beside them is that element, made
    nullable.
  * A node with a discriminator keeps its union, also around one element
    (`union_of_one_discriminated`).
-/

namespace ApiTypes

open Resolve

variable {env : Env} {resolve : Resolver} {site : Site} {node other element : Json}
  {elements others : List Json}

/-! ## 1. Elements and null -/

/-- The same shape, and null besides. -/
def Shape.orNull (shape : Shape) : Shape :=
  let constraints := shape.constraints
  { shape with constraints := { constraints with nullable := true } }

namespace Env

/-- An element that leads to a schema, which admits more than null. -/
def IsVariant (env : Env) (site : Site) (element : Json) : Prop :=
  ∃ target, env.deref element site = .ok target ∧ Schema.isNullOnly target = false

/-- An element that leads to a schema, which admits nothing but null. -/
def IsNull (env : Env) (site : Site) (element : Json) : Prop :=
  ∃ target, env.deref element site = .ok target ∧ Schema.isNullOnly target = true

/-- The same elements in the same order, with null-only elements between them. -/
inductive NullsAdded (env : Env) (site : Site) : List Json → List Json → Prop where
  | nil : NullsAdded env site [] []
  | keep {elements others : List Json} (element : Json) (h : NullsAdded env site elements others) :
    NullsAdded env site (element :: elements) (element :: others)
  | null {elements others : List Json} {element : Json} (hnull : env.IsNull site element)
    (h : NullsAdded env site elements others) : NullsAdded env site elements (element :: others)

/-- **What is left without null-only elements** is what they were added to. -/
theorem nonNull_of_nullsAdded (h : env.NullsAdded site elements others)
    (hvariants : ∀ element ∈ elements, env.IsVariant site element) :
    env.nonNull site others = .ok elements := by
  induction h with
  | nil => rfl
  | keep element _ ih =>
    obtain ⟨⟨target, htarget, hvariant⟩, hrest⟩ := List.forall_mem_cons.mp hvariants
    exact Trims.nonNull_cons_eq_ok.mpr
      ⟨target, htarget, .inr ⟨hvariant, _, ih hrest, rfl⟩⟩
  | null hnull _ ih =>
    obtain ⟨target, htarget, honly⟩ := hnull
    exact Trims.nonNull_cons_eq_ok.mpr ⟨target, htarget, .inl ⟨honly, ih hvariants⟩⟩

theorem NullsAdded.refl (env : Env) (site : Site) (elements : List Json) :
    env.NullsAdded site elements elements := by
  induction elements with
  | nil => exact .nil
  | cons element rest ih => exact .keep element ih

/-! ## 2. Unions that are nullable besides -/

theorem variantUnion_nullable (resolve : Resolver) (node : Json) (elements : List Json)
    (nullable : Bool) (site : Site) :
    env.variantUnion resolve node elements true site =
      Shape.orNull <$> env.variantUnion resolve node elements nullable site := by
  unfold variantUnion
  simp only [map_bind]
  refine bind_congr fun found => ?_
  split
  · rfl
  · split <;> rfl

theorem admittedUnion_nullable (resolve : Resolver) (node : Json) (site : Site)
    (admitted : List Json) :
    env.admittedUnion resolve node site true admitted =
      Shape.orNull <$> env.admittedUnion resolve node site false admitted := by
  rcases admitted with _ | ⟨element, _ | ⟨next, rest⟩⟩
  · rfl
  · simp only [admittedUnion]
    split
    · simp only [map_bind, map_pure, Bool.or_true]
      rfl
    · exact variantUnion_nullable resolve node [element] false site
  · exact variantUnion_nullable resolve node _ false site

/-- Of several elements those count that admit more than null. -/
theorem union_eq_admittedUnion {admitted : List Json} (hseveral : 2 ≤ elements.length)
    (hadmitted : env.nonNull site elements = .ok admitted) :
    env.union resolve node elements site = env.admittedUnion resolve node site
      (decide (admitted.length < elements.length)) admitted := by
  rw [union_eq]
  rcases elements with _ | ⟨first, _ | ⟨second, rest⟩⟩
  · simp at hseveral
  · simp at hseveral
  · dsimp only
    rw [hadmitted]
    rfl

/-- An element that stands alone is the union. -/
theorem union_singleton (halone : standsAlone node site element = true) :
    env.union resolve node [element] site = resolve element site := by
  rw [union_eq]
  exact if_pos halone

/-- **Null-only elements make a union nullable and change nothing else.** A node that lists some
    elements and a node that lists null-only elements besides come to the same error, or to the same
    shape, which is then nullable; and they leave the same session. One element without a
    discriminator is resolved as it is, unless it is the component that is being defined. -/
theorem union_of_nullsAdded (resolve : Resolver) (hnonempty : elements ≠ [])
    (hvariants : ∀ element ∈ elements, env.IsVariant site element)
    (h : env.NullsAdded site elements others) (hmore : elements.length < others.length)
    (hdiscriminator : other.get? "discriminator" = node.get? "discriminator") :
    env.union resolve other others site = Shape.orNull <$> env.union resolve node elements site ∧
      ∀ element, elements = [element] → discriminatorProperty? node = none →
        isOwnReference site element = false →
          env.union resolve other others site = Shape.orNull <$> resolve element site := by
  have hpositive := List.length_pos_iff.mpr hnonempty
  have hothers : env.union resolve other others site =
      env.admittedUnion resolve node site true elements := by
    rw [union_congr hdiscriminator,
      union_eq_admittedUnion (by omega) (nonNull_of_nullsAdded h hvariants), decide_eq_true hmore]
  have hwhole : env.union resolve other others site =
      Shape.orNull <$> env.union resolve node elements site := by
    rw [hothers]
    by_cases hseveral : 2 ≤ elements.length
    · rw [union_eq_admittedUnion hseveral
        (nonNull_of_nullsAdded (.refl env site elements) hvariants), decide_eq_false (by omega),
        admittedUnion_nullable]
    · have hone : elements.length = 1 := by omega
      obtain ⟨element, rfl⟩ := List.length_eq_one_iff.mp hone
      by_cases halone : standsAlone node site element = true
      · rw [union_singleton halone]
        simp only [admittedUnion, if_pos halone, Bool.or_true]
        rfl
      · rw [union_eq]
        dsimp only
        rw [if_neg halone, nonNull_of_nullsAdded (.refl env site _) hvariants,
          admittedUnion_nullable]
        simp
        rfl
  refine ⟨hwhole, ?_⟩
  rintro element rfl hproperty hown
  have halone : standsAlone node site element = true := by
    simp [standsAlone, hproperty, hown]
  rw [hwhole, union_singleton halone]

end Env

/-! ## 3. One element and null -/

/-- A schema that admits nothing but null. -/
def onlyNull : Json := .obj [("type", .str "null")]

/-- A union of these elements, with these keywords beside it. -/
def oneOfNode (elements : List Json) (beside : List (String × Json)) : Json :=
  .obj (("oneOf", .arr elements) :: beside)

/-- A discriminator by the property `a`. -/
def discriminatedByA : List (String × Json) :=
  [("discriminator", .obj [("propertyName", .str "a")])]

/-- A document with a record and another component. -/
def besideBase (node : Json) : Json :=
  .obj [("components", .obj [("schemas", .obj [("Base", recordOf "a" "string"), ("D", node)])])]

/-- What a compilation of this document knows. -/
def besideBaseEnv (node : Json) : Env := { doc := ⟨(besideBase node).members?.getD []⟩ }

/-- The type that a resolution comes to in a session, and whether it is nullable. -/
def typeOf? (act : Resolve Shape) (s : Session) : Option (String × Bool) :=
  (act.outcome s).1.toOption.map fun shape => (shape.decl, shape.constraints.nullable)

theorem typeOf?_orNull (act : Resolve Shape) (s : Session) :
    typeOf? (Shape.orNull <$> act) s = (typeOf? act s).map fun type => (type.1, true) := by
  unfold typeOf?
  rw [outcome_map]
  cases (act.outcome s).1 <;> rfl

theorem union_of_nullsAdded_base :
    let node := oneOfNode [baseReference []] []
    let other := oneOfNode [onlyNull, baseReference [], onlyNull] []
    let env := besideBaseEnv other
    let site := Site.component "D" "D"
    env.union env.shapeOf other [onlyNull, baseReference [], onlyNull] site =
        Shape.orNull <$> env.union env.shapeOf node [baseReference []] site ∧
      env.union env.shapeOf other [onlyNull, baseReference [], onlyNull] site =
        Shape.orNull <$> env.shapeOf (baseReference []) site ∧
      typeOf? (env.shapeOf (baseReference []) site) {} = some ("Base", false) := by
  intro node other env site
  have hnull : env.IsNull site onlyNull := ⟨_, rfl, by decide⟩
  have hvariant : env.IsVariant site (baseReference []) := ⟨recordOf "a" "string", rfl, by decide⟩
  have hadded : env.NullsAdded site [baseReference []] [onlyNull, baseReference [], onlyNull] :=
    .null hnull (.keep _ (.null hnull .nil))
  have hdiscriminator : other.get? "discriminator" = node.get? "discriminator" := rfl
  obtain ⟨hwhole, halone⟩ := Env.union_of_nullsAdded env.shapeOf (List.cons_ne_nil _ _)
    (List.forall_mem_singleton.mpr hvariant) hadded (by decide) hdiscriminator
  exact ⟨hwhole, halone _ rfl rfl rfl, by decide +kernel⟩

/-- **With a discriminator one element beside null is still a union of one variant**, also where
    the element is another component than the one that is being defined. -/
theorem union_of_one_discriminated :
    let node := oneOfNode [baseReference [], onlyNull] discriminatedByA
    let env := besideBaseEnv node
    let site := Site.component "D" "D"
    (env.IsVariant site (baseReference []) ∧ env.IsNull site onlyNull ∧
      Env.isOwnReference site (baseReference []) = false) ∧
    env.union env.shapeOf node [baseReference [], onlyNull] site ≠
      Shape.orNull <$> env.shapeOf (baseReference []) site ∧
    (compile (besideBase node) { prune := false }).toOption.bind
      (fun c => (c.get? "D").map (·.shape.decl)) = some "union \x7b Base \x7d" := by
  intro node env site
  have hvariant : env.IsVariant site (baseReference []) := ⟨recordOf "a" "string", rfl, by decide⟩
  have hunion : typeOf? (env.union env.shapeOf node [baseReference [], onlyNull] site) {} =
      some ("union \x7b Base \x7d", true) := by decide +kernel
  have hbase : typeOf? (env.shapeOf (baseReference []) site) {} = some ("Base", false) := by
    decide +kernel
  refine ⟨⟨hvariant, ⟨_, rfl, by decide⟩, rfl⟩, fun heq => ?_, by decide +kernel⟩
  rw [heq, typeOf?_orNull, hbase] at hunion
  exact absurd hunion (by decide)

end ApiTypes

import ApiTypes.Proofs.Compile.Run
import ApiTypes.Proofs.Keyed

/-!
  The variants of a union, one for each type.

  Variants come one after the other, and a variant whose type is there already takes its place only
  if it is stricter. So **the first of the strictest variants of every type is left**, at the place
  where the type came first: `StrictestOfEach`.
-/

namespace ApiTypes

variable {variants : List Variant} {variant other new : Variant}

/-! ## 1. One variant for each type -/

/-- How many bounds a variant sets. -/
def Variant.strictness (variant : Variant) : Nat := variant.shape.constraints.strictness

/-- Whether a variant sets more bounds than another. -/
def Variant.isStricter (new old : Variant) : Bool := old.strictness < new.strictness

theorem keepStricter_eq (variants : List Variant) (new : Variant) :
    keepStricter variants new = putByKey Variant.typeName Variant.isStricter variants new := by
  induction variants with
  | nil => rfl
  | cons old rest ih =>
    rw [keepStricter, putByKey, ih]
    by_cases hstricter : old.shape.constraints.strictness < new.shape.constraints.strictness <;>
      simp [Variant.isStricter, Variant.strictness, hstricter]

theorem distinctVariants_eq (variants : List Variant) :
    distinctVariants variants =
      variants.foldl (putByKey Variant.typeName Variant.isStricter) [] := by
  rw [distinctVariants, funext fun kept => funext fun new => keepStricter_eq kept new]

/-- **The types stay in the order in which they came first.** -/
theorem typeNames_distinctVariants (variants : List Variant) :
    (distinctVariants variants).map (·.typeName) = (variants.map (·.typeName)).eraseDups := by
  rw [distinctVariants_eq, keys_foldl_putByKey]

/-- Taking variants once loses no type. -/
theorem mem_typeNames_distinctVariants {name : String} :
    name ∈ (distinctVariants variants).map (·.typeName) ↔ name ∈ variants.map (·.typeName) := by
  rw [typeNames_distinctVariants, List.mem_eraseDups]

theorem nodup_typeNames_distinctVariants (variants : List Variant) :
    ((distinctVariants variants).map (·.typeName)).Nodup := by
  rw [distinctVariants_eq]
  exact nodup_keys_foldl_putByKey variants

/-- Variants that are taken once are among the variants. -/
theorem mem_of_mem_distinctVariants (h : variant ∈ distinctVariants variants) :
    variant ∈ variants := by
  rw [distinctVariants_eq] at h
  exact mem_of_mem_foldl_putByKey h

/-- Taking variants once leaves some where there are some. -/
theorem isEmpty_distinctVariants (variants : List Variant) :
    (distinctVariants variants).isEmpty = variants.isEmpty := by
  cases variants with
  | nil => rfl
  | cons first rest =>
    have hfirst : first.typeName ∈ (distinctVariants (first :: rest)).map (·.typeName) :=
      mem_typeNames_distinctVariants.mpr List.mem_cons_self
    cases hkept : distinctVariants (first :: rest) with
    | nil => simp [hkept] at hfirst
    | cons => rfl

/-! ## 2. The strictest variant of a type -/

/-- The first of the strictest variants of its type: those before it are less strict, and none
    after it is stricter. -/
def IsStrictest (variants : List Variant) (variant : Variant) : Prop :=
  ∃ before after, variants = before ++ variant :: after ∧
    (∀ other ∈ before, other.typeName = variant.typeName → other.strictness < variant.strictness) ∧
    ∀ other ∈ after, other.typeName = variant.typeName → other.strictness ≤ variant.strictness

/-- No variant of its type is stricter. -/
theorem IsStrictest.strictness_le (h : IsStrictest variants variant) (hmem : other ∈ variants)
    (htype : other.typeName = variant.typeName) : other.strictness ≤ variant.strictness := by
  obtain ⟨before, after, rfl, hbefore, hafter⟩ := h
  rcases List.mem_append.mp hmem with hmem | hmem
  · exact Nat.le_of_lt (hbefore other hmem htype)
  · rcases List.mem_cons.mp hmem with rfl | hmem
    · exact Nat.le_refl _
    · exact hafter other hmem htype

/-- It stays the strictest where no stricter one comes. -/
theorem IsStrictest.concat (h : IsStrictest variants variant)
    (hnew : new.typeName = variant.typeName → new.strictness ≤ variant.strictness) :
    IsStrictest (variants ++ [new]) variant := by
  obtain ⟨before, after, rfl, hbefore, hafter⟩ := h
  refine ⟨before, after ++ [new], by simp, hbefore, ?_⟩
  exact List.forall_mem_append.mpr ⟨hafter, List.forall_mem_singleton.mpr hnew⟩

/-- A variant that is stricter than all of its type is the strictest. -/
theorem isStrictest_concat_self
    (h : ∀ other ∈ variants, other.typeName = new.typeName → other.strictness < new.strictness) :
    IsStrictest (variants ++ [new]) new :=
  ⟨variants, [], rfl, h, by simp⟩

/-- One variant for every type that comes. -/
structure StrictestOfEach (variants kept : List Variant) : Prop where
  /-- No two are of one type. -/
  distinct : (kept.map (·.typeName)).Nodup
  /-- Their types are those that came. -/
  sameTypes : ∀ name, name ∈ kept.map (·.typeName) ↔ name ∈ variants.map (·.typeName)
  /-- They stand in the order in which their types came first. -/
  order : kept.map (·.typeName) = (variants.map (·.typeName)).eraseDups
  /-- Each of them is the first of the strictest that came. -/
  strictest : ∀ variant ∈ kept, IsStrictest variants variant

/-- **One more variant** leaves the strictest of each type. -/
theorem isStrictest_of_mem_keepStricter {kept : List Variant}
    (hdistinct : (kept.map (·.typeName)).Nodup)
    (htypes : ∀ other ∈ variants, other.typeName ∈ kept.map (·.typeName))
    (hstrictest : ∀ old ∈ kept, IsStrictest variants old) (h : variant ∈ keepStricter kept new) :
    IsStrictest (variants ++ [new]) variant := by
  rw [keepStricter_eq] at h
  rcases eq_or_mem_of_putByKey hdistinct h with ⟨rfl, hstricter⟩ | ⟨hmem, hkept⟩
  · refine isStrictest_concat_self fun other hother htype => ?_
    -- What was kept for the type is as strict as all that came.
    obtain ⟨old, hold, hname⟩ := List.mem_map.mp (htypes other hother)
    have hle : other.strictness ≤ old.strictness :=
      (hstrictest old hold).strictness_le hother hname.symm
    have hlt : old.strictness < variant.strictness := by
      simpa [Variant.isStricter] using hstricter old hold (hname.trans htype)
    exact Nat.lt_of_le_of_lt hle hlt
  · refine (hstrictest variant hmem).concat fun htype => ?_
    simpa [Variant.isStricter] using hkept htype.symm

theorem isStrictest_of_mem_distinctVariants :
    ∀ variant ∈ distinctVariants variants, IsStrictest variants variant := by
  induction variants using List.reverseRecOn with
  | nil => exact fun variant h => absurd h List.not_mem_nil
  | append_singleton variants new ih =>
    intro variant h
    have hconcat : distinctVariants (variants ++ [new]) =
        keepStricter (distinctVariants variants) new := List.foldl_append
    rw [hconcat] at h
    refine isStrictest_of_mem_keepStricter (nodup_typeNames_distinctVariants variants) ?_ ih h
    exact fun other hother => mem_typeNames_distinctVariants.mpr (List.mem_map_of_mem hother)

/-- **Of every type the strictest variant is taken**, and of equally strict ones the first. -/
theorem distinctVariants_keeps_strictest (variants : List Variant) :
    StrictestOfEach variants (distinctVariants variants) where
  distinct := nodup_typeNames_distinctVariants variants
  sameTypes := fun _ => mem_typeNames_distinctVariants
  order := typeNames_distinctVariants variants
  strictest := isStrictest_of_mem_distinctVariants

/-- The last variant is as strict as the one before it, and comes too late. -/
example : (distinctVariants [⟨"string", {}⟩, ⟨"integer", {}⟩,
    ⟨"string", { constraints := { maxLength := some 5 } }⟩,
    ⟨"string", { constraints := { minLength := some 1 } }⟩]).map (·.shape.constraints.maxLength) =
    [some 5, none] := by rfl

/-! ## 3. Unions -/

/-- **The variants of a union are of different types**, and each of them is the strictest of its
    type that the elements come to. -/
theorem Env.isStrictest_of_variantUnion {env : Env} {resolve : Resolver} {node : Json}
    {elements : List Json} {nullable : Bool} {site : Site} {s s' : Session} {shape : Shape}
    (h : (env.variantUnion resolve node elements nullable site).Yields s shape s') :
    ∃ found mapping,
      (elements.zipIdx.foldlM (env.addVariant resolve site (discriminatorProperty? node)
        (declaredMapping node)) ([], [])).Yields s (found, mapping) s' ∧
      (shape.variants.map (·.typeName)).Nodup ∧
      ∀ variant ∈ shape.variants, IsStrictest found variant := by
  unfold variantUnion at h
  simp only [Resolve.yields_bind] at h
  obtain ⟨⟨found, mapping⟩, m, hfound, h⟩ := h
  obtain ⟨hvariants, rfl⟩ : shape.variants = distinctVariants found ∧ m = s' := by
    split at h
    · simp at h
    · split at h
      · rename_i hempty
        obtain ⟨rfl, rfl⟩ := Resolve.yields_pure.mp h
        exact ⟨(List.isEmpty_iff.mp hempty).symm, rfl⟩
      · obtain ⟨rfl, rfl⟩ := Resolve.yields_pure.mp h
        exact ⟨rfl, rfl⟩
  rw [hvariants]
  exact ⟨found, mapping, hfound, nodup_typeNames_distinctVariants found,
    isStrictest_of_mem_distinctVariants⟩

end ApiTypes

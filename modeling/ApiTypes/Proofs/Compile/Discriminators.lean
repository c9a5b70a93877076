import ApiTypes.Proofs.Compile.Imitation
import Mathlib.Data.List.ReduceOption

/-!
  The mapping of a discriminator.

  The elements of a union are resolved one after the other, and each writes its type under the
  values that select it. A value that is written again leads to the later element.

  * `Selects`: the values that select an element. They are declared for its reference, or the name
    of its component, or the single value that an inline element admits.
  * **The mapping and the union name the same types** (`union_mapping_complete`).
  * A declared value leads to the element that it was declared for, unless a later element of
    another type is selected by the same value (`union_mapping_declared`). An inline element does
    that when it admits no other value (`compile_mapping_overwritten`).
-/

namespace ApiTypes

open Schema Resolve

variable {env : Env} {resolve : Resolver} {site : Site} {property : String}
  {declared mapping mapping' : List (String × String)} {value : String}

/-! ## 1. The values of an element -/

theorem mem_declaredValues {reference : String} :
    value ∈ declaredValues declared reference ↔ (value, reference) ∈ declared := by
  simp [declaredValues]

theorem get?_selectBy {values : List String} {typeName : String} :
    Entries.get? value (selectBy values typeName mapping) =
      if value ∈ values then some typeName else Entries.get? value mapping := by
  induction values generalizing mapping with
  | nil => rfl
  | cons first rest ih =>
    have hcons : selectBy (first :: rest) typeName mapping =
        selectBy rest typeName (Entries.insertSorted first typeName mapping) := rfl
    rw [hcons, ih]
    by_cases hrest : value ∈ rest
    · simp [hrest]
    · by_cases hfirst : value = first
      · subst hfirst
        simp [Entries.get?_insertSorted_self]
      · simp [hrest, hfirst, Entries.get?_insertSorted_of_ne hfirst]

theorem mem_selectBy {values : List String} {typeName : String} {entry : String × String}
    (h : entry ∈ selectBy values typeName mapping) : entry.2 = typeName ∨ entry ∈ mapping := by
  induction values generalizing mapping with
  | nil => exact .inr h
  | cons first rest ih =>
    refine (ih h).elim .inl fun hmem => ?_
    exact (Entries.mem_insertSorted hmem).imp_left (congrArg Prod.snd)

namespace Env

/-- The value selects the element. -/
inductive Selects (env : Env) (declared : List (String × String)) (property : String)
    (site : Site) (element : Json) : String → Prop where
  | declared {reference value : String} (h : reference? element = some reference)
      (hvalue : (value, reference) ∈ declared) : Selects env declared property site element value
  | ownName {reference : String} (h : reference? element = some reference)
      (hnone : declared = []) :
      Selects env declared property site element (Reference.objectName reference)
  | fixed {value : String} (h : reference? element = none)
      (hvalue : env.propertyValue? property site (maxDepth + 1) element = .ok (some value)) :
      Selects env declared property site element value

theorem selects_iff_of_reference {element : Json} {reference : String}
    (h : reference? element = some reference) :
    env.Selects declared property site element value ↔
      (value, reference) ∈ declared ∨
        declared = [] ∧ value = Reference.objectName reference := by
  constructor
  · intro hselects
    cases hselects with
    | declared h' hvalue => exact .inl (Option.some.inj (h'.symm.trans h) ▸ hvalue)
    | ownName h' hnone =>
      exact .inr ⟨hnone, congrArg _ (Option.some.inj (h'.symm.trans h))⟩
    | fixed h' hvalue => simp [h] at h'
  · rintro (hvalue | ⟨hnone, rfl⟩)
    · exact .declared h hvalue
    · exact .ownName h hnone

theorem selects_iff_of_inline {element : Json} (h : reference? element = none) :
    env.Selects declared property site element value ↔
      env.propertyValue? property site (maxDepth + 1) element = .ok (some value) := by
  constructor
  · intro hselects
    cases hselects with
    | declared h' hvalue => simp [h] at h'
    | ownName h' hnone => simp [h] at h'
    | fixed h' hvalue => exact hvalue
  · exact .fixed h

/-- **What an element writes into the mapping**: its type, under the values that select it. -/
theorem mapElement_eq_ok {element : Json} {typeName : String}
    (h : env.mapElement declared property site element typeName mapping = .ok mapping') :
    ∃ values, (∀ value, value ∈ values ↔ env.Selects declared property site element value) ∧
      mapping' = selectBy values typeName mapping := by
  unfold mapElement at h
  cases hreference : reference? element with
  | some reference =>
    simp only [hreference, Bool.not_eq_true', List.isEmpty_iff] at h
    have hselects : ∀ value, env.Selects declared property site element value ↔ _ :=
      fun value => selects_iff_of_reference hreference
    split_ifs at h with hvalues hnone
    · refine ⟨declaredValues declared reference, fun value => ?_, (Except.ok.inj h).symm⟩
      have hdeclared : declared ≠ [] := by
        rintro rfl
        simp [declaredValues] at hvalues
      simp [hselects, mem_declaredValues, hdeclared]
    · subst hnone
      exact ⟨[Reference.objectName reference], fun value => by simp [hselects],
        (Except.ok.inj h).symm⟩
    · rw [Bool.not_eq_false, List.isEmpty_iff] at hvalues
      refine ⟨[], fun value => ?_, (Except.ok.inj h).symm⟩
      simp [hselects, hnone, ← mem_declaredValues, hvalues]
  | none =>
    simp only [hreference] at h
    have hselects : ∀ value, env.Selects declared property site element value ↔ _ :=
      fun value => selects_iff_of_inline hreference
    cases hfixed : env.propertyValue? property site (maxDepth + 1) element with
    | error e => simp [hfixed, bind, Except.bind] at h
    | ok fixed =>
      rw [hfixed] at h
      cases fixed with
      | some fixed =>
        exact ⟨[fixed], fun value => by simp [hselects, hfixed, eq_comm], (Except.ok.inj h).symm⟩
      | none =>
        simp only [bind, Except.bind, List.isEmpty_iff] at h
        split_ifs at h
        exact ⟨[], fun value => by simp [hselects, hfixed], (Except.ok.inj h).symm⟩

/-! ## 2. One element more -/

/-- The variant of a shape that has its name. -/
def variantFor (shape : Shape) : Variant := ⟨shape.target.getD shape.decl, shape⟩

/-- The variant that an element makes; an empty record makes none. -/
def variantOf (env : Env) (resolve : Resolver) (site : Site) (element : Json × Nat) :
    Resolve (Option Variant) := do
  let site := site.child (toString element.2)
  let shape ← resolve element.1 site
  if shape.decl = emptyRecordDecl then return none
  if !shape.isReference && (!isPrimitive shape.decl || !shape.choices.isEmpty) then
    return some (variantFor (← env.define shape site .union))
  else return some (variantFor shape)

/-- An element at its place in the list, and the variant that it made. -/
abbrev Outcome := (Json × Nat) × Option Variant

/-- Writes the type of a variant under the values that select its element. -/
def enterVariant (env : Env) (property : String) (declared : List (String × String)) (site : Site)
    (mapping : List (String × String)) (outcome : Outcome) :
    Except CompileError (List (String × String)) :=
  match outcome.2 with
  | none => .ok mapping
  | some variant =>
    env.mapElement declared property (site.child (toString outcome.1.2)) outcome.1.1
      variant.typeName mapping

theorem yields_insertVariant {s s' : Session} {acc acc' : List Variant × List (String × String)}
    {element : Json} {shape : Shape}
    (h : (env.insertVariant site (some property) declared acc element shape).Yields s acc' s') :
    s = s' ∧ acc'.1 = acc.1 ++ [variantFor shape] ∧
      env.mapElement declared property site element (variantFor shape).typeName acc.2 =
        .ok acc'.2 := by
  simp only [insertVariant, yields_bind, yields_ask, yields_pure] at h
  obtain ⟨written, _, ⟨hwritten, rfl⟩, rfl, rfl⟩ := h
  exact ⟨rfl, rfl, hwritten⟩

/-- **Adding an element** is making its variant, and then entering that into the mapping. -/
theorem yields_addVariant {s s' : Session} {acc acc' : List Variant × List (String × String)}
    {element : Json × Nat}
    (h : (env.addVariant resolve site (some property) declared acc element).Yields s acc' s') :
    ∃ made, (env.variantOf resolve site element).Yields s made s' ∧
      acc'.1 = acc.1 ++ made.toList ∧
      env.enterVariant property declared site acc.2 (element, made) = .ok acc'.2 := by
  rw [addVariant_eq, yields_bind] at h
  obtain ⟨shape, m, hshape, h⟩ := h
  unfold variantOf
  simp only [yields_bind]
  split_ifs at h with hempty hinline
  · obtain ⟨rfl, rfl⟩ := yields_pure.mp h
    exact ⟨none, ⟨shape, m, hshape, by simp [hempty]⟩, by simp, rfl⟩
  · obtain ⟨use, m', huse, h⟩ := yields_bind.mp h
    obtain ⟨rfl, hvariants, hmapping⟩ := yields_insertVariant h
    refine ⟨some (variantFor use), ⟨shape, m, hshape, ?_⟩, hvariants, hmapping⟩
    rw [if_neg hempty, if_pos hinline]
    exact yields_bind.mpr ⟨use, m', huse, yields_pure.mpr ⟨rfl, rfl⟩⟩
  · obtain ⟨rfl, hvariants, hmapping⟩ := yields_insertVariant h
    refine ⟨some (variantFor shape), ⟨shape, m, hshape, ?_⟩, hvariants, hmapping⟩
    rw [if_neg hempty, if_neg hinline]
    exact yields_pure.mpr ⟨rfl, rfl⟩

/-- **Adding elements** is making their variants, and then entering those into the mapping. -/
theorem yields_addVariants {s s' : Session} {acc acc' : List Variant × List (String × String)}
    {elements : List (Json × Nat)}
    (h : (elements.foldlM (env.addVariant resolve site (some property) declared) acc).Yields
      s acc' s') :
    ∃ made, (elements.mapM (env.variantOf resolve site)).Yields s made s' ∧
      acc'.1 = acc.1 ++ made.reduceOption ∧
      (elements.zip made).foldlM (env.enterVariant property declared site) acc.2 =
        .ok acc'.2 := by
  induction elements generalizing s acc with
  | nil =>
    obtain ⟨rfl, rfl⟩ := yields_pure.mp h
    exact ⟨[], yields_pure.mpr ⟨rfl, rfl⟩, by simp [List.reduceOption], rfl⟩
  | cons element rest ih =>
    rw [List.foldlM_cons, yields_bind] at h
    obtain ⟨next, m, hnext, h⟩ := h
    obtain ⟨first, hfirst, hvariants, hmapping⟩ := yields_addVariant hnext
    obtain ⟨made, hmade, hvariants', hmapping'⟩ := ih h
    refine ⟨first :: made, ?_, ?_, ?_⟩
    · rw [List.mapM_cons]
      exact yields_bind.mpr ⟨first, m, hfirst,
        yields_bind.mpr ⟨made, s', hmade, yields_pure.mpr ⟨rfl, rfl⟩⟩⟩
    · rw [hvariants', hvariants, List.append_assoc]
      cases first <;> simp [List.reduceOption]
    · rw [List.zip_cons_cons, List.foldlM_cons, hmapping]
      exact hmapping'

/-! ## 3. The whole mapping -/

section Run

variable {outcomes : List Outcome}

/-- What the mapping leads to are types of variants. -/
theorem mem_enterVariants {entry : String × String}
    (h : outcomes.foldlM (env.enterVariant property declared site) mapping = .ok mapping')
    (hentry : entry ∈ mapping') :
    entry ∈ mapping ∨ ∃ element variant, (element, some variant) ∈ outcomes ∧
      entry.2 = variant.typeName := by
  induction outcomes generalizing mapping with
  | nil => exact .inl (Except.ok.inj h ▸ hentry)
  | cons outcome rest ih =>
    rw [List.foldlM_cons, bind_eq_ok] at h
    obtain ⟨next, hnext, h⟩ := h
    rcases ih h with hmem | ⟨element, variant, hvariant, hname⟩
    · obtain ⟨element, _ | variant⟩ := outcome
      · obtain rfl := Except.ok.inj hnext
        exact .inl hmem
      · obtain ⟨values, -, rfl⟩ := mapElement_eq_ok hnext
        refine (mem_selectBy hmem).symm.imp_right fun hname => ?_
        exact ⟨element, variant, List.mem_cons_self, hname⟩
    · exact .inr ⟨element, variant, List.mem_cons_of_mem _ hvariant, hname⟩

/-- The value selects the element of an outcome that made a variant of another type. -/
def SelectsOther (env : Env) (declared : List (String × String)) (property : String) (site : Site)
    (value typeName : String) (outcome : Outcome) : Prop :=
  ∃ variant, outcome.2 = some variant ∧ variant.typeName ≠ typeName ∧
    env.Selects declared property (site.child (toString outcome.1.2)) outcome.1.1 value

/-- A value leads where it led, as long as it selects no element of another type. -/
theorem get?_enterVariants {typeName : String}
    (h : outcomes.foldlM (env.enterVariant property declared site) mapping = .ok mapping')
    (hvalue : Entries.get? value mapping = some typeName)
    (hothers : ∀ outcome ∈ outcomes,
      ¬ env.SelectsOther declared property site value typeName outcome) :
    Entries.get? value mapping' = some typeName := by
  induction outcomes generalizing mapping with
  | nil => exact Except.ok.inj h ▸ hvalue
  | cons outcome rest ih =>
    rw [List.foldlM_cons, bind_eq_ok] at h
    obtain ⟨next, hnext, h⟩ := h
    obtain ⟨hother, hothers⟩ := List.forall_mem_cons.mp hothers
    refine ih h ?_ hothers
    obtain ⟨element, _ | variant⟩ := outcome
    · obtain rfl := Except.ok.inj hnext
      exact hvalue
    · obtain ⟨values, hvalues, rfl⟩ := mapElement_eq_ok hnext
      rw [get?_selectBy, hvalue]
      split_ifs with hmem
      · by_contra hne
        exact hother ⟨variant, rfl, fun heq => hne (congrArg some heq), (hvalues value).mp hmem⟩
      · rfl

/-- **A value leads to the last element that it selects**, or to one of the same type. -/
theorem get?_enterVariants_of_selects {before after : List Outcome} {element : Json × Nat}
    {variant : Variant}
    (h : (before ++ (element, some variant) :: after).foldlM
      (env.enterVariant property declared site) mapping = .ok mapping')
    (hselects : env.Selects declared property (site.child (toString element.2)) element.1 value)
    (hothers : ∀ outcome ∈ after,
      ¬ env.SelectsOther declared property site value variant.typeName outcome) :
    Entries.get? value mapping' = some variant.typeName := by
  rw [List.foldlM_append, bind_eq_ok] at h
  obtain ⟨between, -, h⟩ := h
  rw [List.foldlM_cons, bind_eq_ok] at h
  obtain ⟨next, hnext, h⟩ := h
  obtain ⟨values, hvalues, rfl⟩ := mapElement_eq_ok hnext
  refine get?_enterVariants h ?_ hothers
  rw [get?_selectBy, if_pos ((hvalues value).mpr hselects)]

end Run

end Env

/-! ## 4. Unions with a discriminator -/

section Union

variable {node : Json} {elements : List Json} {s s' : Session} {shape : Shape} {d : Discriminator}

namespace Env

/-- **A union with a discriminator** is made of the variants of its elements, and its mapping is
    what those enter. Every variant is in the mapping. -/
theorem yields_variantUnion {nullable : Bool}
    (hproperty : discriminatorProperty? node = some property)
    (h : (env.variantUnion resolve node elements nullable site).Yields s shape s')
    (hd : shape.discriminator = some d) :
    ∃ made, (elements.zipIdx.mapM (env.variantOf resolve site)).Yields s made s' ∧
      (elements.zipIdx.zip made).foldlM (env.enterVariant property (declaredMapping node) site) [] =
        .ok d.mapping ∧
      shape.variants = distinctVariants made.reduceOption ∧
      ∀ variant ∈ shape.variants, variant.typeName ∈ d.mapping.map (·.2) := by
  unfold variantUnion at h
  simp only [hproperty, yields_bind] at h
  obtain ⟨⟨found, mapping⟩, m, hfound, h⟩ := h
  obtain ⟨made, hmade, hvariants, hmapping⟩ := yields_addVariants hfound
  simp only [List.nil_append] at hvariants
  subst hvariants
  split at h
  · simp at h
  · rename_i hunmapped
    split at h
    · obtain ⟨rfl, -⟩ := yields_pure.mp h
      simp [Shape.ofDecl] at hd
    · obtain ⟨rfl, rfl⟩ := yields_pure.mp h
      obtain rfl := Option.some.inj hd
      refine ⟨made, hmade, hmapping, rfl, fun variant hvariant => ?_⟩
      simp only [Option.isSome_some, Bool.true_and, Bool.not_eq_true', Bool.not_eq_false,
        List.isEmpty_iff, List.filter_eq_nil_iff, List.contains_iff_mem] at hunmapped
      exact hunmapped _ (List.mem_map_of_mem hvariant)

theorem yields_union (hproperty : discriminatorProperty? node = some property)
    (h : (env.union resolve node elements site).Yields s shape s')
    (hd : shape.discriminator = some d) :
    ∃ admitted nullable, env.nonNull site elements = .ok admitted ∧
      (env.variantUnion resolve node admitted nullable site).Yields s shape s' := by
  have halone : ∀ element, standsAlone node site element = false := by
    simp [standsAlone, hproperty]
  have hunion : (do
      let admitted ← Resolve.ask (env.nonNull site elements)
      env.admittedUnion resolve node site (decide (admitted.length < elements.length))
        admitted).Yields s shape s' := by
    rw [union_eq] at h
    split at h
    · rwa [if_neg (by simp [halone])] at h
    · exact h
  obtain ⟨admitted, m, hadmitted, hunion⟩ := yields_bind.mp hunion
  obtain ⟨hnonNull, rfl⟩ := yields_ask.mp hadmitted
  refine ⟨admitted, decide (admitted.length < elements.length), hnonNull, ?_⟩
  rcases admitted with _ | ⟨element, _ | ⟨next, rest⟩⟩
  · obtain ⟨rfl, -⟩ := yields_pure.mp hunion
    cases hd
  · rw [admittedUnion, if_neg (by simp [halone])] at hunion
    exact hunion
  · exact hunion

end Env

/-! ## 5. What the mapping leads to -/

/-- A record with one property, the kind of a pet. -/
def petOfKind (kind : Json) : Json :=
  .obj [("type", .str "object"), ("properties", .obj [("kind", kind)])]

/-- A reference to a kind of pet. -/
def petReference (name : String) : Json :=
  .obj [("$ref", .str (Reference.ofComponent "schemas" name))]

/-- A tiger by another way than its reference. -/
def wrappedTiger : Json := .obj [("allOf", .arr [petReference "Tiger"])]

/-- Pets by their kinds. Cats are called by two kinds, and one of them is the only kind that a tiger
    admits. -/
def petUnion : Json :=
  .obj [("oneOf", .arr [petReference "Cat", petReference "Tiger", wrappedTiger]),
    ("discriminator", .obj [("propertyName", .str "kind"),
      ("mapping", .obj [("cat", .str "Cat"), ("kitty", .str "Cat"), ("tiger", .str "Tiger")])])]

/-- A document with pets. -/
def petDocument : Json :=
  .obj [("components", .obj [("schemas", .obj [
    ("Cat", petOfKind (.obj [("type", .str "string")])),
    ("Tiger", petOfKind (.obj [("const", .str "cat")])), ("Pet", petUnion)])])]

/-- What a compilation of this document knows. -/
def petEnv : Env := { doc := ⟨petDocument.members?.getD []⟩ }

/-- The union of the pets, at the top of the document. -/
def resolvedPets : Resolve Shape :=
  petEnv.union (petEnv.resolveAt 4) petUnion (membersOf "oneOf" petUnion) {}

/-- The pets are resolved, and tell each other apart. -/
theorem yields_resolvedPets :
    ∃ shape s' d, resolvedPets.Yields {} shape s' ∧ shape.discriminator = some d := by
  have hsome : ((resolvedPets.outcome {}).1.toOption.bind (·.discriminator)).isSome = true := by
    decide +kernel
  rcases hrun : resolvedPets.outcome {} with ⟨_ | shape, s'⟩
  · rw [hrun] at hsome
    cases hsome
  · rw [hrun] at hsome
    obtain ⟨d, hd⟩ := Option.isSome_iff_exists.mp hsome
    exact ⟨shape, s', d, hrun, hd⟩

/-- **The mapping and the union name the same types.** -/
theorem union_mapping_complete (hproperty : discriminatorProperty? node = some property)
    (h : (env.union resolve node elements site).Yields s shape s')
    (hd : shape.discriminator = some d) (name : String) :
    name ∈ d.mapping.map (·.2) ↔ name ∈ shape.variants.map (·.typeName) := by
  obtain ⟨admitted, nullable, -, hunion⟩ := Env.yields_union hproperty h hd
  obtain ⟨made, -, hmapping, hvariants, hmapped⟩ :=
    Env.yields_variantUnion hproperty hunion hd
  constructor
  · intro hname
    obtain ⟨entry, hentry, rfl⟩ := List.mem_map.mp hname
    obtain hmem | ⟨element, variant, hvariant, hname⟩ := Env.mem_enterVariants hmapping hentry
    · cases hmem
    · rw [hvariants, mem_typeNames_distinctVariants, hname]
      exact List.mem_map_of_mem (List.reduceOption_mem_iff.mpr (List.of_mem_zip hvariant).2)
  · intro hname
    obtain ⟨variant, hvariant, rfl⟩ := List.mem_map.mp hname
    exact hmapped variant hvariant

theorem union_mapping_complete_pets :
    ∃ shape s' d, resolvedPets.Yields {} shape s' ∧ shape.discriminator = some d ∧
      ∀ name, name ∈ d.mapping.map (·.2) ↔ name ∈ shape.variants.map (·.typeName) := by
  obtain ⟨shape, s', d, hrun, hd⟩ := yields_resolvedPets
  exact ⟨shape, s', d, hrun, hd, union_mapping_complete rfl hrun hd⟩

/-- The element at this place made this variant. -/
def MadeAt (admitted : List Json) (made : List (Option Variant)) (i : Nat) (element : Json)
    (variant : Variant) : Prop :=
  admitted[i]? = some element ∧ made[i]? = some (some variant)

theorem getElem?_zip_made {admitted : List Json} {made : List (Option Variant)} {i j : Nat}
    {element : Json} {variant : Variant} :
    (admitted.zipIdx.zip made)[i]? = some ((element, j), some variant) ↔
      i = j ∧ MadeAt admitted made i element variant := by
  rw [List.getElem?_zip_eq_some, List.getElem?_zipIdx, MadeAt]
  simp only [Nat.zero_add, Option.map_eq_some_iff, Prod.mk.injEq]
  constructor
  · rintro ⟨⟨_, helement, rfl, rfl⟩, hvariant⟩
    exact ⟨rfl, helement, hvariant⟩
  · rintro ⟨rfl, helement, hvariant⟩
    exact ⟨⟨element, helement, rfl, rfl⟩, hvariant⟩

/-- **A declared value leads to the element that it was declared for**, as long as it selects no
    later element of another type. -/
theorem union_mapping_declared (hproperty : discriminatorProperty? node = some property)
    (h : (env.union resolve node elements site).Yields s shape s')
    (hd : shape.discriminator = some d) :
    ∃ admitted made, env.nonNull site elements = .ok admitted ∧
      (admitted.zipIdx.mapM (env.variantOf resolve site)).Yields s made s' ∧
      shape.variants = distinctVariants made.reduceOption ∧
      ∀ i element variant value target, MadeAt admitted made i element variant →
        reference? element = some target → (value, target) ∈ declaredMapping node →
        (∀ j other variant', i < j → MadeAt admitted made j other variant' →
          env.Selects (declaredMapping node) property (site.child (toString j)) other value →
          variant'.typeName = variant.typeName) →
        Entries.get? value d.mapping = some variant.typeName := by
  obtain ⟨admitted, nullable, hadmitted, hunion⟩ := Env.yields_union hproperty h hd
  obtain ⟨made, hmade, hmapping, hvariants, -⟩ := Env.yields_variantUnion hproperty hunion hd
  refine ⟨admitted, made, hadmitted, hmade, hvariants, ?_⟩
  intro i element variant value target hat htarget hdeclared hlater
  -- The list is split at the element.
  obtain ⟨hi, hget⟩ := List.getElem?_eq_some_iff.mp (getElem?_zip_made.mpr ⟨rfl, hat⟩)
  rw [← List.take_append_drop i (admitted.zipIdx.zip made), List.drop_eq_getElem_cons hi, hget]
    at hmapping
  refine Env.get?_enterVariants_of_selects hmapping (.declared htarget hdeclared) ?_
  rintro ⟨⟨other, j⟩, _⟩ hother ⟨variant', rfl, hne, hselects⟩
  obtain ⟨k, hk⟩ := List.mem_iff_getElem?.mp hother
  rw [List.getElem?_drop, getElem?_zip_made] at hk
  obtain ⟨rfl, hat'⟩ := hk
  exact hne (hlater _ other variant' (by omega) hat' hselects)

theorem typeNames_made :
    ((((membersOf "oneOf" petUnion).zipIdx.mapM (petEnv.variantOf (petEnv.resolveAt 4) {})).outcome
      {}).1.toOption.map fun made => made.map (·.map (·.typeName))) =
        some [some "Cat", some "Tiger", some "Tiger"] := by
  decide +kernel

theorem union_mapping_declared_pets :
    ∃ shape s' d, resolvedPets.Yields {} shape s' ∧ shape.discriminator = some d ∧
      Entries.get? "tiger" d.mapping = some "Tiger" := by
  obtain ⟨shape, s', d, hrun, hd⟩ := yields_resolvedPets
  refine ⟨shape, s', d, hrun, hd, ?_⟩
  obtain ⟨admitted, made, hadmitted, hmade, -, hdeclared⟩ := union_mapping_declared rfl hrun hd
  obtain rfl : membersOf "oneOf" petUnion = admitted := Except.ok.inj hadmitted
  have hnames := typeNames_made
  rw [show (List.mapM _ _ : Resolve _).outcome {} = (.ok made, s') from hmade] at hnames
  have hnames := Option.some.inj hnames
  simp only [List.map_eq_cons_iff, List.map_eq_nil_iff, Option.map_eq_some_iff] at hnames
  obtain ⟨_, _, rfl, ⟨cat, rfl, -⟩, _, _, rfl, ⟨tiger, rfl, htiger⟩, _, _, rfl,
    ⟨wrapped, rfl, hwrapped⟩, rfl⟩ := hnames
  rw [← htiger]
  refine hdeclared 1 (petReference "Tiger") tiger "tiger" (Reference.ofComponent "schemas" "Tiger")
    ⟨rfl, rfl⟩ rfl (by decide +kernel) ?_
  -- Only the wrapped tiger comes later.
  rintro (_ | _ | _ | j) other variant' hj ⟨-, hvariant'⟩ - <;> cases hvariant'
  · simp at hj
  · simp at hj
  · rw [hwrapped, htiger]

/-- **A declared value is written over** by an inline element that admits no other value: the
    mapping sends cats to the tigers, and both types are variants. -/
theorem compile_mapping_overwritten :
    ("cat", Reference.ofComponent "schemas" "Cat") ∈ declaredMapping petUnion ∧
      (compile petDocument { prune := false }).toOption.bind (fun c => (c.get? "Pet").map fun d =>
        (d.shape.variants.map (·.typeName), d.shape.discriminator)) =
      some (["Cat", "Tiger"],
        some ⟨"kind", [("cat", "Tiger"), ("kitty", "Cat"), ("tiger", "Tiger")]⟩) := by
  decide +kernel

end Union

end ApiTypes

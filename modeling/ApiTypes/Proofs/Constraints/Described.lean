import ApiTypes.Compile.Basic
import ApiTypes.Proofs.Constraints.Absorb

/-!
  What tags say of the bounds that are stored.

  Bounds and tags are absorbed by different rules. A bound is that of the first schema that sets it;
  a tag is that of the first schema that writes one of its family (`Gathered.familyTag?`). A schema
  of no numeric type sets a bound and writes none, and a length and a number of items share one
  family.

  * **Where the first schema that sets a bound also writes it, and no length comes after a number of
    items alone, the tags describe the bounds** (`tags_describe_bounds`).
  * Otherwise a tag states the bound of another schema than the stored one
    (`gathered_tag_misstates`).
-/

namespace ApiTypes.Constraints

variable {schemas : List Json} {c : Constraints}

/-! ## 1. What tags should say -/

/-- A tag of this family states the bound, in the form of some kind of numbers. -/
def StatesBound (tags : List String) (family exclusiveName inclusiveName : String)
    (bound : Option Bound) : Prop :=
  ∀ tag ∈ tags, tagFamily tag = family →
    ∃ numeric, boundTag? numeric exclusiveName inclusiveName bound = some tag

/-- A tag of this name states the count. -/
def StatesCount (tags : List String) (name : String) (count : Option Nat) : Prop :=
  ∀ tag ∈ tags, tagFamily tag = name → countTag? name count = some tag

/-- The tags describe the bounds that are stored. -/
structure TagsDescribe (c : Constraints) : Prop where
  lower : StatesBound c.tags "lower" "gt" "gte" c.minimum
  upper : StatesBound c.tags "upper" "lt" "lte" c.maximum
  min : StatesCount c.tags "min" (c.minLength.or c.minItems)
  max : StatesCount c.tags "max" (c.maxLength.or c.maxItems)

/-! ## 2. Where bounds and tags come from -/

/-- **What absorbing takes from the first side that has it is that of the first schema that
    has it.** -/
theorem Gathered.first {α : Type} (get : Constraints → Option α) {read : Json → Option α}
    (hread : ∀ schema required nullable, get (extract schema required nullable) = read schema)
    (habsorb : ∀ a b : Constraints, a.Canonical → b.Canonical →
      get (a.absorb b) = (get a).or (get b))
    (h : Gathered schemas c) : get c = schemas.findSome? read := by
  induction h with
  | ofSchema schema =>
    rw [Constraints.ofSchema, hread]
    simp
  | ofProperty schema required null =>
    rw [Constraints.ofProperty, hread]
    simp
  | absorb ha hb iha ihb =>
    rw [habsorb _ _ ha.canonical hb.canonical, iha, ihb, List.findSome?_append]

/-- The tag of a family is that of the first schema that writes one. -/
theorem Gathered.familyTag? (h : Gathered schemas c) (family : String) :
    Constraints.familyTag? family c.properTags =
      schemas.findSome? fun schema => Constraints.familyTag? family (schemaTags schema) := by
  refine h.first (fun c => Constraints.familyTag? family c.properTags)
    (fun schema required nullable => ?_) fun a b ha hb => ha.familyTag?_absorb hb family
  have hproper : (extract schema required nullable).properTags =
      Entries.sortedDistinct (schemaTags schema) :=
    properTags_of_eq rfl (separate_schemaTags schema)
  rw [hproper, familyTag?_sortedDistinct (separate_schemaTags schema)]

/-- A tag is written by the first schema that writes one of its family. -/
theorem Gathered.findSome?_of_mem {family tag : String} {written : Json → Option String}
    (h : Gathered schemas c) (hfamily : family ∈ boundFamilies)
    (hwritten : ∀ schema, (written schema, family) ∈ (boundTags schema).zip boundFamilies)
    (htag : tag ∈ c.tags) (hsame : tagFamily tag = family) :
    schemas.findSome? written = some tag := by
  subst hsame
  have hfound := h.canonical.familyTag?_of_mem htag hfamily
  rw [h.familyTag?] at hfound
  have heq : (fun schema => Constraints.familyTag? (tagFamily tag) (schemaTags schema)) = written :=
    funext fun schema =>
      (ofFamilies_boundTags schema).familyTag? nodup_boundFamilies _ (hwritten schema)
  rw [← heq]
  exact hfound

/-! ## 3. Bounds and their tags together -/

/-- Of the schemas that set something the first writes it, if any does. -/
def FirstWrites (sets writes : Json → Bool) (schemas : List Json) : Prop :=
  ∀ first, schemas.find? sets = some first → schemas.any writes = true → writes first = true

/-- The first schema that sets the bound is of a numeric type, if any schema that sets it is. -/
def BoundsInTurn (key exclusiveKey : String) : List Json → Prop :=
  FirstWrites (fun schema => (bound? schema key exclusiveKey).isSome) fun schema =>
    (bound? schema key exclusiveKey).isSome && Numeric.ofSchema schema != .other

/-- The first schema that sets a length or a number of items sets the length, if any schema does. -/
def CountsInTurn (lengthKey itemsKey : String) : List Json → Prop :=
  FirstWrites (fun schema => ((count? schema lengthKey).or (count? schema itemsKey)).isSome)
    fun schema => (count? schema lengthKey).isSome

/-- What is found is what the first schema with it has. -/
theorem findSome?_of_find? {α : Type} {sets : Json → Bool} {read : Json → Option α} {first : Json}
    (hsets : ∀ schema, (read schema).isSome = true → sets schema = true)
    (hfirst : schemas.find? sets = some first) (hread : (read first).isSome = true) :
    schemas.findSome? read = read first := by
  obtain ⟨-, before, after, rfl, hbefore⟩ := List.find?_eq_some_iff_append.mp hfirst
  have hnone : before.findSome? read = none := by
    refine List.findSome?_eq_none_iff.mpr fun schema hschema => ?_
    by_contra hsome
    have hset := hsets schema (Option.isSome_iff_ne_none.mpr hsome)
    simpa [hset] using hbefore schema hschema
  obtain ⟨value, hvalue⟩ := Option.isSome_iff_exists.mp hread
  rw [List.findSome?_append, hnone, Option.none_or, List.findSome?_cons, hvalue]

/-- Where something is found, some schema sets it first. -/
theorem exists_find?_of_findSome? {α : Type} {sets : Json → Bool} {read : Json → Option α} {x : α}
    (hsets : ∀ schema, (read schema).isSome = true → sets schema = true)
    (h : schemas.findSome? read = some x) : ∃ first, schemas.find? sets = some first := by
  obtain ⟨schema, hschema, hread⟩ := List.exists_of_findSome?_eq_some h
  have hset := hsets schema (Option.isSome_of_eq_some hread)
  have hsome := List.find?_isSome.mpr ⟨schema, hschema, hset⟩
  exact Option.isSome_iff_exists.mp hsome

/-- A bound is written as a tag when the type is numeric. -/
theorem isSome_boundTag? (numeric : Numeric) (exclusiveName inclusiveName : String)
    (bound : Option Bound) : (boundTag? numeric exclusiveName inclusiveName bound).isSome =
      (bound.isSome && numeric != .other) := by
  cases bound with
  | none => rfl
  | some bound => cases numeric <;> rfl

/-- A count is always written as a tag. -/
theorem isSome_countTag? (name : String) (count : Option Nat) :
    (countTag? name count).isSome = count.isSome :=
  Option.isSome_map

/-- **The first tag states the first bound** when bounds are written in turn. -/
theorem exists_boundTag?_of_findSome? {key exclusiveKey exclusiveName inclusiveName tag : String}
    (hturn : BoundsInTurn key exclusiveKey schemas)
    (h : schemas.findSome? (fun schema => boundTag? (Numeric.ofSchema schema) exclusiveName
      inclusiveName (bound? schema key exclusiveKey)) = some tag) :
    ∃ numeric, boundTag? numeric exclusiveName inclusiveName
      (schemas.findSome? (bound? · key exclusiveKey)) = some tag := by
  have hsets : ∀ schema, (boundTag? (Numeric.ofSchema schema) exclusiveName inclusiveName
      (bound? schema key exclusiveKey)).isSome = true →
        (bound? schema key exclusiveKey).isSome = true := by
    intro schema hsome
    rw [isSome_boundTag?] at hsome
    exact (Bool.and_eq_true_iff.mp hsome).1
  obtain ⟨first, hfirst⟩ := exists_find?_of_findSome? hsets h
  have hwrites : (boundTag? (Numeric.ofSchema first) exclusiveName inclusiveName
      (bound? first key exclusiveKey)).isSome = true := by
    obtain ⟨schema, hschema, hread⟩ := List.exists_of_findSome?_eq_some h
    rw [isSome_boundTag?]
    refine hturn first hfirst (List.any_eq_true.mpr ⟨schema, hschema, ?_⟩)
    show ((bound? schema key exclusiveKey).isSome && Numeric.ofSchema schema != .other) = true
    rw [← isSome_boundTag? _ exclusiveName inclusiveName, hread]
    rfl
  refine ⟨Numeric.ofSchema first, ?_⟩
  rw [findSome?_of_find? (fun _ hset => hset) hfirst (hsets first hwrites), ← h,
    findSome?_of_find? hsets hfirst hwrites]

/-- **The first tag states the first count** when lengths come first. -/
theorem countTag?_of_findSome? {name lengthKey itemsKey tag : String}
    (hturn : CountsInTurn lengthKey itemsKey schemas)
    (h : schemas.findSome? (fun schema => countTag? name
      ((count? schema lengthKey).or (count? schema itemsKey))) = some tag) :
    countTag? name ((schemas.findSome? (count? · lengthKey)).or
      (schemas.findSome? (count? · itemsKey))) = some tag := by
  have hsets : ∀ schema, (countTag? name ((count? schema lengthKey).or
      (count? schema itemsKey))).isSome = true →
        ((count? schema lengthKey).or (count? schema itemsKey)).isSome = true := by
    intro schema hsome
    rwa [isSome_countTag?] at hsome
  obtain ⟨first, hfirst⟩ := exists_find?_of_findSome? hsets h
  have hset : ((count? first lengthKey).or (count? first itemsKey)).isSome = true :=
    (List.find?_eq_some_iff_append.mp hfirst).1
  have hsame : (schemas.findSome? (count? · lengthKey)).or (schemas.findSome? (count? · itemsKey)) =
      (count? first lengthKey).or (count? first itemsKey) := by
    cases hlength : count? first lengthKey with
    | some n =>
      have hfound : schemas.findSome? (count? · lengthKey) = count? first lengthKey :=
        findSome?_of_find? (fun schema hsome => by simp [hsome]) hfirst
          (Option.isSome_of_eq_some hlength)
      rw [hfound, hlength]
      rfl
    | none =>
      -- Nobody sets a length then, and the first number of items is what counts.
      have hnone : schemas.findSome? (count? · lengthKey) = none := by
        refine List.findSome?_eq_none_iff.mpr fun schema hschema => ?_
        by_contra hsome
        have hwrites : (count? first lengthKey).isSome = true := hturn first hfirst
          (List.any_eq_true.mpr ⟨schema, hschema, Option.isSome_iff_ne_none.mpr hsome⟩)
        rw [hlength] at hwrites
        exact Bool.false_ne_true hwrites
      have hitems : (count? first itemsKey).isSome = true := by
        rwa [hlength, Option.none_or] at hset
      have hfound : schemas.findSome? (count? · itemsKey) = count? first itemsKey :=
        findSome?_of_find? (fun schema hsome => by simp [hsome]) hfirst hitems
      rw [hnone, Option.none_or, Option.none_or, hfound]
  rw [hsame, ← h]
  exact (findSome?_of_find? hsets hfirst (by rwa [isSome_countTag?])).symm

/-! ## 4. What is gathered -/

/-- A lower or an upper bound and its tag, whichever of the two it is. -/
theorem Gathered.statesBound {key exclusiveKey exclusiveName inclusiveName family : String}
    (get : Constraints → Option Bound) (h : Gathered schemas c)
    (hread : ∀ schema required nullable,
      get (extract schema required nullable) = bound? schema key exclusiveKey)
    (habsorb : ∀ a b : Constraints, get (a.absorb b) = (get a).or (get b))
    (hfamily : family ∈ boundFamilies)
    (hwritten : ∀ schema, (boundTag? (Numeric.ofSchema schema) exclusiveName inclusiveName
      (bound? schema key exclusiveKey), family) ∈ (boundTags schema).zip boundFamilies)
    (hturn : BoundsInTurn key exclusiveKey schemas) :
    StatesBound c.tags family exclusiveName inclusiveName (get c) := by
  intro tag htag hsame
  rw [h.first get hread fun a b _ _ => habsorb a b]
  exact exists_boundTag?_of_findSome? hturn (h.findSome?_of_mem hfamily hwritten htag hsame)

/-- A least or a greatest count and its tag, whichever of the two it is. -/
theorem Gathered.statesCount {name lengthKey itemsKey : String}
    (length items : Constraints → Option Nat) (h : Gathered schemas c)
    (hlength : ∀ schema required nullable,
      length (extract schema required nullable) = count? schema lengthKey)
    (hlength' : ∀ a b : Constraints, length (a.absorb b) = (length a).or (length b))
    (hitems : ∀ schema required nullable,
      items (extract schema required nullable) = count? schema itemsKey)
    (hitems' : ∀ a b : Constraints, items (a.absorb b) = (items a).or (items b))
    (hname : name ∈ boundFamilies)
    (hwritten : ∀ schema, (countTag? name ((count? schema lengthKey).or (count? schema itemsKey)),
      name) ∈ (boundTags schema).zip boundFamilies)
    (hturn : CountsInTurn lengthKey itemsKey schemas) :
    StatesCount c.tags name ((length c).or (items c)) := by
  intro tag htag hsame
  rw [h.first length hlength fun a b _ _ => hlength' a b,
    h.first items hitems fun a b _ _ => hitems' a b]
  exact countTag?_of_findSome? hturn (h.findSome?_of_mem hname hwritten htag hsame)

/-- **Each tag describes the bound that is stored**, where the first schema that sets the bound
    also writes it. -/
theorem tags_describe_bounds (h : Gathered schemas c) :
    (BoundsInTurn "minimum" "exclusiveMinimum" schemas →
      StatesBound c.tags "lower" "gt" "gte" c.minimum) ∧
    (BoundsInTurn "maximum" "exclusiveMaximum" schemas →
      StatesBound c.tags "upper" "lt" "lte" c.maximum) ∧
    (CountsInTurn "minLength" "minItems" schemas →
      StatesCount c.tags "min" (c.minLength.or c.minItems)) ∧
    (CountsInTurn "maxLength" "maxItems" schemas →
      StatesCount c.tags "max" (c.maxLength.or c.maxItems)) := by
  refine ⟨fun hturn => ?_, fun hturn => ?_, fun hturn => ?_, fun hturn => ?_⟩
  · exact h.statesBound (·.minimum) (fun _ _ _ => rfl) (fun _ _ => rfl) (by decide)
      (fun _ => by simp [boundTags, boundFamilies]) hturn
  · exact h.statesBound (·.maximum) (fun _ _ _ => rfl) (fun _ _ => rfl) (by decide)
      (fun _ => by simp [boundTags, boundFamilies]) hturn
  · exact h.statesCount (·.minLength) (·.minItems) (fun _ _ _ => rfl) (fun _ _ => rfl)
      (fun _ _ _ => rfl) (fun _ _ => rfl) (by decide)
      (fun _ => by simp [boundTags, boundFamilies]) hturn
  · exact h.statesCount (·.maxLength) (·.maxItems) (fun _ _ _ => rfl) (fun _ _ => rfl)
      (fun _ _ _ => rfl) (fun _ _ => rfl) (by decide)
      (fun _ => by simp [boundTags, boundFamilies]) hturn

/-- From one, excluded, to nine. -/
def oneToNine : Json := .obj [("type", .str "number"), ("exclusiveMinimum", .int 1),
  ("maximum", .int 9), ("minLength", .int 2), ("maxLength", .int 4)]

/-- From three on, of no type. -/
def fromThree : Json := .obj [("minimum", .int 3)]

theorem tags_describe_bounds_oneToNine :
    ∃ c, Gathered [oneToNine, fromThree] c ∧
      c.tags = ["omitempty", "gt=1", "lte=9", "max=4", "min=2"] ∧ TagsDescribe c := by
  have h : Gathered [oneToNine, fromThree] ((ofSchema oneToNine).absorb (ofSchema fromThree)) :=
    .absorb (.ofSchema oneToNine) (.ofSchema fromThree)
  obtain ⟨hlower, hupper, hmin, hmax⟩ := tags_describe_bounds h
  refine ⟨_, h, by decide +kernel, hlower ?_, hupper ?_, hmin ?_, hmax ?_⟩
  all_goals
    rintro first hfirst -
    cases hfirst
    decide +kernel

/-- More than five. -/
def aboveFive : Json := .obj [("type", .str "number"), ("exclusiveMinimum", .int 5)]

/-- The bound is that of the first schema, which has no type, and the tag that of the second. -/
theorem gathered_tag_misstates : ∃ c, Gathered [fromThree, aboveFive] c ∧ ¬ TagsDescribe c := by
  refine ⟨_, .absorb (.ofSchema fromThree) (.ofSchema aboveFive), fun hdescribes => ?_⟩
  have htag : "gt=5" ∈ ((ofSchema fromThree).absorb (ofSchema aboveFive)).tags := by
    decide +kernel
  obtain ⟨numeric, hstates⟩ := hdescribes.lower "gt=5" htag (by decide)
  obtain ⟨text, -, heq⟩ := Option.map_eq_some_iff.mp hstates
  -- The stored bound includes its value, so its tag would be a `gte`.
  have hstart : ("gte" ++ "=" ++ text).toList = "gt=5".toList := congrArg String.toList heq
  rw [String.toList_append] at hstart
  have hthird := congrArg (·[2]?) hstart
  simp at hthird

end ApiTypes.Constraints

import ApiTypes.Proofs.Compile.CombinatorFree
import ApiTypes.Proofs.TypeName
import Mathlib.Data.List.Induction

/-!
  The values of an enumeration and their names.

  Values come one after the other, and each takes a name that no value before it has. So **all
  values but null are there, in their order and under different names**, and the name of a value
  comes from the one that is given for its place, where there is one: `NamesValues`. Places count
  nulls.

  A schema that lists values and has no other type than that of a scalar or an array is resolved to
  its values, whatever stands around it (`Env.build_of_isEnumeration`).
-/

namespace ApiTypes

variable {given : List String} {values : List Json} {choices : List Choice} {value : Json}
  {place : Nat}

/-! ## 1. One value -/

theorem Json.isNull_iff : value.isNull = true ↔ value = .null := by
  cases value <;> simp [Json.isNull]

/-- What the name of a value comes from: the name that is given for its place, or else the
    value. -/
theorem choiceBase_eq (given : Option String) (value : Json) :
    choiceBase given value = given.getD (choiceBase none value) := by
  cases given <;> rfl

theorem addChoice_of_isNull (h : value.isNull = true) (given : List String) (choices : List Choice)
    (place : Nat) : addChoice given choices (value, place) = choices := by
  simp [addChoice, h]

/-- A value goes last, under a name of its own. -/
theorem exists_addChoice_eq (h : value.isNull = false) (given : List String)
    (choices : List Choice) (place : Nat) : ∃ choice : Choice,
      addChoice given choices (value, place) = choices ++ [choice] ∧ choice.value = value ∧
      choice.name ∉ choices.map (·.name) ∧
      TypeName.NamedFrom (choices.map (·.name)) (given[place]?.getD (choiceBase none value))
        choice.name := by
  rw [← choiceBase_eq]
  exact ⟨⟨TypeName.fresh (choices.map (·.name)) (choiceBase given[place]? value) [], value⟩,
    by simp [addChoice, h], rfl, TypeName.fresh_not_mem _ _ _, TypeName.namedFrom_fresh _ _⟩

/-! ## 2. All values -/

/-- The value at a place is among the choices, after the values before it. Its name comes from the
    one that is given for its place, or else from the value, beside the names of those. -/
def IsNamedAt (given : List String) (values : List Json) (choices : List Choice) (place : Nat)
    (value : Json) : Prop :=
  ∃ before choice after, choices = before ++ choice :: after ∧
    before.map (·.value) = (values.take place).filter (!·.isNull) ∧ choice.value = value ∧
    TypeName.NamedFrom (before.map (·.name)) (given[place]?.getD (choiceBase none value))
      choice.name

/-- The values of an enumeration with their names. -/
structure NamesValues (given : List String) (values : List Json) (choices : List Choice) :
    Prop where
  /-- All values but null, in their order. -/
  complete : choices.map (·.value) = values.filter (!·.isNull)
  /-- No two have one name. -/
  distinct : (choices.map (·.name)).Nodup
  /-- Every value but null is named for its place. -/
  named : ∀ place value, values[place]? = some value → value.isNull = false →
    IsNamedAt given values choices place value

/-- More values do not change the name at a place. -/
theorem IsNamedAt.append (h : IsNamedAt given values choices place value)
    (hplace : place ≤ values.length) (more : List Json) (others : List Choice) :
    IsNamedAt given (values ++ more) (choices ++ others) place value := by
  obtain ⟨before, choice, after, rfl, hbefore, hnamed⟩ := h
  refine ⟨before, choice, after ++ others, by simp, ?_, hnamed⟩
  rw [List.take_append_of_le_length hplace, hbefore]

/-- A place among one more value is a place among the values, or the last one. -/
theorem place_of_getElem?_concat {new : Json} (h : (values ++ [new])[place]? = some value) :
    (place < values.length ∧ values[place]? = some value) ∨
      (place = values.length ∧ value = new) := by
  rw [List.getElem?_append] at h
  split_ifs at h with hlt
  · exact .inl ⟨hlt, h⟩
  · rw [List.getElem?_singleton] at h
    obtain ⟨hzero, hnew⟩ := Option.ite_none_right_eq_some.mp h
    exact .inr ⟨by omega, (Option.some.inj hnew).symm⟩

/-- **One more value** is named beside those before it. -/
theorem NamesValues.addChoice (h : NamesValues given values choices) (new : Json) :
    NamesValues given (values ++ [new]) (addChoice given choices (new, values.length)) := by
  cases hnull : new.isNull with
  | true =>
    rw [addChoice_of_isNull hnull]
    refine ⟨by simp [h.complete, hnull], h.distinct, fun place value hplace hvalue => ?_⟩
    rcases place_of_getElem?_concat hplace with ⟨hlt, hold⟩ | ⟨-, rfl⟩
    · simpa using (h.named place value hold hvalue).append hlt.le [new] []
    · exact absurd (hnull.symm.trans hvalue) (by decide)
  | false =>
    obtain ⟨choice, hadd, hchoice, hfree, hnamed⟩ :=
      exists_addChoice_eq hnull given choices values.length
    rw [hadd]
    refine ⟨by simp [h.complete, hnull, hchoice], ?_, fun place value hplace hvalue => ?_⟩
    · rw [List.map_append, List.map_singleton, ← List.concat_eq_append]
      exact h.distinct.concat hfree
    · rcases place_of_getElem?_concat hplace with ⟨hlt, hold⟩ | ⟨rfl, rfl⟩
      · exact (h.named place value hold hvalue).append hlt.le [new] [choice]
      · exact ⟨choices, choice, [], rfl, by simp [h.complete], hchoice, hnamed⟩

theorem choicesOf_concat (given : List String) (values : List Json) (new : Json) :
    choicesOf given (values ++ [new]) =
      addChoice given (choicesOf given values) (new, values.length) := by
  simp [choicesOf, List.zipIdx_append]

theorem namesValues_choicesOf (given : List String) (values : List Json) :
    NamesValues given values (choicesOf given values) := by
  induction values using List.reverseRecOn with
  | nil => exact ⟨rfl, List.nodup_nil, by simp⟩
  | append_singleton values new ih =>
    rw [choicesOf_concat]
    exact ih.addChoice new

/-! ## 3. Enumerations -/

/-- An enumeration is nullable exactly when null is among its values. -/
theorem nullable_enumShape (node : Json) (declared : Option String) (extensions : Extensions) :
    (enumShape node declared extensions).constraints.nullable = true ↔
      .null ∈ Schema.membersOf "enum" node := by
  change (Schema.membersOf "enum" node).any Json.isNull = true ↔ _
  simp only [List.any_eq_true, Json.isNull_iff, exists_eq_right]

/-- **An enumeration has all its values but null, each under a name of its own.** The name comes
    from the one that is given for the place of the value, where there is one. Null makes the
    enumeration nullable. -/
theorem enumShape_names_values (node : Json) (declared : Option String) (extensions : Extensions) :
    NamesValues extensions.enumNames (Schema.membersOf "enum" node)
        (enumShape node declared extensions).choices ∧
      ((enumShape node declared extensions).constraints.nullable = true ↔
        .null ∈ Schema.membersOf "enum" node) :=
  ⟨namesValues_choicesOf _ _, nullable_enumShape node declared extensions⟩

/-- The name that is given for the place of null is not used, and the last value has no given name:
    its own comes second. -/
example : (choicesOf ["A", "None"] [.str "x", .null, .str "a"]).map (·.name) = ["A", "A1"] := by rfl

/-- A schema that is read as an enumeration: it lists values, and has no type or one that is not
    `object`. -/
structure Schema.IsEnumeration (node : Json) : Prop where
  listed : (node.get? "enum").isSome = true
  single : Schema.types node = [] ∨ ∃ type, type ≠ "object" ∧ Schema.types node = [type]

namespace Env

variable {env : Env} {resolve : Resolver} {site : Site} {extensions : Extensions}
  {members : List (String × Json)}

theorem plainShape_of_isEnumeration {node : Json} (h : Schema.IsEnumeration node) (env : Env)
    (resolve : Resolver) (extensions : Extensions) (site : Site) :
    ∃ declared, env.plainShape resolve node extensions site =
      pure (enumShape node declared extensions) := by
  rcases h.single with htypes | ⟨type, hne, htypes⟩
  · exact ⟨none, by simp [plainShape, htypes, h.listed]⟩
  · exact ⟨some type, by simp [plainShape, htypes, h.listed, hne]⟩

/-- **A schema that is read as an enumeration is resolved to its values**, where it stands alone and
    no type overrides it. Nothing else is looked up, and nothing is defined. -/
theorem build_of_isEnumeration (halone : Schema.StandsAlone (.obj members))
    (h : Schema.IsEnumeration (.obj members)) (hsite : site.reference = none)
    (hextensions : extensionsAt (.obj members) site.display = .ok extensions)
    (hoverride : extensions.typeOverride = none) :
    ∃ shape, env.build resolve (.obj members) site = pure shape ∧
      NamesValues extensions.enumNames (Schema.membersOf "enum" (.obj members)) shape.choices ∧
      (shape.constraints.nullable = true ↔ Schema.isNullable (.obj members) = true ∨
        .null ∈ Schema.membersOf "enum" (.obj members)) := by
  obtain ⟨declared, hplain⟩ := plainShape_of_isEnumeration h env resolve extensions site
  refine ⟨finish (.obj members) (enumShape (.obj members) declared extensions), ?_,
    namesValues_choicesOf _ _, ?_⟩
  · have hasked : Resolve.ask (extensionsAt (.obj members) site.display) = pure extensions :=
      congrArg Resolve.ask hextensions
    rw [build_of_standsAlone halone hsite, hasked]
    simp only [pure_bind, ownShape, hoverride, hplain]
  · rw [nullable_finish, Bool.or_eq_true, nullable_enumShape]

end Env

end ApiTypes

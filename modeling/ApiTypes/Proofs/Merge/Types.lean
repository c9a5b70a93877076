import ApiTypes.Proofs.Merge.Commutes
import ApiTypes.Proofs.Merge.Substance

/-!
  The types of a merge.

  A merge keeps the type of its left side whenever the left side has one under `type`, and compares
  types as they are read: without null, and else by what properties and items imply.

  * **The types of a merge are those of its left side, or else of its right**, and it is nullable
    when either side is (`merge_keeps_types`).
  * The exception is a left side whose `type` names null and nothing else. It is no opinion when
    types are compared, but the merge keeps it, and what the right side declares is lost
    (`merge_loses_type`).
-/

namespace ApiTypes.Schema

variable {left merged : List (String × Json)} {node : Json}

/-! ## 1. Declared and implied types -/

/-- The type that properties or items imply. -/
def impliedTypes (hasProperties hasItems : Bool) : List String :=
  if hasProperties then ["object"] else if hasItems then ["array"] else []

/-- The schema says something under `type`, and it is no type: null alone, or nothing. -/
structure NamesNoType (node : Json) : Prop where
  given : (node.get? "type").isSome = true
  declared : declaredTypes node = []

theorem types_of_undeclared (h : declaredTypes node = []) :
    types node = impliedTypes (node.get? "properties").isSome (node.get? "items").isSome := by
  simp [types, h, impliedTypes]

theorem declaredTypes_of_missing (h : node.get? "type" = none) : declaredTypes node = [] := by
  simp [declaredTypes, h]

theorem admitsNull_congr {other : Json} (h : node.get? "type" = other.get? "type") :
    admitsNull node = admitsNull other := by
  rw [admitsNull, h, admitsNull]

theorem typesClash_eq_false {l r : List String} :
    typesClash l r = false ↔ l = [] ∨ r = [] ∨ l = r := by
  simp [typesClash, or_iff_not_imp_left]

/-- Implied types that do not clash are implied by both sides together. -/
theorem impliedTypes_or {properties items properties' items' : Bool}
    (h : typesClash (impliedTypes properties items) (impliedTypes properties' items') = false) :
    impliedTypes (properties || properties') (items || items') =
      if impliedTypes properties items = [] then impliedTypes properties' items'
      else impliedTypes properties items := by
  revert properties items properties' items'
  decide

/-! ## 2. One member more -/

/-- The keyword of a merge tells whether either side is nullable. -/
theorem flag_mergeInto (h : mergeInto left node = .ok merged) :
    flag "nullable" (.obj merged) = (isNullable (.obj left) || isNullable node) := by
  rw [flag, Json.get?_obj, nullable_mergeInto h]
  cases isNullable (.obj left) || isNullable node <;> rfl

theorem typesClash_eq_false_of_conflict? (h : conflict? (.obj left) node = none) :
    typesClash (types (.obj left)) (types node) = false := by
  by_contra hclash
  rw [Bool.not_eq_false] at hclash
  simp [conflict?, hclash] at h

section Step

variable (hkeys : node.hasDistinctKeys = true) (h : merge (some left) node = .ok merged)
include hkeys h

theorem isSome_properties_merge : ((Json.obj merged).get? "properties").isSome =
    (((Json.obj left).get? "properties").isSome || (node.get? "properties").isSome) := by
  have hget : Entries.get? "properties" merged = _ :=
    get?_mergeInto (by decide) (by decide) (by decide) (nodup_keys_getD_members hkeys) h
  rw [Json.get?_obj, Json.get?_obj, hget]
  cases node.get? "properties" <;> simp [takenValue]

theorem isSome_items_merge : ((Json.obj merged).get? "items").isSome =
    (((Json.obj left).get? "items").isSome || (node.get? "items").isSome) := by
  have hget := get?_merge_of_isOverwritten hkeys h (show isOverwritten "items" = true by decide)
  rw [hget, Option.isSome_or, Bool.or_comm, soFar, Option.getD_some]

/-- Where neither side declares a type that counts, the types of a merge are implied. -/
theorem types_merge_of_undeclared (hdeclared : declaredTypes (.obj merged) = []) :
    types (.obj merged) = impliedTypes
      (((Json.obj left).get? "properties").isSome || (node.get? "properties").isSome)
      (((Json.obj left).get? "items").isSome || (node.get? "items").isSome) := by
  rw [types_of_undeclared hdeclared, isSome_properties_merge hkeys h, isSome_items_merge hkeys h]

/-- **Where the type of a merge comes from**: the left side, if it says anything under `type`, or
    else the right. -/
theorem type_merge :
    ((Json.obj left).get? "type").isSome = true ∧
        (Json.obj merged).get? "type" = (Json.obj left).get? "type" ∨
      (Json.obj left).get? "type" = none ∧ (Json.obj merged).get? "type" = node.get? "type" := by
  have htype := get?_merge_type hkeys h
  rw [soFar, Option.getD_some] at htype
  rw [htype]
  cases (Json.obj left).get? "type" with
  | some value => exact .inl ⟨rfl, Option.some_or⟩
  | none => exact .inr ⟨rfl, Option.none_or⟩

/-- **The types of a merge** are those of the left side, or else of the right, unless the left side
    stands for no type where the right one declares some. -/
theorem types_merge (htype : ¬ NamesNoType (.obj left) ∨ declaredTypes node = []) :
    types (.obj merged) =
      if types (.obj left) = [] then types node else types (.obj left) := by
  have hclash := typesClash_eq_false_of_conflict? (conflict?_of_merge h rfl)
  -- Where nothing is declared on either side, properties and items decide.
  have himplied (hleft : declaredTypes (.obj left) = []) (hnode : declaredTypes node = [])
      (hmerged : declaredTypes (.obj merged) = []) :
      types (.obj merged) =
        if types (.obj left) = [] then types node else types (.obj left) := by
    rw [types_of_undeclared hleft, types_of_undeclared hnode] at hclash ⊢
    rw [types_merge_of_undeclared hkeys h hmerged, impliedTypes_or hclash]
  rcases type_merge hkeys h with ⟨hgiven, hsame⟩ | ⟨hmissing, hsame⟩
  · have hmerged := declaredTypes_congr hsame
    by_cases hleft : declaredTypes (.obj left) = []
    · have hnode := htype.resolve_left (not_not_intro ⟨hgiven, hleft⟩)
      exact himplied hleft hnode (hmerged.trans hleft)
    · rw [types_of_declared hleft, if_neg hleft, types_of_declared (hmerged ▸ hleft), hmerged]
  · have hmerged := declaredTypes_congr hsame
    have hleft := declaredTypes_of_missing hmissing
    by_cases hnode : declaredTypes node = []
    · exact himplied hleft hnode (hmerged.trans hnode)
    · -- The right side's declared types stand, and the left side implies the same or nothing.
      have htypes : types (.obj merged) = types node := by
        rw [types_of_declared (hmerged ▸ hnode), hmerged, types_of_declared hnode]
      rw [htypes]
      rcases typesClash_eq_false.mp hclash with hnone | hnone | hequal
      · rw [if_pos hnone]
      · exact absurd hnone (types_of_declared hnode ▸ hnode)
      · rw [hequal, ite_self]

/-- A merge is nullable when either side is. -/
theorem isNullable_merge :
    isNullable (.obj merged) = (isNullable (.obj left) || isNullable node) := by
  rw [isNullable, flag_mergeInto h, Bool.or_eq_right_iff_imp]
  -- A null among the types comes from the side that the type comes from.
  intro hnull
  rcases type_merge hkeys h with ⟨-, hsame⟩ | ⟨-, hsame⟩
  · rw [admitsNull_congr hsame] at hnull
    simp [isNullable, hnull]
  · rw [admitsNull_congr hsame] at hnull
    simp [isNullable, hnull]

end Step

/-! ## 3. The opinion on types -/

/-- **A merge keeps the opinion on types.** It is nullable exactly when either side is. Its types
    are those of the left side, or else of the right; only where the left side names no type under
    `type` is what the right side declares lost, and properties and items decide. -/
theorem merge_keeps_types {right : List (String × Json)}
    (hright : (Json.obj right).hasDistinctKeys = true)
    (h : merge (some left) (.obj right) = .ok merged) :
    isNullable (.obj merged) = (isNullable (.obj left) || isNullable (.obj right)) ∧
    (¬ NamesNoType (.obj left) ∨ declaredTypes (.obj right) = [] →
      types (.obj merged) =
        if types (.obj left) = [] then types (.obj right) else types (.obj left)) ∧
    (NamesNoType (.obj left) →
      types (.obj merged) = impliedTypes
        (((Json.obj left).get? "properties").isSome ||
          ((Json.obj right).get? "properties").isSome)
        (((Json.obj left).get? "items").isSome || ((Json.obj right).get? "items").isSome)) := by
  refine ⟨isNullable_merge hright h, types_merge hright h, fun hnames => ?_⟩
  rcases type_merge hright h with ⟨-, hsame⟩ | ⟨hmissing, -⟩
  · exact types_merge_of_undeclared hright h ((declaredTypes_congr hsame).trans hnames.declared)
  · exact absurd hnames.given (by simp [hmissing])

/-- Null beside a list. -/
theorem merge_keeps_types_nullItems :
    ∃ merged, merge (some [("type", .str "null")]) (.obj [("items", .obj [])]) = .ok merged ∧
      isNullable (.obj merged) = true ∧
      types (.obj merged) = types (.obj [("items", .obj [])]) ∧
      types (.obj merged) = ["array"] := by
  refine ⟨_, rfl, ?_⟩
  obtain ⟨hnullable, htypes, himplied⟩ := merge_keeps_types
    (show (Json.obj [("items", .obj [])]).hasDistinctKeys = true by decide)
    (show merge (some [("type", .str "null")]) (.obj [("items", .obj [])]) = .ok _ from rfl)
  exact ⟨hnullable, htypes (.inr rfl), himplied ⟨rfl, rfl⟩⟩

/-- Null beside a declared type: the right side has an opinion, the left side has none, and the
    merge loses it. -/
theorem merge_loses_type :
    ∃ merged, merge (some [("type", .str "null")]) (.obj [("type", .str "string")]) = .ok merged ∧
      types (.obj [("type", .str "null")]) = [] ∧
      types (.obj [("type", .str "string")]) = ["string"] ∧ types (.obj merged) = [] :=
  ⟨_, rfl, rfl, rfl, rfl⟩

end ApiTypes.Schema

import ApiTypes.Compile.Resolve
import ApiTypes.Proofs.Entries
import Mathlib.Data.List.Basic

/-!
  Shapes that a resolution treats alike.

  A resolution seldom looks into the shapes that it gets from below: it asks whether a shape stands
  for a definition, has fields or variants, is an alias, says nothing or is the empty record. Shapes
  are alike when they agree on all that, and what is built from them alike is alike again.
-/

namespace ApiTypes

/-! ## 1. Texts -/

theorem append_ne_of_other_start {start rest other : String}
    (h : ¬ start.toList <+: other.toList) : start ++ rest ≠ other := by
  rintro rfl
  exact h (by simp [String.toList_append])

/-- The text of a shape that is neither blank nor the empty record. -/
structure IsProperDecl (decl : String) : Prop where
  blank : decl ≠ ""
  emptyRecord : decl ≠ emptyRecordDecl

theorem IsProperDecl.of_start {start rest : String} (hblank : ¬ start.toList <+: "".toList)
    (hrecord : ¬ start.toList <+: emptyRecordDecl.toList) : IsProperDecl (start ++ rest) :=
  ⟨append_ne_of_other_start hblank, append_ne_of_other_start hrecord⟩

theorem isProperDecl_recordDecl {fields : List Field} (h : fields.isEmpty = false)
    (additional : Option Shape) : IsProperDecl (recordDecl fields additional) := by
  cases fields with
  | nil => simp at h
  | cons field rest =>
    simp only [recordDecl, List.map_cons, List.cons_append, List.isEmpty_cons, Bool.false_eq_true,
      if_false, String.append_assoc]
    exact .of_start (by decide) (by decide)

theorem isProperDecl_unionDecl (variants : List Variant) : IsProperDecl (unionDecl variants) := by
  simp only [unionDecl, String.append_assoc]
  exact .of_start (by decide) (by decide)

theorem isProperDecl_arrayDecl (item : Shape) : IsProperDecl (arrayDecl item) := by
  simp only [arrayDecl, String.append_assoc]
  exact .of_start (by decide) (by decide)

theorem isProperDecl_mapDecl (value : Shape) : IsProperDecl (mapDecl value) := by
  simp only [mapDecl, String.append_assoc]
  exact .of_start (by decide) (by decide)

theorem isProperDecl_anyDecl : IsProperDecl anyDecl := ⟨by decide, by decide⟩

/-- What a format refines a type to is one of the listed texts or the type. -/
theorem isProperDecl_scalarDecl? {type decl : String} {format : Option String}
    (h : scalarDecl? type format = some decl) : IsProperDecl decl := by
  have hrefined : ∀ formats : List (String × String),
      (∀ entry ∈ formats, IsProperDecl entry.2) → IsProperDecl type →
      IsProperDecl ((format.bind fun name => Entries.get? name formats).getD type) := by
    intro formats hformats htype
    cases hget : format.bind fun name => Entries.get? name formats with
    | none => exact htype
    | some found =>
      obtain ⟨name, -, hname⟩ := Option.bind_eq_some_iff.mp hget
      exact hformats _ (Entries.mem_of_get? hname)
  have hproper : ∀ formats : List (String × String),
      (formats.all fun entry => entry.2 ≠ "" && entry.2 ≠ emptyRecordDecl) = true →
      ∀ entry ∈ formats, IsProperDecl entry.2 := by
    intro formats hall entry hentry
    have hentry := List.all_eq_true.mp hall entry hentry
    simp only [ne_eq, Bool.and_eq_true, decide_eq_true_eq] at hentry
    exact ⟨hentry.1, hentry.2⟩
  simp only [scalarDecl?] at h
  split at h
  · rename_i htype
    subst htype
    exact Option.some.inj h ▸ hrefined _ (hproper _ (by decide)) ⟨by decide, by decide⟩
  · split at h
    · rename_i htype
      subst htype
      exact Option.some.inj h ▸ hrefined _ (hproper _ (by decide)) ⟨by decide, by decide⟩
    · split at h
      · rename_i htype
        subst htype
        exact Option.some.inj h ▸ hrefined _ (hproper _ (by decide)) ⟨by decide, by decide⟩
      · split at h
        · rename_i htype
          exact Option.some.inj h ▸ htype ▸ ⟨by decide, by decide⟩
        · simp at h

/-! ## 2. Shapes -/

theorem isEmpty_append_congr {α : Type} {left left' right right' : List α}
    (hleft : left'.isEmpty = left.isEmpty) (hright : right'.isEmpty = right.isEmpty) :
    (left' ++ right').isEmpty = (left ++ right).isEmpty := by
  cases left <;> cases left' <;> simp_all

/-- Embedding a target adds a field or none. -/
theorem isEmpty_mixin {target target' : Option String} (h : target'.isSome = target.isSome)
    (nullable : Bool) :
    ((target'.map (Field.mixin · nullable)).toList).isEmpty =
      ((target.map (Field.mixin · nullable)).toList).isEmpty := by
  cases target <;> cases target' <;> simp_all

/-- Shapes on which every question of a resolution has the same answer. -/
structure Shape.Alike (x x' : Shape) : Prop where
  target : x'.target.isSome = x.target.isSome
  fields : x'.fields.isEmpty = x.fields.isEmpty
  variants : x'.variants.isEmpty = x.variants.isEmpty
  isAlias : x'.isAlias = x.isAlias
  blank : x'.decl = "" ↔ x.decl = ""
  emptyRecord : x'.decl = emptyRecordDecl ↔ x.decl = emptyRecordDecl

namespace Shape.Alike

variable {x x' : Shape}

theorem refl (x : Shape) : Alike x x := ⟨rfl, rfl, rfl, rfl, .rfl, .rfl⟩

/-- Whatever the structure says, proper texts are alike. -/
theorem of_proper (htarget : x'.target.isSome = x.target.isSome)
    (hfields : x'.fields.isEmpty = x.fields.isEmpty)
    (hvariants : x'.variants.isEmpty = x.variants.isEmpty) (halias : x'.isAlias = x.isAlias)
    (hdecl : IsProperDecl x.decl) (hdecl' : IsProperDecl x'.decl) : Alike x x' :=
  ⟨htarget, hfields, hvariants, halias, by simp [hdecl.blank, hdecl'.blank],
    by simp [hdecl.emptyRecord, hdecl'.emptyRecord]⟩

variable (h : Alike x x')
include h

theorem isReference : x'.isReference = x.isReference := h.target

theorem isBlank : x'.isBlank = x.isBlank := by
  have htarget : x'.target.isNone = x.target.isNone := by
    simpa only [Option.not_isSome] using congrArg (!·) h.target
  simp only [Shape.isBlank, h.blank, h.fields, h.variants, htarget]

theorem needsName : x'.needsName = x.needsName := by
  have htarget : x'.target.isNone = x.target.isNone := by
    simpa only [Option.not_isSome] using congrArg (!·) h.target
  simp only [Shape.needsName, h.fields, h.variants, htarget]

theorem refreshDecl : Alike x.refreshDecl x'.refreshDecl := by
  unfold Shape.refreshDecl
  rw [h.fields, h.variants]
  split
  · rename_i hfields
    have hfields' : x'.fields.isEmpty = false := by simpa [h.fields] using hfields
    exact of_proper h.target h.fields h.variants h.isAlias
      (isProperDecl_recordDecl (by simpa using hfields) _) (isProperDecl_recordDecl hfields' _)
  · split
    · exact of_proper h.target h.fields h.variants h.isAlias (isProperDecl_unionDecl _)
        (isProperDecl_unionDecl _)
    · exact h

/-- Fields are added on both sides or on neither. -/
theorem appendFields {fields fields' : List Field} (hfields : fields'.isEmpty = fields.isEmpty)
    (hoisted hoisted' : List Definition) :
    Alike { x with fields := x.fields ++ fields, hoisted }
      { x' with fields := x'.fields ++ fields', hoisted := hoisted' } :=
  ⟨h.target, isEmpty_append_congr h.fields hfields, h.variants, h.isAlias, h.blank, h.emptyRecord⟩

theorem besideReference (node node' : Json) :
    Alike (Env.besideReference node x) (Env.besideReference node' x') :=
  ⟨h.target, h.fields, h.variants, h.isAlias, h.blank, h.emptyRecord⟩

theorem finish (node node' : Json) : Alike (Env.finish node x) (Env.finish node' x') :=
  ⟨h.target, h.fields, h.variants, h.isAlias, h.blank, h.emptyRecord⟩

theorem finishCombined (node node' : Json) :
    Alike (Env.finishCombined node x) (Env.finishCombined node' x') :=
  ⟨h.target, h.fields, h.variants, h.isAlias, h.blank, h.emptyRecord⟩

theorem withConstraints (constraints constraints' : Constraints) :
    Alike { x with constraints } { x' with constraints := constraints' } :=
  ⟨h.target, h.fields, h.variants, h.isAlias, h.blank, h.emptyRecord⟩

theorem enhance {part part' : Shape} (hpart : Alike part part') (keepDecl : Bool) :
    Alike (Env.enhance x part keepDecl) (Env.enhance x' part' keepDecl) := by
  have hfields := isEmpty_append_congr h.fields hpart.fields
  have hshape : Alike
      { x with
        fields := x.fields ++ part.fields
        discriminator := part.discriminator.or x.discriminator
        variants := if part.variants.isEmpty then x.variants else part.variants
        hoisted := x.hoisted ++ part.hoisted
        isAlias := x.isAlias && (x.fields ++ part.fields).isEmpty }
      { x' with
        fields := x'.fields ++ part'.fields
        discriminator := part'.discriminator.or x'.discriminator
        variants := if part'.variants.isEmpty then x'.variants else part'.variants
        hoisted := x'.hoisted ++ part'.hoisted
        isAlias := x'.isAlias && (x'.fields ++ part'.fields).isEmpty } := by
    refine ⟨h.target, hfields, ?_, ?_, h.blank, h.emptyRecord⟩
    · dsimp only
      rw [hpart.variants]
      split
      · exact h.variants
      · exact hpart.variants
    · simp only [h.isAlias, hfields]
  cases keepDecl with
  | true => exact hshape
  | false => exact hshape.refreshDecl

end Shape.Alike

/-- What combinators come to, alike: the whole shape in both, or parts of it in both. -/
inductive Combined.Alike : Combined → Combined → Prop where
  | complete {x x' : Shape} (h : x.Alike x') : Alike (.complete x) (.complete x')
  | partly {x x' : Shape} (h : x.Alike x') : Alike (.partly x) (.partly x')

theorem Combined.Alike.takeMerged {acc acc' : Shape} (hacc : acc.Alike acc') {part part' : Combined}
    (h : part.Alike part') : (Env.takeMerged acc part).Alike (Env.takeMerged acc' part') := by
  cases h with
  | partly h => exact hacc.appendFields h.fields _ _
  | @complete x x' h =>
    have htarget := h.target
    unfold Env.takeMerged
    cases hx : x.target <;> cases hx' : x'.target <;> simp only [hx, hx'] at htarget ⊢
    · exact hacc.appendFields h.fields _ _
    · simp at htarget
    · simp at htarget
    · exact hacc.appendFields (by simp) _ _

end ApiTypes

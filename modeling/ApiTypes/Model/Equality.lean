import ApiTypes.Model.Basic

/-!
  Equality of shapes, part by part.

  JSON values inside shapes are compared deeply, and floats as floats.
-/

namespace ApiTypes

/-- Equal names and deeply equal values. -/
def Choice.same (a b : Choice) : Bool := a.name == b.name && Json.same a.value b.value

/-- Lists whose elements are the same in pairs. -/
def sameList {α : Type} (same : α → α → Bool) : List α → List α → Bool
  | [], [] => true
  | a :: as, b :: bs => same a b && sameList same as bs
  | _, _ => false

mutual

/-- Part by part. -/
def Shape.same : Shape → Shape → Bool
  | ⟨decl, target, item, choices, fields, isOpen, additional, variants, discriminator, isAlias,
      hoisted, constraints, description, source⟩, b =>
    decl == b.decl && target == b.target && sameShapeOption item b.item &&
      sameList Choice.same choices b.choices && sameFields fields b.fields &&
      isOpen == b.isOpen && sameShapeOption additional b.additional &&
      sameVariants variants b.variants && discriminator == b.discriminator &&
      isAlias == b.isAlias && sameDefinitions hoisted b.hoisted &&
      constraints.same b.constraints && description == b.description &&
      Json.sameOption source b.source
termination_by structural shape => shape

/-- Both missing, or both there and the same. -/
def sameShapeOption : Option Shape → Option Shape → Bool
  | none, none => true
  | some a, some b => a.same b
  | _, _ => false
termination_by structural shape => shape

/-- Field by field. -/
def sameFields : List Field → List Field → Bool
  | [], [] => true
  | ⟨name, wireName, description, deprecated, shape, constraints, extensions⟩ :: as, b :: bs =>
    name == b.name && wireName == b.wireName && description == b.description &&
      deprecated == b.deprecated && shape.same b.shape && constraints.same b.constraints &&
      decide (extensions = b.extensions) && sameFields as bs
  | _, _ => false
termination_by structural fields => fields

/-- Variant by variant. -/
def sameVariants : List Variant → List Variant → Bool
  | [], [] => true
  | ⟨typeName, shape⟩ :: as, b :: bs =>
    typeName == b.typeName && shape.same b.shape && sameVariants as bs
  | _, _ => false
termination_by structural variants => variants

/-- Definition by definition. -/
def sameDefinitions : List Definition → List Definition → Bool
  | [], [] => true
  | ⟨name, jsonName, shape, location⟩ :: as, b :: bs =>
    name == b.name && jsonName == b.jsonName && shape.same b.shape && location == b.location &&
      sameDefinitions as bs
  | _, _ => false
termination_by structural definitions => definitions

end

end ApiTypes

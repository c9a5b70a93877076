import ApiTypes.Proofs.Compile.Tidy
import ApiTypes.Proofs.Json

/-!
  What is equal to itself.

  Deep equality compares floats as floats, and what is not a number is equal to nothing. An object
  with a key twice is not equal to itself either, because a look-up finds the first member only.
  Neither comes out of a text that is read: `Json.IsReadable` excludes both.

  **Where every value in a shape is readable, the shape is the same as itself** (`same_self`). To
  share a name with itself it is enough that the schema is readable that it was made from.
-/

namespace ApiTypes

/-! ## 1. Values -/

namespace Json

mutual

/-- Whether every float inside a value is a number. -/
def hasNumbers : Json → Bool
  | .float x => x == x
  | .arr items => itemsHaveNumbers items
  | .obj members => membersHaveNumbers members
  | .null | .bool _ | .int _ | .str _ => true
termination_by structural value => value

/-- Whether every float inside the elements is a number. -/
def itemsHaveNumbers : List Json → Bool
  | [] => true
  | item :: rest => item.hasNumbers && itemsHaveNumbers rest
termination_by structural items => items

/-- Whether every float inside the members is a number. -/
def membersHaveNumbers : List (String × Json) → Bool
  | [] => true
  | (_, value) :: rest => value.hasNumbers && membersHaveNumbers rest
termination_by structural members => members

end

/-- Each key of an object comes once, and each float is a number. -/
structure IsReadable (value : Json) : Prop where
  keys : value.hasDistinctKeys = true
  numbers : value.hasNumbers = true

/-- Members that are equal to themselves have equal ones wherever they all occur. -/
theorem sameMembers_of_subset {members others : List (String × Json)}
    (hkeys : (Entries.keys others).Nodup) (hsubset : members ⊆ others)
    (h : ∀ entry ∈ members, entry.2.same entry.2 = true) : sameMembers members others = true := by
  induction members with
  | nil => rfl
  | cons entry rest ih =>
    obtain ⟨hentry, hrest⟩ := List.forall_mem_cons.mp h
    obtain ⟨hmem, hsubset⟩ := List.cons_subset.mp hsubset
    simp [sameMembers, Entries.get?_of_mem hkeys hmem, hentry, ih hsubset hrest]

mutual

/-- **A readable value is equal to itself.** -/
theorem same_self : (value : Json) → value.IsReadable → value.same value = true
  | .null, _ => rfl
  | .bool _, _ => by simp [same]
  | .int _, _ => by simp [same]
  | .str _, _ => by simp [same]
  | .float _, h => h.numbers
  | .arr items, h => sameItems_self items h.keys h.numbers
  | .obj members, h => by
    obtain ⟨hnodup, -⟩ := hasDistinctKeys_obj.mp h.keys
    have hmembers := members_same_self members (Bool.and_eq_true_iff.mp h.keys).2 h.numbers
    simp [same, sameMembers_of_subset hnodup (List.Subset.refl _) hmembers]
termination_by structural value => value

theorem sameItems_self : (items : List Json) → itemsHaveDistinctKeys items = true →
    itemsHaveNumbers items = true → sameItems items items = true
  | [], _, _ => rfl
  | item :: rest, hkeys, hnumbers => by
    obtain ⟨hkey, hkeys⟩ := Bool.and_eq_true_iff.mp hkeys
    obtain ⟨hnumber, hnumbers⟩ := Bool.and_eq_true_iff.mp hnumbers
    exact Bool.and_eq_true_iff.mpr
      ⟨same_self item ⟨hkey, hnumber⟩, sameItems_self rest hkeys hnumbers⟩
termination_by structural items => items

theorem members_same_self : (members : List (String × Json)) →
    membersHaveDistinctKeys members = true → membersHaveNumbers members = true →
    ∀ entry ∈ members, entry.2.same entry.2 = true
  | [], _, _ => by simp
  | (_, value) :: rest, hkeys, hnumbers => by
    obtain ⟨hkey, hkeys⟩ := Bool.and_eq_true_iff.mp hkeys
    obtain ⟨hnumber, hnumbers⟩ := Bool.and_eq_true_iff.mp hnumbers
    exact List.forall_mem_cons.mpr
      ⟨same_self value ⟨hkey, hnumber⟩, members_same_self rest hkeys hnumbers⟩
termination_by structural members => members

end

theorem sameOption_self {value : Option Json} (h : ∀ node, value = some node → node.IsReadable) :
    sameOption value value = true := by
  cases value with
  | none => rfl
  | some node => exact same_self node (h node rfl)

end Json

/-! ## 2. Shapes -/

/-- The bounds are numbers. -/
def Constraints.IsReadable (c : Constraints) : Prop :=
  ∀ bound, c.minimum = some bound ∨ c.maximum = some bound → (bound.value == bound.value) = true

theorem Bound.sameOption_self {bound : Option Bound}
    (h : ∀ b, bound = some b → (b.value == b.value) = true) :
    Bound.sameOption bound bound = true := by
  cases bound with
  | none => rfl
  | some b => simp [Bound.sameOption, Bound.same, h b rfl]

theorem Constraints.same_self {c : Constraints} (h : c.IsReadable) : c.same c = true := by
  have hminimum := Bound.sameOption_self fun b hb => h b (.inl hb)
  have hmaximum := Bound.sameOption_self fun b hb => h b (.inr hb)
  simp [Constraints.same, hminimum, hmaximum]

theorem sameList_self {α : Type} {same : α → α → Bool} {items : List α}
    (h : ∀ item ∈ items, same item item = true) : sameList same items items = true := by
  induction items with
  | nil => rfl
  | cons item rest ih =>
    obtain ⟨hitem, hrest⟩ := List.forall_mem_cons.mp h
    simp [sameList, hitem, ih hrest]

/-- The values that a shape holds itself are readable: its choices, its bounds and those of its
    fields, and the schema that it was made from. -/
structure Shape.IsReadable (shape : Shape) : Prop where
  choices : ∀ choice ∈ shape.choices, choice.value.IsReadable
  constraints : shape.constraints.IsReadable
  fields : ∀ field ∈ shape.fields, field.constraints.IsReadable
  source : ∀ node, shape.source = some node → node.IsReadable

mutual

/-- **A shape whose values are readable is the same as itself.** -/
theorem Shape.same_self : (shape : Shape) → shape.Every Shape.IsReadable → shape.same shape = true
  | ⟨decl, target, item, choices, fields, isOpen, additional, variants, discriminator, isAlias,
      hoisted, constraints, description, source⟩, h => by
    have hchoices : sameList Choice.same choices choices = true :=
      sameList_self fun choice hchoice => by
        simp [Choice.same, Json.same_self _ (h.whole.choices choice hchoice)]
    simp [Shape.same, hchoices, sameShapeOption_self item h.children.item,
      sameFields_self fields h.children.fields h.whole.fields,
      sameShapeOption_self additional h.children.additional,
      sameVariants_self variants h.children.variants,
      sameDefinitions_self hoisted h.hoisted, Constraints.same_self h.whole.constraints,
      Json.sameOption_self h.whole.source]
termination_by structural shape => shape

theorem sameShapeOption_self : (shape : Option Shape) →
    (∀ s, shape = some s → s.Every Shape.IsReadable) → sameShapeOption shape shape = true
  | none, _ => rfl
  | some shape, h => Shape.same_self shape (h shape rfl)
termination_by structural shape => shape

theorem sameFields_self : (fields : List Field) →
    (∀ field ∈ fields, field.shape.Every Shape.IsReadable) →
    (∀ field ∈ fields, field.constraints.IsReadable) → sameFields fields fields = true
  | [], _, _ => rfl
  | ⟨name, wireName, description, deprecated, shape, constraints, extensions⟩ :: rest,
      hshapes, hconstraints => by
    obtain ⟨hshape, hshapes⟩ := List.forall_mem_cons.mp hshapes
    obtain ⟨hconstraint, hconstraints⟩ := List.forall_mem_cons.mp hconstraints
    simp [sameFields, Shape.same_self shape hshape, Constraints.same_self hconstraint,
      sameFields_self rest hshapes hconstraints]
termination_by structural fields => fields

theorem sameVariants_self : (variants : List Variant) →
    (∀ variant ∈ variants, variant.shape.Every Shape.IsReadable) →
    sameVariants variants variants = true
  | [], _ => rfl
  | ⟨typeName, shape⟩ :: rest, h => by
    obtain ⟨hshape, hrest⟩ := List.forall_mem_cons.mp h
    simp [sameVariants, Shape.same_self shape hshape, sameVariants_self rest hrest]
termination_by structural variants => variants

theorem sameDefinitions_self : (definitions : List Definition) →
    (∀ d ∈ definitions, d.shape.Every Shape.IsReadable) →
    sameDefinitions definitions definitions = true
  | [], _ => rfl
  | ⟨name, jsonName, shape, location⟩ :: rest, h => by
    obtain ⟨hshape, hrest⟩ := List.forall_mem_cons.mp h
    simp [sameDefinitions, Shape.same_self shape hshape, sameDefinitions_self rest hrest]
termination_by structural definitions => definitions

end

/-- **A shape may share a name with itself** where the schema that it was made from is readable, or
    without one, all values in it. -/
theorem Shape.equivalent_self {shape : Shape}
    (hsource : ∀ node, shape.source = some node → node.IsReadable)
    (hevery : shape.source = none → shape.Every Shape.IsReadable) :
    shape.equivalent shape = true := by
  unfold equivalent
  cases h : shape.source with
  | some node => exact Json.same_self node (hsource node h)
  | none => exact shape.same_self (hevery h)

end ApiTypes

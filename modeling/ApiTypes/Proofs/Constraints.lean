import ApiTypes.Proofs.Entries
import ApiTypes.Schema.Constraints

/-!
  Laws of constraints.

  * What a schema asks differs from reading to reading only in what is required and what may be
    null (`exists_extract_eq`).
  * Tags that are there already are not taken over again (`absorbTags_of_subset`).
  * **A property gains nothing from what its own schema asks** (`absorb_ofSchema`).
-/

namespace ApiTypes.Constraints

variable {left right tags : List String}

/-! ## 1. Tags -/

/-- **Tags that are there already are not taken over again.** -/
theorem absorbTags_of_subset (h : ∀ tag ∈ right, tag ∈ left) : absorbTags left right = left := by
  unfold absorbTags
  induction right with
  | nil => rfl
  | cons tag rest ih =>
    obtain ⟨hfirst, hrest⟩ := List.forall_mem_cons.mp h
    have hfamily : (left.any fun t => tagFamily t = tagFamily tag) = true :=
      List.any_eq_true.mpr ⟨tag, hfirst, by simp⟩
    rw [List.foldl_cons, if_pos hfamily]
    exact ih hrest

/-- But for the presence tag, ordered tags are the distinct tags. -/
theorem filter_orderTags (required : Bool) (tags : List String) :
    (orderTags required tags).filter (fun tag => !isPresenceTag tag) =
      (Entries.sortedDistinct tags).filter fun tag => !isPresenceTag tag := by
  have hrequired : isPresenceTag "required" = true := by decide
  have homitempty : isPresenceTag "omitempty" = true := by decide
  unfold orderTags
  dsimp only
  split
  · simp [hrequired]
  · split
    · rename_i hempty
      rw [List.isEmpty_iff.mp hempty]
    · simp [homitempty]

/-! ## 2. Readings of one schema -/

/-- What a schema asks differs only in what is required and what may be null. -/
theorem exists_extract_eq (schema : Json) : ∃ (c : Constraints) (tags : List String),
    ∀ required nullable, extract schema required nullable =
      { c with required, nullable, tags := orderTags required tags } := by
  let c := extract schema false false
  let numeric := Numeric.ofSchema schema
  exact ⟨c, [boundTag? numeric "gt" "gte" c.minimum, boundTag? numeric "lt" "lte" c.maximum,
    countTag? "min" (c.minLength.or c.minItems),
    countTag? "max" (c.maxLength.or c.maxItems)].filterMap id, fun _ _ => rfl⟩

/-- **A property gains nothing from what its own schema asks**, whatever that adds to null. -/
theorem absorb_ofSchema (schema : Json) (required null more nullable : Bool) :
    (ofProperty schema required null).absorb
        { (ofSchema schema).absorb { nullable := more } with nullable } =
      (ofProperty schema required null).absorb { nullable } := by
  obtain ⟨c, tags, hextract⟩ := exists_extract_eq schema
  let proper (tags : List String) := tags.filter fun tag => !isPresenceTag tag
  have hempty : ∀ tags, absorbTags tags [] = tags := fun _ => rfl
  have htags : absorbTags (proper (Entries.sortedDistinct tags))
      (proper (Entries.sortedDistinct (proper (Entries.sortedDistinct tags)))) =
        proper (Entries.sortedDistinct tags) :=
    absorbTags_of_subset fun tag htag =>
      Entries.mem_sortedDistinct.mp (List.mem_of_mem_filter htag)
  rw [ofProperty, ofSchema, hextract, hextract]
  simp only [absorb, filter_orderTags, List.filter_nil, hempty, htags, proper, Bool.or_false,
    Bool.or_self, Option.or_none, Option.or_self]

/-- What the schema says of null itself need not be said again. -/
theorem ofProperty_congr {schema : Json} {null other : Bool} (required : Bool)
    (h : (null || Schema.isNullable schema) = (other || Schema.isNullable schema)) :
    ofProperty schema required null = ofProperty schema required other := by
  rw [ofProperty, ofProperty, Bool.or_assoc, h, ← Bool.or_assoc]

/-- What may be null on either side may be null together. -/
theorem absorb_nullable (schema : Json) (required null nullable : Bool) :
    (ofProperty schema required null).absorb { nullable } =
      (ofProperty schema required (null || nullable)).absorb {} := by
  obtain ⟨c, tags, hextract⟩ := exists_extract_eq schema
  rw [ofProperty, ofProperty, hextract, hextract]
  simp only [absorb]
  congr 1
  cases required <;> cases null <;> cases nullable <;> simp

end ApiTypes.Constraints

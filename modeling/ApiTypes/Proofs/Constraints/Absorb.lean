import ApiTypes.Proofs.Constraints
import Mathlib.Data.List.TakeWhile

/-!
  What absorbing does to constraints.

  Tags have a **canonical form** (`Canonical`): the presence tag comes first, and the others are
  strictly increasing, with at most one of each family. A schema that is read has its tags in that
  form, and absorbing keeps it.

  * In each family the tag of the left side wins (`familyTag?_absorbTags`), and in canonical form
    the tags are known from what each family has.
  * So **absorbing is associative, and absorbing what is there already changes nothing**, for all
    constraints that come from reading schemas and absorbing (`absorb_canonical`).
-/

namespace ApiTypes.Constraints

variable {left right tags : List String} {schemas others more : List Json} {a b c : Constraints}

/-! ## 1. Families -/

/-- The families of the tags of bounds. -/
def boundFamilies : List String := ["lower", "upper", "min", "max"]

/-- The first tag of a family. -/
def familyTag? (family : String) (tags : List String) : Option String :=
  tags.find? fun tag => tagFamily tag = family

/-- Tags of bounds alone, and at most one of each family. -/
structure Separate (tags : List String) : Prop where
  families : ∀ tag ∈ tags, tagFamily tag ∈ boundFamilies
  distinct : (tags.map tagFamily).Nodup

/-- What stands behind `=` does not matter to the family. -/
theorem tagFamily_append {name : String} (h : '=' ∉ name.toList) (text : String) :
    tagFamily (name ++ "=" ++ text) = tagFamily name := by
  have hkept : ∀ c ∈ name.toList, decide (c ≠ '=') = true := by
    intro c hc
    refine decide_eq_true fun heq => h ?_
    rwa [← heq]
  have hbefore : Text.before '=' (name ++ "=" ++ text).toList = Text.before '=' name.toList := by
    have hsplit : (name ++ "=" ++ text).toList = name.toList ++ '=' :: text.toList := by
      simp [String.toList_append]
    have hname : name.toList.takeWhile (fun c => decide (c ≠ '=')) = name.toList :=
      List.takeWhile_eq_self_iff.mpr hkept
    rw [hsplit, Text.before, Text.before, List.takeWhile_append_of_pos hkept, hname]
    simp
  unfold tagFamily
  rw [hbefore]

/-- The tag of a bound is of the family of its two names. -/
theorem tagFamily_of_boundTag? {numeric : Numeric} {exclusiveName inclusiveName family tag : String}
    {bound : Option Bound} (hexclusive : '=' ∉ exclusiveName.toList)
    (hinclusive : '=' ∉ inclusiveName.toList) (hfamily : tagFamily exclusiveName = family)
    (hfamily' : tagFamily inclusiveName = family)
    (h : boundTag? numeric exclusiveName inclusiveName bound = some tag) :
    tagFamily tag = family := by
  cases bound with
  | none => simp [boundTag?] at h
  | some bound =>
    obtain ⟨text, -, rfl⟩ := Option.map_eq_some_iff.mp h
    split
    · rw [tagFamily_append hexclusive, hfamily]
    · rw [tagFamily_append hinclusive, hfamily']

/-- The tag of a count is of the family of its name. -/
theorem tagFamily_of_countTag? {name tag : String} {count : Option Nat}
    (hname : '=' ∉ name.toList) (h : countTag? name count = some tag) :
    tagFamily tag = tagFamily name := by
  obtain ⟨n, -, rfl⟩ := Option.map_eq_some_iff.mp h
  exact tagFamily_append hname _

/-- Tags that may be there, each of the family in its place. -/
def OfFamilies (found : List (Option String)) (families : List String) : Prop :=
  List.Forall₂ (fun tag? family => ∀ tag, tag? = some tag → tagFamily tag = family) found families

theorem OfFamilies.sublist {found : List (Option String)} {families : List String}
    (h : OfFamilies found families) :
    ((found.filterMap id).map tagFamily).Sublist families := by
  induction h with
  | nil => exact .slnil
  | @cons tag? family found families hfamily _ ih =>
    cases tag? with
    | none => exact ih.cons family
    | some tag =>
      rw [List.filterMap_cons_some (by rfl), List.map_cons, hfamily tag rfl]
      exact ih.cons_cons family

/-- **In different families each tag is found under its own.** -/
theorem OfFamilies.familyTag? {found : List (Option String)} {families : List String}
    (h : OfFamilies found families) (hnodup : families.Nodup) :
    ∀ entry ∈ found.zip families, familyTag? entry.2 (found.filterMap id) = entry.1 := by
  induction h with
  | nil => simp
  | @cons tag? family found families hfamily hrest ih =>
    obtain ⟨hnew, hnodup⟩ := List.nodup_cons.mp hnodup
    rw [List.zip_cons_cons]
    refine List.forall_mem_cons.mpr ⟨?_, fun entry hentry => ?_⟩
    · cases tag? with
      | none =>
        -- No later tag is of this family.
        refine List.find?_eq_none.mpr fun tag htag hsame => hnew ?_
        have hfound : tagFamily tag = family := by simpa using hsame
        rw [← hfound]
        exact (OfFamilies.sublist hrest).subset (List.mem_map_of_mem htag)
      | some tag =>
        rw [List.filterMap_cons_some (by rfl), Constraints.familyTag?,
          List.find?_cons_of_pos (by simpa using hfamily tag rfl)]
    · have hother : family ≠ entry.2 := by
        rintro rfl
        exact hnew (List.of_mem_zip hentry).2
      cases tag? with
      | none => exact ih hnodup entry hentry
      | some tag =>
        rw [List.filterMap_cons_some (by rfl), Constraints.familyTag?,
          List.find?_cons_of_neg (by simpa [hfamily tag rfl] using hother)]
        exact ih hnodup entry hentry

/-- The tags of the bounds of a schema, each if it is there. -/
def boundTags (schema : Json) : List (Option String) :=
  let numeric := Numeric.ofSchema schema
  [boundTag? numeric "gt" "gte" (bound? schema "minimum" "exclusiveMinimum"),
    boundTag? numeric "lt" "lte" (bound? schema "maximum" "exclusiveMaximum"),
    countTag? "min" ((count? schema "minLength").or (count? schema "minItems")),
    countTag? "max" ((count? schema "maxLength").or (count? schema "maxItems"))]

theorem ofFamilies_boundTags (schema : Json) : OfFamilies (boundTags schema) boundFamilies := by
  refine .cons ?_ (.cons ?_ (.cons ?_ (.cons ?_ .nil)))
  · exact fun tag h => tagFamily_of_boundTag? (by decide) (by decide) (by decide) (by decide) h
  · exact fun tag h => tagFamily_of_boundTag? (by decide) (by decide) (by decide) (by decide) h
  · exact fun tag h => tagFamily_of_countTag? (by decide) h
  · exact fun tag h => tagFamily_of_countTag? (by decide) h

/-- The tags of the bounds of a schema. -/
def schemaTags (schema : Json) : List String := (boundTags schema).filterMap id

theorem nodup_boundFamilies : boundFamilies.Nodup := by decide

/-- **The tags of a schema are separate.** -/
theorem separate_schemaTags (schema : Json) : Separate (schemaTags schema) where
  families _ htag := (ofFamilies_boundTags schema).sublist.subset (List.mem_map_of_mem htag)
  distinct := nodup_boundFamilies.sublist (ofFamilies_boundTags schema).sublist

/-! ## 2. Separate tags -/

/-- Of separate tags each is the tag of its family. -/
theorem familyTag?_eq_some (h : Separate tags) {family tag : String} :
    familyTag? family tags = some tag ↔ tag ∈ tags ∧ tagFamily tag = family := by
  constructor
  · intro hfound
    have hfamily := List.find?_some hfound
    exact ⟨List.mem_of_find?_eq_some hfound, by simpa using hfamily⟩
  · rintro ⟨hmem, hfamily⟩
    cases hfound : familyTag? family tags with
    | none => exact absurd hfamily (by simpa using List.find?_eq_none.mp hfound tag hmem)
    | some other =>
      have hother := List.find?_some hfound
      have heq : tagFamily other = tagFamily tag := by
        rw [hfamily]
        simpa using hother
      rw [List.inj_on_of_nodup_map h.distinct (List.mem_of_find?_eq_some hfound) hmem heq]

/-- Separate tags are known from what each family has. -/
theorem mem_iff_of_familyTag? (hleft : Separate left) (hright : Separate right)
    (h : ∀ family, familyTag? family left = familyTag? family right) (tag : String) :
    tag ∈ left ↔ tag ∈ right := by
  have hown : ∀ {tags : List String}, Separate tags →
      (tag ∈ tags ↔ familyTag? (tagFamily tag) tags = some tag) := fun htags =>
    ⟨fun hmem => (familyTag?_eq_some htags).mpr ⟨hmem, rfl⟩,
      fun hfound => ((familyTag?_eq_some htags).mp hfound).1⟩
  rw [hown hleft, hown hright, h]

/-- A presence tag is of no family of bounds. -/
theorem isPresenceTag_eq_false {tag : String} (h : tagFamily tag ∈ boundFamilies) :
    isPresenceTag tag = false := by
  have hrequired : tagFamily "required" ∉ boundFamilies := by decide
  have homitempty : tagFamily "omitempty" ∉ boundFamilies := by decide
  rw [isPresenceTag, Bool.or_eq_false_iff]
  refine ⟨decide_eq_false ?_, decide_eq_false ?_⟩
  · rintro rfl
    exact hrequired h
  · rintro rfl
    exact homitempty h

/-- No presence tag is among separate tags. -/
theorem proper_of_separate (h : Separate tags) :
    tags.filter (fun tag => !isPresenceTag tag) = tags := by
  refine List.filter_eq_self.mpr fun tag htag => ?_
  rw [isPresenceTag_eq_false (h.families tag htag)]
  rfl

theorem separate_sortedDistinct (h : Separate tags) : Separate (Entries.sortedDistinct tags) where
  families tag htag := h.families tag (Entries.mem_sortedDistinct.mp htag)
  distinct := by
    have hsorted := Entries.nodup_of_increasing (Entries.increasing_sortedDistinct tags)
    have hperm : (Entries.sortedDistinct tags).Perm tags :=
      (List.perm_ext_iff_of_nodup hsorted h.distinct.of_map).mpr fun _ => Entries.mem_sortedDistinct
    exact (hperm.map tagFamily).nodup_iff.mpr h.distinct

/-- **In each family the tag of the left side wins.** -/
theorem familyTag?_absorbTags (family : String) (left right : List String) :
    familyTag? family (absorbTags left right) =
      (familyTag? family left).or (familyTag? family right) := by
  induction right generalizing left with
  | nil => exact Option.or_none.symm
  | cons tag rest ih =>
    have hcons : familyTag? family (tag :: rest) =
        (familyTag? family [tag]).or (familyTag? family rest) := by
      rw [show tag :: rest = [tag] ++ rest from rfl]
      exact List.find?_append
    have hstep : familyTag? family (absorbTags left (tag :: rest)) =
        (familyTag? family (if left.any fun t => tagFamily t = tagFamily tag then left
          else left ++ [tag])).or (familyTag? family rest) := ih _
    rw [hstep, hcons, ← Option.or_assoc]
    congr 1
    split
    · rename_i hany
      by_cases hfamily : tagFamily tag = family
      · -- The family has a tag on the left, so the new one is not looked at.
        have hsome : (familyTag? family left).isSome = true := by
          rw [familyTag?, List.find?_isSome]
          obtain ⟨other, hother, heq⟩ := List.any_eq_true.mp hany
          exact ⟨other, hother, by simpa [hfamily] using heq⟩
        rw [Option.or_of_isSome hsome]
      · rw [show familyTag? family [tag] = none by simp [familyTag?, hfamily], Option.or_none]
    · exact List.find?_append

theorem separate_absorbTags (hleft : Separate left) (hright : Separate right) :
    Separate (absorbTags left right) := by
  have hfamilies := hright.families
  clear hright
  induction right generalizing left with
  | nil => exact hleft
  | cons tag rest ih =>
    obtain ⟨hfirst, hrest⟩ := List.forall_mem_cons.mp hfamilies
    have hnext : Separate (if left.any fun t => tagFamily t = tagFamily tag then left
        else left ++ [tag]) := by
      split
      · exact hleft
      · rename_i hnone
        refine ⟨List.forall_mem_append.mpr
          ⟨hleft.families, List.forall_mem_singleton.mpr hfirst⟩, ?_⟩
        rw [List.map_append, List.map_singleton]
        refine hleft.distinct.append (List.nodup_singleton _) ?_
        rw [List.disjoint_singleton]
        intro hmem
        obtain ⟨other, hother, heq⟩ := List.mem_map.mp hmem
        exact hnone (List.any_eq_true.mpr ⟨other, hother, decide_eq_true heq⟩)
    exact ih hnext hrest

/-! ## 3. Canonical form -/

/-- The tags that are no presence tag. -/
def properTags (c : Constraints) : List String := c.tags.filter fun tag => !isPresenceTag tag

/-- The tag that comes first: `required`, or else `omitempty` when there is any other tag. -/
def presenceTag (required : Bool) (others : List String) : List String :=
  if required then ["required"] else if others.isEmpty then [] else ["omitempty"]

/-- Tags in canonical form. -/
structure Canonical (c : Constraints) : Prop where
  presence : c.tags = presenceTag c.required c.properTags ++ c.properTags
  increasing : c.properTags.Pairwise (· < ·)
  separate : Separate c.properTags

theorem orderTags_eq (required : Bool) (tags : List String) : orderTags required tags =
    presenceTag required (Entries.sortedDistinct tags) ++ Entries.sortedDistinct tags := by
  unfold orderTags presenceTag
  cases required with
  | true => rfl
  | false =>
    dsimp only
    cases hsorted : Entries.sortedDistinct tags with
    | nil => rfl
    | cons first rest => rfl

/-- What is left of ordered tags without the presence tag. -/
theorem properTags_of_eq (htags : c.tags = orderTags c.required tags) (h : Separate tags) :
    c.properTags = Entries.sortedDistinct tags := by
  rw [properTags, htags, filter_orderTags, proper_of_separate (separate_sortedDistinct h)]

/-- Ordered tags are in canonical form. -/
theorem canonical_of_eq (htags : c.tags = orderTags c.required tags) (h : Separate tags) :
    c.Canonical := by
  have hproper := properTags_of_eq htags h
  refine ⟨?_, ?_, ?_⟩
  · rw [hproper, htags, orderTags_eq]
  · rw [hproper]
    exact Entries.increasing_sortedDistinct tags
  · rw [hproper]
    exact separate_sortedDistinct h

/-- **What is read of a schema has its tags in canonical form.** -/
theorem canonical_extract (schema : Json) (required nullable : Bool) :
    (extract schema required nullable).Canonical :=
  canonical_of_eq rfl (separate_schemaTags schema)

/-- **Absorbing keeps tags in canonical form.** -/
theorem Canonical.absorb (ha : a.Canonical) (hb : b.Canonical) : (a.absorb b).Canonical :=
  canonical_of_eq rfl (separate_absorbTags ha.separate hb.separate)

theorem Canonical.properTags_absorb (ha : a.Canonical) (hb : b.Canonical) :
    (a.absorb b).properTags = Entries.sortedDistinct (absorbTags a.properTags b.properTags) :=
  properTags_of_eq rfl (separate_absorbTags ha.separate hb.separate)

/-- Sorting keeps what each family has. -/
theorem familyTag?_sortedDistinct (h : Separate tags) (family : String) :
    familyTag? family (Entries.sortedDistinct tags) = familyTag? family tags := by
  refine Option.ext fun tag => ?_
  rw [familyTag?_eq_some (separate_sortedDistinct h), familyTag?_eq_some h,
    Entries.mem_sortedDistinct]

/-- What each family has after absorbing. -/
theorem Canonical.familyTag?_absorb (ha : a.Canonical) (hb : b.Canonical) (family : String) :
    familyTag? family (a.absorb b).properTags =
      (familyTag? family a.properTags).or (familyTag? family b.properTags) := by
  rw [ha.properTags_absorb hb,
    familyTag?_sortedDistinct (separate_absorbTags ha.separate hb.separate), familyTag?_absorbTags]

/-- A tag of a family of bounds is the tag that the family has. -/
theorem Canonical.familyTag?_of_mem (h : c.Canonical) {tag : String} (htag : tag ∈ c.tags)
    (hfamily : tagFamily tag ∈ boundFamilies) :
    familyTag? (tagFamily tag) c.properTags = some tag := by
  refine (familyTag?_eq_some h.separate).mpr ⟨List.mem_filter.mpr ⟨htag, ?_⟩, rfl⟩
  rw [isPresenceTag_eq_false hfamily]
  rfl

/-! ## 4. Laws of absorbing -/

/-- What is asked apart from the tags. -/
def untagged (c : Constraints) : Constraints := { c with tags := [] }

theorem eq_of_untagged (h : a.untagged = b.untagged) (htags : a.tags = b.tags) : a = b := by
  cases a
  cases b
  simp only [untagged, mk.injEq] at h htags ⊢
  tauto

/-- **Absorbing is associative.** -/
theorem Canonical.absorb_assoc (ha : a.Canonical) (hb : b.Canonical) (hc : c.Canonical) :
    (a.absorb b).absorb c = a.absorb (b.absorb c) := by
  have hab := ha.absorb hb
  have hbc := hb.absorb hc
  have hmem := mem_iff_of_familyTag? (separate_absorbTags hab.separate hc.separate)
    (separate_absorbTags ha.separate hbc.separate) fun family => by
      rw [familyTag?_absorbTags, familyTag?_absorbTags, ha.familyTag?_absorb hb,
        hb.familyTag?_absorb hc, Option.or_assoc]
  refine eq_of_untagged ?_ ?_
  · simp only [untagged, Constraints.absorb, Bool.or_assoc, Option.or_assoc]
  · show orderTags a.required (absorbTags (a.absorb b).properTags c.properTags) =
      orderTags a.required (absorbTags a.properTags (b.absorb c).properTags)
    rw [orderTags_eq, orderTags_eq, Entries.sortedDistinct_congr hmem]

/-- **Absorbing what is there already changes nothing.** -/
theorem Canonical.absorb_self (h : c.Canonical) : c.absorb c = c := by
  refine eq_of_untagged ?_ ?_
  · simp only [untagged, Constraints.absorb, Bool.or_self, Option.or_self]
  · calc (c.absorb c).tags
        = orderTags c.required (absorbTags c.properTags c.properTags) := rfl
      _ = orderTags c.required c.properTags := by rw [absorbTags_of_subset fun _ htag => htag]
      _ = presenceTag c.required c.properTags ++ c.properTags := by
          rw [orderTags_eq, Entries.sortedDistinct_of_increasing h.increasing]
      _ = c.tags := h.presence.symm

/-- **What either side asks is asked together**, and nothing else. -/
theorem strictness_le_absorb (c other : Constraints) :
    c.strictness ≤ (c.absorb other).strictness ∧
      other.strictness ≤ (c.absorb other).strictness := by
  have hle : ∀ {α : Type} (x y : Option α),
      (if x.isSome = true then 1 else 0) ≤ (if (x.or y).isSome = true then 1 else 0) ∧
        (if y.isSome = true then 1 else 0) ≤ (if (x.or y).isSome = true then 1 else 0) := by
    intro α x y
    cases x <;> cases y <;> simp
  obtain ⟨hminLength, hminLength'⟩ := hle c.minLength other.minLength
  obtain ⟨hmaxLength, hmaxLength'⟩ := hle c.maxLength other.maxLength
  obtain ⟨hminimum, hminimum'⟩ := hle c.minimum other.minimum
  obtain ⟨hmaximum, hmaximum'⟩ := hle c.maximum other.maximum
  obtain ⟨hminItems, hminItems'⟩ := hle c.minItems other.minItems
  obtain ⟨hmaxItems, hmaxItems'⟩ := hle c.maxItems other.maxItems
  obtain ⟨hpattern, hpattern'⟩ := hle c.pattern other.pattern
  simp only [strictness, Constraints.absorb, List.countP_cons, List.countP_nil, id]
  constructor <;> omega

/-! ## 5. Constraints that come from schemas -/

/-- What some schemas ask when each is read by itself and the readings are absorbed, in whatever
    grouping. -/
inductive Gathered : List Json → Constraints → Prop where
  | ofSchema (schema : Json) : Gathered [schema] (ofSchema schema)
  | ofProperty (schema : Json) (required null : Bool) :
    Gathered [schema] (ofProperty schema required null)
  | absorb {schemas others : List Json} {a b : Constraints} (ha : Gathered schemas a)
    (hb : Gathered others b) : Gathered (schemas ++ others) (a.absorb b)

/-- **Whatever is gathered has its tags in canonical form.** -/
theorem Gathered.canonical (h : Gathered schemas c) : c.Canonical := by
  induction h with
  | ofSchema schema => exact canonical_extract schema _ _
  | ofProperty schema required null => exact canonical_extract schema _ _
  | absorb _ _ iha ihb => exact iha.absorb ihb

/-- **Absorbing keeps tags canonical, may be grouped in any way, changes nothing where it brings
    nothing, and only adds to what is asked.** -/
theorem absorb_canonical (ha : Gathered schemas a) (hb : Gathered others b)
    (hc : Gathered more c) :
    a.Canonical ∧ (a.absorb b).absorb c = a.absorb (b.absorb c) ∧ a.absorb a = a ∧
      a.strictness ≤ (a.absorb b).strictness ∧ b.strictness ≤ (a.absorb b).strictness :=
  have hcanonical := ha.canonical
  ⟨hcanonical, hcanonical.absorb_assoc hb.canonical hc.canonical, hcanonical.absorb_self,
    strictness_le_absorb a b⟩

/-- A text of at least one character. -/
def someText : Json := .obj [("type", .str "string"), ("minLength", .int 1)]

/-- A text, or a list, of at most nine. -/
def atMostNine : Json := .obj [("maxLength", .int 9), ("maxItems", .int 9)]

theorem absorb_canonical_someText :
    ∃ a b c, Gathered [someText, atMostNine] a ∧ Gathered [atMostNine] b ∧ Gathered [someText] c ∧
      a.tags = ["required", "max=9", "min=1"] ∧ b.tags = ["omitempty", "max=9"] ∧
        a.Canonical ∧ (a.absorb b).absorb c = a.absorb (b.absorb c) ∧ a.absorb a = a ∧
          a.strictness ≤ (a.absorb b).strictness ∧ b.strictness ≤ (a.absorb b).strictness := by
  have ha : Gathered [someText, atMostNine]
      ((ofProperty someText true false).absorb (ofSchema atMostNine)) :=
    .absorb (.ofProperty someText true false) (.ofSchema atMostNine)
  have hb := Gathered.ofSchema atMostNine
  have hc := Gathered.ofSchema someText
  exact ⟨_, _, _, ha, hb, hc, by decide +kernel, by decide +kernel, absorb_canonical ha hb hc⟩

end ApiTypes.Constraints

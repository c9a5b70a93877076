import ApiTypes.Proofs.Merge.Types
import Mathlib.Data.List.TakeWhile

/-!
  The order of the members of an `allOf`.

  A list is merged from left to right, and each member is compared with what the members before it
  make together, not with the members themselves.

  * What a merge says of types, formats, defaults, flags and exclusive bounds contradicts a third
    schema exactly when one of its sides does (`compatible_merge_iff`). So a list merges when no two
    of its members contradict each other, **whatever their order**.
  * `additionalProperties: false` ends the comparison of `additionalProperties`: two different
    schemas contradict each other when both come before it, and no longer after it. There the order
    decides (`mergeAll_depends_on_order`), and nowhere else (`mergeAll_perm`).
-/

namespace ApiTypes.Schema

variable {left merged : List (String × Json)} {node : Json} {nodes nodes' : List Json}

/-! ## 1. Schemas that contradict each other -/

/-- Both formats, if there are two, are the same. -/
def SameFormat (left right : Json) : Prop :=
  ∀ l r, text? "format" left = some l → text? "format" right = some r → l = r

/-- No opinion of one schema contradicts one of the other, apart from what they say of properties
    that they do not name. -/
@[mk_iff]
structure Compatible (left right : Json) : Prop where
  types : typesClash (types left) (types right) = false
  formats : SameFormat left right
  defaults : (left.get? "default").isSome = true → (right.get? "default").isSome = false
  flags : ∀ key ∈ ["uniqueItems", "readOnly", "writeOnly"], agreeOnFlag key left right = true
  bounds : ∀ key ∈ ["exclusiveMinimum", "exclusiveMaximum"], agreeOnBound key left right = true

/-- The format, if there is one, is a text. -/
def HasTextFormat (node : Json) : Prop :=
  ∀ value, node.get? "format" = some value → ∃ text, value = .str text

theorem formatClash?_eq_none {left right : Json} :
    formatClash? left right = none ↔ SameFormat left right := by
  unfold formatClash? SameFormat
  cases text? "format" left <;> cases text? "format" right <;> simp

theorem conflict?_eq_none {left right : Json} :
    conflict? left right = none ↔ Compatible left right := by
  have hsplit : conflict? left right = none ↔
      typesClash (types left) (types right) = false ∧ formatClash? left right = none ∧
        ((left.get? "default").isSome = true → (right.get? "default").isSome = false) ∧
        (agreeOnFlag "uniqueItems" left right = true ∧ agreeOnFlag "readOnly" left right = true ∧
          agreeOnFlag "writeOnly" left right = true) ∧
        agreeOnBound "exclusiveMinimum" left right = true ∧
          agreeOnBound "exclusiveMaximum" left right = true := by
    unfold conflict?
    cases typesClash (types left) (types right) with
    | true => simp
    | false =>
      cases formatClash? left right with
      | some formats => simp
      | none => simp [ite_eq_iff, and_assoc]
  rw [hsplit, formatClash?_eq_none]
  constructor
  · rintro ⟨htypes, hformats, hdefaults, hflags, hbounds⟩
    exact ⟨htypes, hformats, hdefaults, by simpa using hflags, by simpa using hbounds⟩
  · rintro ⟨htypes, hformats, hdefaults, hflags, hbounds⟩
    exact ⟨htypes, hformats, hdefaults, by simpa using hflags, by simpa using hbounds⟩

/-- Schemas are compatible from both sides or from neither. -/
theorem Compatible.symm {left right : Json} (h : Compatible left right)
    (hleft : left.hasDistinctKeys = true) (hright : right.hasDistinctKeys = true) :
    Compatible right left := by
  rw [← conflict?_eq_none] at h ⊢
  rw [conflict?_comm hleft hright, h, Option.map_none]

/-! ## 2. One member more -/

theorem isOverwritten_of_flag :
    ∀ key ∈ ["uniqueItems", "readOnly", "writeOnly"], isOverwritten key = true := by decide

theorem isOverwritten_of_bound :
    ∀ key ∈ ["exclusiveMinimum", "exclusiveMaximum"], isOverwritten key = true := by decide

section Step

variable (hkeys : node.hasDistinctKeys = true) (h : merge (some left) node = .ok merged)
include hkeys h

theorem get?_merge_some {key : String} (hkey : isOverwritten key = true) :
    (Json.obj merged).get? key = (node.get? key).or ((Json.obj left).get? key) :=
  get?_merge_of_isOverwritten hkeys h hkey

theorem typesClash_merge (other : Json)
    (htype : ¬ NamesNoType (.obj left) ∨ declaredTypes node = [])
    (clear : typesClash (types (.obj left)) (types node) = false) :
    typesClash (types (.obj merged)) (types other) = false ↔
      typesClash (types (.obj left)) (types other) = false ∧
        typesClash (types node) (types other) = false := by
  rw [typesClash_eq_false] at clear
  simp only [types_merge hkeys h htype, typesClash_eq_false]
  by_cases hleft : types (.obj left) = []
  · simp [hleft]
  · rcases clear with hnone | hnone | hsame
    · exact absurd hnone hleft
    · simp [hleft, hnone]
    · simp [hsame]

theorem sameFormat_merge (other : Json) (hformat : HasTextFormat node)
    (same : SameFormat (.obj left) node) :
    SameFormat (.obj merged) other ↔ SameFormat (.obj left) other ∧ SameFormat node other := by
  have hmerged : text? "format" (.obj merged) =
      (text? "format" node).or (text? "format" (.obj left)) := by
    rw [text?, get?_merge_some hkeys h (by decide)]
    cases hnode : node.get? "format" with
    | none => simp [text?, hnode]
    | some value =>
      obtain ⟨text, rfl⟩ := hformat value hnode
      simp [text?, hnode, Json.string?]
  unfold SameFormat at same ⊢
  rw [hmerged]
  cases hnode : text? "format" node with
  | none => simp
  | some n =>
    cases hleft : text? "format" (.obj left) with
    | none => simp
    | some l =>
      obtain rfl := same l n hleft hnode
      simp

theorem default_merge (other : Json) :
    (((Json.obj merged).get? "default").isSome = true → (other.get? "default").isSome = false) ↔
      (((Json.obj left).get? "default").isSome = true → (other.get? "default").isSome = false) ∧
        ((node.get? "default").isSome = true → (other.get? "default").isSome = false) := by
  rw [get?_merge_some hkeys h (by decide), Option.isSome_or, Bool.or_comm, Bool.or_eq_true, or_imp]

theorem agreeOnFlag_merge (other : Json) {key : String} (hkey : isOverwritten key = true)
    (same : agreeOnFlag key (.obj left) node = true) :
    agreeOnFlag key (.obj merged) other = true ↔
      agreeOnFlag key (.obj left) other = true ∧ agreeOnFlag key node other = true := by
  have hsame : flag key (.obj left) = flag key node := beq_iff_eq.mp same
  have hmerged : flag key (.obj merged) = flag key node := by
    rw [flag, get?_merge_some hkeys h hkey]
    cases hnode : node.get? key with
    | none => rw [Option.none_or, ← flag, hsame]
    | some value => rw [Option.some_or, flag, hnode]
  simp only [agreeOnFlag, hmerged, hsame, and_self]

theorem agreeOnBound_merge (other : Json) {key : String} (hkey : isOverwritten key = true)
    (same : agreeOnBound key (.obj left) node = true) :
    agreeOnBound key (.obj merged) other = true ↔
      agreeOnBound key (.obj left) other = true ∧ agreeOnBound key node other = true := by
  have hmerged := get?_merge_some hkeys h hkey
  cases hnode : node.get? key with
  | some value =>
    -- The merge has the node's bound, and the bound of the left side is equal to it.
    have hbound : exclusiveBound key (.obj merged) = exclusiveBound key node := by
      rw [exclusiveBound, hmerged, hnode, Option.some_or, exclusiveBound, hnode]
    have htrans := Json.same_trans _ _ (exclusiveBound key other) same
    rw [agreeOnBound, hbound]
    exact ⟨fun hother => ⟨htrans hother, hother⟩, And.right⟩
  | none =>
    -- The node has no bound, and so the left side says the same as if it had none.
    have hnone : exclusiveBound key node = .bool false := by rw [exclusiveBound, hnode]
    have hbound : exclusiveBound key (.obj merged) = exclusiveBound key (.obj left) := by
      rw [exclusiveBound, hmerged, hnode, Option.none_or, exclusiveBound]
    have hsame : exclusiveBound key (.obj left) = exclusiveBound key node := by
      rw [agreeOnBound, hnone] at same
      rw [hnone]
      cases hleft : exclusiveBound key (.obj left) <;> simp_all [Json.same]
    simp only [agreeOnBound, hbound, hsame, and_self]

/-- **A merge is compatible with a third schema exactly when both of its sides are.** -/
theorem compatible_merge_iff (other : Json) (hformat : HasTextFormat node)
    (htype : ¬ NamesNoType (.obj left) ∨ declaredTypes node = []) :
    Compatible (.obj merged) other ↔ Compatible (.obj left) other ∧ Compatible node other := by
  have hsides := conflict?_eq_none.mp (conflict?_of_merge h rfl)
  have htypes := typesClash_merge hkeys h other htype hsides.types
  have hformats := sameFormat_merge hkeys h other hformat hsides.formats
  have hdefaults := default_merge hkeys h other
  have hflags := forall₂_congr fun key hkey =>
    agreeOnFlag_merge hkeys h other (isOverwritten_of_flag key hkey)
      (hsides.flags key hkey)
  have hbounds := forall₂_congr fun key hkey =>
    agreeOnBound_merge hkeys h other (isOverwritten_of_bound key hkey)
      (hsides.bounds key hkey)
  simp only [compatible_iff, htypes, hformats, hdefaults, hflags, hbounds, forall_and]
  constructor
  · rintro ⟨⟨htype, htype'⟩, ⟨hformat, hformat'⟩, ⟨hdefault, hdefault'⟩, ⟨hflag, hflag'⟩,
      hbound, hbound'⟩
    exact ⟨⟨htype, hformat, hdefault, hflag, hbound⟩, htype', hformat', hdefault', hflag', hbound'⟩
  · rintro ⟨⟨htype, hformat, hdefault, hflag, hbound⟩, htype', hformat', hdefault', hflag',
      hbound'⟩
    exact ⟨⟨htype, htype'⟩, ⟨hformat, hformat'⟩, ⟨hdefault, hdefault'⟩, ⟨hflag, hflag'⟩,
      hbound, hbound'⟩

/-- A merge stands for no type only where one of its sides does. -/
theorem NamesNoType.of_merge (hmerged : NamesNoType (.obj merged)) :
    NamesNoType (.obj left) ∨ NamesNoType node := by
  rcases type_merge hkeys h with ⟨hgiven, hsame⟩ | ⟨-, hsame⟩
  · exact .inl ⟨hgiven, declaredTypes_congr hsame ▸ hmerged.declared⟩
  · exact .inr ⟨hsame ▸ hmerged.given, declaredTypes_congr hsame ▸ hmerged.declared⟩

end Step

/-! ## 3. What is said of other properties -/

namespace Openness

variable {start opinion both : Openness}

/-- The opinions do not contradict each other. -/
def Meets (opinion other : Openness) : Prop := (opinion.merge? other).isSome = true

instance (opinion other : Openness) : Decidable (opinion.Meets other) :=
  inferInstanceAs (Decidable (_ = true))

/-- The opinion is no restriction by a schema that repeats a key. -/
def HasDistinctKeys (opinion : Openness) : Prop :=
  ∀ schema, opinion = .restricted schema → schema.hasDistinctKeys = true

/-- The opinions before the first that allows no other properties. -/
def untilClosed (opinions : List Openness) : List Openness :=
  opinions.takeWhile fun opinion => !opinion.isClosed

theorem Meets.symm (h : start.Meets opinion) (hstart : start.HasDistinctKeys)
    (hopinion : opinion.HasDistinctKeys) : opinion.Meets start := by
  cases start with
  | restricted l =>
    cases opinion with
    | restricted r =>
      have hcomm := Json.same_comm (hstart l rfl) (hopinion r rfl)
      simpa [Meets, merge?, hcomm] using h
    | _ => rfl
  | _ => cases opinion <;> rfl

/-- **Two opinions together meet a third exactly when both of them do**, as long as both leave room
    for other properties. -/
theorem meets_merge?_iff (third : Openness) (hstart : start.HasDistinctKeys)
    (hopinion : opinion.HasDistinctKeys) (hopen : start.isClosed = false)
    (hopen' : opinion.isClosed = false) (hboth : start.merge? opinion = some both) :
    both.Meets third ↔ start.Meets third ∧ opinion.Meets third := by
  cases start with
  | restricted l =>
    cases opinion with
    | restricted r =>
      obtain ⟨hsame, hl⟩ := Option.ite_none_right_eq_some.mp hboth
      obtain rfl := Option.some.inj hl
      cases third with
      | restricted t =>
        have hback := Json.same_symm l r (hstart l rfl) (hopinion r rfl) hsame
        have htrans := Json.same_trans r l t hback
        simpa [Meets, merge?] using htrans
      | _ => simp [Meets, merge?]
    | closed => simp [isClosed] at hopen'
    | _ =>
      obtain rfl := Option.some.inj hboth
      cases third <;> simp [Meets, merge?]
  | closed => simp [isClosed] at hopen
  | _ =>
    cases opinion with
    | closed => simp [isClosed] at hopen'
    | _ =>
      obtain rfl := Option.some.inj hboth
      cases third <;> simp [Meets, merge?]

theorem isClosed_merge? (hopen : start.isClosed = false) (hopen' : opinion.isClosed = false)
    (hboth : start.merge? opinion = some both) : both.isClosed = false := by
  rcases eq_or_eq_of_merge? hboth with rfl | rfl
  · exact hopen
  · exact hopen'

/-- **Opinions come to an end together** when no two of them contradict each other before the first
    that allows no other properties. -/
theorem isSome_foldlM_merge? {opinions : List Openness} (hstart : start.HasDistinctKeys)
    (hopinions : ∀ opinion ∈ opinions, opinion.HasDistinctKeys) :
    (opinions.foldlM merge? start).isSome = true ↔
      (untilClosed (start :: opinions)).Pairwise Meets := by
  induction opinions generalizing start with
  | nil => cases hclosed : start.isClosed <;> simp [untilClosed, hclosed]
  | cons opinion rest ih =>
    obtain ⟨hopinion, hrest⟩ := List.forall_mem_cons.mp hopinions
    rw [List.foldlM_cons]
    cases hopen : start.isClosed with
    | true =>
      obtain rfl : start = .closed := by cases start <;> simp_all [isClosed]
      have hboth : merge? .closed opinion = some .closed := by cases opinion <;> rfl
      rw [hboth, Option.bind_eq_bind, Option.bind_some, ih hstart hrest]
      simp [untilClosed, isClosed]
    | false =>
      cases hopen' : opinion.isClosed with
      | true =>
        obtain rfl : opinion = .closed := by cases opinion <;> simp_all [isClosed]
        have hboth : start.merge? .closed = some .closed := by cases start <;> rfl
        rw [hboth, Option.bind_eq_bind, Option.bind_some, ih hopinion hrest]
        simp [untilClosed, hopen, hopen']
      | false =>
        cases hboth : start.merge? opinion with
        | none => simp [untilClosed, hopen, hopen', Meets, hboth]
        | some both =>
          have hkeys : both.HasDistinctKeys := by
            rcases eq_or_eq_of_merge? hboth with rfl | rfl
            · exact hstart
            · exact hopinion
          have hmeets := fun third =>
            meets_merge?_iff third hstart hopinion hopen hopen' hboth
          have hfirst : start.Meets opinion := by simp [Meets, hboth]
          have hopenBoth := isClosed_merge? hopen hopen' hboth
          rw [Option.bind_eq_bind, Option.bind_some, ih hkeys hrest]
          simp only [untilClosed, List.takeWhile_cons, hopen, hopen', hopenBoth, Bool.not_false,
            if_true, List.pairwise_cons, List.forall_mem_cons, hmeets, hfirst, true_and,
            forall_and, and_assoc]

end Openness

/-! ## 4. Lists of members -/

theorem hasDistinctKeys_openness (hkeys : node.hasDistinctKeys = true) :
    (openness node).HasDistinctKeys := fun _ hschema =>
  Json.hasDistinctKeys_of_get? hkeys (Openness.eq_some_of_restricted hschema)

/-- Members of which the order may be asked: schemas as they are read, with texts for formats, and
    where one stands for no type none declares one. -/
structure Orderable (nodes : List Json) : Prop where
  objects : ∀ node ∈ nodes, ∃ members, node = .obj members
  keys : ∀ node ∈ nodes, node.hasDistinctKeys = true
  formats : ∀ node ∈ nodes, HasTextFormat node
  types : ∀ node ∈ nodes, NamesNoType node → ∀ other ∈ nodes, declaredTypes other = []

theorem Orderable.of_subset (h : Orderable nodes) (hsubset : nodes' ⊆ nodes) :
    Orderable nodes' where
  objects node hnode := h.objects node (hsubset hnode)
  keys node hnode := h.keys node (hsubset hnode)
  formats node hnode := h.formats node (hsubset hnode)
  types node hnode hnames other hother :=
    h.types node (hsubset hnode) hnames other (hsubset hother)

/-- **When one member more merges.** -/
theorem exists_merge_iff : (∃ merged, merge (some left) node = .ok merged) ↔
    Compatible (.obj left) node ∧ (openness (.obj left)).Meets (openness node) := by
  rw [← conflict?_eq_none]
  simp only [merge, mergeInto, Openness.Meets, openness]
  cases conflict? (.obj left) node with
  | some conflict => simp
  | none =>
    cases (Openness.ofKeyword ((Json.obj left).get? "additionalProperties")).merge?
        (.ofKeyword (node.get? "additionalProperties")) <;> simp

/-- **When a list merges onto what came before it.** -/
theorem exists_mergeAll_some_iff (h : Orderable nodes)
    (hleft : NamesNoType (.obj left) → ∀ node ∈ nodes, declaredTypes node = []) :
    (∃ merged, mergeAll (some left) nodes = .ok merged) ↔
      (∀ node ∈ nodes, Compatible (.obj left) node) ∧ nodes.Pairwise Compatible ∧
        ((nodes.map openness).foldlM Openness.merge? (openness (.obj left))).isSome = true := by
  induction nodes generalizing left with
  | nil => simp [mergeAll, pure, Except.pure]
  | cons node rest ih =>
    have hrest := h.of_subset (List.subset_cons_self node rest)
    have hkeys := h.keys node List.mem_cons_self
    rw [List.map_cons, List.foldlM_cons]
    simp only [mergeAll_cons_eq_ok, List.forall_mem_cons, List.pairwise_cons]
    by_cases hmerge : ∃ first, merge (some left) node = .ok first
    · obtain ⟨first, hfirst⟩ := hmerge
      obtain ⟨hcompatible, -⟩ := exists_merge_iff.mp ⟨first, hfirst⟩
      have hnames : NamesNoType (.obj first) → ∀ other ∈ rest, declaredTypes other = [] := by
        intro hnames other hother
        have hmem := List.mem_cons_of_mem node hother
        exact (hnames.of_merge hkeys hfirst).elim (fun hnames => hleft hnames other hmem)
          fun hnames => h.types node List.mem_cons_self hnames other hmem
      have htype : ¬ NamesNoType (.obj left) ∨ declaredTypes node = [] :=
        or_iff_not_imp_left.mpr fun hnames =>
          hleft (not_not.mp hnames) node List.mem_cons_self
      have hstep := fun other =>
        compatible_merge_iff hkeys hfirst other (h.formats node List.mem_cons_self) htype
      have hopenness : (openness (.obj left)).merge? (openness node) =
          some (openness (.obj first)) := openness_merge hfirst
      rw [hopenness]
      simp [hfirst, hcompatible, ih hrest hnames, hstep, forall_and, and_assoc]
    · constructor
      · rintro ⟨merged, first, hfirst, -⟩
        exact absurd ⟨first, hfirst⟩ hmerge
      · rintro ⟨⟨hcompatible, -⟩, -, hsome⟩
        exact absurd (exists_merge_iff.mpr ⟨hcompatible, Option.isSome_of_isSome_bind hsome⟩) hmerge

/-- **When a list merges.** No two members may contradict each other, but for what they say of other
    properties after one that allows none. -/
theorem exists_mergeAll_iff (h : Orderable nodes) :
    (∃ merged, mergeAll none nodes = .ok merged) ↔
      nodes.Pairwise Compatible ∧ (Openness.untilClosed (nodes.map openness)).Pairwise
        Openness.Meets := by
  cases nodes with
  | nil => simp [mergeAll, pure, Except.pure, Openness.untilClosed]
  | cons node rest =>
    obtain ⟨members, rfl⟩ := h.objects node List.mem_cons_self
    have hrest := h.of_subset (List.subset_cons_self _ rest)
    have hnames : NamesNoType (.obj members) → ∀ other ∈ rest, declaredTypes other = [] :=
      fun hnames other hother =>
        h.types _ List.mem_cons_self hnames other (List.mem_cons_of_mem _ hother)
    have hfirst : merge none (.obj members) = .ok members := rfl
    simp only [mergeAll_cons_eq_ok, hfirst, Except.ok.injEq, exists_eq_left']
    rw [exists_mergeAll_some_iff hrest hnames, Openness.isSome_foldlM_merge?, List.pairwise_cons,
      List.map_cons, and_assoc]
    · exact hasDistinctKeys_openness (h.keys _ List.mem_cons_self)
    · intro opinion hopinion
      obtain ⟨other, hother, rfl⟩ := List.mem_map.mp hopinion
      exact hasDistinctKeys_openness (hrest.keys other hother)

/-- A relation that is symmetric on a list holds between its members in any order. -/
theorem pairwise_perm {α : Type} {R : α → α → Prop} {xs ys : List α}
    (hsymm : ∀ x ∈ xs, ∀ y ∈ xs, R x y → R y x) (hperm : ys.Perm xs) :
    ys.Pairwise R ↔ xs.Pairwise R := by
  have hboth : ∀ zs ⊆ xs, (zs.Pairwise R ↔ zs.Pairwise fun x y => R x y ∧ R y x) := by
    refine fun zs hzs => ⟨fun h => ?_, fun h => h.imp And.left⟩
    exact h.imp_of_mem fun hx hy hxy => ⟨hxy, hsymm _ (hzs hx) _ (hzs hy) hxy⟩
  rw [hboth ys hperm.subset, hboth xs (List.Subset.refl xs)]
  exact hperm.pairwise_iff And.symm

theorem pairwise_compatible_perm (h : Orderable nodes) (hperm : nodes'.Perm nodes) :
    nodes'.Pairwise Compatible ↔ nodes.Pairwise Compatible :=
  pairwise_perm (fun left hleft right hright hcompatible =>
    hcompatible.symm (h.keys left hleft) (h.keys right hright)) hperm

theorem pairwise_meets_perm (h : Orderable nodes) (hperm : nodes'.Perm nodes) :
    (nodes'.map openness).Pairwise Openness.Meets ↔
      (nodes.map openness).Pairwise Openness.Meets := by
  rw [List.pairwise_map, List.pairwise_map]
  exact pairwise_perm (fun left hleft right hright hmeets =>
    hmeets.symm (hasDistinctKeys_openness (h.keys left hleft))
      (hasDistinctKeys_openness (h.keys right hright))) hperm

/-- Where no member closes the list, or no two members restrict other properties differently, the
    list is compared to its end. -/
theorem untilClosed_pairwise_iff
    (h : (∀ node ∈ nodes, openness node ≠ .closed) ∨ (nodes.map openness).Pairwise Openness.Meets) :
    (Openness.untilClosed (nodes.map openness)).Pairwise Openness.Meets ↔
      (nodes.map openness).Pairwise Openness.Meets := by
  rcases h with hopen | hmeets
  · have hall : Openness.untilClosed (nodes.map openness) = nodes.map openness := by
      refine List.takeWhile_eq_self_iff.mpr fun opinion hopinion => ?_
      obtain ⟨node, hnode, rfl⟩ := List.mem_map.mp hopinion
      have hne := hopen node hnode
      cases hsays : openness node <;> simp_all [Openness.isClosed]
    rw [hall]
  · exact ⟨fun _ => hmeets, fun _ => hmeets.sublist (List.takeWhile_sublist _)⟩

/-- **The order of members does not matter**, but for `additionalProperties` beside a member that
    allows no other properties: a list merges when no two of its members contradict each other and
    no two that come before such a member restrict other properties differently. -/
theorem mergeAll_perm (h : Orderable nodes) (hperm : nodes'.Perm nodes) :
    ((∃ merged, mergeAll none nodes' = .ok merged) ↔
      nodes.Pairwise (fun left right => conflict? left right = none) ∧
        (Openness.untilClosed (nodes'.map openness)).Pairwise Openness.Meets) ∧
    ((∀ node ∈ nodes, openness node ≠ .closed) ∨ (nodes.map openness).Pairwise Openness.Meets →
      ((∃ merged, mergeAll none nodes' = .ok merged) ↔
        ∃ merged, mergeAll none nodes = .ok merged)) := by
  have h' := h.of_subset hperm.subset
  simp only [conflict?_eq_none]
  rw [exists_mergeAll_iff h', pairwise_compatible_perm h hperm]
  refine ⟨Iff.rfl, fun hmeets => ?_⟩
  have hmeets' := hmeets.imp (fun hopen node hnode => hopen node (hperm.subset hnode))
    (pairwise_meets_perm h hperm).mpr
  rw [exists_mergeAll_iff h, untilClosed_pairwise_iff hmeets, untilClosed_pairwise_iff hmeets',
    pairwise_meets_perm h hperm]

/-- A schema that restricts other properties by a type. -/
def othersOf (name : String) : Json :=
  .obj [("additionalProperties", .obj [("type", .str name)])]

/-- A schema that allows no other properties. -/
def noOthers : Json := .obj [("additionalProperties", .bool false)]

theorem orderable_of_others (h : ∀ node ∈ nodes, node = noOthers ∨ ∃ name, node = othersOf name) :
    Orderable nodes := by
  have hnode : ∀ node ∈ nodes, (∃ members, node = .obj members) ∧ node.hasDistinctKeys = true ∧
      node.get? "format" = none ∧ node.get? "type" = none := by
    intro node hnode
    rcases h node hnode with rfl | ⟨name, rfl⟩ <;> exact ⟨⟨_, rfl⟩, rfl, rfl, rfl⟩
  refine ⟨fun node hmem => (hnode node hmem).1, fun node hmem => (hnode node hmem).2.1,
    fun node hmem value hvalue => ?_,
    fun _ _ _ other hother => declaredTypes_of_missing (hnode other hother).2.2.2⟩
  rw [(hnode node hmem).2.2.1] at hvalue
  cases hvalue

theorem mergeAll_perm_noOthers :
    ∃ merged, mergeAll none [noOthers, othersOf "string", othersOf "string"] = .ok merged := by
  have horderable : Orderable [othersOf "string", othersOf "string", noOthers] :=
    orderable_of_others (by simp)
  have hperm : [noOthers, othersOf "string", othersOf "string"].Perm
      [othersOf "string", othersOf "string", noOthers] :=
    @List.perm_append_comm _ [noOthers] [othersOf "string", othersOf "string"]
  exact ((mergeAll_perm horderable hperm).2 (.inr (by decide))).mpr ⟨_, rfl⟩

/-- A member that allows no other properties, before two that restrict them differently and after
    them. -/
theorem mergeAll_depends_on_order :
    Orderable [noOthers, othersOf "string", othersOf "integer"] ∧
      [othersOf "string", othersOf "integer", noOthers].Perm
        [noOthers, othersOf "string", othersOf "integer"] ∧
      (∃ merged, mergeAll none [noOthers, othersOf "string", othersOf "integer"] = .ok merged) ∧
      mergeAll none [othersOf "string", othersOf "integer", noOthers] =
        .error .additionalProperties :=
  ⟨orderable_of_others (by simp),
    @List.perm_append_comm _ [othersOf "string", othersOf "integer"] [noOthers], ⟨_, rfl⟩, rfl⟩

end ApiTypes.Schema

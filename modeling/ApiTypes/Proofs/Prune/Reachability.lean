import ApiTypes.Proofs.Prune.Components
import ApiTypes.Proofs.Prune.References
import Mathlib.Data.List.Perm.Subperm

/-!
  Marking keeps exactly what the operations reach.

  * `Reachable` says which references the operations reach: those they make, and those made where
    a reachable reference points at.
  * Whatever is marked is reachable (`mem_mark_sound`).
  * All that is reachable is marked. **The steps suffice**: each of the `n` references of the
    document is followed once and brings at most `n` others, so the pending references run out
    before the steps do (`Marking.closed_mark`).
-/

namespace ApiTypes.Prune

variable {document : Json}

/-- What the operations reach: the references they make, and those made at a place that a
    reachable reference points at. -/
inductive Reachable (document : Json) : String → Prop where
  | operation {reference : String} (h : reference ∈ operationReferences document) :
    Reachable document reference
  | step {reference next : String} {target : Json} (h : Reachable document reference)
    (htarget : document.resolve? reference = some target) (hnext : next ∈ references target) :
    Reachable document next

/-! ## 1. References of the document -/

theorem mem_targetReferences {reference next : String} :
    next ∈ targetReferences document reference ↔
      ∃ target, document.resolve? reference = some target ∧ next ∈ references target := by
  cases h : document.resolve? reference <;> simp [targetReferences, h]

theorem targetReferences_sublist (document : Json) (reference : String) :
    (targetReferences document reference).Sublist (everyReference document) := by
  cases h : document.resolve? reference with
  | none => simp [targetReferences, h]
  | some target => simpa [targetReferences, h] using references_resolve?_sublist h

theorem operationReferences_sublist (document : Json) :
    (operationReferences document).Sublist (everyReference document) := by
  cases h : document.get? "paths" with
  | none => simp [operationReferences, h]
  | some paths => simpa [operationReferences, h] using references_get?_sublist h

/-! ## 2. What is marked is reachable -/

theorem mem_mark_sound {fuel : Nat} {marked pending : List String}
    (hmarked : ∀ r ∈ marked, Reachable document r)
    (hpending : ∀ r ∈ pending, Reachable document r) :
    ∀ r ∈ mark document fuel marked pending, Reachable document r := by
  induction fuel generalizing marked pending with
  | zero => exact hmarked
  | succ fuel ih =>
    cases pending with
    | nil => exact hmarked
    | cons reference pending =>
      have hreference := hpending reference List.mem_cons_self
      have hrest : ∀ r ∈ pending, Reachable document r := fun r hr =>
        hpending r (List.mem_cons_of_mem _ hr)
      simp only [mark]
      split
      · exact ih hmarked hrest
      · refine ih (fun r hr => ?_) (fun r hr => ?_)
        · rcases List.mem_cons.mp hr with rfl | hr
          · exact hreference
          · exact hmarked r hr
        · rcases List.mem_append.mp hr with hr | hr
          · exact hrest r hr
          · obtain ⟨target, htarget, hnext⟩ :=
              mem_targetReferences.mp (List.mem_of_mem_filter hr)
            exact .step hreference htarget hnext

/-! ## 3. What is reachable is marked -/

/-- How many references a document makes. -/
def referenceCount (document : Json) : Nat := (everyReference document).length

/-- A state of the marking: the document makes all references in it, none is marked twice, and
    what a marked reference leads to is marked or pending. -/
structure Marking (document : Json) (marked pending : List String) : Prop where
  nodup : marked.Nodup
  marked_made : ∀ r ∈ marked, r ∈ everyReference document
  pending_made : ∀ r ∈ pending, r ∈ everyReference document
  closed : ∀ r ∈ marked, ∀ next ∈ targetReferences document r, next ∈ marked ∨ next ∈ pending

/-- How many steps a state may still take. -/
def stepsLeft (document : Json) (marked pending : List String) : Nat :=
  pending.length + (referenceCount document - marked.length) * referenceCount document

namespace Marking

variable {marked pending : List String} {reference : String}

theorem start (document : Json) : Marking document [] (operationReferences document) where
  nodup := List.nodup_nil
  marked_made := by simp
  pending_made r hr := (operationReferences_sublist document).subset hr
  closed := by simp

/-- A reference that is marked already is dropped. -/
theorem skip (h : Marking document marked (reference :: pending)) (hmem : reference ∈ marked) :
    Marking document marked pending where
  nodup := h.nodup
  marked_made := h.marked_made
  pending_made r hr := h.pending_made r (List.mem_cons_of_mem _ hr)
  closed r hr next hnext := by
    rcases h.closed r hr next hnext with hnext | hnext
    · exact .inl hnext
    · rcases List.mem_cons.mp hnext with rfl | hnext
      · exact .inl hmem
      · exact .inr hnext

/-- The state after a reference is marked. -/
theorem visit (h : Marking document marked (reference :: pending)) (hnot : reference ∉ marked) :
    Marking document (reference :: marked)
      (pending ++ (targetReferences document reference).filter
        (!(reference :: marked).contains ·)) where
  nodup := List.nodup_cons.mpr ⟨hnot, h.nodup⟩
  marked_made r hr := by
    rcases List.mem_cons.mp hr with rfl | hr
    · exact h.pending_made _ List.mem_cons_self
    · exact h.marked_made r hr
  pending_made r hr := by
    rcases List.mem_append.mp hr with hr | hr
    · exact h.pending_made r (List.mem_cons_of_mem _ hr)
    · exact (targetReferences_sublist document reference).subset (List.mem_of_mem_filter hr)
  closed r hr next hnext := by
    by_cases hmarked : next ∈ reference :: marked
    · exact .inl hmarked
    · refine .inr (List.mem_append.mpr ?_)
      rcases List.mem_cons.mp hr with rfl | hr
      · exact .inr (List.mem_filter.mpr ⟨hnext, by simpa using hmarked⟩)
      · rcases h.closed r hr next hnext with hnext | hnext
        · exact absurd (List.mem_cons_of_mem _ hnext) hmarked
        · rcases List.mem_cons.mp hnext with rfl | hnext
          · exact absurd List.mem_cons_self hmarked
          · exact .inl hnext

/-- **A step uses one of the steps that are left.** Marking a reference pays for the at most `n`
    references found at its target. -/
theorem stepsLeft_visit (h : Marking document marked (reference :: pending))
    (hnot : reference ∉ marked) :
    stepsLeft document (reference :: marked)
        (pending ++ (targetReferences document reference).filter
          (!(reference :: marked).contains ·)) <
      stepsLeft document marked (reference :: pending) := by
  have hfound : ((targetReferences document reference).filter
      (!(reference :: marked).contains ·)).length ≤ referenceCount document :=
    (List.filter_sublist.trans (targetReferences_sublist document reference)).length_le
  have hvisited := h.visit hnot
  have hroom : (reference :: marked).length ≤ referenceCount document :=
    (List.subperm_of_subset hvisited.nodup hvisited.marked_made).length_le
  rw [List.length_cons] at hroom
  have hsplit : referenceCount document - marked.length =
      (referenceCount document - (marked.length + 1)) + 1 := by omega
  simp only [stepsLeft, List.length_append, List.length_cons, hsplit, Nat.add_mul, Nat.one_mul]
  omega

/-- **With enough steps the marked references are closed**: all that was there is marked in the
    end, and so is what a marked reference leads to. -/
theorem closed_mark {fuel : Nat} (h : Marking document marked pending)
    (hfuel : stepsLeft document marked pending ≤ fuel) :
    (∀ r, r ∈ marked ∨ r ∈ pending → r ∈ mark document fuel marked pending) ∧
      ∀ r ∈ mark document fuel marked pending, ∀ next ∈ targetReferences document r,
        next ∈ mark document fuel marked pending := by
  induction fuel generalizing marked pending with
  | zero =>
    have hnil : pending = [] := List.length_eq_zero_iff.mp (by unfold stepsLeft at hfuel; omega)
    subst hnil
    exact ⟨by simp [mark], by simpa [mark] using h.closed⟩
  | succ fuel ih =>
    cases pending with
    | nil => exact ⟨by simp [mark], by simpa [mark] using h.closed⟩
    | cons reference pending =>
      by_cases hmem : reference ∈ marked
      · have hleft : stepsLeft document marked pending ≤ fuel := by
          simp only [stepsLeft, List.length_cons] at hfuel ⊢
          omega
        obtain ⟨hall, hclosed⟩ := ih (h.skip hmem) hleft
        simp only [mark, List.contains_iff_mem.mpr hmem, if_true]
        refine ⟨fun r hr => ?_, hclosed⟩
        rcases hr with hr | hr
        · exact hall r (.inl hr)
        · rcases List.mem_cons.mp hr with rfl | hr
          · exact hall r (.inl hmem)
          · exact hall r (.inr hr)
      · have hleft := Nat.le_of_lt_succ (Nat.lt_of_lt_of_le (h.stepsLeft_visit hmem) hfuel)
        obtain ⟨hall, hclosed⟩ := ih (h.visit hmem) hleft
        have hcontains : marked.contains reference = false := by simpa using hmem
        simp only [mark, hcontains, Bool.false_eq_true, if_false]
        refine ⟨fun r hr => ?_, hclosed⟩
        rcases hr with hr | hr
        · exact hall r (.inl (List.mem_cons_of_mem _ hr))
        · rcases List.mem_cons.mp hr with rfl | hr
          · exact hall r (.inl List.mem_cons_self)
          · exact hall r (.inr (List.mem_append_left _ hr))

/-- **Steps beyond those that are left change nothing.** -/
theorem mark_add {fuel : Nat} (h : Marking document marked pending)
    (hfuel : stepsLeft document marked pending ≤ fuel) (extra : Nat) :
    mark document (fuel + extra) marked pending = mark document fuel marked pending := by
  induction fuel generalizing marked pending with
  | zero =>
    have hnil : pending = [] := List.length_eq_zero_iff.mp (by unfold stepsLeft at hfuel; omega)
    subst hnil
    cases extra <;> simp [mark]
  | succ fuel ih =>
    rw [Nat.succ_add]
    cases pending with
    | nil => rfl
    | cons reference pending =>
      simp only [mark]
      split
      · rename_i hmem
        refine ih (h.skip (List.contains_iff_mem.mp hmem)) ?_
        simp only [stepsLeft, List.length_cons] at hfuel ⊢
        omega
      · rename_i hnot
        have hmem : reference ∉ marked := by simpa using hnot
        exact ih (h.visit hmem)
          (Nat.le_of_lt_succ (Nat.lt_of_lt_of_le (h.stepsLeft_visit hmem) hfuel))

end Marking

/-- The steps that marking from the operations is given. -/
theorem stepsLeft_start_le (document : Json) :
    stepsLeft document [] (operationReferences document) ≤
      referenceCount document * referenceCount document + referenceCount document + 1 := by
  have hlength := (operationReferences_sublist document).length_le
  simp only [stepsLeft, List.length_nil, Nat.sub_zero]
  unfold referenceCount
  omega

/-- **Exactly what the operations reach is marked.** -/
theorem mem_reachable {reference : String} :
    reference ∈ reachable document ↔ Reachable document reference := by
  obtain ⟨hall, hclosed⟩ := (Marking.start document).closed_mark (stepsLeft_start_le document)
  constructor
  · exact mem_mark_sound (by simp) (fun r hr => .operation hr) reference
  · intro h
    induction h with
    | operation h => exact hall _ (.inr h)
    | step _ htarget hnext ih =>
      exact hclosed _ ih _ (mem_targetReferences.mpr ⟨_, htarget, hnext⟩)

/-! ## 4. A run -/

/-- A pruning run by marks is a restriction of the cleaned document. -/
theorem prune_of_reachability {options : PruneOptions} (hobject : document.isObject = true)
    (hkeys : document.hasDistinctKeys = true) (hstrategy : options.strategy = .reachability) :
    let cleaned := clean options.allowed .document document
    prune options document = (restrict (reachable cleaned).contains cleaned,
      .ok ⟨1, doomed (reachable cleaned).contains cleaned⟩) := by
  have hclean := hasDistinctKeys_clean options.allowed .document document hkeys
  simp only [prune, hobject, hstrategy, Bool.not_true, Bool.false_eq_true, if_false,
    sweep_eq_restrict _ hclean]

/-- **Pruning by marks keeps exactly the components that the operations reach.** The marking
    comes to its end. The report lists the other components, each once, and nothing else
    changes. -/
theorem prune_keeps_reachable (options : PruneOptions) (document : Json)
    (hobject : document.isObject = true) (hkeys : document.hasDistinctKeys = true)
    (hstrategy : options.strategy = .reachability) :
    let cleaned := clean options.allowed .document document
    ∃ out removed, prune options document = (out, .ok ⟨1, removed⟩) ∧
      (∀ c, c ∈ componentsOf out ↔ c ∈ componentsOf cleaned ∧ Reachable cleaned c.reference) ∧
      removed.Nodup ∧
      (∀ reference, reference ∈ removed ↔
        ∃ c ∈ componentsOf cleaned, ¬ Reachable cleaned c.reference ∧ c.reference = reference) ∧
      out = restrict (fun reference => !removed.contains reference) cleaned ∧
      ∃ steps, ∀ extra,
        mark cleaned (steps + extra) [] (operationReferences cleaned) = reachable cleaned := by
  intro cleaned
  have hclean := hasDistinctKeys_clean options.allowed .document document hkeys
  refine ⟨_, _, prune_of_reachability hobject hkeys hstrategy, fun c => ?_, nodup_doomed hclean,
    fun reference => ?_, ?_, _, (Marking.start cleaned).mark_add (stepsLeft_start_le cleaned)⟩
  · rw [componentsOf_restrict, List.mem_filter, List.contains_iff_mem, mem_reachable]
  · simp only [mem_doomed, ← mem_reachable, cleaned]
    simp
  · refine restrict_congr hclean fun c hc => ?_
    have hiff : c.reference ∈ doomed (reachable cleaned).contains cleaned ↔
        (reachable cleaned).contains c.reference = false := reference_mem_doomed hc
    by_cases h : c.reference ∈ reachable cleaned <;> simp_all [cleaned]

/-- A document with a component that is used and two that refer to each other only. -/
def islands : Json :=
  .obj [
    ("paths", .obj [("/a", .obj [("get", .obj [("$ref", .str "#/components/responses/Used")])])]),
    ("components", .obj [
      ("schemas", .obj [
        ("Left", .obj [("$ref", .str "#/components/schemas/Right")]),
        ("Right", .obj [("$ref", .str "#/components/schemas/Left")])]),
      ("responses", .obj [("Used", .obj [])])])]

theorem prune_keeps_reachable_islands :
    (prune ⟨.reachability, 0, []⟩ islands).2 =
        .ok ⟨1, ["#/components/schemas/Left", "#/components/schemas/Right"]⟩ ∧
      ∀ c, c ∈ componentsOf (prune ⟨.reachability, 0, []⟩ islands).1 ↔
        c ∈ componentsOf (clean [] .document islands) ∧
          Reachable (clean [] .document islands) c.reference := by
  obtain ⟨out, removed, hrun, hkept, -⟩ :=
    prune_keeps_reachable ⟨.reachability, 0, []⟩ islands (by decide) (by decide) rfl
  exact ⟨by rfl, by rw [hrun]; exact hkept⟩

end ApiTypes.Prune

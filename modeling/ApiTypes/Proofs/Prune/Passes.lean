import ApiTypes.Proofs.Prune.Again
import Mathlib.Logic.Function.Iterate

/-!
  How many passes a run makes, and what a run leaves that is stopped before.

  * `afterPass` is a document after one pass, and `deletedAfter` what the next pass deletes. A run
    with a limit is an iteration of passes that ends with the first one that deletes nothing, or
    at the limit (`fixedPoint_eq`).
  * **Every pass but the last pays with a component**, so there are at most as many of them as
    components (`exists_isLeast_idle`).
  * A run that is stopped leaves the cleaned document without what its passes deleted
    (`iterate_afterPass`), and another run goes on from there.
-/

namespace ApiTypes.Prune

/-! ## 1. Passes one by one -/

/-- The references of the components that nothing in the document refers to. -/
def unreferenced (document : Json) : List String := doomed (referenced document).contains document

/-- The document after a pass. -/
def afterPass (document : Json) : Json := sweep (referenced document).contains document

/-- What the pass after `n` passes deletes. -/
def deletedAfter (document : Json) (n : Nat) : List String := unreferenced (afterPass^[n] document)

/-- What the first `n` passes delete. -/
def deletedBy (document : Json) (n : Nat) : List String :=
  (List.range n).flatMap (deletedAfter document)

variable {document : Json} {keep : String → Bool}

theorem deletedAfter_succ (document : Json) (n : Nat) :
    deletedAfter document (n + 1) = deletedAfter (afterPass document) n := rfl

theorem deletedBy_succ (document : Json) (n : Nat) :
    deletedBy document (n + 1) = unreferenced document ++ deletedBy (afterPass document) n := by
  simp only [deletedBy, List.range_succ_eq_map, List.flatMap_cons, List.flatMap_map,
    deletedAfter_succ]
  rfl

/-- The last of some passes may be told apart as well as the first. -/
theorem deletedBy_succ' (document : Json) (n : Nat) :
    deletedBy document (n + 1) = deletedBy document n ++ deletedAfter document n := by
  simp [deletedBy, List.range_succ]

theorem afterPass_eq_restrict (hkeys : document.hasDistinctKeys = true) :
    afterPass document = restrict (referenced document).contains document :=
  sweep_eq_restrict _ hkeys

theorem hasDistinctKeys_afterPass (hkeys : document.hasDistinctKeys = true) :
    (afterPass document).hasDistinctKeys = true := by
  rw [afterPass_eq_restrict hkeys]
  exact hasDistinctKeys_restrict hkeys

/-- **A pass takes as many components away as it deletes.** -/
theorem length_componentsOf_afterPass (hkeys : document.hasDistinctKeys = true) :
    (componentsOf (afterPass document)).length + (unreferenced document).length =
      (componentsOf document).length := by
  rw [afterPass_eq_restrict hkeys, componentsOf_restrict, unreferenced, doomed_eq, List.length_map]
  exact (List.length_eq_length_filter_add _).symm

/-- **Some passes leave the document without what they deleted**, and all else as it was. -/
theorem iterate_afterPass (hkeys : document.hasDistinctKeys = true) (n : Nat) :
    afterPass^[n] document =
      restrict (fun reference => !(deletedBy document n).contains reference) document := by
  induction n with
  | zero => simpa [deletedBy] using (restrict_all document).symm
  | succ n ih =>
    have hkeys' : (afterPass^[n] document).hasDistinctKeys = true := by
      rw [ih]
      exact hasDistinctKeys_restrict hkeys
    rw [Function.iterate_succ_apply', afterPass_eq_restrict hkeys', deletedBy_succ']
    conv_lhs => rw [ih]
    rw [restrict_restrict, ← ih]
    refine restrict_congr hkeys fun c hc => ?_
    by_cases hgone : c.reference ∈ deletedBy document n
    · simp [hgone]
    · -- A component that is still there goes when nothing refers to it.
      have hleft : c ∈ componentsOf (afterPass^[n] document) := by
        rw [ih, componentsOf_restrict]
        exact List.mem_filter.mpr ⟨hc, by simpa using hgone⟩
      have hiff : c.reference ∈ deletedAfter document n ↔
          (referenced (afterPass^[n] document)).contains c.reference = false :=
        reference_mem_doomed hleft
      by_cases hnow : c.reference ∈ deletedAfter document n <;> simp_all

/-! ## 2. A run with a limit -/

/-- The numbers of passes after which a pass deletes nothing. -/
def idleAfter (document : Json) : Set Nat := {n | deletedAfter document n = []}

/-- Where a pass deletes something, one pass more comes before the first idle one. -/
theorem isLeast_idleAfter_succ {n : Nat} (hgone : unreferenced document ≠ []) :
    IsLeast (idleAfter document) (n + 1) ↔ IsLeast (idleAfter (afterPass document)) n := by
  constructor
  · rintro ⟨hidle, hleast⟩
    refine ⟨hidle, fun m hm => ?_⟩
    have hidleLater : m + 1 ∈ idleAfter document := hm
    exact Nat.le_of_succ_le_succ (hleast hidleLater)
  · rintro ⟨hidle, hleast⟩
    refine ⟨hidle, fun m hm => ?_⟩
    cases m with
    | zero => exact absurd hm hgone
    | succ m => exact Nat.succ_le_succ (hleast hm)

/-- Where some passes were made, the others come before the first idle one. -/
theorem isLeast_idleAfter_iterate {done rest : Nat}
    (h : IsLeast (idleAfter document) (done + rest)) :
    IsLeast (idleAfter (afterPass^[done] document)) rest := by
  have hshift : ∀ n, n ∈ idleAfter (afterPass^[done] document) ↔
      done + n ∈ idleAfter document := by
    intro n
    simp only [idleAfter, deletedAfter, Set.mem_ofPred_eq, ← Function.iterate_add_apply,
      Nat.add_comm]
  exact ⟨(hshift rest).mpr h.1, fun n hn => Nat.le_of_add_le_add_left (h.2 ((hshift n).mp hn))⟩

/-- **There is a pass that deletes nothing**, after at most as many passes as there are
    components. -/
theorem exists_isLeast_idle (hkeys : document.hasDistinctKeys = true) :
    ∃ n, IsLeast (idleAfter document) n ∧ n ≤ (componentsOf document).length := by
  induction hcount : (componentsOf document).length using Nat.strong_induction_on
    generalizing document with
  | _ count ih =>
    by_cases hgone : unreferenced document = []
    · exact ⟨0, ⟨hgone, fun m _ => Nat.zero_le m⟩, Nat.zero_le _⟩
    · have hpass := length_componentsOf_afterPass hkeys
      have hpositive : 0 < (unreferenced document).length := List.length_pos_iff.mpr hgone
      obtain ⟨n, hleast, hle⟩ :=
        ih (componentsOf (afterPass document)).length (by omega) (hasDistinctKeys_afterPass hkeys)
          rfl
      exact ⟨n + 1, (isLeast_idleAfter_succ hgone).mpr hleast, by omega⟩

/-- **A run with a limit**: it succeeds when the first idle pass is within the limit, and fails
    after the passes of the limit otherwise. -/
theorem fixedPoint_eq {limit before : Nat} :
    ∀ {left : Nat} {report : Report} {document : Json}, IsLeast (idleAfter document) before →
      fixedPoint limit left report document =
        if left < before + 1 then (afterPass^[left] document, .error (.pruneLimitExceeded limit))
        else (afterPass^[before] document,
          .ok ⟨report.passes + (before + 1), report.removed ++ deletedBy document before⟩) := by
  induction before with
  | zero =>
    rintro (_ | left) report document ⟨hidle, -⟩
    · simp [fixedPoint]
    · have hnil : doomed (referenced document).contains document = [] := hidle
      simp [fixedPoint, hnil, deletedBy]
  | succ before ih =>
    rintro (_ | left) report document hleast
    · simp [fixedPoint]
    · have hgone : unreferenced document ≠ [] := by
        intro hnil
        have hidle : 0 ∈ idleAfter document := hnil
        exact absurd (hleast.2 hidle) (Nat.not_succ_le_zero before)
      have hrest := (isLeast_idleAfter_succ hgone).mp hleast
      have hstep : fixedPoint limit (left + 1) report document =
          fixedPoint limit left ⟨report.passes + 1, report.removed ++ unreferenced document⟩
            (afterPass document) := by
        have hsome : (unreferenced document).isEmpty = false := by simpa using hgone
        unfold unreferenced at hsome
        simp only [fixedPoint, hsome, Bool.false_eq_true, if_false]
        rfl
      rw [hstep, ih hrest, deletedBy_succ]
      simp only [Nat.add_lt_add_iff_right, Function.iterate_succ_apply, List.append_assoc,
        Nat.add_assoc, Nat.add_comm 1]

/-! ## 3. Pruning with a limit -/

/-- A cleanup leaves the keys of the components that may go. -/
theorem keys_entriesOf_clean {allowed : List String} {kind : String}
    (hkind : kind ∈ prunableKinds) :
    Entries.keys (entriesOf (clean allowed .document document) kind) =
      Entries.keys (entriesOf document kind) := by
  have hcomponents : keepsKey allowed .document "components" = true := by
    have hextension : Schema.isExtensionKey "components" = false := by decide
    simp [keepsKey, hextension, droppedKeys]
  have hkept : keepsKey allowed .components kind = true := by
    have hlasting : ∀ kind ∈ prunableKinds, Schema.isExtensionKey kind = false ∧
        kind ∉ droppedKeys .components := by decide
    simp [keepsKey, hlasting kind hkind]
  obtain ⟨inner, hpart⟩ := componentPart_of_prunable kind hkind
  have hchild : childPart .components kind = .mapOf inner := hpart
  unfold entriesOf
  rw [get?_clean, if_pos hcomponents]
  cases document.get? "components" with
  | none => rfl
  | some components =>
    have hdocument : childPart .document "components" = .components := rfl
    simp only [Option.map_some, Option.bind_some, get?_clean, hdocument, hkept, if_true, hchild]
    cases components.get? kind with
    | none => rfl
    | some collection =>
      cases collection with
      | obj members =>
        simp [clean, Json.members?, keys_cleanMembers, keepsKey, hasKeywords]
      | _ => rfl

theorem length_componentsOf_clean (allowed : List String) (document : Json) :
    (componentsOf (clean allowed .document document)).length = (componentsOf document).length := by
  have hkinds : ∀ kind ∈ prunableKinds,
      (componentsOfKind (clean allowed .document document) kind).length =
        (componentsOfKind document kind).length := by
    intro kind hkind
    have hkeys : (Entries.keys (entriesOf (clean allowed .document document) kind)).length =
        (Entries.keys (entriesOf document kind)).length :=
      congrArg List.length (keys_entriesOf_clean hkind)
    simpa [Entries.keys, componentsOfKind] using hkeys
  simp only [componentsOf, List.length_flatMap]
  exact congrArg List.sum (List.map_congr_left hkinds)

/-- **A run with a limit over a document**, when the cleaned document has its first idle pass after
    `before` others. -/
theorem prune_eq {options : PruneOptions} {before : Nat} (hobject : document.isObject = true)
    (hstrategy : options.strategy = .fixedPoint)
    (hleast : IsLeast (idleAfter (clean options.allowed .document document)) before) :
    prune options document =
      if options.maxPasses < before + 1 then
        (afterPass^[options.maxPasses] (clean options.allowed .document document),
          .error (.pruneLimitExceeded options.maxPasses))
      else (afterPass^[before] (clean options.allowed .document document),
        .ok ⟨before + 1, deletedBy (clean options.allowed .document document) before⟩) := by
  rw [prune_of_fixedPoint hobject hstrategy, fixedPoint_eq hleast]
  simp

/-- **A run goes on where another one was stopped**, to the end of a run without a limit. -/
theorem prune_resumed {options : PruneOptions} {done before : Nat}
    (hobject : document.isObject = true) (hkeys : document.hasDistinctKeys = true)
    (hstrategy : options.strategy = .fixedPoint)
    (hleast : IsLeast (idleAfter (clean options.allowed .document document)) before)
    (hdone : done ≤ before) (hlimit : before < options.maxPasses) :
    ∃ report, prune options (afterPass^[done] (clean options.allowed .document document)) =
      (afterPass^[before] (clean options.allowed .document document), .ok report) := by
  have hleft := iterate_afterPass (hasDistinctKeys_clean options.allowed .document document hkeys)
    done
  -- What was left is clean, so the second run goes on with the passes that are missing.
  have hcleaned : clean options.allowed .document
      (afterPass^[done] (clean options.allowed .document document)) =
      afterPass^[done] (clean options.allowed .document document) := by
    rw [hleft, clean_restrict_clean]
  obtain ⟨rest, rfl⟩ := Nat.exists_eq_add_of_le hdone
  have hrest := isLeast_idleAfter_iterate hleast
  rw [← hcleaned] at hrest
  rw [prune_eq (hleft ▸ isObject_restrict_clean hobject) hstrategy hrest, if_neg (by omega),
    hcleaned, ← Function.iterate_add_apply, Nat.add_comm]
  exact ⟨_, rfl⟩

/-- **The limit of passes is exact, and a run that was stopped can be resumed.** The pass after
    `before` others is the first that deletes nothing, and there are at least as many components as
    passes before it. A run fails exactly when its limit lies before that pass; with every other
    limit it ends there. A run that fails leaves the cleaned document without what its passes
    deleted, and another one with a limit above the number of components goes on from there to where
    a run without a limit ends. -/
theorem prune_limit_exact (options : PruneOptions) (document : Json)
    (hobject : document.isObject = true) (hkeys : document.hasDistinctKeys = true) :
    let cleaned := clean options.allowed .document document
    let count := (componentsOf document).length
    let run (limit : Nat) (document : Json) :=
      prune { options with strategy := .fixedPoint, maxPasses := limit } document
    ∃ before, IsLeast (idleAfter cleaned) before ∧ before + 1 ≤ count + 1 ∧
      (∀ limit,
        (run limit document).2 = .error (.pruneLimitExceeded limit) ↔ limit < before + 1) ∧
      (∀ limit, before + 1 ≤ limit → run limit document =
        (afterPass^[before] cleaned, .ok ⟨before + 1, deletedBy cleaned before⟩)) ∧
      ∀ limit < before + 1,
        (run limit document).1 =
            restrict (fun reference => !(deletedBy cleaned limit).contains reference) cleaned ∧
          ∀ more, count < more → ∃ report,
            run more (run limit document).1 = (afterPass^[before] cleaned, .ok report) := by
  intro cleaned count run
  have hclean : cleaned.hasDistinctKeys = true :=
    hasDistinctKeys_clean options.allowed .document document hkeys
  have hcount : (componentsOf cleaned).length = count :=
    length_componentsOf_clean options.allowed document
  obtain ⟨before, hleast, hbefore⟩ := exists_isLeast_idle hclean
  have hrun : ∀ limit, run limit document =
      if limit < before + 1 then
        (afterPass^[limit] cleaned, .error (.pruneLimitExceeded limit))
      else (afterPass^[before] cleaned, .ok ⟨before + 1, deletedBy cleaned before⟩) :=
    fun limit => prune_eq hobject rfl hleast
  refine ⟨before, hleast, by omega, fun limit => ?_, fun limit hlimit => ?_, fun limit hlimit => ?_⟩
  · rw [hrun]
    split <;> simp_all
  · rw [hrun, if_neg (Nat.not_lt.mpr hlimit)]
  · have hstopped : (run limit document).1 = afterPass^[limit] cleaned := by
      rw [hrun, if_pos hlimit]
    rw [hstopped]
    exact ⟨iterate_afterPass hclean limit, fun more hmore =>
      prune_resumed hobject hkeys rfl hleast (Nat.le_of_lt_succ hlimit)
        (show before < more by omega)⟩

theorem prune_limit_exact_looseEnds :
    (prune ⟨.fixedPoint, 2, []⟩ looseEnds).2 = .error (.pruneLimitExceeded 2) ∧
      (prune ⟨.fixedPoint, 5, []⟩ (prune ⟨.fixedPoint, 2, []⟩ looseEnds).1).1 =
        (prune ⟨.fixedPoint, 5, []⟩ looseEnds).1 := by
  have hstopped : (prune ⟨.fixedPoint, 2, []⟩ looseEnds).2 = .error (.pruneLimitExceeded 2) := by
    rfl
  have hcount : (componentsOf looseEnds).length = 4 := by decide
  obtain ⟨before, -, hbefore, hfails, hends, hresumes⟩ :=
    prune_limit_exact ⟨.fixedPoint, 0, []⟩ looseEnds (by decide) (by decide)
  have hend := hends 5 (by omega)
  obtain ⟨_, hresume⟩ := (hresumes 2 ((hfails 2).mp hstopped)).2 5 (by omega)
  exact ⟨hstopped, (congrArg Prod.fst hresume).trans (congrArg Prod.fst hend).symm⟩

end ApiTypes.Prune

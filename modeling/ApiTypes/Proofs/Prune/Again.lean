import ApiTypes.Proofs.Prune.FixedPoint

/-!
  Pruning a document that was pruned before.

  * A cleanup finds nothing in what another one left (`clean_clean`), **also after components
    went**: it cleans a component by its kind alone, so it does not matter whether components go
    before it or after it (`clean_restrict`).
  * Passes over what a settled run left are one pass that deletes nothing.
-/

namespace ApiTypes.Prune

variable {allowed : List String} {keep : String → Bool}

/-! ## 1. A second cleanup -/

mutual

/-- **A cleanup leaves nothing for another one.** -/
theorem clean_clean (part : Part) : (value : Json) →
    clean allowed part (clean allowed part value) = clean allowed part value
  | .obj members => congrArg Json.obj (cleanMembers_cleanMembers part members)
  | .arr items => by
    cases part with
    | listOf inner => exact congrArg Json.arr (cleanItems_cleanItems inner items)
    | _ => rfl
  | .null | .bool _ | .int _ | .float _ | .str _ => rfl

theorem cleanItems_cleanItems (part : Part) : (items : List Json) →
    cleanItems allowed part (cleanItems allowed part items) = cleanItems allowed part items
  | [] => rfl
  | item :: rest => by
    simp only [cleanItems]
    rw [clean_clean part item, cleanItems_cleanItems part rest]

theorem cleanMembers_cleanMembers (part : Part) : (members : List (String × Json)) →
    cleanMembers allowed part (cleanMembers allowed part members) =
      cleanMembers allowed part members
  | [] => rfl
  | (key, value) :: rest => by
    have hrest := cleanMembers_cleanMembers part rest
    by_cases hkeep : keepsKey allowed part key = true
    · simp only [cleanMembers, hkeep, if_true]
      rw [clean_clean (childPart part key) value, hrest]
    · simpa only [cleanMembers, hkeep, Bool.false_eq_true, if_false] using hrest

end

/-- Members may be rewritten before a cleanup or after it, where that holds of each of them. -/
theorem clean_mapValues {part : Part} {f : String → Json → Json}
    (h : ∀ key value, clean allowed (childPart part key) (f key value) =
      f key (clean allowed (childPart part key) value)) (value : Json) :
    clean allowed part (value.mapValues f) = (clean allowed part value).mapValues f := by
  cases value with
  | obj members =>
    simp only [Json.mapValues, Json.mapMembers, clean, cleanMembers_eq, List.filter_map,
      List.map_map, Function.comp_def, h]
  | arr items => cases part <;> rfl
  | _ => rfl

/-- The components of a kind that may go are an object by their names. -/
theorem componentPart_of_prunable :
    ∀ kind ∈ prunableKinds, ∃ inner, componentPart kind = .mapOf inner := by
  simp [prunableKinds, componentPart]

theorem clean_restrictKind (kind : String) (collection : Json) :
    clean allowed (componentPart kind) (restrictKind keep kind collection) =
      restrictKind keep kind (clean allowed (componentPart kind) collection) := by
  unfold restrictKind
  split
  · rename_i hkind
    obtain ⟨inner, hpart⟩ := componentPart_of_prunable kind hkind
    rw [hpart]
    cases collection with
    | obj members =>
      simp only [Json.mapMembers, clean, cleanMembers_eq, List.filter_map, List.filter_filter,
        Function.comp_def, Bool.and_comm]
    | _ => rfl
  · rfl

/-- **Components may go before a cleanup or after it.** -/
theorem clean_restrict (document : Json) :
    clean allowed .document (restrict keep document) =
      restrict keep (clean allowed .document document) := by
  refine clean_mapValues (fun key value => ?_) document
  split
  · rename_i hkey
    subst hkey
    exact clean_mapValues clean_restrictKind value
  · rfl

/-- **A cleanup changes nothing in a cleaned document from which components went.** -/
theorem clean_restrict_clean (document : Json) :
    clean allowed .document (restrict keep (clean allowed .document document)) =
      restrict keep (clean allowed .document document) := by
  rw [clean_restrict, clean_clean]

/-! ## 2. A second run -/

variable {document out : Json}

@[simp] theorem isObject_restrict : (restrict keep document).isObject = document.isObject := by
  cases document <;> rfl

theorem isObject_restrict_clean (hobject : document.isObject = true) :
    (restrict keep (clean allowed .document document)).isObject = true := by
  rw [isObject_restrict, isObject_clean, hobject]

/-- A pruning run by passes is a run over the cleaned document. -/
theorem prune_of_fixedPoint {options : PruneOptions} (hobject : document.isObject = true)
    (hstrategy : options.strategy = .fixedPoint) :
    prune options document = fixedPoint options.maxPasses options.maxPasses {}
      (clean options.allowed .document document) := by
  simp only [prune, hobject, hstrategy, Bool.not_true, Bool.false_eq_true, if_false]

/-- A settled document is one that a pass deletes nothing from. -/
theorem Settled.doomed_eq_nil {gone : List String} (h : Settled document out gone) :
    doomed (referenced out).contains out = [] := by
  refine List.eq_nil_iff_forall_not_mem.mpr fun reference hmem => ?_
  obtain ⟨c, hc, hkeep, -⟩ := mem_doomed.mp hmem
  rw [List.contains_iff_mem.mpr (h.supported c hc)] at hkeep
  exact Bool.noConfusion hkeep

/-- **Pruning by passes twice is pruning once**: after a run that succeeds the same run again
    makes one pass, deletes nothing and leaves the document as it is. Its cleanup finds nothing
    either. -/
theorem prune_idempotent (options : PruneOptions) (document out : Json) (report : Report)
    (hobject : document.isObject = true) (hkeys : document.hasDistinctKeys = true)
    (hstrategy : options.strategy = .fixedPoint)
    (h : prune options document = (out, .ok report)) :
    prune options out = (out, .ok ⟨1, []⟩) ∧ clean options.allowed .document out = out := by
  have hsettled := settled_of_prune hobject hkeys hstrategy h
  have hclean : clean options.allowed .document out = out := by
    rw [hsettled.restricted, clean_restrict_clean]
  have hout : out.isObject = true := hsettled.restricted ▸ isObject_restrict_clean hobject
  refine ⟨?_, hclean⟩
  rw [prune_of_fixedPoint hout hstrategy, hclean]
  -- A run without any pass fails, so the first run had one to make and so has the second.
  cases hpasses : options.maxPasses with
  | zero => simp [prune_of_fixedPoint hobject hstrategy, hpasses, fixedPoint] at h
  | succ left => simp [fixedPoint, hsettled.doomed_eq_nil]

/-- A document with something to clean at several places, a component that is used and a chain that
    hangs loose. -/
def untidy : Json :=
  .obj [
    ("webhooks", .obj []),
    ("paths", .obj [
      ("x-note", .int 1),
      ("/a", .obj [("get", .obj [
        ("x-flag", .bool true), ("$ref", .str "#/components/responses/Used")])])]),
    ("components", .obj [
      ("examples", .obj [("One", .int 1)]),
      ("schemas", .obj [
        ("First", .obj [("example", .int 1), ("$ref", .str "#/components/schemas/Second")]),
        ("Second", .obj [])]),
      ("responses", .obj [("Used", .obj [("x-note", .null), ("content", .arr [])])])])]

theorem prune_idempotent_untidy :
    (prune {} untidy).2 =
        .ok ⟨3, ["#/components/schemas/First", "#/components/schemas/Second"]⟩ ∧
      prune {} (prune {} untidy).1 = ((prune {} untidy).1, .ok ⟨1, []⟩) := by
  have hok : (prune {} untidy).2 =
      .ok ⟨3, ["#/components/schemas/First", "#/components/schemas/Second"]⟩ := by rfl
  exact ⟨hok, (prune_idempotent {} untidy (prune {} untidy).1 _ (by decide) (by decide) rfl
    (Prod.ext rfl hok)).1⟩

end ApiTypes.Prune

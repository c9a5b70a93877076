import ApiTypes.Proofs.Prune.Components
import Mathlib.Order.Bounds.Basic

/-!
  Deleting until nothing changes keeps the greatest self-supporting set of components.

  A set of components is **self-supporting** when each member is referred to, by an operation or by
  the body of a member of a referring kind. A pass deletes the components that the whole document
  does not refer to, so it spares every self-supporting set (`SelfSupporting.pass`); what is left
  when a pass deletes nothing is self-supporting itself.
-/

namespace ApiTypes.Prune

/-- Whether a component is referred to by an operation, or by the body of a member of `T` whose
    kind is a referring one. -/
def Supported (document : Json) (T : Set Component) (c : Component) : Prop :=
  c.reference ∈ operationReferences document ∨
    ∃ d ∈ T, d.kind ∈ referringKinds ∧ c.reference ∈ references d.body

/-- Components of a document that support each other. -/
structure SelfSupporting (document : Json) (T : Set Component) : Prop where
  components : ∀ c ∈ T, c ∈ componentsOf document
  supported : ∀ c ∈ T, Supported document T c

/-- **What a document refers to** is what its operations and the bodies of its components of
    referring kinds refer to. -/
theorem mem_referenced {document : Json} {reference : String} :
    reference ∈ referenced document ↔
      reference ∈ operationReferences document ∨
        ∃ d ∈ componentsOf document, d.kind ∈ referringKinds ∧ reference ∈ references d.body := by
  simp only [referenced, List.mem_append, List.mem_flatMap, Entries.values, List.mem_map]
  refine or_congr_right ⟨?_, ?_⟩
  · rintro ⟨kind, hkind, body, ⟨entry, hentry, rfl⟩, href⟩
    refine ⟨⟨kind, entry.1, entry.2⟩, mem_componentsOf.mpr ⟨?_, hentry⟩, hkind, href⟩
    exact prunable_of_referring kind hkind
  · rintro ⟨d, hd, hkind, href⟩
    exact ⟨d.kind, hkind, d.body, ⟨_, (mem_componentsOf.mp hd).2, rfl⟩, href⟩

/-! ## 1. One pass -/

variable {document out : Json}

theorem SelfSupporting.referenced {T : Set Component} (hT : SelfSupporting document T)
    {c : Component} (hc : c ∈ T) : c.reference ∈ referenced document := by
  refine mem_referenced.mpr ((hT.supported c hc).imp_right ?_)
  rintro ⟨d, hd, hkind, href⟩
  exact ⟨d, hT.components d hd, hkind, href⟩

/-- **A pass spares every self-supporting set.** -/
theorem SelfSupporting.pass {T : Set Component} (hT : SelfSupporting document T) :
    SelfSupporting (restrict (Prune.referenced document).contains document) T where
  components c hc := by
    rw [componentsOf_restrict]
    exact List.mem_filter.mpr ⟨hT.components c hc, List.contains_iff_mem.mpr (hT.referenced hc)⟩
  supported c hc := by
    have hsupported := hT.supported c hc
    unfold Supported at hsupported ⊢
    rwa [operationReferences_restrict]

/-! ## 2. A run -/

/-- What passes that end in a pass without deletions make of a document, and what they delete. -/
structure Settled (document out : Json) (gone : List String) : Prop where
  restricted : out = restrict (fun reference => !gone.contains reference) document
  nodup : gone.Nodup
  components : ∀ reference ∈ gone, ∃ c ∈ componentsOf document, c.reference = reference
  spares : ∀ T, SelfSupporting document T → ∀ c ∈ T, c.reference ∉ gone
  supported : ∀ c ∈ componentsOf out, c.reference ∈ referenced out

/-- A pass that deletes nothing. -/
theorem Settled.of_doomed_eq_nil
    (h : doomed (referenced document).contains document = []) : Settled document document [] where
  restricted := by simpa using (restrict_all document).symm
  nodup := List.nodup_nil
  components := by simp
  spares := by simp
  supported c hc := by
    by_contra hnot
    have hmem : c.reference ∈ doomed (referenced document).contains document :=
      (reference_mem_doomed hc).mpr (by simpa using hnot)
    rw [h] at hmem
    exact List.not_mem_nil hmem

/-- **One pass before a run that settles.** -/
theorem Settled.pass {rest : List String} (hkeys : document.hasDistinctKeys = true)
    (h : Settled (restrict (referenced document).contains document) out rest) :
    Settled document out (doomed (referenced document).contains document ++ rest) := by
  -- The pass deletes exactly the components of the document that it does not keep.
  have hgone : ∀ c ∈ componentsOf document,
      (c.reference ∈ doomed (referenced document).contains document ↔
        c.reference ∉ referenced document) := by
    intro c hc
    simp [reference_mem_doomed hc]
  refine ⟨?_, ?_, ?_, ?_, h.supported⟩
  · rw [h.restricted, restrict_restrict]
    refine restrict_congr hkeys fun c hc => ?_
    have hiff := hgone c hc
    by_cases href : c.reference ∈ referenced document <;> simp_all
  · refine List.nodup_append.mpr ⟨nodup_doomed hkeys, h.nodup, fun r hr r' hr' heq => ?_⟩
    subst heq
    obtain ⟨c, hc, rfl⟩ := h.components _ hr'
    rw [componentsOf_restrict] at hc
    obtain ⟨hc, hkept⟩ := List.mem_filter.mp hc
    exact (hgone c hc).mp hr (List.contains_iff_mem.mp hkept)
  · intro r hr
    rcases List.mem_append.mp hr with hr | hr
    · obtain ⟨c, hc, -, href⟩ := mem_doomed.mp hr
      exact ⟨c, hc, href⟩
    · obtain ⟨c, hc, href⟩ := h.components r hr
      rw [componentsOf_restrict] at hc
      exact ⟨c, List.mem_of_mem_filter hc, href⟩
  · intro T hT c hc hmem
    rcases List.mem_append.mp hmem with hmem | hmem
    · exact (hgone c (hT.components c hc)).mp hmem (hT.referenced hc)
    · exact h.spares T hT.pass c hc hmem

/-- **A run of passes settles, unless it reaches its limit.** -/
theorem settled_of_fixedPoint {limit : Nat} :
    ∀ {left : Nat} {report final : Report} {document out : Json},
      document.hasDistinctKeys = true →
      fixedPoint limit left report document = (out, .ok final) →
      ∃ gone, final.removed = report.removed ++ gone ∧ Settled document out gone
  | 0, _, _, _, _, _, h => by simp [fixedPoint] at h
  | left + 1, report, final, document, out, hkeys, h => by
    simp only [fixedPoint] at h
    split at h
    · rename_i hempty
      have hnil : doomed (referenced document).contains document = [] :=
        List.isEmpty_iff.mp hempty
      obtain ⟨rfl, hok⟩ := Prod.mk.inj h
      obtain rfl := Except.ok.inj hok
      exact ⟨[], by simp [hnil], Settled.of_doomed_eq_nil hnil⟩
    · rw [sweep_eq_restrict _ hkeys] at h
      obtain ⟨gone, hremoved, hsettled⟩ :=
        settled_of_fixedPoint (hasDistinctKeys_restrict hkeys) h
      exact ⟨_, by rw [hremoved, List.append_assoc], hsettled.pass hkeys⟩

/-! ## 3. What a settled run keeps -/

theorem Settled.mem_iff {gone : List String} (h : Settled document out gone) {c : Component} :
    c ∈ componentsOf out ↔ c ∈ componentsOf document ∧ c.reference ∉ gone := by
  rw [h.restricted, componentsOf_restrict, List.mem_filter]
  simp

/-- **What a settled run keeps is the greatest self-supporting set.** -/
theorem Settled.isGreatest {gone : List String} (h : Settled document out gone) :
    IsGreatest {T | SelfSupporting document T} {c | c ∈ componentsOf out} := by
  refine ⟨⟨fun c hc => (h.mem_iff.mp hc).1, fun c hc => ?_⟩, fun T hT c hc => ?_⟩
  · have hreferenced := mem_referenced.mp (h.supported c hc)
    rwa [h.restricted, operationReferences_restrict, ← h.restricted] at hreferenced
  · exact h.mem_iff.mpr ⟨hT.components c hc, h.spares T hT c hc⟩

theorem Settled.mem_gone_iff {gone : List String} (h : Settled document out gone)
    {reference : String} :
    reference ∈ gone ↔
      ∃ c ∈ componentsOf document, c ∉ componentsOf out ∧ c.reference = reference := by
  constructor
  · intro hmem
    obtain ⟨c, hc, rfl⟩ := h.components reference hmem
    exact ⟨c, hc, fun hout => (h.mem_iff.mp hout).2 hmem, rfl⟩
  · rintro ⟨c, hc, hout, rfl⟩
    by_contra hnot
    exact hout (h.mem_iff.mpr ⟨hc, hnot⟩)

/-- A pruning run by passes is a settled run over the cleaned document. -/
theorem settled_of_prune {options : PruneOptions} {report : Report}
    (hobject : document.isObject = true) (hkeys : document.hasDistinctKeys = true)
    (hstrategy : options.strategy = .fixedPoint)
    (h : prune options document = (out, .ok report)) :
    Settled (clean options.allowed .document document) out report.removed := by
  have hclean := hasDistinctKeys_clean options.allowed .document document hkeys
  simp only [prune, hobject, hstrategy, Bool.not_true, Bool.false_eq_true, if_false] at h
  obtain ⟨gone, hremoved, hsettled⟩ := settled_of_fixedPoint hclean h
  rw [hremoved]
  exact hsettled

/-- **Pruning by passes keeps the greatest self-supporting set** of the components that the
    cleanup leaves. The report lists the others, each once, and nothing else changes. -/
theorem prune_keeps_greatest_selfSupporting (options : PruneOptions) (document out : Json)
    (report : Report) (hobject : document.isObject = true)
    (hkeys : document.hasDistinctKeys = true) (hstrategy : options.strategy = .fixedPoint)
    (h : prune options document = (out, .ok report)) :
    let cleaned := clean options.allowed .document document
    IsGreatest {T | SelfSupporting cleaned T} {c | c ∈ componentsOf out} ∧
      report.removed.Nodup ∧
      (∀ reference, reference ∈ report.removed ↔
        ∃ c ∈ componentsOf cleaned, c ∉ componentsOf out ∧ c.reference = reference) ∧
      out = restrict (fun reference => !report.removed.contains reference) cleaned := by
  have hsettled := settled_of_prune hobject hkeys hstrategy h
  exact ⟨hsettled.isGreatest, hsettled.nodup, fun _ => hsettled.mem_gone_iff,
    hsettled.restricted⟩

/-- A document with a component that is used, a chain that hangs loose and one that refers to
    itself. -/
def looseEnds : Json :=
  .obj [
    ("paths", .obj [("/a", .obj [("get", .obj [("$ref", .str "#/components/responses/Used")])])]),
    ("components", .obj [
      ("schemas", .obj [
        ("First", .obj [("$ref", .str "#/components/schemas/Second")]),
        ("Second", .obj []),
        ("Ring", .obj [("items", .obj [("$ref", .str "#/components/schemas/Ring")])])]),
      ("responses", .obj [("Used", .obj [])])])]

theorem prune_keeps_greatest_selfSupporting_looseEnds :
    (prune {} looseEnds).2 =
        .ok ⟨3, ["#/components/schemas/First", "#/components/schemas/Second"]⟩ ∧
      IsGreatest {T | SelfSupporting (clean recognizedExtensions .document looseEnds) T}
        {c | c ∈ componentsOf (prune {} looseEnds).1} := by
  have hok : (prune {} looseEnds).2 =
      .ok ⟨3, ["#/components/schemas/First", "#/components/schemas/Second"]⟩ := by rfl
  exact ⟨hok, (prune_keeps_greatest_selfSupporting {} looseEnds (prune {} looseEnds).1 _
    (by decide) (by decide) rfl (Prod.ext rfl hok)).1⟩

end ApiTypes.Prune

import ApiTypes.Proofs.Prune.Again
import ApiTypes.Proofs.Prune.Reachability

/-!
  What references point at after components went.

  * A restriction changes what a path leads to only if it takes away a component on the way, at the
    end or below it (`at?_restrict`).
  * With a reference to a place inside a component the operations reach the component. So nothing
    goes on the way of what they reach, and **pruning by marks leaves no reference dangling**.
  * What they reached they reach again, so a second run has nothing to do.
-/

namespace ApiTypes.Prune

/-- The place of a component in the document. -/
def Component.path (c : Component) : List String := ["components", c.kind, c.name]

variable {document : Json} {keep : String → Bool}

/-! ## 1. Paths -/

/-- A restriction that keeps all components changes nothing. -/
theorem restrict_eq_self (hkeys : document.hasDistinctKeys = true)
    (h : ∀ c ∈ componentsOf document, keep c.reference = true) :
    restrict keep document = document :=
  calc restrict keep document = restrict (fun _ => true) document := restrict_congr hkeys h
    _ = document := restrict_all document

/-- Rewriting a member changes nothing at the end of a path, if it does not in the member. -/
theorem at?_mapValues {f : String → Json → Json} {key : String} {rest : List String} {value : Json}
    (h : ∀ member, value.get? key = some member → (f key member).at? rest = member.at? rest) :
    (value.mapValues f).at? (key :: rest) = value.at? (key :: rest) := by
  cases value with
  | obj members =>
    have hget : (Json.obj members).mapValues f =
        .obj (members.map fun entry => (entry.1, f entry.1 entry.2)) := rfl
    rw [hget]
    simp only [Json.at?, Json.child?, Entries.get?_map]
    cases hmember : Entries.get? key members with
    | none => rfl
    | some member => exact h member hmember
  | _ => rfl

/-- A path into a collection leads to the same as before where the component that it names, or all
    of them, are kept. -/
theorem at?_restrictKind {kind : String} {collection : Json} {path : List String}
    (h : ∀ members, collection = .obj members → ∀ entry ∈ members,
      path = [] ∨ path.head? = some entry.1 → keep (Reference.ofComponent kind entry.1) = true) :
    (restrictKind keep kind collection).at? path = collection.at? path := by
  unfold restrictKind
  split
  · cases collection with
    | obj members =>
      have hmembers := h members rfl
      cases path with
      | nil =>
        have hall : members.filter (fun entry => keep (Reference.ofComponent kind entry.1)) =
            members :=
          List.filter_eq_self.mpr fun entry hentry => hmembers entry hentry (.inl rfl)
        simp only [Json.mapMembers, hall]
      | cons name rest =>
        simp only [Json.mapMembers, Json.at?, Json.child?,
          Entries.get?_filter fun key => keep (Reference.ofComponent kind key)]
        cases hget : Entries.get? name members with
        | none => simp
        | some body => rw [if_pos (hmembers _ (Entries.mem_of_get? hget) (.inr rfl))]
    | _ => rfl
  · rfl

/-- **A path leads to the same as before**, if each component that it leads through, and each one
    that lies behind its end, is kept. -/
theorem at?_restrict (hkeys : document.hasDistinctKeys = true) {path : List String}
    (h : ∀ c ∈ componentsOf document,
      c.path <+: path ∨ path <+: c.path → keep c.reference = true) :
    (restrict keep document).at? path = document.at? path := by
  match path with
  | [] => rw [restrict_eq_self hkeys fun c hc => h c hc (.inr List.nil_prefix)]
  | key :: rest =>
    unfold restrict
    refine at?_mapValues fun components hcomponents => ?_
    split
    · rename_i hkey
      subst hkey
      match rest with
      | [] =>
        -- All components lie behind this place.
        have hsame : restrict keep document = document := by
          refine restrict_eq_self hkeys fun c hc => h c hc (.inr ?_)
          simp [Component.path]
        have hget : (restrict keep document).get? "components" =
            (document.get? "components").map (restrictComponents keep) := get?_restrict_components
        rw [hsame, hcomponents] at hget
        rw [← Option.some.inj hget]
      | kind :: rest =>
        unfold restrictComponents
        refine at?_mapValues fun collection hcollection => ?_
        by_cases hkind : kind ∈ prunableKinds
        · refine at?_restrictKind fun members hmembers entry hentry hpath => ?_
          subst hmembers
          let c : Component := ⟨kind, entry.1, entry.2⟩
          have hc : c ∈ componentsOf document := by
            refine mem_componentsOf.mpr ⟨hkind, ?_⟩
            simpa [c, entriesOf, hcomponents, hcollection, Json.members?] using hentry
          have hprefix : c.path <+: "components" :: kind :: rest ∨
              "components" :: kind :: rest <+: c.path := by
            rcases hpath with rfl | hhead
            · exact .inr (by simp [Component.path, c])
            · obtain ⟨more, rfl⟩ := List.head?_eq_some_iff.mp hhead
              exact .inl (by simp [Component.path, c])
          exact (h c hc hprefix :)
        · rw [restrictKind, if_neg hkind]
    · rfl

/-! ## 2. References -/

/-- Whether a reference points at a place that holds a component: the document, the components or
    those of a kind. -/
def PointsAbove (document : Json) (reference : String) : Prop :=
  ∃ path ∈ Reference.path? reference, ∃ c ∈ componentsOf document,
    path <+: c.path ∧ path ≠ c.path

instance (document : Json) (reference : String) : Decidable (PointsAbove document reference) :=
  inferInstanceAs (Decidable (∃ path ∈ Reference.path? reference, ∃ c ∈ componentsOf document,
    path <+: c.path ∧ path ≠ c.path))

/-- **With a place inside a component the operations reach the component.** -/
theorem Reachable.parent {reference component : String} (h : Reachable document reference)
    (hparent : Reference.parent? reference = some component) : Reachable document component := by
  cases h with
  | operation h =>
    unfold operationReferences at h
    cases hpaths : document.get? "paths" with
    | none => simp [hpaths] at h
    | some paths =>
      rw [hpaths] at h
      refine .operation ?_
      rw [operationReferences, hpaths]
      exact parent_mem_references hparent h
  | step h htarget hnext => exact .step h htarget (parent_mem_references hparent hnext)

/-- The operations reach each component that a reference they reach leads through. -/
theorem Reachable.through {reference : String} {path : List String} {c : Component}
    (h : Reachable document reference) (hcanonical : Reference.isCanonical reference = true)
    (hpath : Reference.path? reference = some path) (hkind : c.kind ∈ prunableKinds)
    (hthrough : c.path <+: path) : Reachable document c.reference := by
  have hplain : ∀ kind ∈ prunableKinds, '~' ∉ kind.toList ∧ '/' ∉ kind.toList := by decide
  obtain ⟨htilde, hslash⟩ := hplain c.kind hkind
  obtain ⟨more, rfl⟩ := hthrough
  rcases Reference.eq_or_parent?_of_path? hcanonical htilde hslash hpath with heq | hparent
  · rw [heq] at h
    exact h
  · exact h.parent hparent

/-- **What the operations reach points at the same as before** where only what they do not reach
    goes. -/
theorem Reachable.resolve?_restrict {reference : String} (h : Reachable document reference)
    (hkeys : document.hasDistinctKeys = true)
    (hcanonical : Reference.isCanonical reference = true)
    (habove : ¬ PointsAbove document reference) :
    (restrict (reachable document).contains document).resolve? reference =
      document.resolve? reference := by
  simp only [Reference.resolve?_eq]
  cases hpath : Reference.path? reference with
  | none => rfl
  | some path =>
    refine at?_restrict hkeys fun c hc hprefix => ?_
    have hthrough : c.path <+: path := by
      rcases hprefix with hthrough | hbehind
      · exact hthrough
      · by_cases heq : path = c.path
        · exact heq ▸ List.prefix_refl _
        · exact absurd ⟨path, hpath, c, hc, hbehind, heq⟩ habove
    rw [List.contains_iff_mem, mem_reachable]
    exact h.through hcanonical hpath (mem_componentsOf.mp hc).1 hthrough

/-! ## 3. A run -/

section Restricted

variable (hkeys : document.hasDistinctKeys = true)
  (hreferences : ∀ reference, Reachable document reference →
    Reference.isCanonical reference = true ∧ ¬ PointsAbove document reference)
include hkeys hreferences

/-- **What the operations reached they reach again** when the rest is gone. -/
theorem Reachable.restrict {reference : String} (h : Reachable document reference) :
    Reachable (Prune.restrict (reachable document).contains document) reference := by
  induction h with
  | operation h => exact .operation (by rwa [operationReferences_restrict])
  | step h htarget hnext ih =>
    obtain ⟨hcanonical, habove⟩ := hreferences _ h
    exact .step ih ((h.resolve?_restrict hkeys hcanonical habove).trans htarget) hnext

/-- Everything is kept that is left. -/
theorem reachable_of_mem_componentsOf_restrict {c : Component}
    (hc : c ∈ componentsOf (restrict (reachable document).contains document)) :
    c.reference ∈ reachable (restrict (reachable document).contains document) := by
  rw [componentsOf_restrict, List.mem_filter, List.contains_iff_mem, mem_reachable] at hc
  exact mem_reachable.mpr (hc.2.restrict hkeys hreferences)

end Restricted

/-- A run by marks changes nothing in a cleaned document whose components the operations reach. -/
theorem prune_eq_self_of_reachable {options : PruneOptions} (hobject : document.isObject = true)
    (hkeys : document.hasDistinctKeys = true) (hstrategy : options.strategy = .reachability)
    (hclean : clean options.allowed .document document = document)
    (hreachable : ∀ c ∈ componentsOf document, c.reference ∈ reachable document) :
    prune options document = (document, .ok ⟨1, []⟩) := by
  have hnone : doomed (reachable document).contains document = [] := by
    rw [doomed_eq, List.map_eq_nil_iff, List.filter_eq_nil_iff]
    exact fun c hc => by simpa using hreachable c hc
  rw [prune_of_reachability hobject hkeys hstrategy, hclean, hnone,
    restrict_eq_self hkeys fun c hc => List.contains_iff_mem.mpr (hreachable c hc)]

/-- **Pruning by marks leaves no reference dangling**: where every reference that the operations
    reach writes the name of a component as references do, and none points at a place that holds
    components, each reference that is made in the paths or in the body of a component that is left
    points at the same as in the cleaned document, and so does each one that the operations reach
    otherwise. A second run deletes nothing and leaves the document as it is. -/
theorem prune_leaves_no_dangling (options : PruneOptions) (document : Json)
    (hobject : document.isObject = true) (hkeys : document.hasDistinctKeys = true)
    (hstrategy : options.strategy = .reachability)
    (hreferences : ∀ reference, Reachable (clean options.allowed .document document) reference →
      Reference.isCanonical reference = true ∧
        ¬ PointsAbove (clean options.allowed .document document) reference) :
    let cleaned := clean options.allowed .document document
    let out := (prune options document).1
    (∀ reference, (reference ∈ operationReferences out ∨
        (∃ c ∈ componentsOf out, reference ∈ references c.body) ∨ Reachable cleaned reference) →
      out.resolve? reference = cleaned.resolve? reference) ∧
      prune options out = (out, .ok ⟨1, []⟩) := by
  intro cleaned out
  have hclean : cleaned.hasDistinctKeys = true :=
    hasDistinctKeys_clean options.allowed .document document hkeys
  have hout : out = restrict (reachable cleaned).contains cleaned :=
    congrArg Prod.fst (prune_of_reachability hobject hkeys hstrategy)
  constructor
  · intro reference hmade
    have hreachable : Reachable cleaned reference := by
      rw [hout] at hmade
      rcases hmade with h | ⟨c, hc, hmem⟩ | h
      · exact .operation (by rwa [operationReferences_restrict] at h)
      · rw [componentsOf_restrict, List.mem_filter, List.contains_iff_mem, mem_reachable] at hc
        exact .step hc.2 (resolve?_reference hclean hc.1) hmem
      · exact h
    obtain ⟨hcanonical, habove⟩ := hreferences reference hreachable
    rw [hout]
    exact hreachable.resolve?_restrict hclean hcanonical habove
  · rw [hout]
    exact prune_eq_self_of_reachable (isObject_restrict_clean hobject)
      (hasDistinctKeys_restrict hclean) hstrategy (clean_restrict_clean document)
      fun c hc => reachable_of_mem_componentsOf_restrict hclean hreferences hc

/-- A document with a reference to a place inside a component whose name is written with an escape,
    and with one component that nothing leads to. -/
def deepReference : Json :=
  .obj [
    ("paths", .obj [("/a", .obj [("get", .obj [
      ("$ref", .str "#/components/schemas/a~1b/properties/c")])])]),
    ("components", .obj [("schemas", .obj [
      ("a/b", .obj [("properties", .obj [("c", .obj [
        ("$ref", .str "#/components/schemas/Used")])])]),
      ("Used", .obj [("items", .obj [("$ref", .str "#/paths/~1a")])]),
      ("Loose", .obj [("$ref", .str "#/components/schemas/Used")])])])]

theorem prune_leaves_no_dangling_deepReference :
    (prune ⟨.reachability, 0, []⟩ deepReference).2 = .ok ⟨1, ["#/components/schemas/Loose"]⟩ ∧
      (prune ⟨.reachability, 0, []⟩ deepReference).1.resolve?
          "#/components/schemas/a~1b/properties/c" =
        (clean [] .document deepReference).resolve? "#/components/schemas/a~1b/properties/c" ∧
      prune ⟨.reachability, 0, []⟩ (prune ⟨.reachability, 0, []⟩ deepReference).1 =
        ((prune ⟨.reachability, 0, []⟩ deepReference).1, .ok ⟨1, []⟩) := by
  have hall : ∀ reference ∈ reachable (clean [] .document deepReference),
      Reference.isCanonical reference = true ∧
        ¬ PointsAbove (clean [] .document deepReference) reference := by decide
  obtain ⟨hpoints, hagain⟩ := prune_leaves_no_dangling ⟨.reachability, 0, []⟩ deepReference
    (by decide) (by decide) rfl fun reference h => hall reference (mem_reachable.mpr h)
  exact ⟨by rfl, hpoints _ (.inl (by decide)), hagain⟩

end ApiTypes.Prune

import ApiTypes.Proofs.Compile.Lookups
import ApiTypes.Proofs.Prune.FixedPoint
import ApiTypes.Proofs.Prune.Reachability

/-!
  What pruning keeps of a document with regular places.

  Either strategy spares a component that an operation or the body of a spared component refers to
  (`Spares`). The walk for references covers every place, so in a pruned document every spared
  component is there, cleaned, and what it refers to is spared as well: the pruned document trims
  the document (`trims_of_spares`).
-/

namespace ApiTypes

open Prune

/-! ## 1. Both strategies -/

namespace Prune

/-- A choice of components that takes in what operations refer to, and with a component of a
    referring kind what its body refers to. -/
structure Spares (keep : String → Bool) (document : Json) : Prop where
  operations : ∀ c ∈ componentsOf document, c.reference ∈ operationReferences document →
    keep c.reference = true
  bodies : ∀ d ∈ componentsOf document, d.kind ∈ referringKinds → keep d.reference = true →
    ∀ c ∈ componentsOf document, c.reference ∈ references d.body → keep c.reference = true

variable {document out : Json}

/-- What marking keeps. -/
theorem spares_reachable (hkeys : document.hasDistinctKeys = true) :
    Spares (reachable document).contains document where
  operations c _ href := List.contains_iff_mem.mpr (mem_reachable.mpr (.operation href))
  bodies d hd _ hkeep c _ href := by
    have hreachable := mem_reachable.mp (List.contains_iff_mem.mp hkeep)
    exact List.contains_iff_mem.mpr
      (mem_reachable.mpr (.step hreachable (resolve?_reference hkeys hd) href))

/-- A component that a settled run keeps with others, if it is one that they support. -/
theorem Settled.not_mem_gone {gone : List String} (h : Settled document out gone) {c : Component}
    (hc : c ∈ componentsOf document)
    (hsupported : c.reference ∈ operationReferences document ∨
      ∃ d ∈ componentsOf out, d.kind ∈ referringKinds ∧ c.reference ∈ references d.body) :
    c.reference ∉ gone := by
  let T : Set Component := {x | x ∈ componentsOf out ∨ x = c}
  refine h.spares T ⟨?_, ?_⟩ c (.inr rfl)
  · rintro x (hx | rfl)
    · exact (h.mem_iff.mp hx).1
    · exact hc
  · rintro x (hx | rfl)
    · refine (h.isGreatest.1.supported x hx).imp_right ?_
      rintro ⟨d, hd, hkind, href⟩
      exact ⟨d, .inl hd, hkind, href⟩
    · refine hsupported.imp_right ?_
      rintro ⟨d, hd, hkind, href⟩
      exact ⟨d, .inl hd, hkind, href⟩

/-- What passes keep. -/
theorem Settled.spares_not_gone {gone : List String} (h : Settled document out gone) :
    Spares (fun reference => !gone.contains reference) document where
  operations c hc href := by simpa using h.not_mem_gone hc (.inl href)
  bodies d hd hkind hkeep c hc href := by
    have hmem : d ∈ componentsOf out := h.mem_iff.mpr ⟨hd, by simpa using hkeep⟩
    simpa using h.not_mem_gone hc (.inr ⟨d, hmem, hkind, href⟩)

/-- **A pruning run restricts the cleaned document to a choice that spares.** -/
theorem exists_spares_of_prune {options : PruneOptions} {report : Report}
    (hobject : document.isObject = true) (hkeys : document.hasDistinctKeys = true)
    (h : prune options document = (out, .ok report)) :
    ∃ keep, out = restrict keep (clean options.allowed .document document) ∧
      Spares keep (clean options.allowed .document document) := by
  cases hstrategy : options.strategy with
  | fixedPoint =>
    have hsettled := settled_of_prune hobject hkeys hstrategy h
    exact ⟨_, hsettled.restricted, hsettled.spares_not_gone⟩
  | reachability =>
    rw [prune_of_reachability hobject hkeys hstrategy] at h
    exact ⟨_, (Prod.mk.inj h).1.symm,
      spares_reachable (hasDistinctKeys_clean options.allowed .document document hkeys)⟩

end Prune

/-! ## 2. Components of a cleaned document -/

variable {allowed : List String} {part : Part} {document : Json} {keep : String → Bool}
  {kind name : String}

theorem componentPart_of_mem_kindsOf (h : kind ∈ kindsOf part) :
    kind ∈ referringKinds ∧ componentPart kind = .mapOf part ∧
      isLasting .components kind = true := by
  cases part <;> simp only [kindsOf, List.not_mem_nil, List.mem_cons, or_false] at h
  case parameter => rcases h with rfl | rfl <;> decide
  all_goals
    subst h
    decide

/-- The components of a kind are cleaned one by one. -/
theorem entriesOf_clean (h : kind ∈ kindsOf part) :
    entriesOf (clean allowed .document document) kind =
      (entriesOf document kind).map fun entry => (entry.1, clean allowed part entry.2) := by
  obtain ⟨-, hpart, hlasting⟩ := componentPart_of_mem_kindsOf h
  unfold entriesOf
  rw [get?_clean_of_isLasting rfl]
  cases document.get? "components" with
  | none => rfl
  | some components =>
    change (((clean allowed .components components).get? kind).bind Json.members?).getD [] =
      (((components.get? kind).bind Json.members?).getD []).map _
    rw [get?_clean_of_isLasting hlasting]
    cases components.get? kind with
    | none => rfl
    | some collection =>
      change ((clean allowed (componentPart kind) collection).members?).getD [] = _
      rw [hpart, members?_clean_mapOf]
      cases hmembers : collection.members? <;> simp [hmembers]

theorem mem_componentsOf_clean (h : kind ∈ kindsOf part) {body : Json}
    (hc : ⟨kind, name, body⟩ ∈ componentsOf document) :
    ⟨kind, name, clean allowed part body⟩ ∈ componentsOf (clean allowed .document document) := by
  obtain ⟨hkind, hentry⟩ := mem_componentsOf.mp hc
  refine mem_componentsOf.mpr ⟨hkind, ?_⟩
  rw [entriesOf_clean h]
  exact List.mem_map_of_mem hentry

/-- A component stands in the collection of its kind. -/
theorem exists_of_mem_componentsOf {c : Component} (hc : c ∈ componentsOf document) :
    ∃ components entries, document.get? "components" = some components ∧
      components.get? c.kind = some (.obj entries) ∧ (c.name, c.body) ∈ entries := by
  obtain ⟨-, hentry⟩ := mem_componentsOf.mp hc
  unfold entriesOf at hentry
  cases hcomponents : document.get? "components" with
  | none => simp [hcomponents] at hentry
  | some components =>
    cases hcollection : components.get? c.kind with
    | none => simp [hcomponents, hcollection] at hentry
    | some collection =>
      cases collection with
      | obj entries =>
        exact ⟨components, entries, rfl, hcollection, by
          simpa [hcomponents, hcollection, Json.members?] using hentry⟩
      | _ => simp [hcomponents, hcollection, Json.members?] at hentry

theorem mem_places_of_get? {key : String} {value child : Json} (hcallback : part ≠ .callback)
    (hget : value.get? key = some child) {place : Part × List (String × Json)}
    (hplace : place ∈ places (childPart part key) child) : place ∈ places part value := by
  cases value with
  | obj members =>
    exact mem_places_obj.mpr ⟨hcallback, .inr ⟨_, Entries.mem_of_get? hget, hplace⟩⟩
  | _ => simp [Json.get?, Json.members?] at hget

/-- The places of a component are places of the document. -/
theorem mem_places_of_component {c : Component} (h : c.kind ∈ kindsOf part)
    (hc : c ∈ componentsOf document) {place : Part × List (String × Json)}
    (hplace : place ∈ places part c.body) : place ∈ places .document document := by
  obtain ⟨-, hpart, -⟩ := componentPart_of_mem_kindsOf h
  obtain ⟨components, entries, hcomponents, hcollection, hentry⟩ := exists_of_mem_componentsOf hc
  refine mem_places_of_get? (by simp) hcomponents ?_
  refine mem_places_of_get? (by decide) hcollection ?_
  change place ∈ places (componentPart c.kind) (.obj entries)
  rw [hpart]
  exact mem_places_obj.mpr ⟨by simp, .inr ⟨_, hentry, hplace⟩⟩

theorem hasDistinctKeys_of_component (hkeys : document.hasDistinctKeys = true) {c : Component}
    (hc : c ∈ componentsOf document) : c.body.hasDistinctKeys = true := by
  obtain ⟨components, entries, hcomponents, hcollection, hentry⟩ := exists_of_mem_componentsOf hc
  have hcollectionKeys := Json.hasDistinctKeys_of_get?
    (Json.hasDistinctKeys_of_get? hkeys hcomponents) hcollection
  exact (Json.hasDistinctKeys_obj.mp hcollectionKeys).2 _ hentry

/-! ## 3. Documents with regular places -/

/-- A document without repeated keys in which the paths start with a slash, the components of the
    referring kinds are no lists, and all places are regular. -/
structure WellReferenced (document : Json) : Prop where
  keys : document.hasDistinctKeys = true
  slash : ∀ paths, (document.get? "paths").bind Json.members? = some paths →
    ∀ entry ∈ paths, Text.startsWith "/" entry.1 = true
  collections : ∀ kind ∈ referringKinds, ∀ items,
    (document.get? "components").bind (Json.get? kind) ≠ some (.arr items)
  regular : ∀ place ∈ places .document document, isRegular place = true

/-- A reference that fits a part names a component of a kind that may stand there. -/
theorem exists_kind_of_fits {reference : String} (h : fits part reference = true) :
    ∃ kind ∈ kindsOf part, ∃ name, reference = Reference.ofComponent kind name := by
  obtain ⟨kind, hkind, hreference⟩ := List.any_eq_true.mp (Bool.and_eq_true_iff.mp h).2
  exact ⟨kind, hkind, _, of_decide_eq_true hreference⟩

/-- No key that starts with a slash is a keyword. -/
theorem not_keyword_of_slash {path : String} (h : Text.startsWith "/" path = true) :
    dataKeys.contains path = false ∧ nameKeys.contains path = false := by
  have hkeys : ∀ key ∈ dataKeys ++ nameKeys, Text.startsWith "/" key = false := by decide
  constructor <;>
    · refine Bool.eq_false_iff.mpr fun hmem => ?_
      have hkey := hkeys path (List.mem_append.mpr (by simp [List.contains_iff_mem.mp hmem]))
      simp [h] at hkey

/-- What a path item refers to the operations refer to. -/
theorem mem_references_of_path {paths : List (String × Json)} {path : String} {item : Json}
    (hslash : Text.startsWith "/" path = true) (hentry : (path, item) ∈ paths)
    {reference : String} (href : reference ∈ references item) :
    reference ∈ references (.obj paths) := by
  obtain ⟨hdata, hname⟩ := not_keyword_of_slash hslash
  rw [references, collect]
  refine List.mem_append_right _ ?_
  induction paths with
  | nil => exact absurd hentry List.not_mem_nil
  | cons first rest ih =>
    obtain ⟨key, value⟩ := first
    rw [collectMembers]
    rcases List.mem_cons.mp hentry with heq | hentry
    · obtain ⟨rfl, rfl⟩ := Prod.mk.inj heq
      refine List.mem_append_left _ ?_
      simpa only [hdata, hname, Bool.false_eq_true, if_false, references] using href
    · exact List.mem_append_right _ (ih hentry)

/-- Whether what a reference names is kept, if it is a component. -/
def IsKept (keep : String → Bool) (document : Json) (reference : String) : Prop :=
  ∀ c ∈ componentsOf document, c.reference = reference → keep reference = true

namespace WellReferenced

variable (h : WellReferenced document)
  (hspares : Spares keep (clean allowed .document document))
include h hspares

/-- **A component that is kept is sound.** -/
theorem sound_component {c : Component} (hkind : c.kind ∈ kindsOf part)
    (hc : c ∈ componentsOf document) (hkeep : keep c.reference = true) :
    Sound allowed (IsKept keep (clean allowed .document document)) part c.body where
  keys := hasDistinctKeys_of_component h.keys hc
  regular place hplace := h.regular place (mem_places_of_component hkind hc hplace)
  kept place hplace reference hreference d hd hname := by
    have hinner : isInner part = true ∧ isNamed part = false := by
      cases part <;> first | exact ⟨rfl, rfl⟩ | simp [kindsOf] at hkind
    have hmade := mem_collect_of_place part _ hinner.1 hplace hreference
    rw [hinner.2] at hmade
    subst hname
    exact hspares.bodies _ (mem_componentsOf_clean hkind hc)
      (componentPart_of_mem_kindsOf hkind).1 hkeep d hd hmade

/-- **A path item is sound.** -/
theorem sound_pathItem {paths : Json} (hpaths : document.get? "paths" = some paths)
    {members : List (String × Json)} (hmembers : paths.members? = some members)
    {entry : String × Json} (hentry : entry ∈ members)
    (hkeep : keepsKey allowed .paths entry.1 = true) :
    Sound allowed (IsKept keep (clean allowed .document document)) .pathItem entry.2 := by
  cases paths with
  | obj found =>
    obtain rfl := Option.some.inj hmembers
    have hpathsKeys := Json.hasDistinctKeys_of_get? h.keys hpaths
    refine ⟨(Json.hasDistinctKeys_obj.mp hpathsKeys).2 entry hentry, fun place hplace => ?_,
      fun place hplace reference hreference c hc hname => ?_⟩
    · refine h.regular place (mem_places_of_get? (by simp) hpaths ?_)
      exact mem_places_obj.mpr ⟨by simp [childPart], .inr ⟨entry, hentry, hplace⟩⟩
    · subst hname
      refine hspares.operations c hc ?_
      have hmade := mem_collect_of_place .pathItem _ rfl hplace hreference
      have hslash := h.slash found (by simp [hpaths, Json.members?]) entry hentry
      have hget : (clean allowed .document document).get? "paths" =
          some (clean allowed .paths (.obj found)) := by
        rw [get?_clean_of_isLasting rfl, hpaths]
        rfl
      have hcleaned : (entry.1, clean allowed .pathItem entry.2) ∈
          cleanMembers allowed .paths found := by
        rw [cleanMembers_eq]
        exact List.mem_map.mpr ⟨entry, List.mem_filter.mpr ⟨hentry, hkeep⟩, rfl⟩
      rw [operationReferences, hget]
      exact mem_references_of_path hslash hcleaned hmade
  | _ => simp [Json.members?] at hmembers

/-- **The pruned document trims the document.** -/
theorem trims (hrecognized : Extensions.recognized ⊆ allowed) {env env' : Env}
    (hdoc : env.doc.root = document)
    (hdoc' : env'.doc.root = restrict keep (clean allowed .document document))
    (hsize : env.size = env.doc.root.size) (hsize' : env'.size = env'.doc.root.size) :
    Trims allowed (IsKept keep (clean allowed .document document)) env env' where
  recognized := hrecognized
  size := hsize
  size' := hsize'
  target := by
    intro part reference target hfits hkept htarget
    obtain ⟨kind, hkind, name, rfl⟩ := exists_kind_of_fits hfits
    obtain ⟨hreferring, -, -⟩ := componentPart_of_mem_kindsOf hkind
    have hprunable := prunable_of_referring kind hreferring
    rw [Document.resolve?, hdoc] at htarget
    have hc := mem_componentsOf_of_resolve? hprunable (h.collections kind hreferring) htarget
    have hcleaned : ⟨kind, name, clean allowed part target⟩ ∈
        componentsOf (clean allowed .document document) := mem_componentsOf_clean hkind hc
    have hkeep : keep (Reference.ofComponent kind name) = true := hkept _ hcleaned rfl
    have hsound := h.sound_component hspares hkind hc hkeep
    refine ⟨?_, hsound⟩
    have hkeys : (restrict keep (clean allowed .document document)).hasDistinctKeys = true :=
      hasDistinctKeys_restrict (hasDistinctKeys_clean allowed .document document h.keys)
    have hleft : ⟨kind, name, clean allowed part target⟩ ∈
        componentsOf (restrict keep (clean allowed .document document)) := by
      rw [componentsOf_restrict]
      exact List.mem_filter.mpr ⟨hcleaned, hkeep⟩
    have hresolve := resolve?_reference hkeys hleft
    rwa [Document.resolve?, hdoc']

end WellReferenced

end ApiTypes

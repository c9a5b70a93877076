import ApiTypes.Proofs.Compile.Run
import ApiTypes.Proofs.Filter
import ApiTypes.Proofs.Prune.Cleanup

/-!
  What filtering and pruning leave of the component schemas.

  A collection of schemas that is an object stays one: the filter does not touch components, the
  cleanup keeps the kinds of values, and sweeps only take entries out.
-/

namespace ApiTypes

/-- The component schemas of a document are an object, if there are any. -/
def HasSchemaObject (document : Json) : Prop :=
  ∀ schemas, (document.get? "components").bind (Json.get? "schemas") = some schemas →
    schemas.isObject = true

namespace Prune

variable {document : Json}

/-! ## 1. Pruning -/

/-- What a cleanup and sweeps keep, pruning keeps. -/
theorem prune_induction {P : Json → Prop} (options : PruneOptions)
    (hclean : ∀ document, P document → P (clean options.allowed .document document))
    (hsweep : ∀ keep document, P document → P (sweep keep document)) (h : P document) :
    P (prune options document).1 := by
  have hfixed : ∀ limit left report document, P document →
      P (fixedPoint limit left report document).1 := by
    intro limit left
    induction left with
    | zero => exact fun _ _ h => h
    | succ left ih =>
      intro report document h
      simp only [fixedPoint]
      split
      · exact h
      · exact ih _ _ (hsweep _ _ h)
  unfold prune
  split
  · exact h
  · dsimp only
    split
    · exact hfixed _ _ _ _ (hclean _ h)
    · exact hsweep _ _ (hclean _ h)

/-- A sweep leaves a collection of the same kind of value under each key. -/
theorem isObject_sweepKinds {keep : String → Bool} {key : String} {collection : Json}
    (kinds : List String) : ∀ collections : List (String × Json),
      Entries.get? key (kinds.foldl (fun collections kind => sweepKind keep kind collections)
        collections) = some collection →
      ∃ old, Entries.get? key collections = some old ∧ collection.isObject = old.isObject := by
  induction kinds with
  | nil => exact fun collections h => ⟨collection, h, rfl⟩
  | cons kind rest ih =>
    intro collections h
    obtain ⟨swept, hswept, hobject⟩ := ih _ h
    change Entries.get? key (sweepKind keep kind collections) = some swept at hswept
    unfold sweepKind at hswept
    rw [Entries.get?_adjust] at hswept
    split at hswept
    · obtain ⟨old, hold, rfl⟩ := Option.map_eq_some_iff.mp hswept
      exact ⟨old, hold, by rw [hobject]; cases old <;> rfl⟩
    · exact ⟨swept, hswept, hobject⟩

theorem hasSchemaObject_sweep (keep : String → Bool) (h : HasSchemaObject document) :
    HasSchemaObject (sweep keep document) := by
  intro schemas hschemas
  cases document with
  | obj members =>
    obtain ⟨components, hcomponents, hget⟩ := Option.bind_eq_some_iff.mp hschemas
    simp only [sweep, Json.mapMembers, Json.get?_obj, Entries.get?_adjust, if_true] at hcomponents
    obtain ⟨old, hold, rfl⟩ := Option.map_eq_some_iff.mp hcomponents
    cases old with
    | obj collections =>
      obtain ⟨found, hfound, hobject⟩ := isObject_sweepKinds prunableKinds collections hget
      rw [hobject]
      exact h found (by rw [Json.get?_obj, hold]; exact hfound)
    | _ => simp [Json.mapMembers, Json.get?, Json.members?] at hget
  | _ => exact h schemas hschemas

end Prune

/-! ## 2. Preparing -/

theorem root_of_ofJson? {value : Json} {doc : Document} (h : Document.ofJson? value = some doc) :
    doc.root = value := by
  cases value with
  | obj members =>
    obtain rfl := Option.some.inj h
    rfl
  | _ => simp [Document.ofJson?] at h

/-- **A prepared document is the filtered one**, pruned where that is asked for. -/
theorem prepare_eq_ok {document : Json} {options : Options} {doc : Document}
    {report : Option Prune.Report} (h : prepare document options = .ok (doc, report)) :
    (∃ r, report = some r ∧ options.prune = true ∧
        Prune.prune options.pruning (options.filter.apply document).1 = (doc.root, .ok r)) ∨
      (report = none ∧ options.prune = false ∧ (options.filter.apply document).1 = doc.root) := by
  unfold prepare at h
  generalize (options.filter.apply document).1 = filtered at h ⊢
  by_cases hprune : (options.prune && filtered.isObject) = true
  · rcases hrun : Prune.prune options.pruning filtered with ⟨working, outcome⟩
    cases outcome with
    | error e => simp [hprune, hrun, bind, Except.bind] at h
    | ok r =>
      simp only [hprune, hrun, if_true, bind, Except.bind, pure, Except.pure] at h
      cases hdoc : Document.ofJson? working with
      | none => simp [hdoc, throw, throwThe, MonadExceptOf.throw] at h
      | some found =>
        obtain ⟨rfl, rfl⟩ : found = doc ∧ some r = report := by simpa [hdoc] using h
        exact .inl ⟨r, rfl, (Bool.and_eq_true_iff.mp hprune).1, by rw [root_of_ofJson? hdoc]⟩
  · simp only [hprune, Bool.false_eq_true, if_false, bind, Except.bind, pure, Except.pure] at h
    cases hdoc : Document.ofJson? filtered with
    | none => simp [hdoc, throw, throwThe, MonadExceptOf.throw] at h
    | some found =>
      obtain ⟨rfl, rfl⟩ : found = doc ∧ none = report := by simpa [hdoc] using h
      have hroot := root_of_ofJson? hdoc
      refine .inr ⟨rfl, ?_, hroot.symm⟩
      simpa [← hroot, Document.root, Json.isObject, Json.members?] using hprune

/-- **The component schemas of a prepared document are an object** where those of the document
    are. -/
theorem hasSchemaObject_prepare {document : Json} {options : Options} {doc : Document}
    {report : Option Prune.Report} (h : HasSchemaObject document)
    (hprepare : prepare document options = .ok (doc, report)) : HasSchemaObject doc.root := by
  have hfiltered : HasSchemaObject (options.filter.apply document).1 := by
    intro schemas hschemas
    rw [Filter.get?_apply_of_ne _ (by decide)] at hschemas
    exact h schemas hschemas
  rcases prepare_eq_ok hprepare with ⟨r, -, -, hrun⟩ | ⟨-, -, hroot⟩
  · have hpruned : HasSchemaObject
        (Prune.prune options.pruning (options.filter.apply document).1).1 :=
      Prune.prune_induction options.pruning
        (fun document h => Prune.isObject_collection_clean _ h)
        (fun keep document h => Prune.hasSchemaObject_sweep keep h) hfiltered
    rwa [hrun] at hpruned
  · rwa [hroot] at hfiltered

end ApiTypes

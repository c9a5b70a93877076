import ApiTypes.Compile.Basic
import Mathlib.Data.List.Basic

/-!
  How a resolution runs.

  `Yields act s a s'` says that a resolution that starts in the session `s` succeeds with `a` and
  leaves the session `s'`. The laws say what that means for each way to put resolutions together,
  so that the run of a resolution is taken apart step by step.
-/

namespace ApiTypes

namespace Resolve

variable {α β : Type} {s s' : Session}

/-- How a resolution ends that starts in a session. -/
def outcome (act : Resolve α) (s : Session) : Except CompileError α × Session := act.run.run s

/-- A resolution that starts in `s` succeeds with `a` and leaves `s'`. -/
def Yields (act : Resolve α) (s : Session) (a : α) (s' : Session) : Prop :=
  outcome act s = (.ok a, s')

/-- A resolution ends in one way. -/
theorem yields_unique {act : Resolve α} {a b : α} {m : Session} (h : Yields act s a s')
    (h' : Yields act s b m) : a = b ∧ s' = m := by
  obtain ⟨heq, hsession⟩ := Prod.mk.inj (h.symm.trans h')
  exact ⟨Except.ok.inj heq, hsession⟩

/-- A resolution that does not fail succeeds with something. -/
theorem exists_yields {act : Resolve α} (h : (outcome act s).1.isOk = true) :
    ∃ a s', Yields act s a s' := by
  rcases hrun : outcome act s with ⟨result, s'⟩
  rw [hrun] at h
  cases result with
  | ok a => exact ⟨a, s', hrun⟩
  | error e => exact absurd h Bool.false_ne_true

/-! ## 1. Steps -/

theorem outcome_pure (a : α) (s : Session) : outcome (pure a) s = (.ok a, s) := rfl

theorem outcome_throw (e : CompileError) (s : Session) :
    outcome (throw e : Resolve α) s = (.error e, s) := rfl

/-- Of two resolutions in a row the second starts where the first ends, unless that fails. -/
theorem outcome_bind (act : Resolve α) (next : α → Resolve β) (s : Session) :
    outcome (act >>= next) s =
      match outcome act s with
      | (.ok a, m) => outcome (next a) m
      | (.error e, m) => (.error e, m) := by
  unfold outcome ExceptT.run StateT.run
  simp only [bind, ExceptT.bind, ExceptT.mk, StateT.bind, ExceptT.bindCont]
  rcases act s with ⟨result, m⟩
  cases result <;> rfl

@[simp] theorem yields_pure {a b : α} : Yields (pure a) s b s' ↔ a = b ∧ s = s' := by
  simp [Yields, outcome_pure]

@[simp] theorem yields_throw {e : CompileError} {a : α} : ¬ Yields (throw e) s a s' := by
  simp [Yields, outcome_throw]

@[simp] theorem yields_bind {act : Resolve α} {next : α → Resolve β} {b : β} :
    Yields (act >>= next) s b s' ↔ ∃ a m, Yields act s a m ∧ Yields (next a) m b s' := by
  unfold Yields
  rw [outcome_bind]
  rcases outcome act s with ⟨result, m⟩
  cases result <;> simp

@[simp] theorem yields_map {act : Resolve α} {f : α → β} {b : β} :
    Yields (f <$> act) s b s' ↔ ∃ a, Yields act s a s' ∧ f a = b := by
  rw [← bind_pure_comp, yields_bind]
  simp

@[simp] theorem yields_get {a : Session} : Yields get s a s' ↔ s = a ∧ s = s' := by
  have h : outcome get s = (.ok s, s) := rfl
  simp [Yields, h]

@[simp] theorem yields_set {session : Session} {a : PUnit} :
    Yields (set session) s a s' ↔ session = s' := by
  have h : outcome (set session : Resolve PUnit) s = (.ok ⟨⟩, session) := rfl
  simp [Yields, h]

@[simp] theorem yields_ask {result : Except CompileError α} {a : α} :
    Yields (ask result) s a s' ↔ result = .ok a ∧ s = s' := by
  have h : outcome (ask result) s = (result, s) := rfl
  simp [Yields, h]

@[simp] theorem yields_within {before after : Session → Session} {act : Resolve α} {a : α} :
    Yields (within before after act) s a s' ↔
      ∃ m, Yields act (before s) a m ∧ after m = s' := by
  have h : outcome (within before after act) s =
      ((outcome act (before s)).1, after (outcome act (before s)).2) := rfl
  unfold Yields
  rw [h]
  rcases outcome act (before s) with ⟨result, m⟩
  simp

/-- A resolution one level deeper runs with the depth changed. -/
theorem yields_deeper {site : Site} {act : Resolve α} {a : α}
    (h : (deeper site act).Yields s a s') :
    s.depth < maxDepth ∧ ∃ m, act.Yields { s with depth := s.depth + 1 } a m ∧
      s' = { m with depth := m.depth - 1 } := by
  unfold deeper at h
  simp only [yields_bind, yields_get] at h
  obtain ⟨_, _, ⟨rfl, rfl⟩, h⟩ := h
  split at h
  · simp at h
  · rename_i hdepth
    obtain ⟨m, hact, rfl⟩ := yields_within.mp h
    exact ⟨Nat.lt_of_not_le hdepth, m, hact, rfl⟩

/-! ## 2. Lists -/

/-- Of actions for the elements of a list the rest runs where the first ends, unless that
    fails. -/
theorem outcome_forM_cons {γ : Type} (act : γ → Resolve PUnit) (item : γ) (rest : List γ)
    (s : Session) :
    outcome ((item :: rest).forM act) s =
      match outcome (act item) s with
      | (.ok _, m) => outcome (rest.forM act) m
      | (.error e, m) => (.error e, m) := by
  rw [List.forM_eq_forM, List.forM_cons, outcome_bind]
  rcases outcome (act item) s with ⟨result, m⟩
  cases result <;> rfl

end Resolve

/-! ## 3. Compilations -/

variable {document : Json} {options : Options} {doc : Document} {report : Option Prune.Report}

/-- A document that is not prepared does not compile. -/
theorem compile_of_prepare_error {e : CompileError} (h : prepare document options = .error e) :
    compile document options = .error e ∧ compileAll document options = .error e := by
  simp [compile, compileAll, h, bind, Except.bind]

/-- What a compilation makes of a prepared document. -/
theorem compile_of_prepare (h : prepare document options = .ok (doc, report)) :
    compile document options =
      match (Env.runAll { doc, options } (Task.ofDocument doc)).outcome {} with
      | (.ok _, session) => .ok ⟨session.registry.definitions, report, doc.root⟩
      | (.error e, _) => .error e := by
  simp only [compile, h, bind, Except.bind, Resolve.outcome]
  rcases (Env.runAll { doc, options } (Task.ofDocument doc)).run.run {} with ⟨result, session⟩
  cases result <;> rfl

/-- **A compilation that succeeds is a run of all tasks** over the prepared document. -/
theorem compile_eq_ok {c : Compilation} (h : compile document options = .ok c) :
    ∃ doc report session u, prepare document options = .ok (doc, report) ∧
      (Env.runAll { doc, options } (Task.ofDocument doc)).Yields {} u session ∧
      c = ⟨session.registry.definitions, report, doc.root⟩ := by
  cases hprepare : prepare document options with
  | error e => simp [(compile_of_prepare_error hprepare).1] at h
  | ok prepared =>
    obtain ⟨doc, report⟩ := prepared
    rw [compile_of_prepare hprepare] at h
    rcases hrun : (Env.runAll { doc, options } (Task.ofDocument doc)).outcome {} with
      ⟨result, session⟩
    rw [hrun] at h
    cases result with
    | error e => simp at h
    | ok u => exact ⟨doc, report, session, u, rfl, hrun, (Except.ok.inj h).symm⟩

end ApiTypes

import ApiTypes.Check
import ApiTypes.Proofs.Compile.Run

/-!
  Stopping at the first error and going on past it.

  Both ways run the same tasks from the same session. They stay together until a task fails
  (`foldl_settle_of_ok`), and then the error of that task is the first one that is kept
  (`foldl_settle_of_error`).

  * **One compiles exactly when the other keeps no error**, and then both give the same.
  * **The error of one is the first error of the other.**
  * So the check of a document fails exactly when the document does not compile.
-/

namespace ApiTypes

namespace Env

variable {env : Env} {session after : Session} {e : CompileError}

/-! ## 1. One task -/

theorem settle_of_ok (errors : List CompileError) {task : Task} {u : Unit}
    (h : (env.compileTask task).outcome session = (.ok u, after)) :
    env.settle (session, errors) task = (after, errors) := by
  unfold Resolve.outcome at h
  simp only [settle, h]

theorem settle_of_error (errors : List CompileError) {task : Task}
    (h : (env.compileTask task).outcome session = (.error e, after)) :
    ∃ undone, env.settle (session, errors) task = (undone, errors ++ [e]) := by
  unfold Resolve.outcome at h
  simp only [settle, h]
  exact ⟨_, rfl⟩

/-! ## 2. Tasks in a row -/

/-- The errors that are kept stay kept. -/
theorem exists_foldl_settle (env : Env) (tasks : List Task) (session : Session)
    (errors : List CompileError) :
    ∃ last more, tasks.foldl env.settle (session, errors) = (last, errors ++ more) := by
  induction tasks generalizing session errors with
  | nil => exact ⟨session, [], by simp⟩
  | cons task rest ih =>
    rw [List.foldl_cons]
    rcases h : (env.compileTask task).outcome session with ⟨result, after⟩
    cases result with
    | ok u =>
      rw [settle_of_ok errors h]
      exact ih after errors
    | error e =>
      obtain ⟨undone, hundone⟩ := settle_of_error errors h
      obtain ⟨last, more, hlast⟩ := ih undone (errors ++ [e])
      exact ⟨last, e :: more, by rw [hundone, hlast]; simp⟩

/-- **Where all tasks succeed, going on past errors ends in the same session and keeps none.** -/
theorem foldl_settle_of_ok (errors : List CompileError) {tasks : List Task} {u : Unit}
    (h : (env.runAll tasks).outcome session = (.ok u, after)) :
    tasks.foldl env.settle (session, errors) = (after, errors) := by
  induction tasks generalizing session with
  | nil =>
    obtain ⟨-, rfl⟩ := Prod.mk.inj h
    rfl
  | cons task rest ih =>
    rw [runAll, Resolve.outcome_forM_cons] at h
    rcases htask : (env.compileTask task).outcome session with ⟨result, m⟩
    rw [htask] at h
    cases result with
    | ok u =>
      rw [List.foldl_cons, settle_of_ok errors htask]
      exact ih h
    | error e => simp at h

/-- **Where a task fails, its error is the first that is kept.** -/
theorem foldl_settle_of_error (errors : List CompileError) {tasks : List Task}
    (h : (env.runAll tasks).outcome session = (.error e, after)) :
    ∃ last more, tasks.foldl env.settle (session, errors) = (last, errors ++ e :: more) := by
  induction tasks generalizing session with
  | nil => exact absurd (Prod.mk.inj h).1 (by simp)
  | cons task rest ih =>
    rw [runAll, Resolve.outcome_forM_cons] at h
    rcases htask : (env.compileTask task).outcome session with ⟨result, m⟩
    rw [htask] at h
    cases result with
    | ok u =>
      rw [List.foldl_cons, settle_of_ok errors htask]
      exact ih h
    | error first =>
      obtain ⟨rfl, -⟩ : first = e ∧ m = after := by simpa using h
      obtain ⟨undone, hundone⟩ := settle_of_error errors htask
      obtain ⟨last, more, hlast⟩ := exists_foldl_settle env rest undone (errors ++ [first])
      exact ⟨last, more, by rw [List.foldl_cons, hundone, hlast]; simp⟩

end Env

/-! ## 3. Documents -/

/-- What a compilation that stops at the first error says of one that goes on. -/
theorem compileAll_of_compile (document : Json) (options : Options) :
    match compile document options with
    | .ok c => compileAll document options = .ok ⟨c, []⟩
    | .error e => compileAll document options = .error e ∨
        ∃ c more, compileAll document options = .ok ⟨c, e :: more⟩ := by
  cases hprepare : prepare document options with
  | error e =>
    obtain ⟨hcompile, hall⟩ := compile_of_prepare_error hprepare
    rw [hcompile]
    exact .inl hall
  | ok prepared =>
    obtain ⟨doc, report⟩ := prepared
    let env : Env := { doc, options }
    have hall : compileAll document options =
        .ok ⟨⟨(env.runEach (Task.ofDocument doc)).1.registry.definitions, report, doc.root⟩,
          (env.runEach (Task.ofDocument doc)).2⟩ := by
      simp only [compileAll, hprepare]
      rfl
    rw [compile_of_prepare hprepare, hall, Env.runEach]
    rcases hrun : (env.runAll (Task.ofDocument doc)).outcome {} with ⟨result, session⟩
    cases result with
    | ok u =>
      simp only [Env.foldl_settle_of_ok [] hrun]
    | error e =>
      obtain ⟨last, more, hlast⟩ := Env.foldl_settle_of_error [] hrun
      rw [hlast]
      exact .inr ⟨_, more, rfl⟩

/-! ## 4. Checks -/

/-- **The check of a document fails exactly when going on past errors fails or keeps an error.** -/
theorem status_checkDocument_eq_error_iff (file : String) (document : Json) (options : Options) :
    (checkDocument file document options).status = .error ↔
      ∀ c, compileAll document options ≠ .ok ⟨c, []⟩ := by
  have hversion : (checkVersion document).any (·.severity = .error) = false := by
    unfold checkVersion
    split <;> rfl
  unfold checkDocument FileResult.status FileStatus.ofDiagnostics
  cases hall : compileAll document options with
  | error e => simp [Diagnostic.ofCompileError]
  | ok report =>
    obtain ⟨c, errors⟩ := report
    cases errors with
    | nil =>
      simp only [List.map_nil, List.append_nil, hversion, Bool.false_eq_true, if_false]
      constructor
      · intro h
        split at h <;> simp at h
      · intro h
        exact absurd rfl (h c)
    | cons e more => simp [Diagnostic.ofCompileError]

/-- **Stopping at the first error and going on past it agree.** One gives a model exactly when the
    other gives it without errors; the error of one is that of the other, or the first one that the
    other keeps; and the check of a file that loads fails exactly when its document does not
    compile. -/
theorem compile_agrees_with_compileAll (document : Json) (options : Options) :
    (∀ c, compile document options = .ok c ↔ compileAll document options = .ok ⟨c, []⟩) ∧
      (∀ e, compile document options = .error e → compileAll document options = .error e ∨
        ∃ c more, compileAll document options = .ok ⟨c, e :: more⟩) ∧
      ∀ files path base, loadFile files path = .ok document →
        ((checkFile files path base options).status = .error ↔
          ∃ e, compile document options = .error e) := by
  have hagree := compileAll_of_compile document options
  cases hcompile : compile document options with
  | ok c =>
    rw [hcompile] at hagree
    refine ⟨fun d => ?_, by simp, fun files path base hload => ?_⟩
    · simp [hagree]
    · simp [checkFile, checkLoaded, hload, status_checkDocument_eq_error_iff, hagree]
  | error e =>
    rw [hcompile] at hagree
    refine ⟨fun d => ?_, fun first hfirst => ?_, fun files path base hload => ?_⟩
    · rcases hagree with hall | ⟨c, more, hall⟩ <;> simp [hall]
    · obtain rfl := Except.error.inj hfirst
      exact hagree
    · simp only [checkFile, checkLoaded, hload, status_checkDocument_eq_error_iff]
      rcases hagree with hall | ⟨c, more, hall⟩ <;> simp [hall]

end ApiTypes

import ApiTypes.Proofs.Compile.Modes
import ApiTypes.Proofs.Compile.Sites

/-!
  A site that fails leaves no trace.

  A resolution gives the expanded references and the depth back as they were, however it ends, and
  until it ends it only adds definitions. So going back to the checkpoint before a site gives the
  session of that time (`settle_of_error_eq`), and a compilation that goes on past its errors ends
  where the sites that succeed lead alone (`Sifts.runAll`).
-/

namespace ApiTypes

open Resolve

namespace Env

variable {env : Env} {s s' m : Session} {e : CompileError}

/-! ## 1. One site -/

/-- **A resolution gives back the expanded references and the depth**, however it ends. -/
theorem resolveAt_gives_back (env : Env) (levels : Nat) (node : Json) (site : Site) (s : Session) :
    ((env.resolveAt levels node site).outcome s).2.expanding = s.expanding ∧
      ((env.resolveAt levels node site).outcome s).2.depth = s.depth := by
  have hmakes : env.Makes False (env.resolveAt levels) := makes_resolveAt False.elim levels
  obtain ⟨hgrows, -⟩ := hmakes node site False.elim s
  exact ⟨hgrows.expanding, hgrows.depth⟩

/-- **After a site that fails the session is the one before it**, and its error is the last. -/
theorem settle_of_error_eq {task : Task} (htask : task ∈ Task.ofDocument env.doc)
    (errors : List CompileError) (h : (env.compileTask task).outcome s = (.error e, m)) :
    env.settle (s, errors) task = (s, errors ++ [e]) := by
  have hgives : Gives (env.DefinedBySites False) (env.compileTask task) fun _ => True :=
    gives_compileTask False.elim htask
  obtain ⟨hgrows, -⟩ := hgives s
  rw [h] at hgrows
  have hregistry : m.registry.rollback s.registry.checkpoint = s.registry :=
    Registry.rollback_checkpoint hgrows.definitions
  have hsession : ({ m with registry := s.registry } : Session) = s := by
    obtain ⟨registry, expanding, depth⟩ := s
    obtain ⟨registry', expanding', depth'⟩ := m
    obtain rfl : expanding' = expanding := hgrows.expanding
    obtain rfl : depth' = depth := hgrows.depth
    rfl
  unfold Resolve.outcome at h
  simp only [settle, h, hregistry, hsession]

/-! ## 2. All sites -/

/-- Tasks are run one after the other from a session: those that succeed, each from where the one
    before it ends, and one error for each of the others, which are passed over. -/
inductive Sifts (env : Env) :
    Session → List Task → List Task → List CompileError → Session → Prop where
  | nil (s : Session) : Sifts env s [] [] [] s
  | succeeds {s m s' : Session} {task : Task} {rest succeeded : List Task}
    {errors : List CompileError} (h : (env.compileTask task).outcome s = (.ok (), m))
    (hrest : Sifts env m rest succeeded errors s') :
    Sifts env s (task :: rest) (task :: succeeded) errors s'
  | fails {s m s' : Session} {task : Task} {rest succeeded : List Task}
    {errors : List CompileError} {e : CompileError}
    (h : (env.compileTask task).outcome s = (.error e, m))
    (hrest : Sifts env s rest succeeded errors s') :
    Sifts env s (task :: rest) succeeded (e :: errors) s'

namespace Sifts

variable {tasks succeeded : List Task} {errors : List CompileError}

theorem sublist (h : env.Sifts s tasks succeeded errors s') : succeeded.Sublist tasks := by
  induction h with
  | nil => exact .slnil
  | succeeds _ _ ih => exact ih.cons_cons _
  | fails _ _ ih => exact ih.cons _

/-- Every task succeeds or has an error. -/
theorem length_eq (h : env.Sifts s tasks succeeded errors s') :
    succeeded.length + errors.length = tasks.length := by
  induction h with
  | nil => rfl
  | succeeds _ _ ih =>
    simp only [List.length_cons]
    omega
  | fails _ _ ih =>
    simp only [List.length_cons]
    omega

/-- **The tasks that succeed lead to the same session alone.** -/
theorem runAll (h : env.Sifts s tasks succeeded errors s') :
    (env.runAll succeeded).outcome s = (.ok (), s') := by
  induction h with
  | nil => rfl
  | succeeds h _ ih =>
    rw [Env.runAll, outcome_forM_cons, h]
    exact ih
  | fails _ _ ih => exact ih

end Sifts

/-- **Going on past errors sifts the tasks.** -/
theorem exists_sifts (tasks : List Task) (htasks : ∀ task ∈ tasks, task ∈ Task.ofDocument env.doc)
    (s : Session) (errors : List CompileError) :
    ∃ succeeded more s', env.Sifts s tasks succeeded more s' ∧
      tasks.foldl env.settle (s, errors) = (s', errors ++ more) := by
  induction tasks generalizing s errors with
  | nil => exact ⟨[], [], s, .nil s, by simp⟩
  | cons task rest ih =>
    obtain ⟨htask, hrest⟩ := List.forall_mem_cons.mp htasks
    rw [List.foldl_cons]
    rcases h : (env.compileTask task).outcome s with ⟨result, m⟩
    cases result with
    | ok u =>
      rw [settle_of_ok errors h]
      obtain ⟨succeeded, more, s', hsifts, hfold⟩ := ih hrest m errors
      exact ⟨task :: succeeded, more, s', .succeeds h hsifts, hfold⟩
    | error e =>
      rw [settle_of_error_eq htask errors h]
      obtain ⟨succeeded, more, s', hsifts, hfold⟩ := ih hrest s (errors ++ [e])
      exact ⟨succeeded, e :: more, s', .fails h hsifts, by rw [hfold]; simp⟩

end Env

/-- **A site that fails leaves no trace.** A resolution gives back the expanded references and the
    depth, however it ends; after a site that fails the whole session is the one before it; and so
    the types of a compilation that goes on past errors are those that the sites that succeed
    define alone, and it keeps one error for each of the others, in the order of the document. -/
theorem compileAll_leaves_no_trace (document : Json) (options : Options) :
    (∀ (env : Env) (levels : Nat) (node : Json) (site : Site) (s : Session),
        ((env.resolveAt levels node site).outcome s).2.expanding = s.expanding ∧
          ((env.resolveAt levels node site).outcome s).2.depth = s.depth) ∧
      (∀ (env : Env), ∀ task ∈ Task.ofDocument env.doc, ∀ (s m : Session)
        (errors : List CompileError) (e : CompileError),
        (env.compileTask task).outcome s = (.error e, m) →
          env.settle (s, errors) task = (s, errors ++ [e])) ∧
      ∀ r, compileAll document options = .ok r → ∃ doc report succeeded last,
        prepare document options = .ok (doc, report) ∧
          Env.Sifts { doc, options } {} (Task.ofDocument doc) succeeded r.errors last ∧
          succeeded.Sublist (Task.ofDocument doc) ∧
          succeeded.length + r.errors.length = (Task.ofDocument doc).length ∧
          (Env.runAll { doc, options } succeeded).outcome {} = (.ok (), last) ∧
          r.compilation.types = last.registry.definitions := by
  refine ⟨Env.resolveAt_gives_back, fun env task htask s m errors e =>
    Env.settle_of_error_eq htask errors, fun r hr => ?_⟩
  cases hprepare : prepare document options with
  | error e => simp [(compile_of_prepare_error hprepare).2] at hr
  | ok prepared =>
    obtain ⟨doc, report⟩ := prepared
    let env : Env := { doc, options }
    obtain ⟨succeeded, errors, last, hsifts, hfold⟩ :=
      env.exists_sifts (Task.ofDocument doc) (fun _ htask => htask) {} []
    have hall : compileAll document options =
        .ok ⟨⟨last.registry.definitions, report, doc.root⟩, errors⟩ := by
      simp only [compileAll, hprepare, bind, Except.bind, Env.runEach]
      rw [hfold]
      rfl
    obtain rfl := Except.ok.inj (hall.symm.trans hr)
    exact ⟨doc, report, succeeded, last, rfl, hsifts, hsifts.sublist, hsifts.length_eq,
      hsifts.runAll, rfl⟩

end ApiTypes

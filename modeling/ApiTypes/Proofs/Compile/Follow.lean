import ApiTypes.Proofs.Compile.Run

/-!
  Runs that follow others and miss no reference.

  * `Finds result post` says that a result is as `post` asks, or else an error of another kind than
    a reference that points nowhere. `Resolve.Finds` says so of a resolution, whatever session it
    starts in.
  * `Follows act act' rel` says that, wherever the first resolution succeeds, the second finds
    every reference, and `rel` holds of both results.

  There is one rule for each way to put resolutions together, and the rules follow step by step.
-/

namespace ApiTypes

/-- Whether an error says that a reference points nowhere. -/
def CompileError.isUnresolvable : CompileError → Bool
  | .unresolvableReference .. => true
  | _ => false

variable {α β γ ε : Type}

theorem bind_eq_ok {result : Except ε α} {next : α → Except ε β} {b : β} :
    result >>= next = .ok b ↔ ∃ a, result = .ok a ∧ next a = .ok b := by
  cases result <;> simp [bind, Except.bind]

theorem pure_eq_ok {a b : α} : (pure a : Except ε α) = .ok b ↔ a = b :=
  ⟨Except.ok.inj, congrArg _⟩

theorem map_eq_ok {result : Except ε α} {f : α → β} {b : β} :
    f <$> result = .ok b ↔ ∃ a, result = .ok a ∧ f a = b := by
  cases result <;> simp [Functor.map, Except.map]

/-- A result that is as `post` asks, or an error that is no reference that points nowhere. -/
def Finds (result : Except CompileError α) (post : α → Prop) : Prop :=
  match result with
  | .ok a => post a
  | .error e => e.isUnresolvable = false

theorem Finds.bind {result : Except CompileError α} {next : α → Except CompileError β}
    {post : α → Prop} {post' : β → Prop} (h : Finds result post)
    (hnext : ∀ a, post a → Finds (next a) post') : Finds (result >>= next) post' := by
  cases result with
  | ok a => exact hnext a h
  | error e => exact h

namespace Resolve

/-- A resolution that finds every reference, whatever session it starts in. -/
def Finds (act : Resolve α) (post : α → Prop) : Prop :=
  ∀ s, ApiTypes.Finds (act.outcome s).1 post

/-! ## 1. Steps -/

section Steps

variable {act : Resolve α} {post : α → Prop} {post' : β → Prop}

theorem finds_pure {a : α} (h : post a) : Finds (pure a) post := fun _ => h

theorem finds_throw {e : CompileError} (h : e.isUnresolvable = false) :
    Finds (throw e : Resolve α) post :=
  fun _ => h

theorem Finds.bind {next : α → Resolve β} (h : Finds act post)
    (hnext : ∀ a, post a → Finds (next a) post') : Finds (act >>= next) post' := by
  intro s
  have hact := h s
  rw [outcome_bind]
  rcases hrun : act.outcome s with ⟨result, m⟩
  rw [hrun] at hact
  cases result with
  | ok a => exact hnext a hact m
  | error e => exact hact

theorem finds_ask {result : Except CompileError α} (h : ApiTypes.Finds result post) :
    Finds (ask result) post :=
  fun _ => h

theorem finds_get : Finds get fun _ => True := fun _ => trivial

theorem finds_set {session : Session} : Finds (set session) fun _ => True := fun _ => trivial

theorem finds_within {before after : Session → Session} (h : Finds act post) :
    Finds (within before after act) post :=
  fun s => h (before s)

theorem finds_deeper {site : Site} (h : Finds act post) : Finds (deeper site act) post := by
  unfold deeper
  refine finds_get.bind fun _ _ => ?_
  split
  · exact finds_throw rfl
  · exact finds_within h

theorem finds_register (definition : Definition) : Finds (register definition) fun _ => True := by
  have hregistry : ∀ registry : Registry,
      ApiTypes.Finds (registry.register definition) fun _ => True := by
    intro registry
    unfold Registry.register
    split
    · exact trivial
    · split <;> first | exact trivial | rfl
  exact finds_get.bind fun session _ => (finds_ask (hregistry session.registry)).bind fun _ _ =>
    finds_set

/-- A definition gives back its use. -/
theorem finds_define (env : Env) (shape : Shape) (site : Site) (location : Location) :
    Finds (env.define shape site location) fun shape => shape.target.isSome = true := by
  unfold Env.define
  exact finds_get.bind fun _ _ => (finds_register _).bind fun _ _ => finds_pure rfl

end Steps

/-! ## 2. Lists -/

section Lists

variable {s s' : Session}

/-- An action that was run for all elements of a list was run for each. -/
theorem Yields.forM_mem {act : γ → Resolve PUnit} {items : List γ} {u : PUnit} {item : γ}
    (h : Yields (items.forM act) s u s') (hitem : item ∈ items) :
    ∃ m u m', Yields (act item) m u m' := by
  induction items generalizing s with
  | nil => exact absurd hitem List.not_mem_nil
  | cons first rest ih =>
    rw [List.forM_eq_forM, List.forM_cons, yields_bind] at h
    obtain ⟨_, m, hfirst, hrest⟩ := h
    rcases List.mem_cons.mp hitem with rfl | hmem
    · exact ⟨s, _, m, hfirst⟩
    · exact ih hrest hmem

theorem finds_forM {act : γ → Resolve PUnit} {items : List γ}
    (h : ∀ item ∈ items, Finds (act item) fun _ => True) :
    Finds (items.forM act) fun _ => True := by
  induction items with
  | nil => exact finds_pure trivial
  | cons first rest ih =>
    rw [List.forM_eq_forM, List.forM_cons]
    exact (h first List.mem_cons_self).bind fun _ _ =>
      ih fun item hitem => h item (List.mem_cons_of_mem _ hitem)

end Lists

/-! ## 3. Two resolutions -/

/-- Wherever the first resolution succeeds, the second finds every reference, and `rel` holds of
    both results. -/
def Follows (act : Resolve α) (act' : Resolve β) (rel : α → β → Prop) : Prop :=
  ∀ ⦃s a s'⦄, act.Yields s a s' → act'.Finds (rel a)

namespace Follows

variable {act : Resolve α} {act' : Resolve β} {rel : α → β → Prop}

protected theorem pure {a : α} {b : β} (h : rel a b) : Follows (pure a) (pure b) rel := by
  intro s c s' hyields
  obtain ⟨rfl, -⟩ := yields_pure.mp hyields
  exact finds_pure h

/-- There is nothing to follow where the first resolution fails. -/
theorem throw {e : CompileError} : Follows (throw e) act' rel :=
  fun _ _ _ hyields => absurd hyields yields_throw

theorem bind {γ' : Type} {next : α → Resolve γ} {next' : β → Resolve γ'} {rel' : γ → γ' → Prop}
    (h : Follows act act' rel) (hnext : ∀ a b, rel a b → Follows (next a) (next' b) rel') :
    Follows (act >>= next) (act' >>= next') rel' := by
  intro s c s' hyields
  obtain ⟨a, m, hact, hrest⟩ := yields_bind.mp hyields
  exact (h hact).bind fun b hb => hnext a b hb hrest

/-- A step of the first resolution alone. -/
theorem bind_left {next : α → Resolve γ} {rel' : γ → β → Prop}
    (hnext : ∀ a, Follows (next a) act' rel') : Follows (act >>= next) act' rel' := by
  intro s c s' hyields
  obtain ⟨a, m, -, hrest⟩ := yields_bind.mp hyields
  exact hnext a hrest

/-- A step of the second resolution alone. -/
theorem bind_right {next' : β → Resolve γ} {post : β → Prop} {rel' : α → γ → Prop}
    (h : act'.Finds post) (hnext : ∀ b, Follows act (next' b) rel') :
    Follows act (act' >>= next') rel' :=
  fun _ _ _ hyields => h.bind fun b _ => hnext b hyields

theorem ask {result : Except CompileError α} {result' : Except CompileError β}
    (h : ∀ a, result = .ok a → ApiTypes.Finds result' (rel a)) :
    Follows (Resolve.ask result) (Resolve.ask result') rel := by
  intro s a s' hyields
  exact finds_ask (h a (yields_ask.mp hyields).1)

/-- Look-ups with the same answer. -/
theorem ask_eq {result : Except CompileError α} {result' : Except CompileError α}
    (h : ∀ a, result = .ok a → result' = .ok a) :
    Follows (Resolve.ask result) (Resolve.ask result') fun a b => result = .ok a ∧ a = b :=
  ask fun a ha => by
    rw [h a ha]
    exact ⟨ha, rfl⟩

theorem deeper {site site' : Site} (h : Follows act act' rel) :
    Follows (Resolve.deeper site act) (Resolve.deeper site' act') rel := by
  intro s a s' hyields
  obtain ⟨-, m, hact, -⟩ := yields_deeper hyields
  exact finds_deeper (h hact)

/-- Steps over a list and over the same list with every element changed. -/
theorem foldlM {δ : Type} {step : α → γ → Resolve α} {step' : β → δ → Resolve β} {items : List γ}
    {change : γ → δ} {start : α} {start' : β}
    (hstep : ∀ item ∈ items, ∀ a b, rel a b → Follows (step a item) (step' b (change item)) rel)
    (hstart : rel start start') :
    Follows (items.foldlM step start) ((items.map change).foldlM step' start') rel := by
  induction items generalizing start start' with
  | nil => exact .pure hstart
  | cons item rest ih =>
    obtain ⟨hitem, hrest⟩ := List.forall_mem_cons.mp hstep
    rw [List.map_cons, List.foldlM_cons, List.foldlM_cons]
    exact (hitem _ _ hstart).bind fun a b hab => ih hrest hab

theorem mapM {δ : Type} {act : γ → Resolve α} {act' : δ → Resolve β} {items : List γ}
    {change : γ → δ}
    (h : ∀ item ∈ items, Follows (act item) (act' (change item)) fun _ _ => True) :
    Follows (items.mapM act) ((items.map change).mapM act')
      fun results results' => results'.length = results.length := by
  induction items with
  | nil =>
    rw [List.map_nil, List.mapM_nil, List.mapM_nil]
    exact .pure rfl
  | cons item rest ih =>
    obtain ⟨hitem, hrest⟩ := List.forall_mem_cons.mp h
    rw [List.map_cons, List.mapM_cons, List.mapM_cons]
    exact hitem.bind fun _ _ _ => (ih hrest).bind fun _ _ hlength =>
      .pure (congrArg Nat.succ hlength)

/-- Actions for a list, each of which follows one of the actions for another list. -/
theorem forM {δ : Type} {act : γ → Resolve PUnit} {act' : δ → Resolve PUnit} {items : List γ}
    {items' : List δ}
    (h : ∀ item' ∈ items', ∃ item ∈ items, Follows (act item) (act' item') fun _ _ => True) :
    Follows (items.forM act) (items'.forM act') fun _ _ => True := by
  intro s u s' hyields
  refine finds_forM fun item' hitem' => ?_
  obtain ⟨item, hitem, hfollows⟩ := h item' hitem'
  obtain ⟨m, v, m', hrun⟩ := hyields.forM_mem hitem
  exact hfollows hrun

end Follows

end Resolve

end ApiTypes

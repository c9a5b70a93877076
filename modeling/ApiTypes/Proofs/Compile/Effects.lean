import ApiTypes.Proofs.Compile.Run
import ApiTypes.Proofs.Registry

/-!
  What a resolution does to the session, whatever its outcome.

  A resolution that fails stops in the middle of what it does, and what it did so far stays. So the
  effect on the session is stated for both outcomes.

  * `Session.Grows P s s'`: from `s` to `s'` definitions with the property `P` were added, and
    nothing else changed. The expanded references and the depth are those of before.
  * `Resolve.Gives P act post`: wherever the resolution starts, the session grows, and a result has
    the property `post`. There is one rule for each way to put resolutions together.
-/

namespace ApiTypes

/-- Definitions with a property were added, and nothing else changed. -/
structure Session.Grows (P : Definition → Prop) (s s' : Session) : Prop where
  definitions : s.registry.definitions <+: s'.registry.definitions
  added : ∀ d ∈ s'.registry.definitions, d ∈ s.registry.definitions ∨ P d
  expanding : s'.expanding = s.expanding
  depth : s'.depth = s.depth

namespace Session.Grows

variable {P : Definition → Prop} {s m s' : Session}

theorem refl (s : Session) : s.Grows P s := ⟨List.prefix_refl _, fun _ hd => .inl hd, rfl, rfl⟩

theorem trans (h : s.Grows P m) (h' : m.Grows P s') : s.Grows P s' where
  definitions := h.definitions.trans h'.definitions
  added d hd := (h'.added d hd).elim (h.added d) .inr
  expanding := h'.expanding.trans h.expanding
  depth := h'.depth.trans h.depth

/-- A registration adds its definition, or nothing. -/
theorem register {d : Definition} {registry : Registry} (hd : P d)
    (h : s.registry.register d = .ok registry) : s.Grows P { s with registry } := by
  obtain ⟨hgrows, -, hadded⟩ := Registry.register_eq_ok h
  refine ⟨hgrows, fun e he => ?_, rfl, rfl⟩
  rcases hadded e he with hold | rfl
  · exact .inl hold
  · exact .inr hd

/-- What grew while a reference was expanded grew. -/
theorem expanded {reference : String}
    (h : Session.Grows P { s with expanding := reference :: s.expanding } m) :
    s.Grows P { m with expanding := m.expanding.erase reference } where
  definitions := h.definitions
  added := h.added
  expanding := by
    have hexpanding : m.expanding = reference :: s.expanding := h.expanding
    rw [hexpanding, List.erase_cons_head]
  depth := h.depth

/-- What grew one level deeper grew. -/
theorem deepened (h : Session.Grows P { s with depth := s.depth + 1 } m) :
    s.Grows P { m with depth := m.depth - 1 } where
  definitions := h.definitions
  added := h.added
  expanding := h.expanding
  depth := by
    have hdepth : m.depth = s.depth + 1 := h.depth
    change m.depth - 1 = s.depth
    omega

end Session.Grows

namespace Resolve

variable {α β γ : Type} {P : Definition → Prop}

/-- Wherever the resolution starts, the session grows by definitions with a property, and a result
    has a property. -/
def Gives (P : Definition → Prop) (act : Resolve α) (post : α → Prop) : Prop :=
  ∀ s, s.Grows P (act.outcome s).2 ∧ ∀ a, (act.outcome s).1 = .ok a → post a

section Steps

variable {act : Resolve α} {post : α → Prop} {post' : β → Prop}

/-! ## 1. Steps -/

/-- What a resolution yields, in a session that grew. -/
theorem Gives.of_yields {s s' : Session} {a : α} (h : Gives P act post)
    (hyields : act.Yields s a s') : s.Grows P s' ∧ post a := by
  obtain ⟨hgrows, hpost⟩ := h s
  rw [show act.outcome s = (.ok a, s') from hyields] at hgrows hpost
  exact ⟨hgrows, hpost a rfl⟩

theorem Gives.mono {other : α → Prop} (h : Gives P act post) (himp : ∀ a, post a → other a) :
    Gives P act other :=
  fun s => ⟨(h s).1, fun a ha => himp a ((h s).2 a ha)⟩

/-- What is said of the definitions may be said more weakly. -/
theorem Gives.weaken {Q : Definition → Prop} (h : Gives P act post) (himp : ∀ d, P d → Q d) :
    Gives Q act post := by
  refine fun s => ⟨⟨(h s).1.definitions, fun d hd => ?_, (h s).1.expanding, (h s).1.depth⟩, (h s).2⟩
  exact ((h s).1.added d hd).imp_right (himp d)

theorem gives_pure {a : α} (h : post a) : Gives P (pure a) post :=
  fun s => ⟨.refl s, fun _ hb => Except.ok.inj hb ▸ h⟩

theorem gives_throw {e : CompileError} : Gives P (throw e : Resolve α) post :=
  fun s => ⟨.refl s, fun _ ha => by simp [outcome_throw] at ha⟩

/-- **Of two resolutions in a row the session grows by what both add.** -/
theorem Gives.bind {next : α → Resolve β} (h : Gives P act post)
    (hnext : ∀ a, post a → Gives P (next a) post') : Gives P (act >>= next) post' := by
  intro s
  obtain ⟨hgrows, hpost⟩ := h s
  rw [outcome_bind]
  rcases hrun : act.outcome s with ⟨result, m⟩
  rw [hrun] at hgrows hpost
  cases result with
  | error e => exact ⟨hgrows, fun b hb => by simp at hb⟩
  | ok a =>
    obtain ⟨hgrows', hpost'⟩ := hnext a (hpost a rfl) m
    exact ⟨hgrows.trans hgrows', hpost'⟩

theorem gives_ask {result : Except CompileError α} (h : ∀ a, result = .ok a → post a) :
    Gives P (ask result) post :=
  fun s => ⟨.refl s, h⟩

/-- Whatever is looked up. -/
theorem Gives.ask {result : Except CompileError α} {next : α → Resolve β}
    (h : ∀ a, result = .ok a → Gives P (next a) post') :
    Gives P (Resolve.ask result >>= next) post' :=
  (gives_ask fun _ ha => ha).bind h

/-- Whatever the session is. -/
theorem Gives.get {next : Session → Resolve β} (h : ∀ s, Gives P (next s) post') :
    Gives P (MonadState.get >>= next) post' := by
  have hget : Gives P (MonadState.get : Resolve Session) fun _ => True :=
    fun s => ⟨.refl s, fun _ _ => trivial⟩
  exact hget.bind fun s _ => h s

theorem gives_expanding {reference : String} (h : Gives P act post) :
    Gives P (Resolve.expanding reference act) post := by
  intro s
  obtain ⟨hgrows, hpost⟩ := h { s with expanding := reference :: s.expanding }
  exact ⟨hgrows.expanded, hpost⟩

theorem gives_deeper {site : Site} (h : Gives P act post) : Gives P (deeper site act) post := by
  refine Gives.get fun session => ?_
  split
  · exact gives_throw
  · intro s
    obtain ⟨hgrows, hpost⟩ := h { s with depth := s.depth + 1 }
    exact ⟨hgrows.deepened, hpost⟩

end Steps

/-! ## 2. Lists -/

/-- **A fold keeps an invariant.** -/
theorem gives_foldlM {step : β → γ → Resolve β} (inv : β → Prop) {items : List γ} {start : β}
    (hstep : ∀ b, ∀ item ∈ items, inv b → Gives P (step b item) inv) (hstart : inv start) :
    Gives P (items.foldlM step start) inv := by
  induction items generalizing start with
  | nil => exact gives_pure hstart
  | cons item rest ih =>
    rw [List.foldlM_cons]
    refine (hstep start item List.mem_cons_self hstart).bind fun b hb => ?_
    exact ih (fun b item hitem => hstep b item (List.mem_cons_of_mem _ hitem)) hb

/-- What is made of each item, in their order. -/
theorem gives_mapM_forall₂ {make : γ → Resolve β} {each : γ → β → Prop} {items : List γ}
    (hmake : ∀ item ∈ items, Gives P (make item) (each item)) :
    Gives P (items.mapM make) (List.Forall₂ each items) := by
  induction items with
  | nil =>
    rw [List.mapM_nil]
    exact gives_pure .nil
  | cons item rest ih =>
    rw [List.mapM_cons]
    refine (hmake item List.mem_cons_self).bind fun b hb => ?_
    have hrest := ih fun item hitem => hmake item (List.mem_cons_of_mem _ hitem)
    exact hrest.bind fun made hmade => gives_pure (.cons hb hmade)

theorem gives_mapM {make : γ → Resolve β} {each : β → Prop} {items : List γ}
    (hmake : ∀ item ∈ items, Gives P (make item) each) :
    Gives P (items.mapM make) fun made => ∀ b ∈ made, each b := by
  have hpairs : Gives P (items.mapM make) (List.Forall₂ (fun _ b => each b) items) :=
    gives_mapM_forall₂ hmake
  refine hpairs.mono fun made hmade => ?_
  clear hpairs
  induction hmade with
  | nil => simp
  | cons hb _ ih => exact List.forall_mem_cons.mpr ⟨hb, ih fun item hitem => hmake item
      (List.mem_cons_of_mem _ hitem)⟩

theorem gives_forM {act : γ → Resolve PUnit} {items : List γ}
    (hact : ∀ item ∈ items, Gives P (act item) fun _ => True) :
    Gives P (items.forM act) fun _ => True := by
  induction items with
  | nil => exact gives_pure trivial
  | cons item rest ih =>
    rw [List.forM_eq_forM, List.forM_cons, ← List.forM_eq_forM]
    exact (hact item List.mem_cons_self).bind fun _ _ =>
      ih fun item hitem => hact item (List.mem_cons_of_mem _ hitem)

/-! ## 3. Definitions -/

/-- How a registration ends. -/
theorem outcome_register (d : Definition) (s : Session) :
    (register d).outcome s =
      match s.registry.register d with
      | .ok registry => (.ok ⟨⟩, { s with registry })
      | .error e => (.error e, s) := by
  have hget : outcome get s = (.ok s, s) := rfl
  have hask : ∀ result : Except CompileError Registry, (ask result).outcome s = (result, s) :=
    fun _ => rfl
  unfold register
  rw [outcome_bind, hget]
  dsimp only
  rw [outcome_bind, hask]
  cases s.registry.register d <;> rfl

theorem gives_register {d : Definition} (hd : P d) : Gives P (register d) fun _ => True := by
  intro s
  rw [outcome_register]
  cases h : s.registry.register d with
  | ok registry => exact ⟨.register hd h, fun _ _ => trivial⟩
  | error e => exact ⟨.refl s, fun _ _ => trivial⟩

/-- The use of a definition of a shape: a reference by its name, with the definition at hand. -/
def IsUse (shape use : Shape) : Prop :=
  ∃ d : Definition, d.shape = shape ∧
    use = { Shape.reference d.name with constraints := shape.constraints, hoisted := [d] }

/-- **A definition gives back its use.** -/
theorem gives_define {env : Env} {shape : Shape} {site : Site} {location : Location}
    (h : ∀ registry : Registry,
      P ⟨registry.nameFor site.typeName shape env.options.nameSuffixes, none, shape, location⟩) :
    Gives P (env.define shape site location) (IsUse shape) :=
  Gives.get fun session => (gives_register (h session.registry)).bind fun _ _ =>
    gives_pure ⟨⟨session.registry.nameFor site.typeName shape env.options.nameSuffixes, none, shape,
      location⟩, rfl, rfl⟩

end Resolve

end ApiTypes

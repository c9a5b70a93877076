import ApiTypes.Proofs.Compile.Run

/-!
  Laws that hold of every part of every definition.

  A shape has parts: its item, its fields, its variants and so on, to any depth. A `PartLaw` says
  something of the target and the source of a part, in a session, and how it carries over when
  definitions are added. This module has what such a law needs to pass through a resolution:

  * `Shape.Each`: the law holds of every part of a shape (`each_iff` takes a shape apart);
  * `PartLaw.Good`: it holds of every part of every definition so far;
  * `PartLaw.Ensures`: a resolution keeps that, adds definitions only, and gives a result with some
    property. One rule for each way to put resolutions together.
-/

namespace ApiTypes

/-! ## 1. Parts of shapes -/

/-- Where a shape stands: it is the whole, or it stands inside an item, a field, the additional
    fields, a variant or a hoisted definition of the whole. -/
inductive Shape.Within : Shape → Shape → Prop where
  | whole (shape : Shape) : Within shape shape
  | item {part shape item : Shape} (h : shape.item = some item) (hpart : Within part item) :
    Within part shape
  | field {part shape : Shape} {field : Field} (h : field ∈ shape.fields)
    (hpart : Within part field.shape) : Within part shape
  | additional {part shape additional : Shape} (h : shape.additional = some additional)
    (hpart : Within part additional) : Within part shape
  | variant {part shape : Shape} {variant : Variant} (h : variant ∈ shape.variants)
    (hpart : Within part variant.shape) : Within part shape
  | hoisted {part shape : Shape} {definition : Definition} (h : definition ∈ shape.hoisted)
    (hpart : Within part definition.shape) : Within part shape

/-- Something holds of the target and the source of every part. -/
def Shape.Each (P : Option String → Option Json → Prop) (shape : Shape) : Prop :=
  ∀ part, Within part shape → P part.target part.source

/-- Something holds of every part that is not the whole. -/
structure Shape.Inside (P : Option String → Option Json → Prop) (shape : Shape) : Prop where
  item : ∀ item, shape.item = some item → item.Each P
  fields : ∀ field ∈ shape.fields, field.shape.Each P
  additional : ∀ additional, shape.additional = some additional → additional.Each P
  variants : ∀ variant ∈ shape.variants, variant.shape.Each P
  hoisted : ∀ definition ∈ shape.hoisted, definition.shape.Each P

namespace Shape

variable {P Q : Option String → Option Json → Prop} {shape : Shape}

theorem Each.inside (h : shape.Each P) : shape.Inside P where
  item _ hitem part hpart := h part (.item hitem hpart)
  fields _ hfield part hpart := h part (.field hfield hpart)
  additional _ hadditional part hpart := h part (.additional hadditional hpart)
  variants _ hvariant part hpart := h part (.variant hvariant hpart)
  hoisted _ hdefinition part hpart := h part (.hoisted hdefinition hpart)

/-- **A law holds of every part when it holds of the whole and inside.** -/
theorem each_iff : shape.Each P ↔ P shape.target shape.source ∧ shape.Inside P := by
  refine ⟨fun h => ⟨h shape (.whole shape), h.inside⟩, fun ⟨htop, hinside⟩ part hpart => ?_⟩
  cases hpart with
  | whole => exact htop
  | item h hpart => exact hinside.item _ h part hpart
  | field h hpart => exact hinside.fields _ h part hpart
  | additional h hpart => exact hinside.additional _ h part hpart
  | variant h hpart => exact hinside.variants _ h part hpart
  | hoisted h hpart => exact hinside.hoisted _ h part hpart

theorem Each.imp (h : shape.Each P) (himp : ∀ t src, P t src → Q t src) : shape.Each Q :=
  fun part hpart => himp _ _ (h part hpart)

/-- A shape without any parts inside. -/
theorem Inside.of_empty (hitem : shape.item = none) (hfields : shape.fields = [])
    (hadditional : shape.additional = none) (hvariants : shape.variants = [])
    (hhoisted : shape.hoisted = []) : shape.Inside P :=
  ⟨by simp [hitem], by simp [hfields], by simp [hadditional], by simp [hvariants],
    by simp [hhoisted]⟩

end Shape

/-- The shape that combinators come to, all of it or parts of it. -/
def Combined.shape : Combined → Shape
  | .complete shape => shape
  | .partly shape => shape

/-! ## 2. Laws of parts -/

/-- The name by which the place that a reference points at is used: while the place is being
    expanded or after it was defined, the name from the reference; else the one under which it was
    defined. -/
inductive PlaceName (env : Env) (s : Session) (reference : String) (target : Json) :
    String → Prop where
  | expanding (h : reference ∈ s.expanding) :
    PlaceName env s reference target (TypeName.ofReference reference)
  | known {d : Definition} (hd : d ∈ s.registry.definitions)
    (hname : d.name = TypeName.ofReference reference)
    (hsource : Json.sameOption d.shape.source (some target) = true) :
    PlaceName env s reference target (TypeName.ofReference reference)
  | defined {m : Session} {shape : Shape}
    (hgrows : m.registry.definitions <+: s.registry.definitions)
    (hsource : target.isObject = true → Schema.reference? target = none →
      shape.source = some target)
    (hname : m.registry.nameFor (TypeName.ofReference reference) shape env.options.nameSuffixes ∈
      s.registry.names) :
    PlaceName env s reference target
      (m.registry.nameFor (TypeName.ofReference reference) shape env.options.nameSuffixes)

/-- Something that holds of the target and the source of each part of a shape in a session. -/
structure PartLaw (env : Env) where
  holds : Session → Option String → Option Json → Prop
  /-- It stays when definitions are added. -/
  grow : ∀ {s s' t src}, s.registry.definitions <+: s'.registry.definitions →
    s.expanding ⊆ s'.expanding → holds s t src → holds s' t src
  /-- It stays when an expanded reference has its definition. -/
  settle : ∀ {s s' t src reference}, s.registry.definitions <+: s'.registry.definitions →
    s.expanding = reference :: s'.expanding →
    TypeName.ofReference reference ∈ s'.registry.names → holds s t src → holds s' t src
  /-- It holds where there is no target and the source is no reference. -/
  free : ∀ {s src}, (∀ node, src = some node → Schema.reference? node = none) → holds s none src
  /-- It does not depend on a source that is no reference. -/
  relabel : ∀ {s t src other}, holds s t src →
    (∀ node, other = some node → Schema.reference? node = none) → holds s t other
  /-- It holds of the use of a definition. -/
  registered : ∀ {s name}, name ∈ s.registry.names → holds s (some name) none
  /-- It holds of an alias of a component. -/
  component : ∀ {s name reference site src}, (Reference.schemaName? reference).isSome = true →
    env.componentTypeName reference site = .ok name →
    (∀ node, src = some node → Schema.reference? node = some reference) → holds s (some name) src
  /-- It holds of a reference to a place. -/
  place : ∀ {s name reference target node}, Reference.schemaName? reference = none →
    env.doc.resolve? reference = some target → PlaceName env s reference target name →
    Schema.reference? node = some reference → holds s (some name) (some node)

namespace PartLaw

variable {env : Env} (law : PartLaw env)

/-- The law holds of every part of every definition. -/
def Good (s : Session) : Prop :=
  ∀ d ∈ s.registry.definitions, d.shape.Each (law.holds s)

/-- What a resolution does to the session: it adds definitions of which the law holds. -/
structure Step (s s' : Session) : Prop where
  grows : s.registry.definitions <+: s'.registry.definitions
  expanding : s'.expanding = s.expanding
  good : law.Good s'

/-- From a session of which the law holds, a resolution makes a step and gives a result with a
    property, if it gives one. -/
def Ensures {α : Type} (s : Session) (act : Resolve α) (post : α → Session → Prop) : Prop :=
  law.Good s → ∀ a s', act.Yields s a s' → law.Step s s' ∧ post a s'

variable {law} {s s' m : Session}

theorem Step.refl (h : law.Good s) : law.Step s s := ⟨List.prefix_refl _, rfl, h⟩

theorem Step.trans (h : law.Step s m) (h' : law.Step m s') : law.Step s s' :=
  ⟨h.grows.trans h'.grows, h'.expanding.trans h.expanding, h'.good⟩

/-- What holds before a step holds after it. -/
theorem Step.holds (h : law.Step s s') {t : Option String} {src : Option Json}
    (hholds : law.holds s t src) : law.holds s' t src :=
  law.grow h.grows (h.expanding ▸ List.Subset.refl _) hholds

theorem Step.each (h : law.Step s s') {shape : Shape} (heach : shape.Each (law.holds s)) :
    shape.Each (law.holds s') :=
  heach.imp fun _ _ => h.holds

/-! ## 3. Rules -/

section Rules

variable {α β : Type} {act : Resolve α} {post : α → Session → Prop}

theorem ensures_pure {a : α} (h : law.Good s → post a s) : law.Ensures s (pure a) post := by
  intro hgood b s' hyields
  obtain ⟨rfl, rfl⟩ := Resolve.yields_pure.mp hyields
  exact ⟨Step.refl hgood, h hgood⟩

theorem ensures_throw {e : CompileError} : law.Ensures s (throw e) post :=
  fun _ _ _ hyields => absurd hyields Resolve.yields_throw

/-- **Two resolutions in a row make one step.** -/
theorem Ensures.bind {next : α → Resolve β} {post' : β → Session → Prop}
    (h : law.Ensures s act post)
    (hnext : ∀ a m, law.Step s m → post a m → law.Ensures m (next a) post') :
    law.Ensures s (act >>= next) post' := by
  intro hgood b s' hyields
  obtain ⟨a, m, hact, hrest⟩ := Resolve.yields_bind.mp hyields
  obtain ⟨hstep, hpost⟩ := h hgood a m hact
  obtain ⟨hstep', hpost'⟩ := hnext a m hstep hpost hstep.good b s' hrest
  exact ⟨hstep.trans hstep', hpost'⟩

theorem Ensures.mono {post' : α → Session → Prop} (h : law.Ensures s act post)
    (himp : ∀ a s', law.Step s s' → post a s' → post' a s') : law.Ensures s act post' := by
  intro hgood a s' hyields
  obtain ⟨hstep, hpost⟩ := h hgood a s' hyields
  exact ⟨hstep, himp a s' hstep hpost⟩

/-- Whatever is looked up. -/
theorem Ensures.ask {result : Except CompileError α} {next : α → Resolve β}
    {post' : β → Session → Prop} (h : ∀ a, result = .ok a → law.Ensures s (next a) post') :
    law.Ensures s (Resolve.ask result >>= next) post' := by
  intro hgood b s' hyields
  obtain ⟨a, m, hask, hrest⟩ := Resolve.yields_bind.mp hyields
  obtain ⟨hresult, rfl⟩ := Resolve.yields_ask.mp hask
  exact h a hresult hgood b s' hrest

theorem Ensures.get {next : Session → Resolve β} {post' : β → Session → Prop}
    (h : law.Ensures s (next s) post') : law.Ensures s (get >>= next) post' := by
  intro hgood b s' hyields
  obtain ⟨a, m, hget, hrest⟩ := Resolve.yields_bind.mp hyields
  obtain ⟨rfl, rfl⟩ := Resolve.yields_get.mp hget
  exact h hgood b s' hrest

/-- **A fold keeps an invariant** that stays when definitions are added. -/
theorem ensures_foldlM {γ : Type} {step : β → γ → Resolve β} (inv : β → Session → Prop)
    {items : List γ} {start : β}
    (hstep : ∀ b s, ∀ item ∈ items, inv b s → law.Ensures s (step b item) inv)
    (hstart : inv start s) : law.Ensures s (items.foldlM step start) inv := by
  induction items generalizing start s with
  | nil => exact ensures_pure fun _ => hstart
  | cons item rest ih =>
    rw [List.foldlM_cons]
    refine (hstep start s item List.mem_cons_self hstart).bind fun b m _ hb => ?_
    exact ih (fun b s item hitem => hstep b s item (List.mem_cons_of_mem _ hitem)) hb

/-- **What is made of each element** keeps a property that stays when definitions are added. -/
theorem ensures_mapM {γ : Type} {make : γ → Resolve β} (each : β → Session → Prop)
    {items : List γ} (hmake : ∀ item ∈ items, ∀ s, law.Ensures s (make item) each)
    (hstep : ∀ b s s', law.Step s s' → each b s → each b s') :
    law.Ensures s (items.mapM make) fun found s' => ∀ b ∈ found, each b s' := by
  induction items generalizing s with
  | nil =>
    rw [List.mapM_nil]
    exact ensures_pure fun _ => by simp
  | cons item rest ih =>
    rw [List.mapM_cons]
    refine (hmake item List.mem_cons_self s).bind fun b m _ hb => ?_
    refine (ih fun item hitem => hmake item (List.mem_cons_of_mem _ hitem)).bind
      fun found s' hstep' hfound => ensures_pure fun _ => ?_
    intro c hc
    rcases List.mem_cons.mp hc with rfl | hc
    · exact hstep _ _ _ hstep' hb
    · exact hfound c hc

theorem ensures_forM {γ : Type} {act : γ → Resolve PUnit} {items : List γ}
    (hact : ∀ item ∈ items, ∀ s, law.Ensures s (act item) fun _ _ => True) :
    law.Ensures s (items.forM act) fun _ _ => True := by
  induction items generalizing s with
  | nil => exact ensures_pure fun _ => trivial
  | cons item rest ih =>
    rw [List.forM_eq_forM, List.forM_cons, ← List.forM_eq_forM]
    exact (hact item List.mem_cons_self s).bind fun _ m _ _ =>
      ih fun item hitem => hact item (List.mem_cons_of_mem _ hitem)

end Rules

end PartLaw

end ApiTypes

import ApiTypes.Proofs.Compile.Alike
import ApiTypes.Proofs.Compile.Effects
import ApiTypes.Proofs.Compile.Parts

/-!
  Shapes that are well formed.

  * An alias has no fields.
  * The text of a shape is **in step** with its structure: it is the target, or else the text of the
    record, the union, the array or the map that the shape is (`impliedDecl`).
  * A shape is **flat**: no record and no union stands in it without a name, and a variant without a
    name is a primitive without choices.

  The last two hold as long as no type is overridden. `Tidy strict` asks for them where `strict`
  holds, and the lemmas say what each way to put shapes together needs in order to be tidy in every
  part (`Every`).
-/

namespace ApiTypes

namespace Shape

/-! ## 1. What a shape holds -/

/-- Something holds of every part of a shape. -/
def Every (P : Shape → Prop) (shape : Shape) : Prop := ∀ part, Within part shape → P part

/-- Something holds of the shapes that stand directly in a shape. -/
structure Children (Q : Shape → Prop) (shape : Shape) : Prop where
  item : ∀ item, shape.item = some item → Q item
  fields : ∀ field ∈ shape.fields, Q field.shape
  additional : ∀ additional, shape.additional = some additional → Q additional
  variants : ∀ variant ∈ shape.variants, Q variant.shape

/-- The text that the structure of a shape implies, if it implies any. -/
def impliedDecl (shape : Shape) : Option String :=
  match shape.target with
  | some name => some name
  | none =>
    if !shape.fields.isEmpty then some (recordDecl shape.fields shape.additional)
    else if !shape.variants.isEmpty then some (unionDecl shape.variants)
    else match shape.item with
      | some item => some (arrayDecl item)
      | none => shape.additional.map mapDecl

/-- The text of a shape is the one that its structure implies. -/
def InStep (shape : Shape) : Prop := ∀ decl, shape.impliedDecl = some decl → shape.decl = decl

/-- Whether a shape may stand for a variant: it has a name, or is a primitive without choices. -/
def IsVariant (shape : Shape) : Prop :=
  shape.target = none → isPrimitive shape.decl = true ∧ shape.choices = []

/-- A shape that is well formed itself; its text and its children only where `strict` holds. -/
structure Tidy (strict : Prop) (shape : Shape) : Prop where
  alias_fields : shape.isAlias = true → shape.fields = []
  inStep : strict → shape.InStep
  named : strict → shape.Children fun part => part.needsName = false
  variants : strict → ∀ variant ∈ shape.variants, variant.shape.IsVariant

variable {P Q : Shape → Prop} {strict : Prop} {shape part own : Shape}

/-- **Something holds of every part when it holds of the whole, of every part of what stands in it,
    and of every part of its hoisted definitions.** -/
theorem every_iff : shape.Every P ↔
    P shape ∧ shape.Children (Every P) ∧ ∀ d ∈ shape.hoisted, d.shape.Every P := by
  refine ⟨fun h => ⟨h shape (.whole shape), ⟨fun _ hitem part hpart => h part (.item hitem hpart),
    fun _ hfield part hpart => h part (.field hfield hpart),
    fun _ hadditional part hpart => h part (.additional hadditional hpart),
    fun _ hvariant part hpart => h part (.variant hvariant hpart)⟩,
    fun _ hd part hpart => h part (.hoisted hd hpart)⟩, ?_⟩
  rintro ⟨hwhole, hchildren, hhoisted⟩ part hpart
  cases hpart with
  | whole => exact hwhole
  | item hitem hpart => exact hchildren.item _ hitem part hpart
  | field hfield hpart => exact hchildren.fields _ hfield part hpart
  | additional hadditional hpart => exact hchildren.additional _ hadditional part hpart
  | variant hvariant hpart => exact hchildren.variants _ hvariant part hpart
  | hoisted hd hpart => exact hhoisted _ hd part hpart

theorem Every.whole (h : shape.Every P) : P shape := h shape (.whole shape)

theorem Every.children (h : shape.Every P) : shape.Children (Every P) := (every_iff.mp h).2.1

theorem Every.hoisted (h : shape.Every P) : ∀ d ∈ shape.hoisted, d.shape.Every P :=
  (every_iff.mp h).2.2

/-- A shape in which nothing stands. -/
theorem Children.of_empty (hitem : shape.item = none) (hfields : shape.fields = [])
    (hadditional : shape.additional = none) (hvariants : shape.variants = []) :
    shape.Children Q :=
  ⟨by simp [hitem], by simp [hfields], by simp [hadditional], by simp [hvariants]⟩

/-! ## 2. Texts of primitives -/

theorem isPrimitive_append {start : String} (rest : String)
    (h : ∀ decl ∈ primitiveDecls, ¬ start.toList <+: decl.toList) :
    isPrimitive (start ++ rest) = false := by
  refine Bool.eq_false_iff.mpr fun hprimitive => ?_
  exact append_ne_of_other_start (h _ (List.contains_iff_mem.mp hprimitive)) rfl

theorem isPrimitive_recordDecl {fields : List Field} (h : fields ≠ []) (additional : Option Shape) :
    isPrimitive (recordDecl fields additional) = false := by
  cases fields with
  | nil => exact absurd rfl h
  | cons field rest =>
    simp only [recordDecl, List.map_cons, List.cons_append, List.isEmpty_cons, Bool.false_eq_true,
      if_false, String.append_assoc]
    exact isPrimitive_append _ (by decide)

theorem isPrimitive_unionDecl (variants : List Variant) :
    isPrimitive (unionDecl variants) = false := by
  simp only [unionDecl, String.append_assoc]
  exact isPrimitive_append _ (by decide)

/-- **A primitive has neither fields nor variants** where texts are in step. -/
theorem InStep.needsName_of_isPrimitive (h : shape.InStep)
    (hprimitive : isPrimitive shape.decl = true) : shape.needsName = false := by
  cases htarget : shape.target with
  | some name => simp [needsName, htarget]
  | none =>
    have hfields : shape.fields = [] := by
      by_contra hfields
      have hdecl := h (recordDecl shape.fields shape.additional)
        (by simp [impliedDecl, htarget, hfields])
      rw [hdecl, isPrimitive_recordDecl hfields] at hprimitive
      exact Bool.false_ne_true hprimitive
    have hvariants : shape.variants = [] := by
      by_contra hvariants
      have hdecl := h (unionDecl shape.variants)
        (by simp [impliedDecl, htarget, hfields, hvariants])
      rw [hdecl, isPrimitive_unionDecl] at hprimitive
      exact Bool.false_ne_true hprimitive
    simp [needsName, hfields, hvariants]

/-! ## 3. Shapes from nothing else -/

/-- A shape of its text alone, with whatever nothing is asked of. -/
theorem every_of_empty (hitem : shape.item = none) (hfields : shape.fields = [])
    (hadditional : shape.additional = none) (hvariants : shape.variants = [])
    (htarget : ∀ name, shape.target = some name → shape.decl = name)
    (hhoisted : ∀ d ∈ shape.hoisted, d.shape.Every (Tidy strict)) :
    shape.Every (Tidy strict) := by
  refine every_iff.mpr ⟨⟨fun _ => hfields, fun _ decl hdecl => ?_,
    fun _ => .of_empty hitem hfields hadditional hvariants, fun _ => by simp [hvariants]⟩,
    .of_empty hitem hfields hadditional hvariants, hhoisted⟩
  cases hname : shape.target with
  | some name =>
    obtain rfl : name = decl := by simpa [impliedDecl, hname] using hdecl
    exact htarget name hname
  | none => simp [impliedDecl, hname, hitem, hfields, hadditional, hvariants] at hdecl

theorem every_ofDecl (decl : String) : (ofDecl decl).Every (Tidy strict) :=
  every_of_empty rfl rfl rfl rfl (by simp [ofDecl]) (by simp [ofDecl])

theorem every_reference (name : String) : (reference name).Every (Tidy strict) :=
  every_of_empty rfl rfl rfl rfl (fun _ => Option.some.inj) (by simp [reference])

theorem every_aliasOf (name : String) : (aliasOf name).Every (Tidy strict) :=
  every_of_empty rfl rfl rfl rfl (fun _ => Option.some.inj) (by simp [aliasOf])

/-- **The use of a definition is tidy** when what it defines is. -/
theorem every_use {use : Shape} (h : shape.Every (Tidy strict)) (huse : Resolve.IsUse shape use) :
    use.Every (Tidy strict) := by
  obtain ⟨d, rfl, rfl⟩ := huse
  refine every_of_empty rfl rfl rfl rfl (fun _ => Option.some.inj) fun e he => ?_
  obtain rfl := List.mem_singleton.mp he
  exact h

/-- What is said beside its structure does not matter. -/
theorem Every.relabel (h : shape.Every (Tidy strict)) (constraints : Constraints)
    (description : Option String) (source : Option Json) :
    Every (Tidy strict) { shape with constraints, description, source } := by
  obtain ⟨hwhole, hchildren, hhoisted⟩ := every_iff.mp h
  refine every_iff.mpr ⟨⟨hwhole.alias_fields, hwhole.inStep, fun hstrict => ?_, hwhole.variants⟩,
    ⟨hchildren.item, hchildren.fields, hchildren.additional, hchildren.variants⟩, hhoisted⟩
  have hnamed := hwhole.named hstrict
  exact ⟨hnamed.item, hnamed.fields, hnamed.additional, hnamed.variants⟩

end Shape

/-! ## 4. Fields that are collected -/

/-- A shape that may stand inside another: it is tidy in every part and needs no name. -/
structure Shape.IsPart (strict : Prop) (shape : Shape) : Prop where
  every : shape.Every (Shape.Tidy strict)
  named : strict → shape.needsName = false

/-- What fields and definitions are collected in: it has no other structure, and both are tidy. -/
structure Shape.Loose (strict : Prop) (acc : Shape) : Prop where
  target : acc.target = none
  isAlias : acc.isAlias = false
  item : acc.item = none
  additional : acc.additional = none
  variants : acc.variants = []
  fields : ∀ field ∈ acc.fields, field.shape.IsPart strict
  hoisted : ∀ d ∈ acc.hoisted, d.shape.Every (Shape.Tidy strict)

namespace Shape

variable {strict : Prop} {shape part own acc : Shape}

theorem isPart_reference (name : String) : (reference name).IsPart strict :=
  ⟨every_reference name, fun _ => by simp [needsName, reference]⟩

theorem isPart_ofDecl (decl : String) : (ofDecl decl).IsPart strict :=
  ⟨every_ofDecl decl, fun _ => rfl⟩

/-- The fields of a tidy shape. -/
theorem Every.isPart_fields (h : shape.Every (Tidy strict)) :
    ∀ field ∈ shape.fields, field.shape.IsPart strict := fun field hfield =>
  ⟨h.children.fields field hfield, fun hstrict => (h.whole.named hstrict).fields field hfield⟩

/-- The fields that embed what a shape stands for. -/
theorem isPart_mixin (target : Option String) (nullable : Bool) :
    ∀ field ∈ (target.map (Field.mixin · nullable)).toList, field.shape.IsPart strict := by
  intro field hfield
  obtain ⟨name, -, rfl⟩ := Option.map_eq_some_iff.mp (Option.mem_toList.mp hfield)
  exact isPart_reference name

theorem loose_empty : Loose strict {} :=
  ⟨rfl, rfl, rfl, rfl, rfl, by simp, by simp⟩

/-- **Collecting more.** -/
theorem Loose.append (h : acc.Loose strict) {fields : List Field} {hoisted : List Definition}
    (hfields : ∀ field ∈ fields, field.shape.IsPart strict)
    (hhoisted : ∀ d ∈ hoisted, d.shape.Every (Tidy strict)) :
    Loose strict
      { acc with fields := acc.fields ++ fields, hoisted := acc.hoisted ++ hoisted } where
  target := h.target
  isAlias := h.isAlias
  item := h.item
  additional := h.additional
  variants := h.variants
  fields field hfield := (List.mem_append.mp hfield).elim (h.fields field) (hfields field)
  hoisted d hd := (List.mem_append.mp hd).elim (h.hoisted d) (hhoisted d)

/-- Collecting fields alone. -/
theorem Loose.appendFields (h : acc.Loose strict) {fields : List Field}
    (hfields : ∀ field ∈ fields, field.shape.IsPart strict) :
    Loose strict { acc with fields := acc.fields ++ fields } where
  target := h.target
  isAlias := h.isAlias
  item := h.item
  additional := h.additional
  variants := h.variants
  fields field hfield := (List.mem_append.mp hfield).elim (h.fields field) (hfields field)
  hoisted := h.hoisted

/-! ## 5. Rendering -/

/-- A rendered shape differs in its text alone. -/
theorem refreshDecl_eq (shape : Shape) : ∃ decl, shape.refreshDecl = { shape with decl } := by
  unfold refreshDecl
  split
  · exact ⟨_, rfl⟩
  · split
    · exact ⟨_, rfl⟩
    · cases shape
      exact ⟨_, rfl⟩

/-- **A rendered shape is in step** when it was wherever nothing is rendered. -/
theorem inStep_refreshDecl (htarget : shape.target = none)
    (h : shape.fields = [] → shape.variants = [] → shape.InStep) : shape.refreshDecl.InStep := by
  unfold refreshDecl
  by_cases hfields : shape.fields = []
  · by_cases hvariants : shape.variants = []
    · simpa [hfields, hvariants] using h hfields hvariants
    · intro decl hdecl
      simpa [impliedDecl, htarget, hfields, hvariants] using hdecl
  · intro decl hdecl
    simpa [impliedDecl, htarget, hfields] using hdecl

theorem every_refreshDecl (htarget : shape.target = none)
    (halias : shape.isAlias = true → shape.fields = [])
    (hinStep : strict → shape.fields = [] → shape.variants = [] → shape.InStep)
    (hnamed : strict → shape.Children fun part => part.needsName = false)
    (hvariants : strict → ∀ variant ∈ shape.variants, variant.shape.IsVariant)
    (hchildren : shape.Children (Every (Tidy strict)))
    (hhoisted : ∀ d ∈ shape.hoisted, d.shape.Every (Tidy strict)) :
    shape.refreshDecl.Every (Tidy strict) := by
  have hstep : strict → shape.refreshDecl.InStep := fun hstrict =>
    inStep_refreshDecl htarget (hinStep hstrict)
  obtain ⟨decl, hdecl⟩ := refreshDecl_eq shape
  rw [hdecl] at hstep ⊢
  refine every_iff.mpr ⟨⟨halias, hstep, fun hstrict => ?_, hvariants⟩,
    ⟨hchildren.item, hchildren.fields, hchildren.additional, hchildren.variants⟩, hhoisted⟩
  have hnamed := hnamed hstrict
  exact ⟨hnamed.item, hnamed.fields, hnamed.additional, hnamed.variants⟩

/-- **What was collected makes a tidy record.** -/
theorem Loose.every_refreshDecl (h : acc.Loose strict) :
    acc.refreshDecl.Every (Tidy strict) := by
  refine Shape.every_refreshDecl h.target (by simp [h.isAlias]) (fun _ hfields hvariants => ?_)
    (fun hstrict => ⟨by simp [h.item], fun field hfield => (h.fields field hfield).named hstrict,
      by simp [h.additional], by simp [h.variants]⟩) (fun _ => by simp [h.variants])
    ⟨by simp [h.item], fun field hfield => (h.fields field hfield).every, by simp [h.additional],
      by simp [h.variants]⟩ h.hoisted
  intro decl hdecl
  simp [impliedDecl, h.target, hfields, hvariants, h.item, h.additional] at hdecl

/-- **What combinators come to makes what a node says itself no less tidy.** -/
theorem every_enhance (hown : own.Every (Tidy strict)) (htarget : own.target = none)
    (hpart : part.Every (Tidy strict)) {keepDecl : Bool} (hkeep : strict → keepDecl = false) :
    (Env.enhance own part keepDecl).Every (Tidy strict) := by
  have hfields : ∀ field ∈ own.fields ++ part.fields, field.shape.IsPart strict :=
    fun field hfield =>
      (List.mem_append.mp hfield).elim (hown.isPart_fields field) (hpart.isPart_fields field)
  have hhoisted : ∀ d ∈ own.hoisted ++ part.hoisted, d.shape.Every (Tidy strict) :=
    fun d hd => (List.mem_append.mp hd).elim (hown.hoisted d) (hpart.hoisted d)
  have hchildren : ∀ {Q : Shape → Prop}, own.Children Q → part.Children Q →
      (∀ field ∈ own.fields ++ part.fields, Q field.shape) → Children Q
      { own with
        fields := own.fields ++ part.fields
        variants := if part.variants.isEmpty then own.variants else part.variants } := by
    intro Q hown hpart hfields
    refine ⟨hown.item, hfields, hown.additional, ?_⟩
    dsimp only
    split
    · exact hown.variants
    · exact hpart.variants
  have hvariants : strict → ∀ variant ∈ (if part.variants.isEmpty then own.variants
      else part.variants), variant.shape.IsVariant := by
    intro hstrict
    split
    · exact hown.whole.variants hstrict
    · exact hpart.whole.variants hstrict
  have halias : (own.isAlias && (own.fields ++ part.fields).isEmpty) = true →
      own.fields ++ part.fields = [] := fun h =>
    List.isEmpty_iff.mp (Bool.and_eq_true_iff.mp h).2
  have hnamed := fun hstrict : strict => hchildren (hown.whole.named hstrict)
    (hpart.whole.named hstrict) fun field hfield => (hfields field hfield).named hstrict
  have hevery := hchildren hown.children hpart.children fun field hfield =>
    (hfields field hfield).every
  unfold Env.enhance
  dsimp only
  split
  · rename_i hkept
    have hloose : ¬ strict := fun hstrict => by simp [hkeep hstrict] at hkept
    exact every_iff.mpr ⟨⟨halias, fun hstrict => absurd hstrict hloose,
      fun hstrict => absurd hstrict hloose, hvariants⟩,
      ⟨hevery.item, hevery.fields, hevery.additional, hevery.variants⟩, hhoisted⟩
  · refine every_refreshDecl htarget halias (fun hstrict hnone hnone' => ?_)
      (fun hstrict => ?_) hvariants
      ⟨hevery.item, hevery.fields, hevery.additional, hevery.variants⟩ hhoisted
    · -- Without fields and variants nothing was added, so the text is in step as before.
      obtain ⟨hfields, hfields'⟩ := List.append_eq_nil_iff.mp hnone
      obtain ⟨hvariants, hvariants'⟩ : own.variants = [] ∧ part.variants = [] := by
        by_cases hempty : part.variants = []
        · exact ⟨by simpa [hempty] using hnone', hempty⟩
        · simp [hempty] at hnone'
      intro decl hdecl
      refine hown.whole.inStep hstrict decl ?_
      simpa [impliedDecl, htarget, hfields, hfields', hvariants, hvariants'] using hdecl
    · have hnamed := hnamed hstrict
      exact ⟨hnamed.item, hnamed.fields, hnamed.additional, hnamed.variants⟩

/-- What combinators come to adds fields, variants and definitions, and changes the text. -/
theorem enhance_eq (own part : Shape) (keepDecl : Bool) :
    ∃ decl, Env.enhance own part keepDecl = { own with
      decl
      fields := own.fields ++ part.fields
      discriminator := part.discriminator.or own.discriminator
      variants := if part.variants.isEmpty then own.variants else part.variants
      hoisted := own.hoisted ++ part.hoisted
      isAlias := own.isAlias && (own.fields ++ part.fields).isEmpty } := by
  unfold Env.enhance
  dsimp only
  split
  · exact ⟨own.decl, rfl⟩
  · exact refreshDecl_eq _

theorem target_enhance (htarget : own.target = none) (part : Shape) (keepDecl : Bool) :
    (Env.enhance own part keepDecl).target = none := by
  obtain ⟨decl, hdecl⟩ := enhance_eq own part keepDecl
  rw [hdecl]
  exact htarget

end Shape

end ApiTypes

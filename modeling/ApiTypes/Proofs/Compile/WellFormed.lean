import ApiTypes.Proofs.Compile.Sites

/-!
  The types of a compilation are well formed.

  Every site defines tidy shapes (`Env.DefinedBySites.every`), so every definition of a compilation
  that succeeds is tidy in every part (`every_of_compile`). In a document in which no type is
  overridden the types are **flat** (`compile_flat`): whatever stands in a shape has a name, or is
  neither a record nor a union. An alias never has fields, and the text of a shape is the one that
  its structure implies (`compile_inStep`).
-/

namespace ApiTypes

open Resolve

variable {document : Json} {options : Options} {c : Compilation} {strict : Prop}

/-- **Every definition of a compilation is tidy in every part.** -/
theorem every_of_compile (hdocument : strict → document.lacks overrideKey = true)
    (h : compile document options = .ok c) : ∀ d ∈ c.types, d.shape.Every (Shape.Tidy strict) := by
  obtain ⟨doc, report, session, u, hprepare, hrun, rfl⟩ := compile_eq_ok h
  have hdoc : strict → doc.root.lacks overrideKey = true := fun hstrict =>
    lacks_prepare (hdocument hstrict) hprepare
  exact fun d hd => (Env.definedBySites_of_runAll hdoc hrun d hd).every

/-- **The types of a compilation are flat** where no type is overridden: what stands in a shape, at
    any depth, has a name or is neither a record nor a union, and a variant without a name is a
    primitive without choices. -/
theorem compile_flat (document : Json) (options : Options) (c : Compilation)
    (hdocument : document.lacks overrideKey = true) (h : compile document options = .ok c) :
    ∀ d ∈ c.types, ∀ shape, Shape.Within shape d.shape →
      (shape.Children fun part =>
        part.target.isSome = true ∨ part.fields = [] ∧ part.variants = []) ∧
      ∀ variant ∈ shape.variants, variant.shape.target = none →
        isPrimitive variant.shape.decl = true ∧ variant.shape.choices = [] := by
  intro d hd shape hshape
  have htidy : shape.Tidy True := every_of_compile (fun _ => hdocument) h d hd shape hshape
  have hflat : ∀ part : Shape, part.needsName = false →
      part.target.isSome = true ∨ part.fields = [] ∧ part.variants = [] := by
    intro part hpart
    cases htarget : part.target with
    | some name => exact .inl rfl
    | none => exact .inr (by simpa [Shape.needsName, htarget] using hpart)
  obtain ⟨hitem, hfields, hadditional, hvariants⟩ := htidy.named trivial
  exact ⟨⟨fun item h => hflat item (hitem item h), fun field h => hflat _ (hfields field h),
    fun additional h => hflat additional (hadditional additional h),
    fun variant h => hflat _ (hvariants variant h)⟩, htidy.variants trivial⟩

/-- A document with a record and a union inside a record, and another name for the record. -/
def nested : Json :=
  .obj [("components", .obj [("schemas", .obj [
    ("Pet", .obj [
      ("type", .str "object"),
      ("properties", .obj [
        ("owner", .obj [
          ("type", .str "object"),
          ("properties", .obj [("name", .obj [("type", .str "string")])])]),
        ("tags", .obj [
          ("type", .str "array"),
          ("items", .obj [("anyOf", .arr [
            .obj [("type", .str "string")],
            .obj [("enum", .arr [.str "red"])]])])])])]),
    ("Animal", .obj [("$ref", .str "#/components/schemas/Pet")])])])]

/-- What stands inside has a definition of its own. -/
theorem texts_nested :
    ((compile nested { prune := false }).toOption.map fun c =>
      c.types.map fun d => (d.name, d.shape.decl)) =
        some [("Pet_Owner", "record \x7b name?: string \x7d"), ("Pet_Tags_Item_1", "string"),
          ("Pet_Tags_Item", "union \x7b string | Pet_Tags_Item_1 \x7d"),
          ("Pet", "record \x7b owner?: Pet_Owner, tags?: array<Pet_Tags_Item> \x7d"),
          ("Animal", "Pet")] := by
  decide +kernel

theorem exists_compile_nested : ∃ c, compile nested { prune := false } = .ok c := by
  have htexts := texts_nested
  cases hcompile : compile nested { prune := false } with
  | error e => simp [hcompile, Except.toOption] at htexts
  | ok c => exact ⟨c, rfl⟩

theorem compile_flat_nested :
    ∃ c, compile nested { prune := false } = .ok c ∧ ∀ d ∈ c.types, ∀ shape,
      Shape.Within shape d.shape →
        (shape.Children fun part =>
          part.target.isSome = true ∨ part.fields = [] ∧ part.variants = []) ∧
        ∀ variant ∈ shape.variants, variant.shape.target = none →
          isPrimitive variant.shape.decl = true ∧ variant.shape.choices = [] := by
  obtain ⟨c, hcompile⟩ := exists_compile_nested
  exact ⟨c, hcompile, compile_flat nested { prune := false } c (by decide +kernel) hcompile⟩

/-- **An alias has no fields, and texts are in step with the structure.** The first holds in every
    document, the second where no type is overridden. Both hold of every part of every definition,
    and of every part of every shape that a schema is resolved to. -/
theorem compile_inStep (document : Json) (options : Options) (c : Compilation)
    (h : compile document options = .ok c) :
    (∀ d ∈ c.types, ∀ part, Shape.Within part d.shape →
      (part.isAlias = true → part.fields = []) ∧
        (document.lacks overrideKey = true → part.InStep)) ∧
      ∃ doc report, prepare document options = .ok (doc, report) ∧
        ∀ levels node site s shape s',
          (Env.resolveAt { doc, options } levels node site).Yields s shape s' →
            ∀ part, Shape.Within part shape → (part.isAlias = true → part.fields = []) ∧
              (document.lacks overrideKey = true → Schema.Free node → part.InStep) := by
  refine ⟨fun d hd part hpart => ?_, ?_⟩
  · have htidy : part.Tidy (document.lacks overrideKey = true) :=
      every_of_compile id h d hd part hpart
    exact ⟨htidy.alias_fields, htidy.inStep⟩
  · obtain ⟨doc, report, -, -, hprepare, -, -⟩ := compile_eq_ok h
    refine ⟨doc, report, hprepare, fun levels node site s shape s' hyields part hpart => ?_⟩
    have hdoc : document.lacks overrideKey = true ∧ Schema.Free node →
        doc.root.lacks overrideKey = true := fun hstrict => lacks_prepare hstrict.1 hprepare
    have hmakes : Env.Makes { doc, options } (document.lacks overrideKey = true ∧ Schema.Free node)
        (Env.resolveAt { doc, options } levels) := Env.makes_resolveAt hdoc levels
    have htidy := ((hmakes node site And.right).of_yields hyields).2.every part hpart
    exact ⟨htidy.alias_fields, fun hdocument hnode => htidy.inStep ⟨hdocument, hnode⟩⟩

theorem compile_inStep_nested :
    ∃ c, compile nested { prune := false } = .ok c ∧ (∀ d ∈ c.types, ∀ part,
      Shape.Within part d.shape → (part.isAlias = true → part.fields = []) ∧ part.InStep) := by
  obtain ⟨c, hcompile⟩ := exists_compile_nested
  have hlacks : nested.lacks overrideKey = true := by decide +kernel
  refine ⟨c, hcompile, fun d hd part hpart => ?_⟩
  obtain ⟨halias, hinStep⟩ :=
    (compile_inStep nested { prune := false } c hcompile).1 d hd part hpart
  exact ⟨halias, hinStep hlacks⟩

end ApiTypes

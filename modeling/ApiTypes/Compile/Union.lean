import ApiTypes.Compile.Session

/-!
  Unions: the members of `anyOf` and `oneOf`.

  * A member that only admits null is no variant; it makes the union nullable.
  * A list with one variant is that variant, unless the variant is the very component that is
    being defined, or a discriminator asks for a union.
  * Variants of one type are taken once, with the strictest constraints among them.
  * With a discriminator every variant must be selected by some value of its property.
-/

namespace ApiTypes

/-- Resolves a schema at a site. -/
abbrev Resolver := Json → Site → Resolve Shape

/-! ## 1. Variants -/

/-- Replaces the first variant of the same type where the new one is stricter, and adds a variant
    of a new type at the end. -/
def keepStricter (variants : List Variant) (new : Variant) : List Variant :=
  match variants with
  | [] => [new]
  | old :: rest =>
    if old.typeName = new.typeName then
      (if old.shape.constraints.strictness < new.shape.constraints.strictness then new else old) ::
        rest
    else old :: keepStricter rest new

/-- One variant for each type, the strictest, in the order in which the types came. -/
def distinctVariants (variants : List Variant) : List Variant :=
  variants.foldl keepStricter []

/-- The text of a value that selects a variant. -/
def selectorText : Json → String
  | .str s => s
  | value => value.compact

/-! ## 2. Discriminators -/

/-- The property that a node declares as its discriminator. -/
def discriminatorProperty? (node : Json) : Option String :=
  (node.get? "discriminator").bind (Schema.text? "propertyName")

/-- The mapping that a node declares, with a reference for each value. -/
def declaredMapping (node : Json) : List (String × String) :=
  match ((node.get? "discriminator").bind (Json.get? "mapping")).bind Json.members? with
  | none => []
  | some entries => entries.filterMap fun entry =>
    entry.2.string?.map fun target => (entry.1, Reference.ofMappingTarget target)

/-- The values of a declared mapping that select a reference. -/
def declaredValues (declared : List (String × String)) (reference : String) : List String :=
  (declared.filter fun entry => entry.2 = reference).map (·.1)

/-- Adds values that select a type to a mapping. -/
def selectBy (values : List String) (typeName : String) (mapping : List (String × String)) :
    List (String × String) :=
  values.foldl (fun mapping value => Entries.insertSorted value typeName mapping) mapping

/-- The single value that a property schema admits, if it fixes one. The outer option says whether
    the schema speaks of its values at all. -/
def fixedValue? (property : Json) : Option (Option String) :=
  match property.get? "const", property.get? "enum" with
  | some value, _ => some (some (selectorText value))
  | none, some (.arr [value]) => some (some (selectorText value))
  | none, some (.arr _) => some none
  | none, _ => none

/-- The first answer that is there. -/
def firstAnswer {α : Type} (look : Json → Except CompileError (Option α)) :
    List Json → Except CompileError (Option α)
  | [] => .ok none
  | node :: rest => do
    match ← look node with
    | some answer => return some answer
    | none => firstAnswer look rest

namespace Env

/-- The single value that a node admits for a property, seen through its `allOf`. The number is
    how many levels of lists are looked through. -/
def propertyValue? (env : Env) (property : String) (site : Site) :
    Nat → Json → Except CompileError (Option String)
  | 0, _ => .ok none
  | levels + 1, element => do
    let node ← env.deref element site
    let fixed ← match (Schema.properties? node).bind (Entries.get? property) with
      | none => pure none
      | some schema => pure (fixedValue? (← env.deref schema site))
    match fixed with
    | some answer => return answer
    | none => firstAnswer (env.propertyValue? property site levels) (Schema.membersOf "allOf" node)

/-- Adds the values that select an element to a mapping. The declared values of its reference
    count; without any, an inline element is selected by the single value that it admits, and a
    referenced one by its own name where no mapping is declared at all. -/
def mapElement (env : Env) (declared : List (String × String)) (property : String) (site : Site)
    (element : Json) (typeName : String) (mapping : List (String × String)) :
    Except CompileError (List (String × String)) :=
  match Schema.reference? element with
  | some reference =>
    let values := declaredValues declared reference
    if !values.isEmpty then .ok (selectBy values typeName mapping)
    else if declared.isEmpty then
      .ok (Entries.insertSorted (Reference.objectName reference) typeName mapping)
    else .ok mapping
  | none => do
    match ← env.propertyValue? property site (maxDepth + 1) element with
    | some value => return Entries.insertSorted value typeName mapping
    | none =>
      if declared.isEmpty then return mapping
      else throw (.ambiguousDiscriminator site.display property)

/-! ## 3. The union -/

/-- Whether an element is the component that is being defined. -/
def isOwnReference (site : Site) (element : Json) : Bool :=
  match Schema.reference? element, site.defining with
  | some reference, some defining => reference = defining
  | _, _ => false

/-- The elements that admit more than null. -/
def nonNull (env : Env) (site : Site) (elements : List Json) : Except CompileError (List Json) :=
  elements.filterMapM fun element => do
    return if Schema.isNullOnly (← env.deref element site) then none else some element

/-- Resolves an element, gives it a name unless it is a primitive, and adds it to the variants and
    to the mapping. An empty record is left out. -/
def addVariant (env : Env) (resolve : Resolver) (site : Site) (property : Option String)
    (declared : List (String × String)) (acc : List Variant × List (String × String))
    (element : Json × Nat) : Resolve (List Variant × List (String × String)) := do
  let (variants, mapping) := acc
  let site := site.child (toString element.2)
  let shape ← resolve element.1 site
  if shape.decl = emptyRecordDecl then return acc
  let inline := !shape.isReference && (!isPrimitive shape.decl || !shape.choices.isEmpty)
  let shape ← if inline then env.define shape site .union else pure shape
  let typeName := shape.target.getD shape.decl
  let mapping ← match property with
    | none => pure mapping
    | some property =>
      Resolve.ask (env.mapElement declared property site element.1 typeName mapping)
  return (variants ++ [⟨typeName, shape⟩], mapping)

/-- Builds the union of several elements. -/
def variantUnion (env : Env) (resolve : Resolver) (node : Json) (elements : List Json)
    (nullable : Bool) (site : Site) : Resolve Shape := do
  let property := discriminatorProperty? node
  let declared := declaredMapping node
  let (found, mapping) ←
    elements.zipIdx.foldlM (env.addVariant resolve site property declared) ([], [])
  let variants := distinctVariants found
  let selected := mapping.map (·.2)
  let unmapped := (variants.map (·.typeName)).filter (!selected.contains ·)
  if property.isSome && !unmapped.isEmpty then throw (.unmappedMembers site.display unmapped)
  if variants.isEmpty then
    return { Shape.ofDecl emptyRecordDecl with constraints := { nullable } }
  return { decl := unionDecl variants, variants, constraints := { nullable }
           discriminator := property.map (⟨·, mapping⟩) }

/-- Resolves the elements of a union of a node. -/
def union (env : Env) (resolve : Resolver) (node : Json) (elements : List Json) (site : Site) :
    Resolve Shape := do
  let alone (element : Json) : Bool :=
    (discriminatorProperty? node).isNone && !isOwnReference site element
  match elements with
  | [element] => if alone element then return ← resolve element site
  | _ => pure ()
  let admitted ← Resolve.ask (env.nonNull site elements)
  let nullable := decide (admitted.length < elements.length)
  match admitted with
  | [] => return { Shape.any with constraints := { nullable := true } }
  | [element] =>
    if alone element then
      let shape ← resolve element site
      let constraints := shape.constraints
      return { shape with
        constraints := { constraints with nullable := constraints.nullable || nullable } }
    else env.variantUnion resolve node admitted nullable site
  | _ => env.variantUnion resolve node admitted nullable site

end Env

end ApiTypes

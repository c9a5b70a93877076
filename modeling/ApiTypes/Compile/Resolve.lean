import ApiTypes.Compile.AllOf
import ApiTypes.Compile.Record

/-!
  Resolving a schema into a shape.

  * A bare reference is an alias of a component, or the use of a definition that is made once for
    the place that it points at.
  * A reference with keywords beside it is an `allOf` of the reference and the keywords.
  * Combinators come next, then `x-type-override`, and then what the schema says by itself.
  * A schema that is no object accepts anything.
-/

namespace ApiTypes

/-- What the combinators of a node come to: all of its shape, or parts of it. -/
inductive Combined where
  | complete (shape : Shape)
  | partly (shape : Shape)

namespace Env

/-! ## 1. References -/

/-- Adds what the node of a reference says beside it. -/
def besideReference (node : Json) (shape : Shape) : Shape :=
  let constraints := shape.constraints
  { shape with
    constraints :=
      { constraints with nullable := constraints.nullable || Schema.isNullable node }
    description := shape.description.or (Schema.description? node)
    source := shape.source.or (some node) }

/-- Resolves a reference to a place inside the document. The place is defined once, under a name
    from the reference. While it is being defined it is used by that name. -/
def placeReference (env : Env) (resolve : Resolver) (reference : String) (site : Site) :
    Resolve Shape := do
  let target ← Resolve.ask (env.resolve reference site)
  let name := TypeName.ofReference reference
  let session ← get
  let known := (session.registry.get? name).any fun d =>
    Json.sameOption d.shape.source (some target)
  if known || session.expanding.contains reference then return Shape.reference name
  let site := Site.named name
  let shape ← Resolve.expanding reference (resolve target site)
  env.define shape site .schema

/-- Resolves a reference. -/
def referenceShape (env : Env) (resolve : Resolver) (node : Json) (reference : String)
    (site : Site) : Resolve Shape := do
  if (Reference.schemaName? reference).isSome then
    let name ← Resolve.ask (env.componentTypeName reference site)
    return besideReference node (Shape.aliasOf name)
  else if Text.startsWith "#/" reference then
    return besideReference node (← env.placeReference resolve reference site)
  else throw (.unresolvableReference reference site.display)

/-- A reference with keywords beside it, as an `allOf`. What describes the node stays outside. -/
def expandReference (members : List (String × Json)) : Json :=
  let describes (key : String) : Bool := key = "nullable" || Schema.isMetadataKey key
  let target := members.filter fun entry => entry.1 = "$ref"
  let outer := members.filter fun entry => describes entry.1
  let beside := members.filter fun entry => entry.1 ≠ "$ref" && !describes entry.1
  .obj (outer ++ [("allOf", .arr [.obj target, .obj beside])])

/-! ## 2. Members of an `allOf` -/

/-- A field that embeds one member. A member that is no bare reference may be missing. Members
    without a name embed nothing. -/
def embedMember (env : Env) (resolve : Resolver) (site : Site) (acc : Shape)
    (member : Json × Nat) : Resolve Shape := do
  if Schema.isMetadataOnly member.1 then return acc
  let site := (site.child "AllOf").child (toString member.2)
  let shape ← resolve member.1 site
  let embed (shape : Shape) (nullable : Bool) : List Field :=
    (shape.target.map (Field.mixin · nullable)).toList
  if Schema.isBareReference member.1 then
    return { acc with fields := acc.fields ++ embed shape false }
  if !shape.isReference && !shape.needsName then return acc
  let shape ← if shape.isReference then pure shape else env.define shape site .merge
  return { acc with
    fields := acc.fields ++ embed shape true, hoisted := acc.hoisted ++ shape.hoisted }

/-- One embedding field for each member. -/
def embedMembers (env : Env) (resolve : Resolver) (members : List Json) (site : Site) :
    Resolve Shape := do
  return (← members.zipIdx.foldlM (env.embedMember resolve site) {}).refreshDecl

/-- The only reference among members that say nothing else. -/
def onlyReference? (members : List Json) : Option (Json × String) :=
  let isReference (member : Json) : Bool := (Schema.reference? member).isSome
  match members.filter isReference with
  | [member] =>
    if members.all fun m => isReference m || Schema.isMetadataOnly m then
      (Schema.reference? member).map (member, ·)
    else none
  | _ => none

/-- The component that merged members narrow by bounds alone: the last reference among the
    members, where the merge has neither properties nor a union. -/
def narrowedComponent? (members : List Json) (merged : Json) : Option String :=
  match (members.filterMap Schema.reference?).getLast? with
  | some reference =>
    if (Reference.schemaName? reference).isSome && (Schema.properties? merged).isNone &&
        !Schema.hasUnion merged then some reference else none
  | none => none

/-- Resolves the members of an `allOf`. Members that lead to a union are embedded one by one; a
    single reference is resolved as it is; others are merged, starting from what the node says
    itself where `withOwn` asks for it. -/
def allOfShape (env : Env) (resolve : Resolver) (node : Json) (members : List Json)
    (withOwn : Bool) (site : Site) : Resolve Combined := do
  if ← Resolve.ask (env.anyUnion site members) then
    return .partly (← env.embedMembers resolve members site)
  let own := if withOwn then Schema.ownKeywords node else none
  match own, onlyReference? members with
  | none, some (member, reference) =>
    return .complete (← resolve member (site.withReference reference))
  | _, _ =>
    let merged := Json.obj (← Resolve.ask (env.mergedMembers site own members))
    match narrowedComponent? members merged with
    | some reference =>
      let name ← Resolve.ask (env.componentTypeName reference site)
      return .complete { Shape.aliasOf name with constraints := Constraints.ofSchema merged }
    | none => return .complete (← resolve merged site)

/-! ## 3. Combinators -/

/-- Keywords that give a node fields of its own beside a union. -/
def fieldKeywords : List String := ["properties", "items", "additionalProperties", "enum", "const"]

/-- The fields that stand for the merged members of an `allOf` beside other combinators. -/
def takeMerged (acc : Shape) : Combined → Shape
  | .complete merged =>
    match merged.target with
    | some name => { acc with fields := acc.fields ++ [Field.mixin name false] }
    | none =>
      { acc with
        fields := acc.fields ++ merged.fields, hoisted := acc.hoisted ++ merged.hoisted }
  | .partly shape => { acc with fields := acc.fields ++ shape.fields }

/-- Adds a field that embeds a union. -/
def takeUnion (env : Env) (resolve : Resolver) (node : Json) (site : Site) (acc : Shape)
    (part : String × List Json) : Resolve Shape := do
  if part.2.isEmpty then return acc
  let site := site.through part.1
  let union ← env.hoist (← env.union resolve node part.2 site) site .union
  return { acc with
    fields := acc.fields ++ (union.target.map (Field.mixin · true)).toList
    hoisted := acc.hoisted ++ union.hoisted }

/-- Resolves several combinators, or a union beside fields: each part is embedded. -/
def mixedShape (env : Env) (resolve : Resolver) (node : Json) (site : Site) : Resolve Shape := do
  let allOf := Schema.membersOf "allOf" node
  let start ←
    if allOf.isEmpty then pure ({} : Shape)
    else pure (takeMerged {} (← env.allOfShape resolve node allOf false site))
  let parts :=
    [("AnyOf", Schema.membersOf "anyOf" node), ("OneOf", Schema.membersOf "oneOf" node)]
  return (← parts.foldlM (env.takeUnion resolve node site) start).refreshDecl

/-- Resolves the combinators of a node, if it has any. -/
def combined? (env : Env) (resolve : Resolver) (node : Json) (site : Site) :
    Resolve (Option Combined) := do
  let allOf := Schema.membersOf "allOf" node
  let anyOf := Schema.membersOf "anyOf" node
  let oneOf := Schema.membersOf "oneOf" node
  let hasFields := fieldKeywords.any fun key => (node.get? key).isSome
  match allOf, anyOf, oneOf, hasFields with
  | [], [], [], _ => return none
  | _ :: _, [], [], _ => return some (← env.allOfShape resolve node allOf true site)
  | [], _ :: _, [], false => return some (.complete (← env.union resolve node anyOf site))
  | [], [], _ :: _, false => return some (.complete (← env.union resolve node oneOf site))
  | _, _, _, _ => return some (.partly (← env.mixedShape resolve node site))

/-! ## 4. A node -/

/-- Adds the parts that come from combinators to what a node says itself. -/
def enhance (shape part : Shape) (keepDecl : Bool) : Shape :=
  let fields := shape.fields ++ part.fields
  let shape := { shape with
    fields
    discriminator := part.discriminator.or shape.discriminator
    variants := if part.variants.isEmpty then shape.variants else part.variants
    hoisted := shape.hoisted ++ part.hoisted
    isAlias := shape.isAlias && fields.isEmpty }
  if keepDecl then shape else shape.refreshDecl

/-- Adds what every schema says of itself: its description and its constraints. -/
def finish (node : Json) (shape : Shape) : Shape :=
  { shape with
    description := shape.description.or (Schema.description? node)
    constraints := (Constraints.ofSchema node).absorb shape.constraints
    source := some node }

/-- Adds what a node says beside combinators that describe it completely. -/
def finishCombined (node : Json) (shape : Shape) : Shape :=
  let constraints := shape.constraints
  { shape with
    constraints :=
      { constraints with nullable := constraints.nullable || Schema.isNullable node }
    description := shape.description.or (Schema.description? node)
    source := some node }

/-- What a node says without its combinators: the overriding type, or else its own keywords. -/
def ownShape (env : Env) (resolve : Resolver) (node : Json) (extensions : Extensions)
    (site : Site) : Resolve Shape :=
  match extensions.typeOverride with
  | some decl => return { decl, isAlias := true }
  | none => env.plainShape resolve node extensions site

/-- Resolves a node that is no reference. An overriding type replaces what combinators come to,
    unless that is an alias. -/
def schemaShape (env : Env) (resolve : Resolver) (node : Json) (site : Site) : Resolve Shape := do
  let extensions ← Resolve.ask (extensionsAt node site.display)
  let overridden := extensions.typeOverride.isSome
  match ← env.combined? resolve node site with
  | none => return finish node (← env.ownShape resolve node extensions site)
  | some (.partly part) =>
    let own ← env.ownShape resolve node extensions site
    return finish node (enhance own part overridden)
  | some (.complete shape) =>
    if (!shape.isBlank && shape.isAlias) || !overridden then return finishCombined node shape
    else
      let own ← env.ownShape resolve node extensions site
      return finish node (enhance own shape overridden)

/-- Resolves a node, with a resolver for the nodes below. -/
def build (env : Env) (resolve : Resolver) (node : Json) (site : Site) : Resolve Shape :=
  match node with
  | .obj members =>
    match site.reference, Schema.reference? node with
    | some reference, _ => env.referenceShape resolve node reference site
    | none, some reference =>
      if Schema.isBareReference node then env.referenceShape resolve node reference site
      else env.schemaShape resolve (expandReference members) site
    | none, none => env.schemaShape resolve node site
  | _ => return Shape.any

/-- Resolves a node. The number is how many levels are left; it runs out no sooner than the depth
    of the session reaches its limit. -/
def resolveAt (env : Env) : Nat → Resolver
  | 0, _, site => throw (.nestingTooDeep site.display maxDepth)
  | levels + 1, node, site => Resolve.deeper site (env.build (env.resolveAt levels) node site)

/-- Resolves a node. -/
def shapeOf (env : Env) : Resolver := env.resolveAt maxDepth

end Env

end ApiTypes

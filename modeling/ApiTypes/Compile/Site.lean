import ApiTypes.TypeName

/-!
  Where a schema is being resolved.

  A site is the path of declarations that leads to a schema: a definition, a property, an item, a
  member of a combinator. A shape that needs a name gets one from its site.
-/

namespace ApiTypes

/-- Where a schema is being resolved. -/
structure Site where
  /-- The declarations on the way. -/
  path : List String := []
  /-- The reference that the node is known to be. -/
  reference : Option String := none
  /-- A name that the path is passed over for. -/
  baseName : Option String := none
  /-- The component that is being defined here, as a reference. -/
  defining : Option String := none
  deriving DecidableEq, Repr

namespace Site

/-- The site of a path. -/
def ofPath (path : List String) : Site := { path }

/-- The site of a component schema, under the name of its type. -/
def component (key typeName : String) : Site :=
  { path := [typeName], defining := some (Reference.ofComponent "schemas" key) }

/-- The site of a definition that has its name already. -/
def named (name : String) : Site := { path := [name], baseName := some name }

/-- A declaration inside this one. -/
def child (site : Site) (part : String) : Site := ofPath (site.path ++ [part])

/-- The same declaration, seen through a combinator. -/
def through (site : Site) (part : String) : Site :=
  { site.child part with defining := site.defining }

/-- The same site, where the node is known to be a reference. -/
def withReference (site : Site) (reference : String) : Site :=
  { site with reference := some reference }

/-- The name of a definition made here. -/
def typeName (site : Site) : String := site.baseName.getD (TypeName.ofPath site.path)

/-- The path in messages. -/
def display (site : Site) : String :=
  if site.path.isEmpty then "/" else "/".intercalate site.path

end Site

end ApiTypes

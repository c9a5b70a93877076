import ApiTypes.Compile.Resolve

/-!
  The definitions that operations ask for.

  * The parameters in the path, the query and the header are one record each. A parameter of the
    operation stands in place of the parameter of its path item with the same name and location.
  * The request body and every response are one definition each, from the schema of their JSON
    content, or else of their first content.
-/

namespace ApiTypes

/-- An operation: its name in the model, its path item and itself. -/
structure Operation where
  name : String
  item : Json
  node : Json

namespace Operation

/-- The name of an operation: the one that it has, or else one from its method and path. -/
def nameOf (path method : String) (node : Json) : String :=
  TypeName.ofText ((Schema.text? "operationId" node).getD (method ++ " " ++ path))

/-- The operations of a path item, by method. -/
def ofItem (entry : String × Json) : List Operation :=
  let (path, item) := entry
  httpMethods.filterMap fun method =>
    (item.get? method).map fun node => ⟨nameOf path method node, item, node⟩

/-- The operations of a document. -/
def ofDocument (doc : Document) : List Operation :=
  (((doc.root.get? "paths").bind Json.members?).getD []).flatMap ofItem

end Operation

/-! ## 1. Parameters -/

/-- What tells parameters apart: the name and the location. -/
def parameterKey (parameter : Json) : Option String × Option String :=
  (Schema.text? "name" parameter, Schema.text? "in" parameter)

/-- Puts a parameter in place of the one with its key, or at the end. -/
def overrideParameter (parameters : List Json) (new : Json) : List Json :=
  match parameters with
  | [] => [new]
  | old :: rest =>
    if parameterKey old = parameterKey new then new :: rest else old :: overrideParameter rest new

/-- The schema of the first content. -/
def firstContentSchema? (node : Json) : Option Json :=
  match (node.get? "content").bind Json.members? with
  | some ((_, media) :: _) => media.get? "schema"
  | _ => none

/-- The schema of a parameter, with its description where the schema has none. -/
def parameterSchema (parameter : Json) : Json :=
  let schema :=
    ((parameter.get? "schema").or (firstContentSchema? parameter)).getD (.obj [])
  match Schema.description? parameter with
  | none => schema
  | some text => schema.mapMembers fun members =>
    if Entries.contains "description" members then members
    else Entries.insert "description" (.str text) members

/-- The parameters at a location that have a name. -/
def parametersAt (location : String) (parameters : List Json) : List (String × Json) :=
  (parameters.filter fun p => Schema.text? "in" p = some location).filterMap fun p =>
    (Schema.text? "name" p).map fun name => (name, p)

/-- The record of the parameters at a location; none without parameters. Every parameter in the
    path is required. -/
def parameterRecord? (location : String) (parameters : List Json) : Option Json :=
  match parametersAt location parameters with
  | [] => none
  | found =>
    let required := (found.filter fun p => location = "path" || Schema.flag "required" p.2).map
      fun p => Json.str p.1
    let properties := found.foldl
      (fun properties p => Entries.insert p.1 (parameterSchema p.2) properties) []
    some (.obj [("type", .str "object"), ("required", .arr required),
      ("properties", .obj properties)])

/-- The locations whose parameters become a record, and what its name ends in. -/
def parameterGroups : List (String × String × Location) :=
  [("path", "PathParams", .pathParameter), ("query", "QueryParams", .queryParameter),
    ("header", "HeaderParams", .headerParameter)]

/-! ## 2. Contents -/

/-- The schema of a content: of the JSON one, or else of the first. -/
def contentSchema? (node : Json) : Option Json := do
  let content ← (node.get? "content").bind Json.members?
  let media ← ((content.find? fun entry => Text.isJsonMedia entry.1).or content.head?).map (·.2)
  media.get? "schema"

/-- The part of a name that a status code contributes. -/
def statusPart (code : String) : String :=
  if code = "default" then "Default"
  else String.ofList ((code.toList.filter Char.isAlphanum).map Char.toUpper)

/-! ## 3. One operation -/

namespace Env

/-- The parameters that count for an operation. -/
def effectiveParameters (env : Env) (operation : Operation) : Except CompileError (List Json) := do
  let site := Site.ofPath [operation.name]
  let declared :=
    Schema.membersOf "parameters" operation.item ++ Schema.membersOf "parameters" operation.node
  declared.foldlM (fun parameters p => do
    return overrideParameter parameters (← env.deref p site)) []

/-- Defines a schema under the name of a site. -/
def defineRoot (env : Env) (schema : Json) (name : String) (location : Location) :
    Resolve Unit := do
  let site := Site.ofPath [name]
  let _ ← env.define (← env.shapeOf schema site) site location

/-- Defines the record of the parameters at a location. -/
def defineParameters (env : Env) (operation : Operation) (parameters : List Json)
    (group : String × String × Location) : Resolve Unit :=
  match parameterRecord? group.1 parameters with
  | none => return
  | some record => env.defineRoot record (operation.name ++ group.2.1) group.2.2

/-- Defines the schema of a content, which may stand behind a reference. -/
def defineContent (env : Env) (node : Json) (name : String) (location : Location) :
    Resolve Unit := do
  let node ← Resolve.ask (env.deref node (Site.ofPath [name]))
  match contentSchema? node with
  | none => return
  | some schema => env.defineRoot schema name location

/-- Defines a response; an extension beside the responses is none. -/
def defineResponse (env : Env) (operation : Operation) (entry : String × Json) : Resolve Unit :=
  if Schema.isExtensionKey entry.1 then return
  else env.defineContent entry.2 (operation.name ++ statusPart entry.1 ++ "Response") .response

/-- Defines what an operation asks for. -/
def compileOperation (env : Env) (operation : Operation) : Resolve Unit := do
  let parameters ← Resolve.ask (env.effectiveParameters operation)
  parameterGroups.forM (env.defineParameters operation parameters)
  match operation.node.get? "requestBody" with
  | none => pure ()
  | some body => env.defineContent body (operation.name ++ "Body") .requestBody
  (((operation.node.get? "responses").bind Json.members?).getD []).forM
    (env.defineResponse operation)

end Env

end ApiTypes

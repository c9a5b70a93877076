import ApiTypes.Compile.Operations
import ApiTypes.Prune.Basic

/-!
  Compiling a document.

  The document is filtered, pruned, and then resolved site by site: first every component schema,
  then every operation, in the order of the document.

  * `compile` stops at the first error.
  * `compileAll` goes on: a site that fails leaves no definition behind, and its error is kept.
    Only an error of the whole document stops it.
-/

namespace ApiTypes

/-- The type model of a document. -/
structure Compilation where
  types : List Definition
  /-- What pruning did, if it ran. -/
  prune : Option Prune.Report
  /-- The filtered and pruned document. -/
  document : Json

/-- A compilation that went on past errors. -/
structure CompileReport where
  compilation : Compilation
  /-- One error for each site that failed. -/
  errors : List CompileError

/-- The definition of this name. -/
def Compilation.get? (c : Compilation) (name : String) : Option Definition :=
  c.types.find? (·.name = name)

/-! ## 1. Preparing -/

/-- The filtered and pruned document, and what pruning did. -/
def prepare (document : Json) (options : Options) :
    Except CompileError (Document × Option Prune.Report) := do
  let working := (options.filter.apply document).1
  let (working, report) ←
    if options.prune && working.isObject then
      let (working, outcome) := Prune.prune options.pruning working
      let report ← outcome
      pure (working, some report)
    else pure (working, none)
  match Document.ofJson? working with
  | some doc => return (doc, report)
  | none => throw (.rootNotObject working.kindName)

/-! ## 2. Sites -/

/-- What is compiled on its own. -/
inductive Task where
  | component (key : String) (node : Json)
  | operation (operation : Operation)

/-- The component schemas and the operations of a document. -/
def Task.ofDocument (doc : Document) : List Task :=
  (doc.components "schemas").map (fun entry => .component entry.1 entry.2) ++
    (Operation.ofDocument doc).map .operation

namespace Env

/-- Defines a component schema under the name of its type. -/
def compileComponent (env : Env) (key : String) (node : Json) : Resolve Unit := do
  let reference := Reference.ofComponent "schemas" key
  let name ← Resolve.ask (env.componentTypeName reference (Site.ofPath [key]))
  let shape ← env.shapeOf node (Site.component key name)
  let definition : Definition := { name, shape, location := .schema }
  Resolve.register (definition.withJsonName key)

/-- Compiles one task. -/
def compileTask (env : Env) : Task → Resolve Unit
  | .component key node => env.compileComponent key node
  | .operation operation => env.compileOperation operation

/-! ## 3. Running the tasks -/

/-- Runs tasks until one fails. -/
def runAll (env : Env) (tasks : List Task) : Resolve Unit := tasks.forM env.compileTask

/-- Runs a task; when it fails its definitions are forgotten and its error is kept. -/
def settle (env : Env) (state : Session × List CompileError) (task : Task) :
    Session × List CompileError :=
  let (before, errors) := state
  match (env.compileTask task).run.run before with
  | (.ok _, after) => (after, errors)
  | (.error e, after) =>
    ({ after with registry := after.registry.rollback before.registry.checkpoint }, errors ++ [e])

/-- Runs every task. -/
def runEach (env : Env) (tasks : List Task) : Session × List CompileError :=
  tasks.foldl env.settle ({}, [])

end Env

/-! ## 4. Compilations -/

/-- Compiles a document and stops at the first error. -/
def compile (document : Json) (options : Options) : Except CompileError Compilation := do
  let (doc, report) ← prepare document options
  let env : Env := { doc, options }
  let (outcome, session) := (env.runAll (Task.ofDocument doc)).run.run {}
  let _ ← outcome
  return ⟨session.registry.definitions, report, doc.root⟩

/-- Compiles a document and goes on past the sites that fail. -/
def compileAll (document : Json) (options : Options) : Except CompileError CompileReport := do
  let (doc, report) ← prepare document options
  let env : Env := { doc, options }
  let (session, errors) := env.runEach (Task.ofDocument doc)
  return ⟨⟨session.registry.definitions, report, doc.root⟩, errors⟩

/-- Compiles documents that have nothing to do with each other. -/
def compileBatch (documents : List Json) (options : Options) :
    List (Except CompileError Compilation) :=
  documents.map (compile · options)

end ApiTypes

import ApiTypes.Filter
import ApiTypes.Schema.Extensions

/-!
  Options of a compilation.

  An options file gives some of the fields; the others keep their defaults. A field of another
  name is refused.
-/

namespace ApiTypes

/-- How components that nothing uses are found: by deleting until nothing changes, or by marking
    what operations reach. -/
inductive PruneStrategy where
  | fixedPoint
  | reachability
  deriving DecidableEq, Repr

/-- The strategies by name. -/
def PruneStrategy.choices : List (String × PruneStrategy) :=
  [("fixed-point", .fixedPoint), ("reachability", .reachability)]

/-- The name of a strategy. -/
def PruneStrategy.name : PruneStrategy → String
  | .fixedPoint => "fixed-point"
  | .reachability => "reachability"

/-- The strategy of this name. -/
def PruneStrategy.ofName? (name : String) : Option PruneStrategy :=
  Entries.get? name PruneStrategy.choices

/-- How often the pruner may pass over a document, unless told otherwise. -/
def defaultMaxPasses : Nat := 1000

/-- The extensions that are understood, sorted. -/
def recognizedExtensions : List String := Entries.sortedDistinct Extensions.recognized

/-- Options of a pruning run. `allowed` are the extensions that stay in the document. -/
structure PruneOptions where
  strategy : PruneStrategy := .fixedPoint
  maxPasses : Nat := defaultMaxPasses
  allowed : List String := recognizedExtensions
  deriving DecidableEq, Repr

/-- Options of a compilation. -/
structure Options where
  nameSuffixes : List String := []
  allowedExtensions : List String := recognizedExtensions
  prune : Bool := true
  pruneStrategy : PruneStrategy := .fixedPoint
  maxPrunePasses : Nat := defaultMaxPasses
  filter : Filter := {}
  deriving DecidableEq, Repr

namespace Options

/-- Adds an extension that stays in the document. -/
def allow (options : Options) (key : String) : Options :=
  { options with allowedExtensions := Entries.insertMember key options.allowedExtensions }

/-- The options of the pruning run that a compilation starts with. -/
def pruning (options : Options) : PruneOptions :=
  ⟨options.pruneStrategy, options.maxPrunePasses, options.allowedExtensions⟩

/-- The fields of an options file. -/
def fields : List (Decode.Field Options) :=
  [Decode.field ["name-suffixes"] (Decode.list Decode.text) fun o v => { o with nameSuffixes := v },
   Decode.field ["allowed-extensions"] Decode.textSet fun o v => { o with allowedExtensions := v },
   Decode.field ["prune"] Decode.truth fun o v => { o with prune := v },
   Decode.field ["prune-strategy"] (Decode.choice PruneStrategy.choices)
     fun o v => { o with pruneStrategy := v },
   Decode.field ["max-prune-iterations"] (Decode.natBelow (Nat.pow 2 64) "usize")
     fun o v => { o with maxPrunePasses := v },
   Decode.field ["filter"] Filter.decode fun o v => { o with filter := v }]

/-- Options with defaults for the fields that are not given. -/
def decode : Decode Options := Decode.record "struct CompileOptions" true fields {}

/-- All options as an object. -/
def toJson (o : Options) : Json :=
  .obj [("name-suffixes", Filter.textsJson o.nameSuffixes),
    ("allowed-extensions", Filter.textsJson o.allowedExtensions),
    ("prune", .bool o.prune),
    ("prune-strategy", .str o.pruneStrategy.name),
    ("max-prune-iterations", .int o.maxPrunePasses),
    ("filter", o.filter.toJson)]

end Options

end ApiTypes

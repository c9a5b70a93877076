import ApiTypes.Compile.Basic
import ApiTypes.Model.Encode

/-!
  Compilations as values.

  A compilation is an object with its types and, when pruning ran, what pruning did. A compilation
  that went on past errors lists them as well, and then shows null where pruning did not run.
-/

namespace ApiTypes

/-- What pruning did as an object. -/
def Prune.Report.toJson (report : Prune.Report) : Json :=
  .obj [("iterations", .int report.passes), ("removed", .arr (report.removed.map .str))]

/-- A compilation as an object. -/
def Compilation.toJson (c : Compilation) : Json :=
  .obj ([("types", definitionsJson c.types)] ++
    (c.prune.map fun report => ("prune", report.toJson)).toList)

/-- An error as an object. -/
def CompileError.toJson (e : CompileError) : Json :=
  .obj [("code", .str e.code), ("path", (e.path?.map Json.str).getD .null),
    ("message", .str e.message)]

/-- A compilation that went on past errors as an object. -/
def CompileReport.toJson (report : CompileReport) : Json :=
  .obj [("types", definitionsJson report.compilation.types),
    ("prune", (report.compilation.prune.map Prune.Report.toJson).getD .null),
    ("errors", .arr (report.errors.map CompileError.toJson))]

end ApiTypes

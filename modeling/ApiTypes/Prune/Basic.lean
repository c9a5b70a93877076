import ApiTypes.CompileError
import ApiTypes.Options
import ApiTypes.Prune.Cleanup
import ApiTypes.Prune.References

/-!
  Removing components that no operation uses.

  After a cleanup, components go that nothing refers to. There are two strategies.

  * **Fixed point**: a component goes when neither an operation nor the body of a component
    refers to it. That may leave others without a reference, so the pass is repeated until one
    deletes nothing. A cap limits the number of passes.
  * **Reachability**: everything that can be reached from the operations is marked, and the rest
    goes at once. Components that only refer to each other in a circle go too.
-/

namespace ApiTypes.Prune

/-- The kinds of component that may go. -/
def prunableKinds : List String :=
  ["schemas", "parameters", "requestBodies", "responses", "headers", "links", "callbacks"]

/-- The kinds of component whose bodies count as referring. -/
def referringKinds : List String :=
  ["schemas", "parameters", "requestBodies", "responses", "headers"]

/-- What a run did: how many passes it made, counting the one that deleted nothing, and the
    references of what it deleted, in the order of deletion. -/
structure Report where
  passes : Nat := 0
  removed : List String := []
  deriving DecidableEq, Repr

/-! ## 1. Components -/

/-- The components of a kind. -/
def entriesOf (document : Json) (kind : String) : List (String × Json) :=
  (((document.get? "components").bind (Json.get? kind)).bind Json.members?).getD []

/-- The references of the components of a kind that are not kept. -/
def doomedOf (keep : String → Bool) (document : Json) (kind : String) : List String :=
  ((Entries.keys (entriesOf document kind)).map (Reference.ofComponent kind)).filter (!keep ·)

/-- The references of the components that are not kept, kind by kind. -/
def doomed (keep : String → Bool) (document : Json) : List String :=
  prunableKinds.flatMap (doomedOf keep document)

/-- The components of a kind that are kept. -/
def sweepKind (keep : String → Bool) (kind : String) (components : List (String × Json)) :
    List (String × Json) :=
  Entries.adjust kind
    (·.mapMembers (·.filter fun entry => keep (Reference.ofComponent kind entry.1))) components

/-- The document with the components that are kept, and all else that it holds. -/
def sweep (keep : String → Bool) (document : Json) : Json :=
  document.mapMembers <| Entries.adjust "components" <| Json.mapMembers fun components =>
    prunableKinds.foldl (fun components kind => sweepKind keep kind components) components

/-! ## 2. Deleting until nothing changes -/

/-- The references that operations make. -/
def operationReferences (document : Json) : List String :=
  ((document.get? "paths").map references).getD []

/-- The references that operations and the bodies of components make. -/
def referenced (document : Json) : List String :=
  operationReferences document ++ referringKinds.flatMap fun kind =>
    (Entries.values (entriesOf document kind)).flatMap references

/-- Passes over a document until one deletes nothing; the second number counts the passes that
    are left of the limit. The document is the one reached, also when the passes run out. -/
def fixedPoint (limit : Nat) : Nat → Report → Json → Json × Except CompileError Report
  | 0, _, document => (document, .error (.pruneLimitExceeded limit))
  | left + 1, report, document =>
    let refs := referenced document
    let gone := doomed refs.contains document
    let report := ⟨report.passes + 1, report.removed ++ gone⟩
    if gone.isEmpty then (document, .ok report)
    else fixedPoint limit left report (sweep refs.contains document)

/-! ## 3. Marking -/

/-- The references made at the place that a reference points at. -/
def targetReferences (document : Json) (reference : String) : List String :=
  ((document.resolve? reference).map references).getD []

/-- Follows the pending references and adds them to the marked ones. -/
def mark (document : Json) : Nat → List String → List String → List String
  | 0, marked, _ => marked
  | _, marked, [] => marked
  | fuel + 1, marked, reference :: pending =>
    if marked.contains reference then mark document fuel marked pending
    else
      let marked := reference :: marked
      let found := (targetReferences document reference).filter (!marked.contains ·)
      mark document fuel marked (pending ++ found)

/-- Everything that can be reached from the operations. Each of the `n` references that the
    document makes anywhere is followed at most once and brings at most `n` others. -/
def reachable (document : Json) : List String :=
  let n := (everyReference document).length
  mark document (n * n + n + 1) [] (operationReferences document)

/-! ## 4. A run -/

/-- Prunes an object: the document reached, and what was done or why it was given up. Any other
    value is left alone. -/
def prune (options : PruneOptions) (document : Json) : Json × Except CompileError Report :=
  if !document.isObject then (document, .ok {})
  else
    let cleaned := clean options.allowed .document document
    match options.strategy with
    | .fixedPoint => fixedPoint options.maxPasses options.maxPasses {} cleaned
    | .reachability =>
      let marked := reachable cleaned
      (sweep marked.contains cleaned, .ok ⟨1, doomed marked.contains cleaned⟩)

end ApiTypes.Prune

import ApiTypes.Check
import ApiTypes.CommandLine.Arguments
import ApiTypes.CommandLine.Command
import ApiTypes.CommandLine.Run
import ApiTypes.Compile.AllOf
import ApiTypes.Compile.Basic
import ApiTypes.Compile.Encode
import ApiTypes.Compile.Operations
import ApiTypes.Compile.Record
import ApiTypes.Compile.Resolve
import ApiTypes.Compile.Session
import ApiTypes.Compile.Site
import ApiTypes.Compile.Union
import ApiTypes.CompileError
import ApiTypes.Decimal.Notation
import ApiTypes.Decimal.Shortest
import ApiTypes.Decode
import ApiTypes.Document
import ApiTypes.Entries
import ApiTypes.Files.Basic
import ApiTypes.Files.Path
import ApiTypes.Filter
import ApiTypes.Json.Basic
import ApiTypes.Json.Number
import ApiTypes.Json.Reader
import ApiTypes.Json.Text
import ApiTypes.Load
import ApiTypes.Main
import ApiTypes.Model.Basic
import ApiTypes.Model.Encode
import ApiTypes.Model.Equality
import ApiTypes.Options
import ApiTypes.Prune.Basic
import ApiTypes.Prune.Cleanup
import ApiTypes.Prune.References
import ApiTypes.Reference
import ApiTypes.Registry
import ApiTypes.Schema.Constraints
import ApiTypes.Schema.Extensions
import ApiTypes.Schema.Keywords
import ApiTypes.Schema.Merge
import ApiTypes.Text.Basic
import ApiTypes.Text.Quoted
import ApiTypes.Text.Shown
import ApiTypes.TypeName
import ApiTypes.Yaml.Document
import ApiTypes.Yaml.Node
import ApiTypes.Yaml.Node.Grammar
import ApiTypes.Yaml.Scalar
import ApiTypes.Yaml.Token
import ApiTypes.Yaml.Token.Lexer
import ApiTypes.Yaml.Token.Scalar
import ApiTypes.Yaml.Token.Tag
import ApiTypes.Proofs.Entries
import ApiTypes.Proofs.Json
import ApiTypes.Proofs.Filter
import ApiTypes.Proofs.Prune.Cleanup
import ApiTypes.Proofs.Reference
import ApiTypes.Proofs.Prune.Components
import ApiTypes.Proofs.Prune.FixedPoint
import ApiTypes.Proofs.Prune.Reachability
import ApiTypes.Proofs.Prune.Strategies
import ApiTypes.Proofs.Compile.Modes
import ApiTypes.Proofs.Compile.Parts
import ApiTypes.Proofs.Compile.Traversal
import ApiTypes.Proofs.Compile.Prepare
import ApiTypes.Proofs.Compile.Closed
import ApiTypes.Proofs.Compile.SharedPlaces
import ApiTypes.Proofs.Prune.Places
import ApiTypes.Proofs.Compile.Follow
import ApiTypes.Proofs.Compile.Cleaned
import ApiTypes.Proofs.Compile.Regular
import ApiTypes.Proofs.Compile.Flatten
import ApiTypes.Proofs.Compile.Lookups
import ApiTypes.Proofs.Compile.Unions
import ApiTypes.Proofs.Compile.Merged
import ApiTypes.Proofs.Compile.Mirrored
import ApiTypes.Proofs.Compile.Alike
import ApiTypes.Proofs.Compile.Imitation
import ApiTypes.Proofs.Compile.Kept
import ApiTypes.Proofs.Compile.Tasks
import ApiTypes.Proofs.Compile.Pruned
import ApiTypes.Proofs.Compile.Effects
import ApiTypes.Proofs.Compile.Tidy
import ApiTypes.Proofs.Compile.Inherited
import ApiTypes.Proofs.Compile.Overrides
import ApiTypes.Proofs.Compile.Renames
import ApiTypes.Proofs.Compile.Making
import ApiTypes.Proofs.Compile.Sites
import ApiTypes.Proofs.Compile.Failures
import ApiTypes.Proofs.Compile.WellFormed
import ApiTypes.Proofs.Compile.Aliases
import ApiTypes.Proofs.Prune.Again
import ApiTypes.Proofs.Prune.Passes
import ApiTypes.Proofs.Prune.Targets
import ApiTypes.Proofs.Prune.Monotone
import ApiTypes.Proofs.TypeName
import ApiTypes.Proofs.Compile.Equality
import ApiTypes.Proofs.Compile.Registrations
import ApiTypes.Proofs.Merge.Sameness
import ApiTypes.Proofs.Merge.Commutes
import ApiTypes.Proofs.Merge.Substance
import ApiTypes.Proofs.Merge.Types
import ApiTypes.Proofs.Merge.AnyOrder
import ApiTypes.Proofs.Compile.Distinct
import ApiTypes.Proofs.Compile.StandsAlone
import ApiTypes.Proofs.Compile.Narrowed
import ApiTypes.Proofs.Compile.Siblings
import ApiTypes.Proofs.Constraints
import ApiTypes.Proofs.Compile.Fields
import ApiTypes.Proofs.Compile.PlaceConstraints
import ApiTypes.Proofs.Compile.Discriminators
import ApiTypes.Proofs.Constraints.Absorb
import ApiTypes.Proofs.Constraints.Described
import ApiTypes.Proofs.Compile.NullMembers
import ApiTypes.Proofs.Compile.WireNames
import ApiTypes.Proofs.Compile.Exits
import ApiTypes.Proofs.Compile.Nullable
import ApiTypes.Proofs.Compile.TypeOverride
import ApiTypes.Proofs.Prune.Names
import ApiTypes.Proofs.Document
import ApiTypes.Proofs.Prune.Positions
import ApiTypes.Proofs.Compile.Parameters
import ApiTypes.Proofs.Compile.UnionSearch
import ApiTypes.Proofs.Compile.CombinatorFree
import ApiTypes.Proofs.Decode
import ApiTypes.Proofs.Extensions
import ApiTypes.Proofs.Keyed
import ApiTypes.Proofs.Compile.Variants
import ApiTypes.Proofs.Compile.Choices
import ApiTypes.Proofs.TypeName.Identifiers

import TaintTrail.Analysis
import TaintTrail.CommandLine
import TaintTrail.Config.Basic
import TaintTrail.Config.Format
import TaintTrail.Coverage
import TaintTrail.Fact
import TaintTrail.Flow.Across
import TaintTrail.Flow.Problem
import TaintTrail.Flow.Rule
import TaintTrail.Flow.Site
import TaintTrail.Flow.Within
import TaintTrail.Json.Basic
import TaintTrail.Json.Decoder
import TaintTrail.Json.Printer
import TaintTrail.Json.Reader
import TaintTrail.Location
import TaintTrail.Main
import TaintTrail.Program.Basic
import TaintTrail.Program.Builder
import TaintTrail.Program.Calls
import TaintTrail.Program.Format
import TaintTrail.Program.Operation
import TaintTrail.Program.Typing
import TaintTrail.Proofs.Analysis.Recorded
import TaintTrail.Proofs.Analysis.Regions
import TaintTrail.Proofs.Analysis.Run
import TaintTrail.Proofs.Analysis.Scheduling
import TaintTrail.Proofs.Analysis.Termination
import TaintTrail.Proofs.Analysis.Updates
import TaintTrail.Proofs.Flow.Arises
import TaintTrail.Proofs.Flow.Confined
import TaintTrail.Proofs.Flow.Problem
import TaintTrail.Proofs.Flow.Rule
import TaintTrail.Proofs.Flow.Shape
import TaintTrail.Proofs.Flow.Vocabulary
import TaintTrail.Proofs.Location.Alphabet
import TaintTrail.Proofs.Program.Listing
import TaintTrail.Proofs.Program.Resolution
import TaintTrail.Proofs.Program.WellFormed
import TaintTrail.Proofs.Supergraph.OfProgram
import TaintTrail.Proofs.Supergraph.WellShaped
import TaintTrail.Proofs.Tabulation.Entailment
import TaintTrail.Proofs.Tabulation.FiniteProblem
import TaintTrail.Proofs.Tabulation.Fixpoint
import TaintTrail.Proofs.Tabulation.Growth
import TaintTrail.Proofs.Tabulation.Limit
import TaintTrail.Proofs.Tabulation.Production
import TaintTrail.Proofs.Tabulation.Schedule
import TaintTrail.Proofs.Tabulation.ValidPath
import TaintTrail.Region
import TaintTrail.Resolution
import TaintTrail.Sorted
import TaintTrail.Supergraph.Basic
import TaintTrail.Supergraph.OfProgram
import TaintTrail.Tabulation.Basic
import TaintTrail.Tabulation.Explicit
import TaintTrail.Tabulation.Solve
import TaintTrail.Text.Invisible
import TaintTrail.Text.Quoted
import TaintTrail.Ty
import TaintTrail.Value
import TaintTrail.Yaml.Anchor
import TaintTrail.Yaml.Basic
import TaintTrail.Yaml.BlockScalar
import TaintTrail.Yaml.Core
import TaintTrail.Yaml.Cursor
import TaintTrail.Yaml.Decoder
import TaintTrail.Yaml.Directive
import TaintTrail.Yaml.Printer
import TaintTrail.Yaml.Property
import TaintTrail.Yaml.Reader
import TaintTrail.Yaml.Scalar
import TaintTrail.Yaml.Tag
import TaintTrail.Proofs.Analysis.EntryPoints
import TaintTrail.Proofs.Coverage
import TaintTrail.Proofs.Analysis.Coverage
import TaintTrail.Proofs.Analysis.Settings
import TaintTrail.Proofs.Analysis.GivenUp
import TaintTrail.Proofs.Tabulation.Accounting
import TaintTrail.Proofs.Flow.VariableArgs
import TaintTrail.Proofs.Supergraph.Depiction
import TaintTrail.Proofs.Tabulation.Agenda
import TaintTrail.Proofs.Analysis.Frozen
import TaintTrail.Proofs.Analysis.Reachability
import TaintTrail.Proofs.Analysis.Sourceless
import TaintTrail.Proofs.Analysis.Places
import TaintTrail.Proofs.Location.Order
import TaintTrail.Proofs.Location.Graft
import TaintTrail.Proofs.Location.Cut
import TaintTrail.Proofs.Tabulation.Projection
import TaintTrail.Proofs.Json.Reader
import TaintTrail.Proofs.Json.Codec
import TaintTrail.Proofs.Program.Format
import TaintTrail.Proofs.Config.Format
import TaintTrail.Proofs.Location.Rebase
import TaintTrail.Proofs.Program.AddressWalk
import TaintTrail.Proofs.Flow.Covering
import TaintTrail.Proofs.Flow.Arguments
import TaintTrail.Proofs.Brackets
import TaintTrail.Proofs.Region
import TaintTrail.Proofs.Coverage.Recording
import TaintTrail.Proofs.Coverage.Trace
import TaintTrail.Proofs.MergeLabel
import TaintTrail.Proofs.Program.AddressType

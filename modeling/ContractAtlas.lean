import ContractAtlas.Call.Analysis
import ContractAtlas.Call.Callee
import ContractAtlas.Call.Deep
import ContractAtlas.Call.Detection
import ContractAtlas.Call.Facts
import ContractAtlas.Call.Kind
import ContractAtlas.Call.Scope
import ContractAtlas.Call.Selector
import ContractAtlas.Call.Statistics
import ContractAtlas.Call.Tags
import ContractAtlas.Entries
import ContractAtlas.Flow.Builder
import ContractAtlas.Flow.Graph
import ContractAtlas.Grammar.Declaration
import ContractAtlas.Grammar.Directive
import ContractAtlas.Grammar.Lowered
import ContractAtlas.Grammar.Tree
import ContractAtlas.Import.Graph
import ContractAtlas.Import.Match
import ContractAtlas.Import.Usage
import ContractAtlas.NameSet
import ContractAtlas.Pattern.Basic
import ContractAtlas.Pattern.CallRules
import ContractAtlas.Pattern.Glob
import ContractAtlas.Pattern.Rule
import ContractAtlas.Pattern.Search
import ContractAtlas.Pattern.Shapes
import ContractAtlas.Program.Basic
import ContractAtlas.Program.Declaration
import ContractAtlas.Program.Import
import ContractAtlas.Program.Keyword
import ContractAtlas.Program.Load
import ContractAtlas.Program.Node
import ContractAtlas.Proofs.Call.Classification
import ContractAtlas.Proofs.Call.Completion
import ContractAtlas.Proofs.Call.Frame
import ContractAtlas.Proofs.Call.Incremental
import ContractAtlas.Proofs.Call.LoadOrder
import ContractAtlas.Proofs.Call.Outline
import ContractAtlas.Proofs.Call.ScopeGrowth
import ContractAtlas.Proofs.Flow.Building
import ContractAtlas.Proofs.Flow.DefUse
import ContractAtlas.Proofs.Flow.Guarding
import ContractAtlas.Proofs.Flow.Moves
import ContractAtlas.Proofs.Flow.Paths
import ContractAtlas.Proofs.Flow.Search
import ContractAtlas.Proofs.Grammar.Body
import ContractAtlas.Proofs.Grammar.Coverage
import ContractAtlas.Proofs.Grammar.Declaration
import ContractAtlas.Proofs.Grammar.Exactness
import ContractAtlas.Proofs.Grammar.Exposure
import ContractAtlas.Proofs.Grammar.Lowered
import ContractAtlas.Proofs.Grammar.Subtree
import ContractAtlas.Proofs.Program.Answers
import ContractAtlas.Proofs.Program.Names
import ContractAtlas.Proofs.Program.Numbering
import ContractAtlas.Proofs.Program.Placement
import ContractAtlas.Proofs.Program.Registration
import ContractAtlas.Proofs.Program.Relabel
import ContractAtlas.Proofs.Program.Walk
import ContractAtlas.Proofs.Reach
import ContractAtlas.Proofs.Symbol.Frame
import ContractAtlas.Proofs.Symbol.Growth
import ContractAtlas.Proofs.Text.Position
import ContractAtlas.Proofs.Variable.Agreement
import ContractAtlas.Proofs.Variable.Frame
import ContractAtlas.Proofs.Variable.WriteSite
import ContractAtlas.Reach
import ContractAtlas.Settings.Basic
import ContractAtlas.Settings.Format
import ContractAtlas.Settings.Token
import ContractAtlas.Source.Span
import ContractAtlas.Source.File
import ContractAtlas.Source.Line
import ContractAtlas.Symbol.Chain
import ContractAtlas.Symbol.Declaration
import ContractAtlas.Symbol.Definition
import ContractAtlas.Symbol.Kind
import ContractAtlas.Symbol.QueryFormat
import ContractAtlas.Symbol.Reference
import ContractAtlas.Symbol.Usage
import ContractAtlas.Text.Basic
import ContractAtlas.Text.Blank
import ContractAtlas.Text.CaseFold
import ContractAtlas.Text.Search
import ContractAtlas.Text.Word
import ContractAtlas.Variable.Log
import ContractAtlas.Variable.Reference
import ContractAtlas.Proofs.Program.Loading
import ContractAtlas.Proofs.Program.Coherence
import ContractAtlas.Proofs.Call.Movement
import ContractAtlas.Proofs.Settings.RoundTrip
import ContractAtlas.Proofs.Program.LineAgreement
import ContractAtlas.Proofs.Reach.Distance
import ContractAtlas.Proofs.Call.CallGraph
import ContractAtlas.Proofs.Program.Ancestors
import ContractAtlas.Proofs.Symbol.Chains
import ContractAtlas.Proofs.Symbol.Lookup
import ContractAtlas.Proofs.Flow.Tracing
import ContractAtlas.Proofs.Symbol.Cap
import ContractAtlas.Proofs.Symbol.Sides
import ContractAtlas.Proofs.Flow.Parts
import ContractAtlas.Proofs.Flow.Values
import ContractAtlas.Proofs.Call.Nearest
import ContractAtlas.Proofs.Symbol.Candidates
import ContractAtlas.Proofs.Symbol.Report
import ContractAtlas.Proofs.Text.Occurrence
import ContractAtlas.Proofs.Symbol.UsagePlace
import ContractAtlas.Proofs.Import.Cycles
import ContractAtlas.Proofs.Import.Edges
import ContractAtlas.Proofs.Import.Resolution
import ContractAtlas.Proofs.Call.Detection
import ContractAtlas.Proofs.Import.Parts
import ContractAtlas.Proofs.Import.Offsets
import ContractAtlas.Proofs.Import.Statement
import ContractAtlas.Proofs.Program.Paths
import ContractAtlas.Proofs.Program.Code
import ContractAtlas.Proofs.Call.Statistics
import ContractAtlas.Proofs.Grammar.Shape
import ContractAtlas.Proofs.Variable.Sighting
import ContractAtlas.Proofs.Variable.Log
import ContractAtlas.Proofs.Variable.Occurrence
import ContractAtlas.Proofs.Call.Emitted
import ContractAtlas.Proofs.Call.NamedArgument
import ContractAtlas.Proofs.Call.Spelling
import ContractAtlas.Proofs.Pattern.Wildcard
import ContractAtlas.Proofs.Source.Partition
import ContractAtlas.Proofs.Program.Fault
import ContractAtlas.Proofs.Source.LineColumn
import ContractAtlas.Proofs.Source.LineLimit
import ContractAtlas.Proofs.Source.Window
import ContractAtlas.Proofs.Call.DeepSearch

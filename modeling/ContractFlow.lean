import ContractFlow.CallGraph
import ContractFlow.Dataflow.Analysis
import ContractFlow.Dataflow.Solver
import ContractFlow.Dataflow.Variables
import ContractFlow.Digraph.Basic
import ContractFlow.Digraph.Drawing
import ContractFlow.Digraph.Search
import ContractFlow.Drawing
import ContractFlow.Error
import ContractFlow.Failure
import ContractFlow.Flow.Access
import ContractFlow.Flow.Build
import ContractFlow.Flow.Command
import ContractFlow.Flow.Graph
import ContractFlow.Flow.Role
import ContractFlow.Flow.Statement
import ContractFlow.Hierarchy
import ContractFlow.Json.Number
import ContractFlow.Json.Reader
import ContractFlow.Json.Value
import ContractFlow.Json.Writer
import ContractFlow.Loading.Compiler
import ContractFlow.Loading.FileTree
import ContractFlow.Options
import ContractFlow.Program
import ContractFlow.Report
import ContractFlow.Search
import ContractFlow.Source.Span
import ContractFlow.Source.Utf8
import ContractFlow.Syntax.Fold
import ContractFlow.Syntax.Node
import ContractFlow.Syntax.NodeType
import ContractFlow.Syntax.Reading
import ContractFlow.Syntax.Record
import ContractFlow.Syntax.SourceUnit
import ContractFlow.Syntax.Traversal
import ContractFlow.Proofs.Building
import ContractFlow.Proofs.Execution
import ContractFlow.Proofs.Outline
import ContractFlow.Proofs.Growth
import ContractFlow.Proofs.Refinement
import ContractFlow.Proofs.Conditions
import ContractFlow.Proofs.Preservation
import ContractFlow.Proofs.VisitOrder
import ContractFlow.Proofs.Iteration
import ContractFlow.Proofs.LeastSolution
import ContractFlow.Proofs.GenKill
import ContractFlow.Proofs.Extension
import ContractFlow.Proofs.Layout
import ContractFlow.Proofs.Stability
import ContractFlow.Proofs.Admission
import ContractFlow.Proofs.Inventory
import ContractFlow.Proofs.Shape
import ContractFlow.Proofs.WayOut
import ContractFlow.Proofs.CallClosure
import ContractFlow.Proofs.FieldReading
import ContractFlow.Proofs.Correspondence
import ContractFlow.Proofs.Strictness
import ContractFlow.Proofs.Conversion
import ContractFlow.Proofs.Isolation
import ContractFlow.Proofs.BodyIndependence
import ContractFlow.Proofs.SpanText
import ContractFlow.Proofs.ReadBack
import ContractFlow.Proofs.Insertions
import ContractFlow.Proofs.DepthFirst
import ContractFlow.Proofs.Cycles
import ContractFlow.Proofs.Accounting
import ContractFlow.Proofs.CycleSearch
import ContractFlow.Proofs.Inheritance
import ContractFlow.Proofs.Merging
import ContractFlow.Proofs.Occurrences
import ContractFlow.Proofs.DotText
import ContractFlow.Proofs.SpanGrammar
import ContractFlow.Proofs.Parentheses
import ContractFlow.Proofs.FailureNames
import ContractFlow.Proofs.CoveredText
import ContractFlow.Proofs.Reachability
import ContractFlow.Proofs.WholeTree

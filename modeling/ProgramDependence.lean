import ProgramDependence.Ascending
import ProgramDependence.Code.Body
import ProgramDependence.Code.Class
import ProgramDependence.Code.Decode
import ProgramDependence.Code.Encode
import ProgramDependence.Code.Expr
import ProgramDependence.Code.Stmt
import ProgramDependence.Command.Options
import ProgramDependence.Command.Run
import ProgramDependence.Event
import ProgramDependence.Files.Corpus
import ProgramDependence.Files.Tree
import ProgramDependence.Flow.Digraph
import ProgramDependence.Flow.Partition
import ProgramDependence.Flow.Search
import ProgramDependence.Flow.Steps
import ProgramDependence.Flow.Worklist
import ProgramDependence.Graph.Basic
import ProgramDependence.Graph.Merge
import ProgramDependence.Graph.Reader
import ProgramDependence.Graph.Record
import ProgramDependence.Graph.Slice
import ProgramDependence.Graph.Verify
import ProgramDependence.Graph.Writer
import ProgramDependence.Json.Fields
import ProgramDependence.Json.Reader
import ProgramDependence.Json.Value
import ProgramDependence.Json.Writer
import ProgramDependence.Labelling.Block
import ProgramDependence.Labelling.Symbolic
import ProgramDependence.Labelling.Token
import ProgramDependence.Labelling.Tree
import ProgramDependence.Locals.Liveness
import ProgramDependence.Locals.Reaching
import ProgramDependence.Locals.Table
import ProgramDependence.Main
import ProgramDependence.Method.Analysis
import ProgramDependence.Method.Build
import ProgramDependence.Method.Frame
import ProgramDependence.PostDominance.Frontier
import ProgramDependence.PostDominance.Tree
import ProgramDependence.Project.Build
import ProgramDependence.Project.Exclusion
import ProgramDependence.Report
import ProgramDependence.Text.Blank
import ProgramDependence.Text.Lines
import ProgramDependence.Text.Quoted
import ProgramDependence.Proofs.Ascending
import ProgramDependence.Proofs.Graph.Sound
import ProgramDependence.Proofs.Graph.Plain
import ProgramDependence.Proofs.Method.Builder
import ProgramDependence.Proofs.Graph.Merge
import ProgramDependence.Proofs.Graph.Writer
import ProgramDependence.Proofs.Project.Jobs
import ProgramDependence.Proofs.Json.RoundTrip
import ProgramDependence.Proofs.Graph.Record
import ProgramDependence.Proofs.Text.Lines
import ProgramDependence.Proofs.Graph.Reachable
import ProgramDependence.Proofs.Graph.RoundTrip
import ProgramDependence.Proofs.Flow.Partition
import ProgramDependence.Proofs.Flow.Search
import ProgramDependence.Proofs.Locals.Dataflow
import ProgramDependence.Proofs.Locals.Table
import ProgramDependence.Proofs.Method.DataDependence
import ProgramDependence.Proofs.PostDominance.Settle
import ProgramDependence.Proofs.PostDominance.Paths
import ProgramDependence.Proofs.PostDominance.Tree
import ProgramDependence.Proofs.PostDominance.Frontier
import ProgramDependence.Proofs.Method.ControlDependence
import ProgramDependence.Proofs.Flow.BasicBlocks
import ProgramDependence.Proofs.Method.ControlFlow
import ProgramDependence.Proofs.PostDominance.Granularity
import ProgramDependence.Proofs.PostDominance.Nearest
import ProgramDependence.Proofs.Graph.Numbers
import ProgramDependence.Proofs.Project.Failure
import ProgramDependence.Proofs.Graph.Shown
import ProgramDependence.Proofs.Method.Ends
import ProgramDependence.Proofs.Project.Order
import ProgramDependence.Proofs.Graph.Slice
import ProgramDependence.Proofs.Project.Separation
import ProgramDependence.Proofs.Project.DataCount
import ProgramDependence.Proofs.Method.Labels
import ProgramDependence.Proofs.Locals.Renaming
import ProgramDependence.Proofs.Method.Renaming
import ProgramDependence.Proofs.Json.Fields
import ProgramDependence.Proofs.Json.Size
import ProgramDependence.Proofs.Code.RoundTrip
import ProgramDependence.Proofs.PostDominance.Roots
import ProgramDependence.Proofs.Method.ControlRoots
import ProgramDependence.Proofs.Code.Size
import ProgramDependence.Proofs.Files.Size
import ProgramDependence.Proofs.Files.Write
import ProgramDependence.Proofs.Project.Size
import ProgramDependence.Proofs.Command.Output
import ProgramDependence.Proofs.Command.Slices
import ProgramDependence.Proofs.Flow.Worklist
import ProgramDependence.Proofs.Flow.Boundaries
import ProgramDependence.Proofs.Graph.Restriction
import ProgramDependence.Proofs.Graph.Absorb
import ProgramDependence.Proofs.Graph.Format
import ProgramDependence.Proofs.PostDominance.Iteration
import ProgramDependence.Proofs.Method.Resolution
import ProgramDependence.Proofs.Labelling.Tree
import ProgramDependence.Proofs.Code.Operands
import ProgramDependence.Graph.Store
import ProgramDependence.Proofs.Store.Calls
import ProgramDependence.Proofs.Files.Listing
import ProgramDependence.Proofs.Files.Loading

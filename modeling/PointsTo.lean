import PointsTo.Collection.Key
import PointsTo.Collection.OrderedMap
import PointsTo.Collection.Multimap
import PointsTo.Collection.Feed
import PointsTo.Text.Escape
import PointsTo.Text.Split
import PointsTo.Program.Supergraph
import PointsTo.Source.Reader
import PointsTo.Query
import PointsTo.Sorting
import PointsTo.Automaton
import PointsTo.Solver.Flow
import PointsTo.Solver.Saturation
import PointsTo.Analysis.Pool
import PointsTo.Analysis.Run
import PointsTo.Analysis.Drawing
import PointsTo.Main
import PointsTo.Proofs.Source.Reader
import PointsTo.Proofs.Solver.Contexts
import PointsTo.Proofs.Regex.PathExpression
import PointsTo.Proofs.Solver.Outcome
import PointsTo.Proofs.Solver.Reached
import PointsTo.Proofs.Solver.ReturnSites
import PointsTo.Proofs.Analysis.Growth
import PointsTo.Proofs.Analysis.Handled
import PointsTo.Proofs.Analysis.Handlers
import PointsTo.Proofs.Analysis.Supply
import PointsTo.Proofs.Analysis.Running
import PointsTo.Proofs.Analysis.Agreement
import PointsTo.Proofs.Execution.Fields
import PointsTo.Proofs.Solver.Reversal
import PointsTo.Proofs.Analysis.Clients
import PointsTo.Proofs.Analysis.Aliases
import PointsTo.Proofs.Analysis.Witnesses
import PointsTo.Proofs.Analysis.Tables
import PointsTo.Proofs.Analysis.Splicing
import PointsTo.Proofs.Analysis.Readings
import PointsTo.Proofs.Analysis.FieldShape
import PointsTo.Proofs.Analysis.Scope
import PointsTo.Proofs.Program.ControlFlow
import PointsTo.Proofs.Source.ReadBack
import PointsTo.Proofs.Analysis.Transparency
import PointsTo.Proofs.Analysis.Observers
import PointsTo.Proofs.Analysis.Ledger
import PointsTo.Proofs.Analysis.Drains
import PointsTo.Proofs.Analysis.MethodReports
import PointsTo.Proofs.Analysis.Repetition
import PointsTo.Proofs.Regex.Reduced
import PointsTo.Proofs.Regex.Branches
import PointsTo.Proofs.Solver.Tickets
import PointsTo.Proofs.Solver.Subscriptions
import PointsTo.Proofs.Solver.Termination
import PointsTo.Proofs.Solver.Frames
import PointsTo.Proofs.Analysis.Unwritten
import PointsTo.Proofs.Join.Pairs
import PointsTo.Proofs.Program.CallGraph
import PointsTo.Proofs.Source.Layout
import PointsTo.Proofs.Source.Location
import PointsTo.Proofs.Program.Labels
import PointsTo.Proofs.Regex.Listing
import PointsTo.Proofs.Regex.Text
import PointsTo.Proofs.Sorting
import PointsTo.Proofs.Transitions
import PointsTo.Proofs.Analysis.Drawing

import MinSum.CustomFactor.Basic
import MinSum.CustomFactor.Equality
import MinSum.Damping
import MinSum.Decimal.Numeral
import MinSum.Decimal.Shortest
import MinSum.Decimal.Text
import MinSum.Distinct
import MinSum.Document.Basic
import MinSum.Document.Json
import MinSum.Document.Record
import MinSum.Document.Stored
import MinSum.Document.Token
import MinSum.Domain
import MinSum.Edge
import MinSum.Energy.Basic
import MinSum.Energy.Double
import MinSum.Energy.Extended
import MinSum.Failure
import MinSum.Graph.Basic
import MinSum.Graph.Build
import MinSum.Interning
import MinSum.LeaveOneOut
import MinSum.Message
import MinSum.Node.Basic
import MinSum.Node.Binding
import MinSum.Node.Rule
import MinSum.Prior
import MinSum.Scratch
import MinSum.Solver.Basic
import MinSum.Solver.Readout
import MinSum.Solver.Schedule
import MinSum.Table.Basic
import MinSum.Table.Build
import MinSum.Table.Update
import MinSum.Text.Quoted
import MinSum.Update
import MinSum.Proofs.Edge
import MinSum.Proofs.Energy.Zero
import MinSum.Proofs.Graph.Change
import MinSum.Proofs.Graph.Reachable
import MinSum.Proofs.Node.Binding
import MinSum.Proofs.Solver.Run
import MinSum.Proofs.Node.Deliver
import MinSum.Proofs.Node.SameAt
import MinSum.Proofs.Solver.Changes
import MinSum.Proofs.Solver.Reachable
import MinSum.Proofs.CustomFactor.Equality
import MinSum.Proofs.Graph.Cost
import MinSum.Proofs.Node.Says
import MinSum.Proofs.Solver.Admissible
import MinSum.Proofs.Solver.Contradiction
import MinSum.Proofs.Solver.Readout
import MinSum.Proofs.Solver.Initialize
import MinSum.Proofs.Solver.Possible
import MinSum.Proofs.Graph.Branch
import MinSum.Proofs.Graph.Tree
import MinSum.Proofs.Node.Conveys
import MinSum.Proofs.Solver.Exact
import MinSum.Proofs.Solver.Optimum
import MinSum.Proofs.Solver.Delivered
import MinSum.Proofs.Solver.AnyOrder
import MinSum.Proofs.Solver.Normalized
import MinSum.Proofs.Solver.Observe
import MinSum.Proofs.Graph.Mirror
import MinSum.Proofs.Node.Mirror
import MinSum.Proofs.Solver.Mirror
import MinSum.Proofs.Solver.Twin
import MinSum.Proofs.Solver.Rebuild
import MinSum.Proofs.Solver.Forget
import MinSum.Proofs.Table.Equality
import MinSum.Proofs.Node.Interchange
import MinSum.Proofs.Solver.Unbarred
import MinSum.Proofs.Solver.Interchange
import MinSum.Proofs.Graph.History
import MinSum.Proofs.Node.Local
import MinSum.Proofs.Solver.Assembled
import MinSum.Proofs.Solver.Attainable
import MinSum.Proofs.Solver.Atomic
import MinSum.Proofs.Graph.Sharing
import MinSum.Proofs.Solver.Beside
import MinSum.Proofs.Solver.Rekeyed
import MinSum.Proofs.Solver.Growth
import MinSum.Proofs.Solver.Loaded
import MinSum.Proofs.Solver.InForce
import MinSum.Proofs.Solver.Spoken
import MinSum.Proofs.Solver.FixedPoint
import MinSum.Proofs.Solver.Balance
import MinSum.Proofs.Solver.Started
import MinSum.Proofs.Table.Permuted
import MinSum.Proofs.Graph.Relabeled
import MinSum.Proofs.Solver.Relabeled
import MinSum.Proofs.Message.Shift
import MinSum.Proofs.Table.Unary
import MinSum.Proofs.Graph.InputFactor
import MinSum.Proofs.Solver.InputFactor
import MinSum.Proofs.Message.NormalForm
import MinSum.Proofs.Update.Portwise
import MinSum.Proofs.Table.Marginal
import MinSum.Proofs.Update.Damping
import MinSum.Proofs.Table.Denotes
import MinSum.Proofs.Table.Indexed
import MinSum.Proofs.Table.Dense
import MinSum.Proofs.Table.Stored
import MinSum.Proofs.Table.SameRows
import MinSum.Proofs.Update.Settles
import MinSum.Proofs.Table.Shift
import MinSum.Proofs.Update.Shifted
import MinSum.Proofs.Update.Belief
import MinSum.Proofs.Edge.Lend
import MinSum.Proofs.Scratch.Ledger
import MinSum.Proofs.Update.Requests
import MinSum.Proofs.Message.Probability
import MinSum.Proofs.Domain
import MinSum.Proofs.LeaveOneOut.AnyTerm
import MinSum.Proofs.Interning.Content
import MinSum.Proofs.Graph.Interned

import GraphDependency.Balance.Bounded
import GraphDependency.Balance.Guarded
import GraphDependency.Candidate.Cursor
import GraphDependency.Json.Dependency
import GraphDependency.Main
import GraphDependency.Proofs.Validation.Distributed
import GraphDependency.Proofs.Validation.Indexed
import GraphDependency.Proofs.Validation.Shortcuts
import GraphDependency.Proofs.Candidate.CoreOrder
import GraphDependency.Proofs.Candidate.Fixpoint
import GraphDependency.Proofs.Dependency.Text
import GraphDependency.Proofs.Graph.History
import GraphDependency.Proofs.Dependency.Domain
import GraphDependency.Proofs.Validation.Partition
import GraphDependency.Proofs.Validation.Transfer
import GraphDependency.Proofs.Validation.Work
import GraphDependency.Proofs.Balance.Guarded
import GraphDependency.Proofs.Balance.Bound
import GraphDependency.Proofs.Graph.Simple
import GraphDependency.Proofs.Pattern.Peeling
import GraphDependency.Proofs.Pattern.Forest
import GraphDependency.Proofs.Candidate.Sequence
import GraphDependency.Proofs.Candidate.Session
import GraphDependency.Candidate.Moves
import GraphDependency.Pattern.Discovery
import GraphDependency.Proofs.Candidate.Moves
import GraphDependency.Proofs.Candidate.Sweep
import GraphDependency.Proofs.Dot.Grammar
import GraphDependency.Proofs.Dot.Meaning
import GraphDependency.Proofs.Pattern.Discovery
import GraphDependency.Proofs.Dot.Lines
import GraphDependency.Proofs.Dependency.Lines
import GraphDependency.Proofs.Dot.Blanks
import GraphDependency.Proofs.Json.Text
import GraphDependency.Proofs.Json.RoundTrip
import GraphDependency.Proofs.Dependency.Acceptance
import GraphDependency.Proofs.Candidate.PathCount
import GraphDependency.Proofs.Validation.Center
import GraphDependency.Proofs.Validation.Stamps
import GraphDependency.Proofs.Workload
import GraphDependency.Proofs.Command
import GraphDependency.Proofs.Matching.Planning
import GraphDependency.Proofs.Matching.Backtracking

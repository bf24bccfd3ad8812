import BeliefGraph.Failure
import BeliefGraph.Json.Forms
import BeliefGraph.Settings.Reader
import BeliefGraph.Snapshot.Directory
import BeliefGraph.Space.Summary
import BeliefGraph.Proofs.Inference.Writable
import BeliefGraph.Proofs.Inference.Truncation
import BeliefGraph.Proofs.Inference.DoubleLoop
import BeliefGraph.Proofs.Space.Normalized
import BeliefGraph.Proofs.Snapshot.Chaining
import BeliefGraph.Proofs.Inference.Reachability
import BeliefGraph.Proofs.Snapshot.NormalForm
import BeliefGraph.Proofs.Inference.DeductionTree
import BeliefGraph.Proofs.Inference.Toward
import BeliefGraph.Proofs.Inference.BreadthFirst
import BeliefGraph.Proofs.Numeric.Order
import BeliefGraph.Proofs.Inference.Priority
import BeliefGraph.Proofs.Space.Spreading
import BeliefGraph.Proofs.Space.Focus
import BeliefGraph.Proofs.Space.Decay
import BeliefGraph.Proofs.Space.Allocation
import BeliefGraph.Proofs.Pattern.Monotone
import BeliefGraph.Proofs.Space.Ledger
import BeliefGraph.Proofs.Truth.Revision
import BeliefGraph.Proofs.Snapshot.Acyclic
import BeliefGraph.Proofs.Snapshot.Layout

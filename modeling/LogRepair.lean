import LogRepair.Cycle.Calm
import LogRepair.Cycle.Cluster
import LogRepair.Cycle.CutShort
import LogRepair.Cycle.Run
import LogRepair.Cycle.ServiceRun
import LogRepair.Cycle.Visits
import LogRepair.Guarded
import LogRepair.Json.Codec
import LogRepair.Json.Forms
import LogRepair.Json.Text
import LogRepair.Simulation.Scenario
import LogRepair.Tracked.View
import LogRepair.Proofs.Address
import LogRepair.Proofs.Batch.Splitting
import LogRepair.Proofs.Batch.Combination
import LogRepair.Proofs.Json.Reading
import LogRepair.Proofs.Json.Documents
import LogRepair.Proofs.Layout.Changes
import LogRepair.Proofs.Layout.Coverage
import LogRepair.Proofs.Layout.Edits
import LogRepair.Proofs.Layout.Leading
import LogRepair.Proofs.Layout.Replication
import LogRepair.Proofs.Layout.Requirement
import LogRepair.Proofs.Layout.Ranges
import LogRepair.Proofs.Layout.Proposal
import LogRepair.Proofs.Layout.Hints
import LogRepair.Proofs.Tracked.Pieces
import LogRepair.Proofs.Tracked.Reconcile
import LogRepair.Proofs.Tracked.Pointwise
import LogRepair.Proofs.Tracked.Conservation
import LogRepair.Proofs.Tracked.Settled
import LogRepair.Proofs.Tracked.Lifecycle
import LogRepair.Proofs.Cycle.Invariant
import LogRepair.Proofs.Cycle.Upkeep
import LogRepair.Proofs.Cycle.Attempts
import LogRepair.Proofs.Cycle.Drafts
import LogRepair.Proofs.Cycle.Chunks
import LogRepair.Proofs.Cycle.Representation
import LogRepair.Proofs.Cycle.Faultless
import LogRepair.Proofs.Cycle.Held
import LogRepair.Proofs.Cycle.Questions
import LogRepair.Proofs.Cycle.Onward
import LogRepair.Proofs.Cycle.Ledger
import LogRepair.Proofs.Cycle.Counted
import LogRepair.Proofs.Cycle.Cluster
import LogRepair.Proofs.Cycle.Exact
import LogRepair.Proofs.Cycle.Calm
import LogRepair.Proofs.Cycle.Quiescence
import LogRepair.Proofs.Cycle.Filled
import LogRepair.Proofs.Cycle.Convergence
import LogRepair.Proofs.Cycle.EventLoop
import LogRepair.Proofs.Cycle.Books
import LogRepair.Proofs.Cycle.Traces
import LogRepair.Proofs.Cycle.Rounds
import LogRepair.Proofs.Cycle.Visits
import LogRepair.Proofs.Cycle.Copying
import LogRepair.Proofs.Cycle.Needed
import LogRepair.Proofs.Cycle.Intact
import LogRepair.Proofs.Cycle.Atomic
import LogRepair.Proofs.Cycle.Handing
import LogRepair.Proofs.Cycle.Spent
import LogRepair.Proofs.Cycle.CutShort
import LogRepair.Proofs.Guarded
import LogRepair.Proofs.Cycle.Hints
import LogRepair.Proofs.Cycle.Shares
import LogRepair.Proofs.Cycle.Words

import Workflow.ActionResult
import Workflow.Execution.Fresh
import Workflow.Fields
import Workflow.Inspection.Analysis
import Workflow.Inspection.Prediction
import Workflow.Main
import Workflow.Proofs.System
import Workflow.Recovery.Diagnostics
import Workflow.Settings.Logging
import Workflow.Store.Location
import Workflow.Store.Remote
import Workflow.World
import Workflow.Proofs.Mutation
import Workflow.Proofs.Perform
import Workflow.Proofs.Serial
import Workflow.Proofs.Alone
import Workflow.Proofs.Change
import Workflow.Proofs.Custody
import Workflow.Proofs.Definition
import Workflow.Proofs.Restore
import Workflow.Proofs.Sound
import Workflow.Proofs.Mirror
import Workflow.Proofs.Audit
import Workflow.Proofs.Status
import Workflow.Proofs.Table
import Workflow.Proofs.Undo
import Workflow.Proofs.Builder
import Workflow.Proofs.Registry
import Workflow.Proofs.Blockers
import Workflow.Proofs.Prediction
import Workflow.Proofs.Chronicle
import Workflow.Proofs.Landing
import Workflow.Proofs.Validation
import Workflow.Proofs.Contention
import Workflow.Proofs.Repair
import Workflow.Proofs.Analysis
import Workflow.Proofs.Capture
import Workflow.Proofs.Granted
import Workflow.Proofs.Rollback
import Workflow.Proofs.Lossless
import Workflow.Proofs.Availability
import Workflow.Proofs.Departure
import Workflow.Proofs.Rescue
import Workflow.Proofs.Continuity
import Workflow.Proofs.Admission
import Workflow.Proofs.Refusal
import Workflow.Proofs.Acceptance
import Workflow.Proofs.Suggestion
import Workflow.Proofs.Retry
import Workflow.Proofs.Offer
import Workflow.Proofs.Script
import Workflow.Proofs.Remote
import Workflow.Proofs.Diagnosis
import Workflow.Proofs.Lookup
import Workflow.Proofs.Location
import Workflow.Proofs.Provenance
import Workflow.Proofs.Backup
import Workflow.Proofs.Containment
import Workflow.Proofs.Reported
import Workflow.Proofs.Size
import Workflow.Proofs.Heap

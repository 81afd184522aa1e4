import Clix.Soundness.AtMostOnce
import Clix.Soundness.SingleUse
import Clix.Soundness.Authorization
import Clix.Soundness.PinConflicts
import Clix.Soundness.PairingReports
import Clix.Soundness.PageMerge
import Clix.Soundness.JobIds
import Clix.Soundness.PinOff
import Clix.Soundness.PinGate
import Clix.Soundness.PinSync
import Clix.Soundness.PinJournal
import Clix.Soundness.PinGrants
import Clix.Soundness.PinResume
import Clix.Soundness.PinRealize
import Clix.Soundness.Identity
import Clix.Soundness.Durability
import Clix.Proofs.Thinned
import Clix.Proofs.Touches
import Clix.Soundness.Lifecycle
import Clix.Soundness.Authentic
import Clix.Soundness.Confinement
import Clix.Soundness.Reapproval
import Clix.Soundness.Decisions
import Clix.Soundness.Delivery
import Clix.Soundness.Capacity
import Clix.Soundness.Eviction
import Clix.Soundness.Startup
import Clix.Soundness.Fairness
import Clix.Soundness.Durations
import Clix.Soundness.Scanning
import Clix.Soundness.PinListing
import Clix.Soundness.PinReview
import Clix.Soundness.PinExport
import Clix.Soundness.Projection
import Clix.Soundness.Retrying
import Clix.Soundness.Waiting
import Clix.Soundness.PinFinishing
import Clix.Soundness.PinPaths
import Clix.Soundness.Signing
import Clix.Soundness.Replies
import Clix.Soundness.Growth
import Clix.Soundness.Replication
import Clix.Soundness.Convergence
import Clix.Soundness.Pruning
import Clix.Soundness.Commands
import Clix.Soundness.Enforcement
import Clix.Soundness.Standing
import Clix.Soundness.Destinations
import Clix.Soundness.Buttons

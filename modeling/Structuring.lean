import Structuring.Main
import Structuring.Proofs.BranchNest.Recovered
import Structuring.Proofs.Cases
import Structuring.Proofs.Closure
import Structuring.Proofs.ControlFlow
import Structuring.Proofs.Dispatches
import Structuring.Proofs.EdgeRecords
import Structuring.Proofs.Height
import Structuring.Proofs.Listing.Joined
import Structuring.Proofs.Listing.Printed
import Structuring.Proofs.LoopNest.Recovered
import Structuring.Proofs.Quiet
import Structuring.Proofs.Sentinels
import Structuring.Proofs.Shown

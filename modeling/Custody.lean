import Custody.Proofs.Chronicle
import Custody.Proofs.Completion
import Custody.Proofs.Conservation
import Custody.Proofs.Construction
import Custody.Proofs.Counters
import Custody.Proofs.Downcast
import Custody.Proofs.DropOrder
import Custody.Proofs.Freeing
import Custody.Proofs.Identity
import Custody.Proofs.Invisibility
import Custody.Proofs.LastRelease
import Custody.Proofs.Lineage
import Custody.Proofs.Locking
import Custody.Proofs.OwnerOrder
import Custody.Proofs.Promotion
import Custody.Proofs.Reachability
import Custody.Proofs.Reassignment
import Custody.Proofs.Sight
import Custody.Proofs.Snapshots
import Custody.Proofs.Sole
import Custody.Proofs.Stages
import Custody.Proofs.Standing
import Custody.Proofs.Toppling
import Custody.Request

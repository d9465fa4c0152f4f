import Bloar.Delivery
import Bloar.Growth
import Bloar.NodeCache
import Bloar.Fsck
import Bloar.Passes
import Bloar.Synced
import Bloar.Staged
import Bloar.Retention
import Bloar.Contiguity
import Bloar.InboxLogs
import Bloar.Rewind
import Bloar.Upgrade
import Bloar.Revisions
import Bloar.Ipns
import Bloar.RateLimit
import Bloar.Ledger
import Bloar.Floors

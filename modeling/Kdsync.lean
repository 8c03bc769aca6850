import Kdsync.EventList.Unique
import Kdsync.EventList.Soundness
import Kdsync.EventList.Agreement
import Kdsync.EventList.Range
import Kdsync.EventList.Transfer
import Kdsync.EventList.Confluence
import Kdsync.Forwarding
import Kdsync.Library.Machine
import Kdsync.ReplicationLoop
import Kdsync.System.AtLeastOnce
import Kdsync.System.Order
import Kdsync.System.Unique
import Kdsync.System.Origin
import Kdsync.System.Outage
import Kdsync.System.Marks
import Kdsync.Clusters.Acknowledgement
import Kdsync.Program.GlobalTopic
import Kdsync.Program.Progress
import Kdsync.Program.Statements
import Kdsync.Program.Interleaving
import Kdsync.Program.Synchronization

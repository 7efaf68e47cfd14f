import Epoch.Meta.Bounds
import Epoch.Meta.KeyFamily
import Epoch.Meta.Flat.Conservation
import Epoch.Meta.Hier.Conservation
import Epoch.Meta.Raft.Confinement
import Epoch.Meta.Raft.Guard
import Epoch.Meta.Raft.DirCounts
import Epoch.Meta.Raft.OrphanSweep
import Epoch.Store.TailRecovery
import Epoch.Store.Scrub
import Epoch.Store.Repair
import Epoch.Gateway.StartAfter
import Epoch.Gateway.Multipart
import Epoch.Gateway.InFlight
import Epoch.Rpc.Wire
import Epoch.Pd.Poison
import Epoch.Pd.Tickets
import Epoch.Pd.Migration
import Epoch.Pd.Agreement
import Epoch.Pd.RepairTrigger
import Epoch.Pd.PlanPlacement
import Epoch.Pd.Console
import Epoch.Pd.MetaPeers
import Epoch.Pd.Affinity
import Epoch.Pd.Placement

import MemFabric.StoreWakeup
import MemFabric.StoreAnswers
import MemFabric.StoreReplies
import MemFabric.StoreAtomicity
import MemFabric.GroupBarrierWrap
import MemFabric.GroupGatherWrap
import MemFabric.GroupMembershipSafety
import MemFabric.GroupNumbers
import MemFabric.GroupSnClean
import MemFabric.GroupKeyed
import MemFabric.GroupEventLock
import MemFabric.TransRanks
import MemFabric.TransReconnect
import MemFabric.StoreWipe
import MemFabric.MessageBounds
import MemFabric.HostRegions
import MemFabric.ComposeTransport
import MemFabric.ComposeData
import MemFabric.TransferSizes
import MemFabric.QpHandles
import MemFabric.JoinableRanks
import MemFabric.BipartiteRanks
import MemFabric.UserSegment
import MemFabric.StreamRing
import MemFabric.HandlerDomain
import MemFabric.WaiterTables
import MemFabric.BmCopy
import MemFabric.SliceDiff
import MemFabric.PageClosure
import MemFabric.RemoteSlices
import MemFabric.GroupRejoin
import MemFabric.VaLookups
import MemFabric.TransServer
import MemFabric.LinkDelivery

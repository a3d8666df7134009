import Virtuoso.RangeTable.Runs
import Virtuoso.Utopia.Translation.Lookups
import Virtuoso.Utopia.Allocator.Paths
import Virtuoso.Baseline.Runs
import Virtuoso.Thp.Isolation
import Virtuoso.MimicOs.SwapCache
import Virtuoso.Asap.Runs
import Virtuoso.Numa.Homes
import Virtuoso.Tlb.Runs
import Virtuoso.PageTable.Addresses
import Virtuoso.RangeMmu.Translation
import Virtuoso.Utopia.Translation.Refusals
import Virtuoso.MimicOs.HugePages
import Virtuoso.Tlb.Faults
import Virtuoso.Tlb.Nested
import Virtuoso.Utopia.Coalesce.Runs
import Virtuoso.TraceThread.Runs
import Virtuoso.PageTable.Hdc.Room
import Virtuoso.PageTable.Occupancy
import Virtuoso.PageTable.Cuckoo.Termination
import Virtuoso.Buddy.TargetCount
import Virtuoso.Buddy.Ratio
import Virtuoso.Utopia.RadixWayMap
import Virtuoso.Utopia.CostTopKRuns
import Virtuoso.Utopia.Coalesce.Bitmap
import Virtuoso.EagerPaging.Faults
import Virtuoso.PageWalk.Mshr
import Virtuoso.RangeMmu.Lookaside
import Virtuoso.Spot.Cursor
import Virtuoso.Recency.Victims
import Virtuoso.PageWalk.Latency
import Virtuoso.PteOffset.Table
import Virtuoso.PageWalk.Perfect
import Virtuoso.Sift.RoundTrip
import Virtuoso.Numa.Eligible
import Virtuoso.Numa.HintTable
import Virtuoso.CxlTier.Runs
import Virtuoso.Mplru.Victims
import Virtuoso.PageWalk.Filtered
import Virtuoso.TraceThread.ChampSim
import Virtuoso.VmaInfer.Partition
import Virtuoso.Atp.Pending
import Virtuoso.TraceThread.Addresses
import Virtuoso.RangeTable.Reads
import Virtuoso.Spot.Contiguity
import Virtuoso.Tlb.PrefetchQueue
import Virtuoso.Lru.Stack
import Virtuoso.Utopia.Utlb.Refinement
import Virtuoso.PageWalk.CuckooFilter
import Virtuoso.Lru.Srrip

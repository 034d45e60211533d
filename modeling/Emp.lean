import Emp.Allocator.Runs
import Emp.Rdma
import Emp.Completion.Block
import Emp.Completion.Order
import Emp.Dma.Conservation
import Emp.Dma.Safety
import Emp.Polling
import Emp.Reclaim.Block
import Emp.Reclaim.Writeback
import Emp.Lib.Tally
import Emp.Writeback.Lists
import Emp.Writeback.Pressure
import Emp.Writeback.Promotion
import Emp.Els.Geometry
import Emp.Lib.Counted
import Emp.View.Runs
import Emp.Els.Boundary
import Emp.Els.Directory
import Emp.Els.Split
import Emp.Els.RegionGrid
import Emp.View.Close
import Emp.View.Release
import Emp.Lib.Inventory
import Emp.LocalPage.Conserved
import Emp.LocalPage.Operations
import Emp.LocalPage.Runs
import Emp.Fork.Runs
import Emp.Cow.RemoteWord
import Emp.Rdma.SetUp
import Emp.Evict.Failure
import Emp.Evict.Clearing
import Emp.Fetch.Clearing
import Emp.Fetch.Failure
import Emp.Evict.Selection
import Emp.Cow.Window
import Emp.Mapper.Refinement
import Emp.View.Questions
import Emp.Els.Pieces
import Emp.Els.RegionPartition
import Emp.Mapper.InstallFailure
import Emp.Fetch.Barrier
import Emp.Writeback.EagerRuns
import Emp.Fetch.MarkerRuns
import Emp.Fault.Copied
import Emp.Els.Heads
import Emp.Els.PartialMap
import Emp.View.Exits
import Emp.Madvise.Calls
import Emp.Madvise.Prefetch
import Emp.FreePages
import Emp.Iov.Elements
import Emp.Reclaim.CacheSize
import Emp.Lock.Runs
import Emp.RemoteVal
import Emp.Lists.Runs
import Emp.Procfs
import Emp.Vmd
import Emp.Media.Strings
import Emp.Memdev
import Emp.Els.DataFlags
import Emp.Cow.HandedOver
import Emp.Slru.Runs

import Ffwd.Lib.Handshake
import Ffwd.Lib.Chain
import Ffwd.Lib.Path
import Ffwd.Lib.InOrder
import Ffwd.Lib.Placement
import Ffwd.Lib.Decimal
import Ffwd.Delegation.Slots
import Ffwd.Delegation.Protocol
import Ffwd.Delegation.Links
import Ffwd.Delegation.Exec
import Ffwd.Delegation.Progress
import Ffwd.Memcached.Assoc
import Ffwd.Memcached.Slabs
import Ffwd.Memcached.Lru
import Ffwd.Memcached.Items
import Ffwd.Memcached.Lifecycle
import Ffwd.Memcached.Allocation
import Ffwd.Memcached.ItemRuns
import Ffwd.Memcached.Effects
import Ffwd.Memcached.Store
import Ffwd.Micro.Queue
import Ffwd.Micro.Tree
import Ffwd.Micro.SkipList
import Ffwd.Raytrace.WorkPool
import Ffwd.Radiosity.TaskQueue
import Ffwd.Radiosity.Phases
import Ffwd.Synchro.LazyList
import Ffwd.Synchro.LazyFind
import Ffwd.Radiosity.Visits
import Ffwd.Lib.Counting
import Ffwd.Micro.FetchAdd
import Ffwd.Micro.Mcs
import Ffwd.Micro.Stack
import Ffwd.Micro.SkipSearch
import Ffwd.Memcached.Expansion
import Ffwd.Lib.SortedPath
import Ffwd.Synchro.HashTable
import Ffwd.Memcached.GetCommand
import Ffwd.Lib.Tiling
import Ffwd.Raytrace.Heap
import Ffwd.Raytrace.HeapOps
import Ffwd.Raytrace.HeapRuns
import Ffwd.Raytrace.HeapProcs
import Ffwd.Raytrace.HeapSafety
import Ffwd.Raytrace.HeapRealloc
import Ffwd.Raytrace.HeapWindows
import Ffwd.Raytrace.HeapShared
import Ffwd.Micro.Shards
import Ffwd.Delegation.Shutdown
import Ffwd.Delegation.Topology
import Ffwd.Micro.ListMove
import Ffwd.Micro.SkipBounds
import Ffwd.Memcached.Wrappers
import Ffwd.Memcached.Numbers
import Ffwd.Memcached.Delta
import Ffwd.Memcached.DeltaRuns
import Ffwd.Micro.Ticket
import Ffwd.Micro.ListInit
import Ffwd.Synchro.Driver
import Ffwd.Memcached.DeltaCas
import Ffwd.Lib.Runs
import Ffwd.Memcached.DeltaEffects
import Ffwd.Memcached.Server
import Ffwd.Memcached.ServerRuns
import Ffwd.Memcached.Readers
import Ffwd.Memcached.CasSafety
import Ffwd.Memcached.Deletes
import Ffwd.Memcached.Flush
import Ffwd.Memcached.LineEnds
import Ffwd.Lib.Linearizable
import Ffwd.Delegation.Objects
import Ffwd.Micro.SharedTree
import Ffwd.Micro.CcSynch
import Ffwd.Micro.LfStack
import Ffwd.Micro.MsQueue
import Ffwd.Lib.LossyMap
import Ffwd.Memcached.Cache
import Ffwd.Memcached.Drafts
import Ffwd.Memcached.RoundTrip
import Ffwd.Lib.Transducer
import Ffwd.Memcached.DriveMachine
import Ffwd.Memcached.Pipelining

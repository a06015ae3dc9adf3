import MinweightStore.Base.SortedMap
import MinweightStore.Base.PagedTreeOps
import MinweightStore.Base.PagedPath
import MinweightStore.Base.PatriciaOfList
import MinweightStore.Base.TreePages
import MinweightStore.Minpatricia.Key
import MinweightStore.Minpatricia.PageRoutes
import MinweightStore.Minpatricia.Cartesian
import MinweightStore.Minpatricia.NodeStore
import MinweightStore.Minpatricia.Index
import MinweightStore.Minpatricia.Stored
import MinweightStore.Minpatricia.PageWrites
import MinweightStore.Minpatricia.KeyPages
import MinweightStore.Minpatricia.Represents
import MinweightStore.Minpatricia.InsertPage
import MinweightStore.Minpatricia.Put
import MinweightStore.Minpatricia.Lookup
import MinweightStore.Minpatricia.DeletePage
import MinweightStore.Minpatricia.Delete
import MinweightStore.Minpatricia.Runs
import MinweightStore.Minpatricia.Iter
import MinweightStore.Minpatricia.IterSpec
import MinweightStore.Minpatricia.Structure
import MinweightStore.Minpatricia.Atomic
import MinweightStore.Store.Format
import MinweightStore.Store.Record
import MinweightStore.Base.Wp
import MinweightStore.Store.World
import MinweightStore.Store.WalSegment
import MinweightStore.Store.Records
import MinweightStore.Store.Checkpoint
import MinweightStore.Store.Impl
import MinweightStore.Base.ValidPrefix
import MinweightStore.Store.IndexMap
import MinweightStore.Store.Scan
import MinweightStore.Store.Replay
import MinweightStore.Store.Opening
import MinweightStore.Store.Loading
import MinweightStore.Store.Recovery
import MinweightStore.Store.Shown
import MinweightStore.Store.Rearrange
import MinweightStore.Store.Policies
import MinweightStore.Store.PointInTime
import MinweightStore.Store.Interrupted
import MinweightStore.Store.Appending
import MinweightStore.Base.ShiftRegister
import MinweightStore.Store.Checksum
import MinweightStore.Store.Files
import MinweightStore.Store.ManifestFile
import MinweightStore.Store.SnapshotFile
import MinweightStore.Store.Damage
import MinweightStore.Store.Rollover
import MinweightStore.Store.Positions
import MinweightStore.Store.Generation
import MinweightStore.Minpatricia.AnyPage
import MinweightStore.Minpatricia.Split
import MinweightStore.Base.AlterPage
import MinweightStore.Minpatricia.InsertSlot
import MinweightStore.Minpatricia.Reopen
import MinweightStore.Minpatricia.RouteCodec
import MinweightStore.Minpatricia.IterPath
import MinweightStore.Store.FileNames
import MinweightStore.Store.PublicCalls
import MinweightStore.Store.Publishing
import MinweightStore.Store.Writing
import MinweightStore.Store.CallEffects
import MinweightStore.Store.ActiveSegment
import MinweightStore.Store.LogFiles
import MinweightStore.Store.Reads
import MinweightStore.Base.Follows
import MinweightStore.Store.TornStores
import MinweightStore.Store.Stopping
import MinweightStore.Store.Following
import MinweightStore.Store.Durable
import MinweightStore.Store.Restart
import MinweightStore.Store.Serving
import MinweightStore.Base.EventRun
import MinweightStore.Store.Sessions
import MinweightStore.Store.Undoing
import MinweightStore.Store.TornHeaders
import MinweightStore.Minpatricia.RecordStore
import MinweightStore.Minpatricia.HeapIndex

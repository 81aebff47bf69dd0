import StoreSystem.Lib.RedBlack
import StoreSystem.Lib.SkipChain
import StoreSystem.Engine.Hash
import StoreSystem.Engine.Order
import StoreSystem.Engine.RbTree
import StoreSystem.Engine.SkipList
import StoreSystem.Engine.Ordered
import StoreSystem.Engine.ZSet
import StoreSystem.Engine.Object
import StoreSystem.Net.Buffer
import StoreSystem.Net.Reactor
import StoreSystem.Cache.Cache
import StoreSystem.Cache.Invariant
import StoreSystem.Cache.Operations
import StoreSystem.Cache.Consistency
import StoreSystem.Service.Command
import StoreSystem.Service.Service
import StoreSystem.Service.Keyspace
import StoreSystem.Service.Shown
import StoreSystem.Service.Refinement
import StoreSystem.Service.Collections
import StoreSystem.Service.Execution
import StoreSystem.Service.Replay
import StoreSystem.Service.Eviction
import StoreSystem.Service.Log
import StoreSystem.Protocol.Resp
import StoreSystem.Persistence.Rdb
import StoreSystem.Persistence.RdbRoundTrip
import StoreSystem.Persistence.AofFile
import StoreSystem.Persistence.AofQueue
import StoreSystem.Persistence.AofOrder
import StoreSystem.Persistence.Checkpoint
import StoreSystem.Persistence.Snapshot
import StoreSystem.Storage.Loader
import StoreSystem.Protocol.Stream
import StoreSystem.Protocol.SizeT
import StoreSystem.Net.Turns
import StoreSystem.Net.Life
import StoreSystem.Net.HalfClose
import StoreSystem.Cache.Moves
import StoreSystem.Cache.Room
import StoreSystem.Cache.Recency
import StoreSystem.Cache.Accounts
import StoreSystem.Service.Errors
import StoreSystem.Lib.Crc
import StoreSystem.Persistence.RdbChecksum
import StoreSystem.Engine.Footprint
import StoreSystem.Cache.HotEntry
import StoreSystem.Cache.Upkeep
import StoreSystem.Engine.Validate
import StoreSystem.Persistence.Commit
import StoreSystem.Service.Records
import StoreSystem.App.Outbox
import StoreSystem.App.Loads
import StoreSystem.Engine.LegacyTree

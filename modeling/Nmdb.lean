import Nmdb.Lib.Runs
import Nmdb.Lib.DoublyLinked
import Nmdb.Lib.Recency
import Nmdb.Lib.Assoc
import Nmdb.Lib.WriteBehind
import Nmdb.Lib.OnesComplement
import Nmdb.Lib.Ownership
import Nmdb.Lib.Fairness
import Nmdb.Lib.KeyOrder
import Nmdb.Lib.Handoff
import Nmdb.Lib.Monitor
import Nmdb.Lib.Sharding
import Nmdb.Lib.Tour
import Nmdb.Lib.LinkedQueue
import Nmdb.Memory
import Nmdb.Cache
import Nmdb.Bucket
import Nmdb.RecencyList
import Nmdb.ChainLinks
import Nmdb.CacheChains
import Nmdb.Store
import Nmdb.CacheRuns
import Nmdb.CacheEffects
import Nmdb.CacheFailures
import Nmdb.Eviction
import Nmdb.CacheSizes
import Nmdb.Server
import Nmdb.Wire
import Nmdb.Parse
import Nmdb.Ways
import Nmdb.ParseBounds
import Nmdb.Atomicity
import Nmdb.DbLoop
import Nmdb.LiveBuffers
import Nmdb.Backend
import Nmdb.Served
import Nmdb.Coherence
import Nmdb.Linearizability
import Nmdb.Shutdown
import Nmdb.Dispatch
import Nmdb.Defined
import Nmdb.ErrorReplies
import Nmdb.Replies
import Nmdb.OneReply
import Nmdb.BufferBalance
import Nmdb.Tcp
import Nmdb.Reassembly
import Nmdb.Connections
import Nmdb.ReplyFrames
import Nmdb.ReplyStream
import Nmdb.Library
import Nmdb.Datagram
import Nmdb.LibraryRequests
import Nmdb.LibraryStream
import Nmdb.LibraryReplies
import Nmdb.ChosenReplies
import Nmdb.ReadOnly
import Nmdb.SizeLimits
import Nmdb.SizeChecks
import Nmdb.ReceiveBuffers
import Nmdb.Servers
import Nmdb.Checksum
import Nmdb.Increments
import Nmdb.IncrementSafety
import Nmdb.TcpBounds
import Nmdb.PacketBounds
import Nmdb.LibraryCopies
import Nmdb.LibraryStats
import Nmdb.ReplyRoom
import Nmdb.GetCounters
import Nmdb.LevelDb
import Nmdb.LevelWrites
import Nmdb.KeyWalk
import Nmdb.BusyWalk
import Nmdb.Alike
import Nmdb.Schedules
import Nmdb.Standby
import Nmdb.Client
import Nmdb.Cluster
import Nmdb.Locks
import Nmdb.TcpClients
import Nmdb.Backends
import Nmdb.QueueLinks
import Nmdb.LiveCache
import Nmdb.CacheBalance
import Nmdb.LiveSockets
import Nmdb.CacheMode
import Nmdb.TcpCalls

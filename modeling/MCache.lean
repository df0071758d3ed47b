import MCache.ReplicatedCalls
import MCache.ConcurrentMigration
import MCache.ReplicatedCollections
import MCache.ReplicatedStrings
import MCache.ReplicaAgreement
import MCache.RemoteSet
import MCache.BufferReuse
import MCache.CollectionsOverWire
import MCache.ClosingSafety
import MCache.ResponseDelivery
import MCache.PeerConnection
import MCache.WiredServers
import MCache.ResponseWire
import MCache.KeyRouting
import MCache.PythonRequests
import MCache.LeastFrequent
import MCache.LeastRecent
import MCache.RehashProgress
import MCache.KeyEnumeration
import MCache.SetAlgebra
import MCache.HashIncrements
import MCache.ListMatches
import MCache.ReadLoopEnd
import MCache.TokenOwnership
import MCache.NativeClients
import MCache.Scorecard
import MCache.ShardTarget
import MCache.SlaveSelection
import MCache.LeaderBookkeeping

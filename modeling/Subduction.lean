import Subduction.Connection.Canonical
import Subduction.Connection.Manager
import Subduction.Connection.Overflow
import Subduction.Convergence.Merge
import Subduction.Convergence.Rounds
import Subduction.Core.Interrupted
import Subduction.Core.MinimalHash
import Subduction.Core.RangePaths
import Subduction.Core.Topsort
import Subduction.Ephemeral.Codec
import Subduction.Ephemeral.Once
import Subduction.Ephemeral.Retention
import Subduction.Handshake.Drift
import Subduction.Handshake.Expected
import Subduction.Handshake.Expiry
import Subduction.Handshake.Open
import Subduction.Keyhive.Compact
import Subduction.Keyhive.Exchange
import Subduction.Network.Rebroadcast
import Subduction.Node.BoundedMap
import Subduction.Node.Connections
import Subduction.Node.Request
import Subduction.Node.Subscriptions
import Subduction.Payload.Agreement
import Subduction.Payload.Dropped
import Subduction.Payload.Incremental
import Subduction.Payload.Sync
import Subduction.Payload.Withheld
import Subduction.Storage.FsReads
import Subduction.Storage.GroupCommit
import Subduction.Storage.Migrate
import Subduction.Storage.RedbCrash
import Subduction.Storage.RedbLoads
import Subduction.Transport.KeepAlive
import Subduction.Transport.LongPoll

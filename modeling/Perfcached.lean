import Perfcached.Arena.Ceiling
import Perfcached.Arena.Reclaim
import Perfcached.Cluster.Adopt
import Perfcached.Cluster.Frames
import Perfcached.Cluster.Keeper
import Perfcached.Cluster.Member
import Perfcached.Cluster.Moves
import Perfcached.Cluster.Order
import Perfcached.Cluster.Rival
import Perfcached.Cluster.SlotCache
import Perfcached.Cluster.Standby
import Perfcached.Cluster.Takeover
import Perfcached.Cluster.TermFile
import Perfcached.Hash.Incrby
import Perfcached.Lock.Exclusion
import Perfcached.Lock.KeyExpiry
import Perfcached.Mget.Once
import Perfcached.Noise.Handshake
import Perfcached.Pending.Room
import Perfcached.Pubsub.Coverage
import Perfcached.Quiesce
import Perfcached.RateLimit
import Perfcached.Recover.Interleave
import Perfcached.Resp.Door
import Perfcached.Resp.Incr
import Perfcached.Store.Expiry
import Perfcached.Store.FiniteMap
import Perfcached.Store.ResizeWrites
import Perfcached.Store.Walk
import Perfcached.Upstream.Fetch
import Perfcached.Wal.Ring
import Perfcached.Wal.Scan
import Perfcached.Wal.Segments
import Perfcached.Wal.Watermark

import FreechCore.Registry.Ownership
import FreechCore.Registry.Restart
import FreechCore.Registry.NoLoss
import FreechCore.Registry.Atomic
import FreechCore.Dht.Proxy
import FreechCore.Dht.Truth
import FreechCore.Dht.TopEntries
import FreechCore.Dht.Verifiable
import FreechCore.Checkpoint.Enforced
import FreechCore.Checkpoint.Followed
import FreechCore.Post.TextSearch
import FreechCore.Registry.TxNum
import FreechCore.Registry.Inverse
import FreechCore.Chain.Extents
import FreechCore.Mining.Valid
import FreechCore.Merkle.Forged
import FreechCore.Checkpoint.Forward
import FreechCore.Dht.ProxyServer
import FreechCore.Dht.Restart
import FreechCore.Torrent.Pieces
import FreechCore.Post.Reloaded
import FreechCore.Post.Retransmit
import FreechCore.Merkle.Branch
import FreechCore.Net.TimeData
import FreechCore.Wallet.OldKey
import FreechCore.Chain.Orphans
import FreechCore.Registry.Verify
import FreechCore.Registry.MemPool
import FreechCore.Chain.Termination
import FreechCore.Post.Corrupt
import FreechCore.Chain.Locator
import FreechCore.Net.SelectTried
import FreechCore.Net.Alert
import FreechCore.Dht.Expiry
import FreechCore.Post.Timeline
import FreechCore.Mining.Rotation
import FreechCore.Post.Trending
import FreechCore.Chain.FileStats
import FreechCore.Net.LimitedMap
import FreechCore.Post.Silence
import FreechCore.Chain.NameTree
import FreechCore.Post.CopySelf

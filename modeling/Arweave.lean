import Arweave.Merkle.Nested
import Arweave.Wallet.Paging
import Arweave.Wallet.ReadBack
import Arweave.Tx.Binding
import Arweave.Tx.Malleability
import Arweave.Serialize.SignedHash
import Arweave.BlockIndex.TipChanges
import Arweave.Ledger.Redenomination
import Arweave.Ledger.KryderPlus
import Arweave.Ledger.Price
import Arweave.Ledger.Settlement
import Arweave.Wallet.Reorganisation
import Arweave.SyncRecord.Recovery
import Arweave.Poa.Agreement
import Arweave.DataSync.SyncQueue
import Arweave.Semaphore
import Arweave.DataSync.SyncTasks
import Arweave.Mining.Pairing
import Arweave.TxBlacklist.Offsets
import Arweave.Join.Index
import Arweave.Join.Trail
import Arweave.Merkle.Buckets
import Arweave.Serialize.Decoding
import Arweave.Serialize.Announcements
import Arweave.Serialize.Histories
import Arweave.Intervals.Etf
import Arweave.Retarget
import Arweave.Mempool.Admission
import Arweave.HeaderSync.Runs
import Arweave.Vdf.Push
import Arweave.DataSync.PoolEntries
import Arweave.DataSync.OffsetLookups
import Arweave.DataSync.Unsynced
import Arweave.DataSync.ReadRange
import Arweave.DataSync.PoolRules
import Arweave.ChunkStorage.Ranges
import Arweave.P3.Scans
import Arweave.PreValidator
import Arweave.IgnoreRegistry
import Arweave.Coordination.Batches
import Arweave.Bridge
import Arweave.StorageModules
import Arweave.Peers.Ranking
import Arweave.Peers.BucketPeers
import Arweave.Peers.SyncBuckets
import Arweave.PollerWorker
import Arweave.BlockCache.Subtrees
import Arweave.BlockCache.UpperBound
import Arweave.Ledger.WeaveSize
import Arweave.BlockIndex.Answers
import Arweave.DiffDag.Nearby
import Arweave.Ledger.RewardHistory
import Arweave.Tx.MiningOrder

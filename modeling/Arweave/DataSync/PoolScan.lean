import Arweave.DataSync.ChunkCache
import Arweave.DataSync.DiskPool
import Arweave.Intervals.Set

/-!
# The scan of the disk pool

The server goes over the chunks of the disk pool, one message for each offset of a chunk. Under an offset
above the threshold the chunk gets an entry in the default index. Under the others it is copied to a storage
module. A chunk that is not needed any more is removed with its entries at the last offsets of its data
root. Chunks, data roots and tips arrive between the messages.
-/

namespace Arweave.DataSync

open Lib Intervals

section Code

/-- A value of the default `chunks_index`. -/
structure ChunkEntry where
  chunkDataKey : Bytes
  txRoot : Bytes
  dataRoot : Bytes
  txPath : Bytes
  offset : Nat
  chunkSize : Nat

/-- The arguments of the message `process_disk_pool_chunk_offsets`. -/
structure OffsetsArgs where
  iterator : OffsetIterator
  mayConclude : Bool
  chunk : DiskPoolChunk
  key : Bytes

/-- The default server, with the messages `process_disk_pool_chunk_offsets` that it has sent to itself. -/
structure PoolServer (H : Type) extends PoolState H where
  chunksIndex : SortedMap Bytes ChunkEntry := .empty
  recorded : IntervalSet := Intervals.new
  diskPoolThreshold : Nat := 0
  messages : List OffsetsArgs := []
  currentlyProcessedDiskPoolKeys : OrdSet Bytes := .empty
  recentlyProcessedDiskPoolOffsets : OrdSet (Nat ×ₗ Bytes) := .empty

/-- What the server finds out about an offset: the threshold of the rebases, whether a storage module has
the offset, whether it is blacklisted, whether the module has it synced, whether the cache is full and
whether the chunk cannot be read. -/
structure OffsetFindings where
  merkleRebaseThreshold : Option Nat := none
  hasStorageModule : Bool := false
  isByteBlacklisted : Bool := false
  isSynced : Bool := false
  isChunkCacheFull : Bool := false
  readFails : Bool := false

def extractRoot (H : Digest 32) (path : Bytes) : Option Bytes :=
  if path.length = 64 then some (Merkle.leafHash H (path.take 32) (Bytes.toNat (path.drop 32)))
  else if 96 ≤ path.length then
    some (Merkle.nodeHash H (path.take 32) ((path.drop 32).take 32) (Bytes.toNat ((path.drop 64).take 32)))
  else none

def getChunkPaddedOffset (offset : Int) : Int :=
  if offset > strictDataSplitThreshold then getPaddedOffset offset strictDataSplitThreshold else offset

/-- `?SEARCH_SPACE_UPPER_BOUND_DEPTH` -/
def searchSpaceUpperBoundDepth : Nat := 50

variable {H : Type}

/-- The weave size of a block at a depth, or of the last one. -/
def getDiskPoolThreshold : List (H × Nat × Bytes) → Nat
  | [] => 0
  | e :: bi => ((e :: bi)[searchSpaceUpperBoundDepth - 1]?.getD ((e :: bi).getLast (List.cons_ne_nil e bi))).2.1

def removeChunksIndexRange (start stop : Nat) (chunksIndex : SortedMap Bytes ChunkEntry) : SortedMap Bytes ChunkEntry :=
  chunksIndex.deleteRange (offsetKey (start + 1 : Nat)) (offsetKey (stop + 1 : Nat))

/-- A failure of the sync record is a crash. -/
def updateChunksIndex (isByteBlacklisted : Bool) (absoluteOffset : Nat) (e : ChunkEntry) (s : PoolServer H) :
    Option (PoolServer H) :=
  if isByteBlacklisted then some s
  else
    (Intervals.add s.recorded (getChunkPaddedOffset absoluteOffset)
      (getChunkPaddedOffset ((absoluteOffset : Int) - e.chunkSize))).map fun recorded =>
        { s with chunksIndex := s.chunksIndex.insert (offsetKey absoluteOffset) e, recorded := recorded }

/-- The loop of `delete_disk_pool_chunk/3`, each step counting one. An entry with another key has been
written by an earlier version. -/
def deleteChunkEntries (index : SortedMap Bytes Bytes) (c : DiskPoolChunk) :
    Nat → OffsetIterator → SortedMap Bytes ChunkEntry × IntervalSet → Option (SortedMap Bytes ChunkEntry × IntervalSet)
  | 0, _, acc => some acc
  | n + 1, it, acc =>
    match dataRootIndexNextV2 index it 10 with
    | none => some acc
    | some ((txStartOffset, _), it2) =>
      let absoluteOffset := txStartOffset + c.endOffset
      match acc.1.lookup (offsetKey absoluteOffset) with
      | none => deleteChunkEntries index c n it2 acc
      | some e =>
        if e.chunkDataKey = c.chunkDataKey then do
          let recorded ← Intervals.delete acc.2 (getChunkPaddedOffset absoluteOffset)
            (getChunkPaddedOffset ((absoluteOffset : Int) - c.chunkSize))
          deleteChunkEntries index c n it2 (acc.1.erase (offsetKey absoluteOffset), recorded)
        else deleteChunkEntries index c n it2 acc

def deleteDiskPoolChunk (it : OffsetIterator) (args : OffsetsArgs) (s : PoolServer H) : Option (PoolServer H) :=
  (deleteChunkEntries s.sync.indices.dataRootIndex args.chunk 10 it (s.chunksIndex, s.recorded)).map fun r =>
    { s with
      chunksIndex := r.1
      recorded := r.2
      pool := removeDiskPoolChunk args.key args.chunk s.pool }

/-- The chunk meets the rules that hold at the offset. -/
def passedValidation (merkleRebaseThreshold : Option Nat) (absoluteOffset : Nat) (c : DiskPoolChunk) : Bool :=
  match merkleRebaseThreshold.any (· ≤ absoluteOffset), decide (strictDataSplitThreshold ≤ absoluteOffset), c.passesBase,
    c.passesStrict, c.passesRebase with
  | true, true, _, _, true => true
  | false, true, true, true, _ => true
  | false, false, true, _, _ => true
  | _, _, _, _, _ => false

/-- The server casts the message to itself. -/
def PoolServer.cast (s : PoolServer H) (args : OffsetsArgs) : PoolServer H := { s with messages := s.messages ++ [args] }

def PoolServer.deregister (s : PoolServer H) (key : Bytes) : PoolServer H :=
  { s with currentlyProcessedDiskPoolKeys := s.currentlyProcessedDiskPoolKeys.erase key }

/-- A chunk that has an entry is kept in the pool. -/
def processDiskPoolImmatureChunkOffset (f : OffsetFindings) (txRoot txPath : Bytes) (absoluteOffset : Nat)
    (args : OffsetsArgs) (s : PoolServer H) : Option (PoolServer H) :=
  if isInside s.recorded absoluteOffset then some (s.cast { args with mayConclude := false })
  else
    (updateChunksIndex f.isByteBlacklisted absoluteOffset
      ⟨args.chunk.chunkDataKey, txRoot, args.chunk.dataRoot, txPath, args.chunk.endOffset, args.chunk.chunkSize⟩ s).map
        fun s2 => s2.cast { args with mayConclude := false }

/-- The chunk is sent to a storage module, or it is not needed there. -/
def processDiskPoolMaturedChunkOffset (f : OffsetFindings) (absoluteOffset : Nat) (args : OffsetsArgs)
    (s : PoolServer H) : PoolServer H :=
  let recent : Nat ×ₗ Bytes := toLex (absoluteOffset, args.chunk.chunkDataKey)
  if f.hasStorageModule = false then s.cast args
  else if f.isByteBlacklisted ∨ f.isSynced then
    { s with recentlyProcessedDiskPoolOffsets := s.recentlyProcessedDiskPoolOffsets.erase recent }.cast args
  else if recent ∈ s.recentlyProcessedDiskPoolOffsets ∨ f.isChunkCacheFull then s.cast { args with mayConclude := false }
  else
    match s.pool.chunkData.lookup args.chunk.chunkDataKey with
    | none => s.cast args
    | some _ =>
      if f.readFails then s.deregister args.key
      else
        { s with recentlyProcessedDiskPoolOffsets := s.recentlyProcessedDiskPoolOffsets.add recent }.cast
          { args with mayConclude := false }

def processDiskPoolChunkOffset (f : OffsetFindings) (txRoot txPath : Bytes) (absoluteOffset : Nat) (args : OffsetsArgs)
    (s : PoolServer H) : Option (PoolServer H) :=
  if passedValidation f.merkleRebaseThreshold absoluteOffset args.chunk = false then some (s.cast args)
  else if absoluteOffset > s.diskPoolThreshold then
    processDiskPoolImmatureChunkOffset f txRoot txPath absoluteOffset args s
  else some (processDiskPoolMaturedChunkOffset f absoluteOffset args s)

/-- The handler of the message `process_disk_pool_chunk_offsets`. -/
def processDiskPoolChunkOffsets (sha256 : Digest 32) (f : OffsetFindings) (args : OffsetsArgs) (s : PoolServer H) :
    Option (PoolServer H) :=
  match dataRootIndexNextV2 s.sync.indices.dataRootIndex args.iterator 10 with
  | none =>
    if args.mayConclude then
      (deleteDiskPoolChunk (dataRootIndexReset args.iterator) args s).map fun s2 => s2.deregister args.key
    else some (s.deregister args.key)
  | some ((txStartOffset, txPath), it2) => do
    let s2 := { s with currentlyProcessedDiskPoolKeys := s.currentlyProcessedDiskPoolKeys.add args.key }
    let txRoot ← extractRoot sha256 txPath
    processDiskPoolChunkOffset f txRoot txPath (txStartOffset + args.chunk.endOffset) { args with iterator := it2 } s2

/-- The step of the scan on one chunk. A chunk that is being processed is passed over. -/
def processDiskPoolItem (migrated : Bool) (key : Bytes) (s : PoolServer H) : PoolServer H :=
  if key ∈ s.currentlyProcessedDiskPoolKeys then s
  else
    match s.pool.chunksIndex.lookup key with
    | none => s
    | some c =>
      match getDataRootOffset s.sync.indices.dataRootIndex c.dataRootKey, s.pool.dataRoots.lookup c.dataRootKey with
      | none, some _ => s
      | none, none => if migrated then { s with pool := removeDiskPoolChunk key c s.pool } else s
      | some (txStartOffset, _), _ => s.cast ⟨dataRootIndexIteratorV2 c.dataRootKey (txStartOffset + 1), true, c, key⟩

inductive ServerOp (H : Type) where
  | addChunk (u : Upload) (recorded : Nat → Bool) (now now2 : Nat)
  | addDataRoot (dataRoot : Bytes) (txSize : Nat) (txid : Bytes) (now : Nat)
  | maybeDropDataRoot (dataRoot : Bytes) (txSize : Nat) (txid : Bytes)
  | addTipBlock (blockTxPairs : List (H × List SizeTagged)) (bi : List (H × Nat × Bytes)) (now now2 : Nat)
  | removeExpired (now : Nat)
  | processItem (key : Bytes) (migrated : Bool)
  | processOffsets (i : Nat) (f : OffsetFindings)
  | removeRecentlyProcessed (offset : Nat) (chunkDataKey : Bytes)

variable [DecidableEq H] (cfg : PoolConfig) (tree : TxTree)

/-- An operation that is not part of the scan. -/
def PoolServer.poolStep (s : PoolServer H) (op : PoolOp H) : Option (PoolServer H) :=
  (s.toPoolState.step cfg tree op).map fun st => { s with toPoolState := st }

/-- The messages to the server and the uploads of chunks. The messages that the server sends to itself are
handled in any order. -/
def PoolServer.step (s : PoolServer H) : ServerOp H → Option (PoolServer H)
  | .addChunk u recorded now now2 => s.poolStep cfg tree (.addChunk u recorded now now2)
  | .addDataRoot dataRoot txSize txid now => s.poolStep cfg tree (.addDataRoot dataRoot txSize txid now)
  | .maybeDropDataRoot dataRoot txSize txid => s.poolStep cfg tree (.maybeDropDataRoot dataRoot txSize txid)
  | .removeExpired now => s.poolStep cfg tree (.removeExpired now)
  | .addTipBlock blockTxPairs bi now now2 => do
    let (blockStartOffset, _) ← pickMissingBlocks s.sync.blockIndex blockTxPairs
    let s2 ← s.poolStep cfg tree (.addTipBlock blockTxPairs bi now now2)
    some { s2 with
      chunksIndex := removeChunksIndexRange blockStartOffset s.sync.weaveSize s.chunksIndex
      recorded := cut s.recorded blockStartOffset
      diskPoolThreshold := getDiskPoolThreshold bi }
  | .processItem key migrated => some (processDiskPoolItem migrated key s)
  | .processOffsets i f => do
    let args ← s.messages[i]?
    processDiskPoolChunkOffsets cfg.sha256 f args { s with messages := s.messages.eraseIdx i }
  | .removeRecentlyProcessed offset chunkDataKey =>
    some { s with
      recentlyProcessedDiskPoolOffsets := s.recentlyProcessedDiskPoolOffsets.erase (toLex (offset, chunkDataKey)) }

end Code

end Arweave.DataSync

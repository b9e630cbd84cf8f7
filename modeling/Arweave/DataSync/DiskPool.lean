import Mathlib.Algebra.Order.BigOperators.Group.List
import Arweave.Merkle.Binding
import Arweave.DataSync.Offsets

/-!
# The disk pool

Chunks that are pushed to the node wait in the disk pool until their data roots are confirmed and
their offsets are old enough. The pool counts the bytes of its chunks, and for every data root it
knows it counts the bytes of the chunks of the data root.
-/

namespace Arweave.DataSync

open Lib

section Code

structure DiskPoolChunk where
  endOffset : Nat
  chunkSize : Nat
  dataRoot : Bytes
  txSize : Nat
  chunkDataKey : Bytes
  passesBase : Bool
  passesStrict : Bool
  passesRebase : Bool
  deriving DecidableEq

def DiskPoolChunk.dataRootKey (c : DiskPoolChunk) : Bytes := DataSync.dataRootKey c.dataRoot c.txSize

/-- What is kept for a data root. The transactions are not kept for a confirmed one. -/
structure DataRootValue where
  size : Int
  timestamp : Nat
  txids : Option (OrdSet Bytes)

structure DiskPool where
  dataRoots : SortedMap Bytes DataRootValue := SortedMap.empty
  chunksIndex : SortedMap Bytes DiskPoolChunk := SortedMap.empty
  chunkData : SortedMap Bytes (Bytes × Bytes) := SortedMap.empty
  size : Int := 0

/-- The limits of the pool in MiB, the time in seconds after which a data root expires, and the hash. -/
structure PoolConfig where
  maxDiskPoolDataRootBufferMb : Nat
  maxDiskPoolBufferMb : Nat
  diskPoolDataRootExpirationTime : Nat
  sha256 : Digest 32

/-- The rulesets that the path meets and the end offset of the chunk in the data. The validation raises
an error on data without bytes. -/
def validateDataPath (H : Digest 32) (dataRoot : Bytes) (offset txSize : Nat) (dataPath chunk : Bytes) :
    Option (Option (Bool × Bool × Bool × Nat)) := do
  let base ← (Merkle.validatePath H dataRoot offset txSize dataPath .strictBorders).toOption
  let strict ← (Merkle.validatePath H dataRoot offset txSize dataPath .strictDataSplit).toOption
  let rebase ← (Merkle.validatePath H dataRoot offset txSize dataPath .offsetRebaseSupport).toOption
  match strict.or (rebase.or base) with
  | none => pure none
  | some res =>
    if H chunk = res.leaf ∧ res.endOffset - res.startOffset = chunk.length then
      pure (some (base.isSome, strict.isSome, rebase.isSome, res.endOffset.toNat))
    else pure none

inductive AddChunkError where
  | dataRootNotFound
  | exceedsDiskPoolSizeLimit
  | invalidProof
  deriving DecidableEq

structure Upload where
  dataRoot : Bytes
  dataPath : Bytes
  chunk : Bytes
  offset : Nat
  txSize : Nat

variable (cfg : PoolConfig)

/-- What is stored for the data root of an accepted chunk. -/
def checkDiskPool (pool : DiskPool) (confirmed : Option (Nat × Bytes)) (dataRootKey : Bytes) (chunkSize now : Nat) :
    Except AddChunkError DataRootValue :=
  let dataRootLimit := cfg.maxDiskPoolDataRootBufferMb * 1024 * 1024
  let diskPoolLimit := cfg.maxDiskPoolBufferMb * 1024 * 1024
  match confirmed, pool.dataRoots.lookup dataRootKey with
  | none, none => throw .dataRootNotFound
  | none, some value =>
    if value.size + chunkSize > dataRootLimit ∨ pool.size + chunkSize > diskPoolLimit then
      throw .exceedsDiskPoolSizeLimit
    else pure { value with size := value.size + chunkSize }
  | some _, inPool =>
    if pool.size + chunkSize > diskPoolLimit then throw .exceedsDiskPoolSizeLimit
    else
      let timestamp := match inPool with
        | none => now
        | some value => value.timestamp
      pure ⟨chunkSize, timestamp, none⟩

/-- The key of a chunk in the disk pool, and the key of its data. -/
def timedKey (timestamp : Nat) (dataPathHash : Bytes) : Bytes := offsetKey timestamp ++ dataPathHash

/-- The replies of the clock and of the sync records are given. The call fails on a data root of another
length. -/
def addChunk (index : SortedMap Bytes Bytes) (recorded : Nat → Bool) (now now2 : Nat) (u : Upload) (pool : DiskPool) :
    Option (DiskPool × Except AddChunkError Unit) := do
  guard (u.dataRoot.length = 32)
  let dataRootKey := u.dataRoot ++ offsetKey u.txSize
  let dataRootOffsetReply := getDataRootOffset index dataRootKey
  let chunkSize := u.chunk.length
  match checkDiskPool cfg pool dataRootOffsetReply dataRootKey chunkSize now with
  | .error e => pure (pool, .error e)
  | .ok value =>
    match ← validateDataPath cfg.sha256 u.dataRoot u.offset u.txSize u.dataPath u.chunk with
    | none => pure (pool, .error .invalidProof)
    | some (passesBase, passesStrict, passesRebase, endOffset) =>
      let dataPathHash := cfg.sha256 u.dataPath
      let diskPoolChunkKey := timedKey value.timestamp dataPathHash
      let synced :=
        (pool.chunksIndex.lookup diskPoolChunkKey).isSome ||
          match dataRootOffsetReply with
          | none => false
          | some (txStartOffset, _) => chunkOffsetsSynced index recorded dataRootKey endOffset txStartOffset 5
      if synced then pure (pool, .ok ())
      else
        let chunkDataKey := timedKey now2 dataPathHash
        pure ({
          dataRoots := pool.dataRoots.insert dataRootKey value
          chunksIndex := pool.chunksIndex.insert diskPoolChunkKey
            ⟨endOffset, chunkSize, u.dataRoot, u.txSize, chunkDataKey, passesBase, passesStrict, passesRebase⟩
          chunkData := pool.chunkData.insert chunkDataKey (u.chunk, u.dataPath)
          size := pool.size + chunkSize }, .ok ())

def addDataRootToDiskPool (dataRoot : Bytes) (txSize : Nat) (txid : Bytes) (now : Nat) (pool : DiskPool) : DiskPool :=
  if txSize = 0 ∨ dataRoot.length < 32 then pool
  else
    let key := dataRootKey dataRoot txSize
    match pool.dataRoots.lookup key with
    | none => { pool with dataRoots := pool.dataRoots.insert key ⟨0, now, some (OrdSet.empty.add txid)⟩ }
    | some ⟨_, _, none⟩ => pool
    | some ⟨size, timestamp, some txids⟩ =>
      { pool with dataRoots := pool.dataRoots.insert key ⟨size, timestamp, some (txids.add txid)⟩ }

def maybeDropDataRootFromDiskPool (dataRoot : Bytes) (txSize : Nat) (txid : Bytes) (pool : DiskPool) : DiskPool :=
  if txSize = 0 ∨ dataRoot.length < 32 then pool
  else
    let key := dataRootKey dataRoot txSize
    match pool.dataRoots.lookup key with
    | none => pool
    | some ⟨_, _, none⟩ => pool
    | some ⟨size, timestamp, some txids⟩ =>
      if txid ∉ txids then pool
      else if (txids.erase txid).isEmpty then { pool with dataRoots := pool.dataRoots.erase key }
      else { pool with dataRoots := pool.dataRoots.insert key ⟨size, timestamp, some (txids.erase txid)⟩ }

/-- The data roots of new blocks. The timestamps differ. -/
def addBlockDataRootsToDiskPool (keys : OrdSet Bytes) (now : Nat) (pool : DiskPool) : DiskPool :=
  { pool with
    dataRoots := (keys.elems.foldl (fun (acc : SortedMap Bytes DataRootValue × Nat) key =>
      (acc.1.insert key (match acc.1.lookup key with
        | none => ⟨0, acc.2, none⟩
        | some value => { value with txids := none }), acc.2 + 1)) (pool.dataRoots, now)).1 }

def resetOrphanedDataRootsDiskPoolTimestamps (keys : OrdSet Bytes) (now : Nat) (pool : DiskPool) : DiskPool :=
  { pool with
    dataRoots := (keys.elems.foldl (fun (acc : SortedMap Bytes DataRootValue × Nat) key =>
      (acc.1.insert key (match acc.1.lookup key with
        | none => ⟨0, acc.2, none⟩
        | some value => { value with timestamp := acc.2 }), acc.2 + 1)) (pool.dataRoots, now)).1 }

def removeExpiredDiskPoolDataRoots (now : Nat) (pool : DiskPool) : DiskPool :=
  let expirationTime := cfg.diskPoolDataRootExpirationTime * 1000000
  { pool with
    dataRoots := pool.dataRoots.entries.foldl (fun m e => if e.2.timestamp + expirationTime > now then m else m.erase e.1)
      pool.dataRoots }

def decreaseOccupiedDiskPoolSize (size : Nat) (dataRootKey : Bytes) (pool : DiskPool) : DiskPool :=
  { pool with
    size := pool.size - size
    dataRoots := match pool.dataRoots.lookup dataRootKey with
      | none => pool.dataRoots
      | some value => pool.dataRoots.insert dataRootKey { value with size := value.size - size } }

/-- The removal of a chunk from the disk pool. -/
def removeDiskPoolChunk (key : Bytes) (c : DiskPoolChunk) (pool : DiskPool) : DiskPool :=
  decreaseOccupiedDiskPoolSize c.chunkSize c.dataRootKey
    { pool with chunksIndex := pool.chunksIndex.erase key, chunkData := pool.chunkData.erase c.chunkDataKey }

/-- The sizes computed from the chunks, on start. -/
def recalculateDiskPoolSize (pool : DiskPool) : DiskPool :=
  let dataRoots := pool.dataRoots.mapValues fun _ value => { value with size := 0 }
  let result := pool.chunksIndex.entries.foldl (fun (acc : SortedMap Bytes DataRootValue × Int) e =>
    (match acc.1.lookup e.2.dataRootKey with
      | none => acc.1
      | some value => acc.1.insert e.2.dataRootKey { value with size := value.size + e.2.chunkSize },
      acc.2 + e.2.chunkSize)) (dataRoots, 0)
  { pool with dataRoots := result.1, size := result.2 }

/-- A step of the scan on one chunk, with the outcome of the pass over the offsets of its data root. The
chunk is kept while the data root is pending, and without an end of the migration of the data root index. -/
def scanDiskPoolItem (index : SortedMap Bytes Bytes) (migrated concludes : Bool) (key : Bytes) (pool : DiskPool) : DiskPool :=
  match pool.chunksIndex.lookup key with
  | none => pool
  | some c =>
    match getDataRootOffset index c.dataRootKey, pool.dataRoots.lookup c.dataRootKey with
    | none, some _ => pool
    | none, none => if migrated then removeDiskPoolChunk key c pool else pool
    | some _, _ => if concludes then removeDiskPoolChunk key c pool else pool

structure PoolState (H : Type) where
  sync : State H
  pool : DiskPool

inductive PoolOp (H : Type) where
  | addChunk (u : Upload) (recorded : Nat → Bool) (now now2 : Nat)
  | addDataRoot (dataRoot : Bytes) (txSize : Nat) (txid : Bytes) (now : Nat)
  | maybeDropDataRoot (dataRoot : Bytes) (txSize : Nat) (txid : Bytes)
  | addTipBlock (blockTxPairs : List (H × List SizeTagged)) (bi : List (H × Nat × Bytes)) (now now2 : Nat)
  | removeExpired (now : Nat)
  | scan (key : Bytes) (migrated concludes : Bool)

def PoolState.step {H : Type} [DecidableEq H] (tree : TxTree) (s : PoolState H) : PoolOp H → Option (PoolState H)
  | .addChunk u recorded now now2 => do
    let (pool, _) ← addChunk cfg s.sync.indices.dataRootIndex recorded now now2 u s.pool
    pure { s with pool := pool }
  | .addDataRoot dataRoot txSize txid now => pure { s with pool := addDataRootToDiskPool dataRoot txSize txid now s.pool }
  | .maybeDropDataRoot dataRoot txSize txid => pure { s with pool := maybeDropDataRootFromDiskPool dataRoot txSize txid s.pool }
  | .addTipBlock blockTxPairs bi now now2 => do
    let (sync, report) ← addTipBlock tree s.sync blockTxPairs bi
    pure ⟨sync, resetOrphanedDataRootsDiskPoolTimestamps report.orphanedDataRoots now2
      (addBlockDataRootsToDiskPool report.addedDataRoots now s.pool)⟩
  | .removeExpired now => pure { s with pool := removeExpiredDiskPoolDataRoots cfg now s.pool }
  | .scan key migrated concludes =>
    pure { s with pool := scanDiskPoolItem s.sync.indices.dataRootIndex migrated concludes key s.pool }

end Code

section Accounts

variable {pool : DiskPool} {key : Bytes} {cfg : PoolConfig}

/-- The bytes of all chunks of the pool. -/
def DiskPool.total (pool : DiskPool) : Int := pool.chunksIndex.sum fun c => (c.chunkSize : Int)

/-- The bytes of the chunks of a data root. -/
def DiskPool.totalOf (pool : DiskPool) (key : Bytes) : Int :=
  pool.chunksIndex.sum fun c => if c.dataRootKey = key then (c.chunkSize : Int) else 0

/-- A chunk of the data root is in the pool. -/
def DiskPool.hasChunks (pool : DiskPool) (key : Bytes) : Bool := pool.chunksIndex.entries.any fun e => e.2.dataRootKey = key

/-- The counters are what is computed from the chunks. -/
structure Accounts (pool : DiskPool) : Prop where
  size_eq : pool.size = pool.total
  dataRoots_eq : ∀ key value, pool.dataRoots.lookup key = some value → value.size = pool.totalOf key

lemma totalOf_eq_zero (h : pool.hasChunks key = false) : pool.totalOf key = 0 := by
  rw [DiskPool.totalOf, SortedMap.sum]
  apply List.sum_eq_zero
  intro n hn
  obtain ⟨e, he, rfl⟩ := List.mem_map.mp hn
  rw [DiskPool.hasChunks, List.any_eq_false] at h
  exact if_neg (by simpa using h e he)

lemma Accounts.of_dataRoots {dataRoots : SortedMap Bytes DataRootValue} (h : Accounts pool)
    (hroots : ∀ key value, dataRoots.lookup key = some value → value.size = pool.totalOf key) :
    Accounts { pool with dataRoots := dataRoots } :=
  ⟨h.size_eq, hroots⟩

lemma Accounts.insert {value : DataRootValue} (h : Accounts pool) (hvalue : value.size = pool.totalOf key) :
    Accounts { pool with dataRoots := pool.dataRoots.insert key value } := by
  refine h.of_dataRoots fun key' value' hlookup => ?_
  rw [SortedMap.lookup_insert] at hlookup
  split_ifs at hlookup with heq
  · cases hlookup
    rw [heq, hvalue]
  · exact h.dataRoots_eq key' value' hlookup

lemma Accounts.erase (h : Accounts pool) : Accounts { pool with dataRoots := pool.dataRoots.erase key } := by
  refine h.of_dataRoots fun key' value' hlookup => ?_
  rw [SortedMap.lookup_erase] at hlookup
  split_ifs at hlookup with heq
  exact h.dataRoots_eq key' value' hlookup

lemma Accounts.addDataRootToDiskPool {dataRoot txid : Bytes} {txSize now : Nat} (h : Accounts pool)
    (hfresh : pool.dataRoots.lookup (dataRootKey dataRoot txSize) = none →
      pool.hasChunks (dataRootKey dataRoot txSize) = false) :
    Accounts (addDataRootToDiskPool dataRoot txSize txid now pool) := by
  rw [DataSync.addDataRootToDiskPool]
  split_ifs with hskip
  · exact h
  · dsimp only
    split
    · rename_i hnone
      exact h.insert (totalOf_eq_zero (hfresh hnone)).symm
    · exact h
    · rename_i hsome
      have hvalue := h.dataRoots_eq _ _ hsome
      exact h.insert hvalue

lemma Accounts.maybeDropDataRootFromDiskPool {dataRoot txid : Bytes} {txSize : Nat} (h : Accounts pool) :
    Accounts (maybeDropDataRootFromDiskPool dataRoot txSize txid pool) := by
  rw [DataSync.maybeDropDataRootFromDiskPool]
  split_ifs with hskip
  · exact h
  · dsimp only
    split
    · exact h
    · exact h
    · rename_i hsome
      have hvalue := h.dataRoots_eq _ _ hsome
      split_ifs
      · exact h.erase
      · exact h.insert hvalue
      · exact h

lemma Accounts.foldl_update {f : Nat → Option DataRootValue → DataRootValue} {keys : List Bytes} {now : Nat}
    (h : Accounts pool) (hnone : ∀ t, (f t none).size = 0) (hsome : ∀ t value, (f t (some value)).size = value.size)
    (hfresh : ∀ key ∈ keys, pool.dataRoots.lookup key = none → pool.hasChunks key = false) :
    Accounts { pool with
      dataRoots := (keys.foldl (fun (acc : SortedMap Bytes DataRootValue × Nat) key =>
        (acc.1.insert key (f acc.2 (acc.1.lookup key)), acc.2 + 1)) (pool.dataRoots, now)).1 } := by
  induction keys generalizing pool now with
  | nil => exact h
  | cons key keys ih =>
    obtain ⟨hkey, hrest⟩ := List.forall_mem_cons.mp hfresh
    have hvalue : (f now (pool.dataRoots.lookup key)).size = pool.totalOf key := by
      cases hlookup : pool.dataRoots.lookup key with
      | none => rw [hnone, totalOf_eq_zero (hkey hlookup)]
      | some value => rw [hsome, h.dataRoots_eq key value hlookup]
    refine ih (h.insert hvalue) fun key' hmem hlookup => hrest key' hmem ?_
    rw [SortedMap.lookup_insert] at hlookup
    split_ifs at hlookup with heq
    exact hlookup

lemma lookup_of_foldl_update {f : Nat → Option DataRootValue → DataRootValue} {keys : List Bytes} {now : Nat}
    {m : SortedMap Bytes DataRootValue}
    (h : (keys.foldl (fun (acc : SortedMap Bytes DataRootValue × Nat) key =>
      (acc.1.insert key (f acc.2 (acc.1.lookup key)), acc.2 + 1)) (m, now)).1.lookup key = none) : m.lookup key = none := by
  induction keys generalizing m now with
  | nil => exact h
  | cons key' keys ih =>
    have hstep := ih h
    rw [SortedMap.lookup_insert] at hstep
    split_ifs at hstep
    exact hstep

lemma lookup_of_foldl_erase {l : List (Bytes × DataRootValue)} {c : Bytes × DataRootValue → Prop} [DecidablePred c]
    {m : SortedMap Bytes DataRootValue} {value : DataRootValue}
    (h : (l.foldl (fun m e => if c e then m else m.erase e.1) m).lookup key = some value) : m.lookup key = some value := by
  induction l generalizing m with
  | nil => exact h
  | cons e l ih =>
    rw [List.foldl_cons] at h
    have hstep := ih h
    split_ifs at hstep
    · exact hstep
    · rw [SortedMap.lookup_erase] at hstep
      split_ifs at hstep
      exact hstep

lemma Accounts.removeExpired {now : Nat} (h : Accounts pool) : Accounts (removeExpiredDiskPoolDataRoots cfg now pool) :=
  h.of_dataRoots fun _ _ hlookup => h.dataRoots_eq _ _ (lookup_of_foldl_erase hlookup)

lemma Accounts.removeDiskPoolChunk {c : DiskPoolChunk} (h : Accounts pool) (hc : pool.chunksIndex.lookup key = some c) :
    Accounts (removeDiskPoolChunk key c pool) := by
  have htotal : (c.chunkSize : Int) + (pool.chunksIndex.erase key).sum (fun c => (c.chunkSize : Int)) = pool.total :=
    SortedMap.sum_erase (f := fun c => (c.chunkSize : Int)) hc
  have htotalOf : ∀ k, (if c.dataRootKey = k then (c.chunkSize : Int) else 0) +
      (pool.chunksIndex.erase key).sum (fun c => if c.dataRootKey = k then (c.chunkSize : Int) else 0) = pool.totalOf k :=
    fun k => SortedMap.sum_erase (f := fun c => if c.dataRootKey = k then (c.chunkSize : Int) else 0) hc
  have hsize := h.size_eq
  refine ⟨?_, fun k value hlookup => ?_⟩
  · change pool.size - c.chunkSize = (pool.chunksIndex.erase key).sum _
    omega
  · change value.size = (pool.chunksIndex.erase key).sum _
    have hk := htotalOf k
    rw [DataSync.removeDiskPoolChunk, decreaseOccupiedDiskPoolSize] at hlookup
    dsimp only at hlookup
    split at hlookup
    · rename_i hnone
      have hne : c.dataRootKey ≠ k := by
        rintro rfl
        rw [hnone] at hlookup
        cases hlookup
      rw [if_neg hne] at hk
      have := h.dataRoots_eq k value hlookup
      omega
    · rename_i old hold
      rw [SortedMap.lookup_insert] at hlookup
      split_ifs at hlookup with heq
      · cases hlookup
        subst heq
        rw [if_pos rfl] at hk
        have := h.dataRoots_eq _ old hold
        change old.size - c.chunkSize = _
        omega
      · rw [if_neg (Ne.symm heq)] at hk
        have := h.dataRoots_eq k value hlookup
        omega

lemma Accounts.scanDiskPoolItem {index : SortedMap Bytes Bytes} {migrated concludes : Bool} (h : Accounts pool) :
    Accounts (scanDiskPoolItem index migrated concludes key pool) := by
  rw [DataSync.scanDiskPoolItem]
  split
  · exact h
  · rename_i c hc
    split
    · exact h
    · split_ifs
      · exact h.removeDiskPoolChunk hc
      · exact h
    · split_ifs
      · exact h.removeDiskPoolChunk hc
      · exact h

/-- The chunk passes the checks of the pool, its proof is valid, and it is neither in the pool nor
recorded at the last offsets of its data. -/
def acceptsChunk (cfg : PoolConfig) (index : SortedMap Bytes Bytes) (recorded : Nat → Bool) (now : Nat) (u : Upload)
    (pool : DiskPool) : Bool :=
  let key := u.dataRoot ++ offsetKey u.txSize
  match checkDiskPool cfg pool (getDataRootOffset index key) key u.chunk.length now,
    validateDataPath cfg.sha256 u.dataRoot u.offset u.txSize u.dataPath u.chunk with
  | .ok value, some (some (_, _, _, endOffset)) =>
    !((pool.chunksIndex.lookup (timedKey value.timestamp (cfg.sha256 u.dataPath))).isSome ||
      match getDataRootOffset index key with
      | none => false
      | some (txStartOffset, _) => chunkOffsetsSynced index recorded key endOffset txStartOffset 5)
  | _, _ => false

lemma checkDiskPool_size {confirmed : Option (Nat × Bytes)} {chunkSize now : Nat} {value : DataRootValue} (h : Accounts pool)
    (hfresh : confirmed.isSome → pool.hasChunks key = false)
    (hvalue : checkDiskPool cfg pool confirmed key chunkSize now = .ok value) :
    value.size = chunkSize + pool.totalOf key := by
  unfold checkDiskPool at hvalue
  dsimp only at hvalue
  split at hvalue
  · cases hvalue
  · rename_i old hold
    split_ifs at hvalue
    cases hvalue
    have := h.dataRoots_eq key old hold
    change old.size + chunkSize = _
    omega
  · split_ifs at hvalue
    cases hvalue
    rw [totalOf_eq_zero (hfresh rfl), add_zero]

lemma validateDataPath_some {H : Digest 32} {dataRoot dataPath chunk : Bytes} {offset txSize endOffset : Nat}
    {passesBase passesStrict passesRebase : Bool}
    (h : validateDataPath H dataRoot offset txSize dataPath chunk =
      some (some (passesBase, passesStrict, passesRebase, endOffset))) :
    ∃ base strict rebase res,
      Merkle.validatePath H dataRoot offset txSize dataPath .strictBorders = .ok base ∧
      Merkle.validatePath H dataRoot offset txSize dataPath .strictDataSplit = .ok strict ∧
      Merkle.validatePath H dataRoot offset txSize dataPath .offsetRebaseSupport = .ok rebase ∧
      strict.or (rebase.or base) = some res ∧ passesBase = base.isSome ∧ passesStrict = strict.isSome ∧
      passesRebase = rebase.isSome ∧ endOffset = res.endOffset.toNat := by
  have hok : ∀ {ruleset result}, (Merkle.validatePath H dataRoot offset txSize dataPath ruleset).toOption = some result →
      Merkle.validatePath H dataRoot offset txSize dataPath ruleset = .ok result := by
    intro ruleset result hresult
    cases hpath : Merkle.validatePath H dataRoot offset txSize dataPath ruleset with
    | error e =>
      rw [hpath] at hresult
      cases hresult
    | ok result' =>
      rw [hpath] at hresult
      cases hresult
      rfl
  rw [validateDataPath] at h
  obtain ⟨base, hbase, h⟩ := Option.bind_eq_some_iff.mp h
  obtain ⟨strict, hstrict, h⟩ := Option.bind_eq_some_iff.mp h
  obtain ⟨rebase, hrebase, h⟩ := Option.bind_eq_some_iff.mp h
  split at h
  · cases h
  · rename_i res hres
    split_ifs at h
    · cases h
      exact ⟨base, strict, rebase, res, hok hbase, hok hstrict, hok hrebase, hres, rfl, rfl, rfl, rfl⟩
    · cases h

lemma validateDataPath_bounds {H : Digest 32} {dataRoot dataPath chunk : Bytes} {offset txSize endOffset : Nat}
    {passesBase passesStrict passesRebase : Bool}
    (h : validateDataPath H dataRoot offset txSize dataPath chunk =
      some (some (passesBase, passesStrict, passesRebase, endOffset))) : 0 < endOffset ∧ endOffset ≤ txSize := by
  obtain ⟨base, strict, rebase, res, hbase, hstrict, hrebase, hres, -, -, -, rfl⟩ := validateDataPath_some h
  have hbounds : 0 < res.endOffset ∧ res.endOffset ≤ txSize := by
    obtain rfl | ⟨-, hres⟩ := Option.or_eq_some_iff.mp hres
    · have := Merkle.validatePath_bounds hstrict
      omega
    · obtain rfl | ⟨-, rfl⟩ := Option.or_eq_some_iff.mp hres
      · have := Merkle.validatePath_bounds hrebase
        omega
      · have := Merkle.validatePath_bounds hbase
        omega
  omega

/-- What an accepted chunk changes. -/
lemma addChunk_cases {index : SortedMap Bytes Bytes} {recorded : Nat → Bool} {now now2 : Nat} {u : Upload} {pool' : DiskPool}
    {reply : Except AddChunkError Unit} (hstep : addChunk cfg index recorded now now2 u pool = some (pool', reply)) :
    pool' = pool ∨
      acceptsChunk cfg index recorded now u pool = true ∧ ∃ value k c,
        checkDiskPool cfg pool (getDataRootOffset index (dataRootKey u.dataRoot u.txSize)) (dataRootKey u.dataRoot u.txSize)
          u.chunk.length now = .ok value ∧
        pool.chunksIndex.lookup k = none ∧ c.chunkSize = u.chunk.length ∧ c.dataRootKey = dataRootKey u.dataRoot u.txSize ∧
        c.chunkDataKey = timedKey now2 (cfg.sha256 u.dataPath) ∧
        (u.dataRoot.length = 32 ∧ 0 < c.endOffset ∧ c.endOffset ≤ u.txSize) ∧
        pool' = ⟨pool.dataRoots.insert (dataRootKey u.dataRoot u.txSize) value, pool.chunksIndex.insert k c,
          pool.chunkData.insert c.chunkDataKey (u.chunk, u.dataPath), pool.size + u.chunk.length⟩ := by
  have hlen : u.dataRoot.length = 32 := by
    by_contra hne
    rw [DataSync.addChunk, guard, if_neg hne] at hstep
    cases hstep
  have hkey : u.dataRoot ++ offsetKey u.txSize = dataRootKey u.dataRoot u.txSize := by
    rw [dataRootKey, List.take_of_length_le hlen.le]
  rw [DataSync.addChunk, guard, if_pos hlen, hkey] at hstep
  rw [acceptsChunk, hkey]
  dsimp only [bind, Option.bind, pure] at hstep ⊢
  cases hvalue : checkDiskPool cfg pool (getDataRootOffset index (dataRootKey u.dataRoot u.txSize))
    (dataRootKey u.dataRoot u.txSize) u.chunk.length now with
  | error e =>
    rw [hvalue] at hstep
    cases hstep
    exact Or.inl rfl
  | ok value =>
    cases hproof : validateDataPath cfg.sha256 u.dataRoot u.offset u.txSize u.dataPath u.chunk with
    | none =>
      rw [hvalue, hproof] at hstep
      cases hstep
    | some proof =>
      cases proof with
      | none =>
        rw [hvalue, hproof] at hstep
        cases hstep
        exact Or.inl rfl
      | some proof =>
        obtain ⟨passesBase, passesStrict, passesRebase, endOffset⟩ := proof
        rw [hvalue, hproof] at hstep
        dsimp only at hstep ⊢
        split_ifs at hstep with hsynced
        · cases hstep
          exact Or.inl rfl
        · cases hstep
          refine Or.inr ⟨?_, value, _, _, rfl, ?_, ?_, ?_, ?_, ?_, rfl⟩
          · simpa using hsynced
          · simp only [Bool.or_eq_true, not_or] at hsynced
            exact Option.not_isSome_iff_eq_none.mp hsynced.1
          · rfl
          · rfl
          · rfl
          · exact ⟨hlen, validateDataPath_bounds hproof⟩

lemma Accounts.addChunk {index : SortedMap Bytes Bytes} {recorded : Nat → Bool} {now now2 : Nat} {u : Upload} {pool' : DiskPool}
    {reply : Except AddChunkError Unit} (h : Accounts pool)
    (hfresh : acceptsChunk cfg index recorded now u pool = true →
      (getDataRootOffset index (dataRootKey u.dataRoot u.txSize)).isSome →
        pool.hasChunks (dataRootKey u.dataRoot u.txSize) = false)
    (hstep : addChunk cfg index recorded now now2 u pool = some (pool', reply)) : Accounts pool' := by
  obtain rfl | ⟨haccepts, value, k, c, hvalue, hk, hsize, hroot, -, -, rfl⟩ := addChunk_cases hstep
  · exact h
  have hvalue := checkDiskPool_size h (hfresh haccepts) hvalue
  have hinsert : ∀ f : DiskPoolChunk → Int, (pool.chunksIndex.insert k c).sum f = f c + pool.chunksIndex.sum f := by
    intro f
    rw [SortedMap.sum_insert, SortedMap.erase_of_lookup_eq_none hk]
  refine ⟨?_, fun key' value' hlookup => ?_⟩
  · have hpool := h.size_eq
    rw [DiskPool.total] at hpool ⊢
    dsimp only
    rw [hinsert, hsize, hpool, add_comm]
  · rw [DiskPool.totalOf, hinsert, hroot, hsize]
    dsimp only at hlookup
    rw [SortedMap.lookup_insert] at hlookup
    split_ifs at hlookup with heq
    · cases hlookup
      rw [if_pos heq.symm, hvalue, heq]
      rfl
    · rw [if_neg (Ne.symm heq), zero_add]
      exact h.dataRoots_eq key' value' hlookup

lemma foldl_recalculate {l : List (Bytes × DiskPoolChunk)} {m : SortedMap Bytes DataRootValue} {n : Int} :
    let result := l.foldl (fun (acc : SortedMap Bytes DataRootValue × Int) e =>
      (match acc.1.lookup e.2.dataRootKey with
        | none => acc.1
        | some value => acc.1.insert e.2.dataRootKey { value with size := value.size + e.2.chunkSize },
        acc.2 + e.2.chunkSize)) (m, n)
    result.2 = n + (l.map fun e => (e.2.chunkSize : Int)).sum ∧
      ∀ key, (result.1.lookup key).map DataRootValue.size = (m.lookup key).map fun value =>
        value.size + (l.map fun e => if e.2.dataRootKey = key then (e.2.chunkSize : Int) else 0).sum := by
  induction l generalizing m n with
  | nil => simp
  | cons e l ih =>
    rw [List.foldl_cons]
    dsimp only
    refine ⟨?_, fun key => ?_⟩
    · rw [ih.1, List.map_cons, List.sum_cons, add_assoc]
    · rw [ih.2 key, List.map_cons, List.sum_cons]
      cases hlookup : m.lookup e.2.dataRootKey with
      | none =>
        by_cases heq : e.2.dataRootKey = key
        · rw [← heq, hlookup]
          rfl
        · rw [if_neg heq, zero_add]
      | some value =>
        dsimp only
        rw [SortedMap.lookup_insert]
        by_cases heq : e.2.dataRootKey = key
        · rw [if_pos heq.symm, if_pos heq, ← heq, hlookup, Option.map_some, Option.map_some, add_assoc]
        · rw [if_neg (Ne.symm heq), if_neg heq, zero_add]

lemma recalculateDiskPoolSize_spec (pool : DiskPool) :
    (recalculateDiskPoolSize pool).size = pool.total ∧
      ∀ key, ((recalculateDiskPoolSize pool).dataRoots.lookup key).map DataRootValue.size =
        (pool.dataRoots.lookup key).map fun _ => pool.totalOf key := by
  obtain ⟨hsize, hroots⟩ := foldl_recalculate (l := pool.chunksIndex.entries)
    (m := pool.dataRoots.mapValues fun _ value => { value with size := 0 }) (n := 0)
  refine ⟨hsize.trans (zero_add _), fun key => ?_⟩
  rw [recalculateDiskPoolSize]
  dsimp only
  rw [hroots key, SortedMap.lookup_mapValues, Option.map_map]
  refine congrArg (Option.map · _) ?_
  funext value
  exact zero_add _

lemma accounts_recalculate : Accounts (recalculateDiskPoolSize pool) := by
  obtain ⟨hsize, hroots⟩ := recalculateDiskPoolSize_spec pool
  refine ⟨hsize, fun key value hlookup => ?_⟩
  have hkey := hroots key
  rw [hlookup, Option.map_some] at hkey
  obtain ⟨-, -, htotal⟩ := Option.map_eq_some_iff.mp hkey.symm
  exact htotal.symm

lemma totalOf_nonneg : 0 ≤ pool.totalOf key := by
  rw [DiskPool.totalOf, SortedMap.sum]
  apply List.sum_nonneg
  intro n hn
  obtain ⟨e, -, rfl⟩ := List.mem_map.mp hn
  split_ifs
  · exact Int.natCast_nonneg _
  · exact le_rfl

end Accounts

section Runs

variable {H : Type} [DecidableEq H] {cfg : PoolConfig} {tree : TxTree}

/-- A data root whose chunks are in the pool keeps its entry: no accepted chunk of a confirmed data root
and no new entry of a data root finds chunks of the data root in the pool. -/
def KeepsSizes (cfg : PoolConfig) (tree : TxTree) (s : PoolState H) : PoolOp H → Prop
  | .addChunk u recorded now _ =>
    acceptsChunk cfg s.sync.indices.dataRootIndex recorded now u s.pool = true →
      (getDataRootOffset s.sync.indices.dataRootIndex (dataRootKey u.dataRoot u.txSize)).isSome →
        s.pool.hasChunks (dataRootKey u.dataRoot u.txSize) = false
  | .addDataRoot dataRoot txSize _ _ =>
    (s.pool.dataRoots.lookup (dataRootKey dataRoot txSize)).isNone → s.pool.hasChunks (dataRootKey dataRoot txSize) = false
  | .addTipBlock blockTxPairs bi _ _ => ∀ r ∈ addTipBlock tree s.sync blockTxPairs bi,
    ∀ key ∈ r.2.addedDataRoots.elems ++ r.2.orphanedDataRoots.elems,
      (s.pool.dataRoots.lookup key).isNone → s.pool.hasChunks key = false
  | .maybeDropDataRoot .. | .removeExpired .. | .scan .. => True

instance decidableKeepsSizes (s : PoolState H) (op : PoolOp H) : Decidable (KeepsSizes cfg tree s op) :=
  match op with
  | .addChunk .. => inferInstanceAs (Decidable (_ = true → _ = true → _ = false))
  | .addDataRoot .. => inferInstanceAs (Decidable (_ = true → _ = false))
  | .addTipBlock .. => inferInstanceAs (Decidable (∀ r ∈ _, ∀ key ∈ _, _ = true → _ = false))
  | .maybeDropDataRoot .. | .removeExpired .. | .scan .. => isTrue trivial

lemma Accounts.step {s s' : PoolState H} {op : PoolOp H} (h : Accounts s.pool) (hkeeps : KeepsSizes cfg tree s op)
    (hstep : s.step cfg tree op = some s') : Accounts s'.pool := by
  cases op with
  | addChunk u recorded now now2 =>
    obtain ⟨⟨pool, reply⟩, hadd, hs'⟩ := Option.bind_eq_some_iff.mp hstep
    cases hs'
    exact h.addChunk hkeeps hadd
  | addDataRoot dataRoot txSize txid now =>
    cases hstep
    exact h.addDataRootToDiskPool fun hnone => hkeeps (Option.isNone_iff_eq_none.mpr hnone)
  | maybeDropDataRoot dataRoot txSize txid =>
    cases hstep
    exact h.maybeDropDataRootFromDiskPool
  | addTipBlock blockTxPairs bi now now2 =>
    obtain ⟨⟨sync, report⟩, hadd, hs'⟩ := Option.bind_eq_some_iff.mp hstep
    cases hs'
    have hfresh : ∀ key, key ∈ report.addedDataRoots ∨ key ∈ report.orphanedDataRoots →
        s.pool.dataRoots.lookup key = none → s.pool.hasChunks key = false := by
      intro key hkey hnone
      exact hkeeps _ hadd key (List.mem_append.mpr hkey) (Option.isNone_iff_eq_none.mpr hnone)
    have hadded : Accounts (addBlockDataRootsToDiskPool report.addedDataRoots now s.pool) :=
      h.foldl_update (f := fun t v => match v with
        | none => ⟨0, t, none⟩
        | some value => { value with txids := none }) (fun _ => rfl) (fun _ _ => rfl) fun key hkey => hfresh key (Or.inl hkey)
    exact hadded.foldl_update (f := fun t v => match v with
      | none => ⟨0, t, none⟩
      | some value => { value with timestamp := t }) (fun _ => rfl) (fun _ _ => rfl) fun key hkey hnone =>
        hfresh key (Or.inr hkey) (lookup_of_foldl_update (f := fun t v => match v with
          | none => ⟨0, t, none⟩
          | some value => { value with txids := none }) hnone)
  | removeExpired now =>
    cases hstep
    exact h.removeExpired
  | scan key migrated concludes =>
    cases hstep
    exact h.scanDiskPoolItem

/-- From the counters that are computed on start, in every state of a run that keeps the sizes of data
roots with chunks, the counters are the sums over the chunks, which are computed on a start again. -/
theorem counters_match_recalculation (cfg : PoolConfig) (tree : TxTree) (sync : State H) (pool : DiskPool)
    (ops : List (PoolOp H)) (s : PoolState H)
    (hkeeps : Along (PoolState.step cfg tree) (KeepsSizes cfg tree) ⟨sync, recalculateDiskPoolSize pool⟩ ops)
    (hrun : ops.foldlM (PoolState.step cfg tree) ⟨sync, recalculateDiskPoolSize pool⟩ = some s) :
    s.pool.size = s.pool.total ∧ s.pool.size = (recalculateDiskPoolSize s.pool).size ∧
      ∀ key value, s.pool.dataRoots.lookup key = some value →
        value.size = s.pool.totalOf key ∧ 0 ≤ value.size ∧
          ((recalculateDiskPoolSize s.pool).dataRoots.lookup key).map DataRootValue.size = some value.size := by
  have haccounts : Accounts s.pool :=
    foldlM_invariant (P := fun s => Accounts s.pool) accounts_recalculate
      (fun s op s' _ h hop hstep => h.step hop hstep) hkeeps hrun
  obtain ⟨hsize, hroots⟩ := recalculateDiskPoolSize_spec s.pool
  refine ⟨haccounts.size_eq, haccounts.size_eq.trans hsize.symm, fun key value hlookup => ?_⟩
  have hvalue := haccounts.dataRoots_eq key value hlookup
  refine ⟨hvalue, hvalue ▸ totalOf_nonneg, ?_⟩
  rw [hroots, hlookup, hvalue]
  rfl

end Runs

/-- Data of two chunks: the identifiers of the leaves and of the root. -/
def sampleLeft : Bytes := Merkle.leafHash Sha2.sha256 (Sha2.sha256 [1, 2, 3, 4]) 4

def sampleRight : Bytes := Merkle.leafHash Sha2.sha256 (Sha2.sha256 [5, 6, 7, 8, 9, 10]) 10

def sampleRoot : Bytes := Merkle.nodeHash Sha2.sha256 sampleLeft sampleRight 4

def sampleUpload1 : Upload :=
  ⟨sampleRoot, Merkle.shallowPath sampleLeft sampleRight 4 (Sha2.sha256 [1, 2, 3, 4]) 4, [1, 2, 3, 4], 0, 10⟩

def sampleUpload2 : Upload :=
  ⟨sampleRoot, Merkle.shallowPath sampleLeft sampleRight 4 (Sha2.sha256 [5, 6, 7, 8, 9, 10]) 10, [5, 6, 7, 8, 9, 10], 4, 10⟩

/-- A chain in which every block has the data again. -/
def uploadWeave : Weave (Fin 12) where
  parent x := if x = 0 then none else some (x - 1)
  height x := x.val
  height_eq := by decide
  txs x := if x = 0 then [] else [⟨some [UInt8.ofNat x.val], sampleRoot, 10⟩]
  weaveSize x := 10 * x.val
  weave_eq := by decide
  size_le := by decide
  ordered x := by
    by_cases hx : x = 0
    · simp [hx, Ordered]
    · simp [hx, Ordered]
  weave_lt := by decide
  roots x t ht := by
    split_ifs at ht
    · cases ht
    · cases List.mem_singleton.mp ht
      exact (Merkle.length_nodeHash Sha2.sha256 sampleLeft sampleRight 4).le
  ids := by decide

def samplePoolConfig : PoolConfig where
  maxDiskPoolDataRootBufferMb := 1
  maxDiskPoolBufferMb := 10
  diskPoolDataRootExpirationTime := 3600
  sha256 := Sha2.sha256

def uploadServer : Server (Fin 12) :=
  let t : Tip (Fin 12) := ⟨0, 1, 1⟩
  ⟨t, [], ⟨{}, 0, t.blockIndex uploadWeave sampleTree⟩⟩

/-- The message with the first block of the chain. -/
def sampleTipOp : PoolOp (Fin 12) :=
  .addTipBlock (Tip.blockTxPairs uploadWeave ⟨1, 2, 2⟩) (Tip.blockIndex uploadWeave sampleTree ⟨1, 2, 2⟩) 5 5

theorem counters_match_recalculation_sample :
    ∃ s, [sampleTipOp, .addChunk sampleUpload1 (fun _ => false) 6 6,
        .scan (timedKey 5 (Sha2.sha256 sampleUpload1.dataPath)) true true].foldlM
        (PoolState.step samplePoolConfig sampleTree) ⟨uploadServer.state, recalculateDiskPoolSize {}⟩ = some s ∧
      s.pool.size = s.pool.total ∧ s.pool.size = (recalculateDiskPoolSize s.pool).size ∧
      ∀ key value, s.pool.dataRoots.lookup key = some value →
        value.size = s.pool.totalOf key ∧ 0 ≤ value.size ∧
          ((recalculateDiskPoolSize s.pool).dataRoots.lookup key).map DataRootValue.size = some value.size := by
  have hsome : ([sampleTipOp, .addChunk sampleUpload1 (fun _ => false) 6 6,
      .scan (timedKey 5 (Sha2.sha256 sampleUpload1.dataPath)) true true].foldlM
      (PoolState.step samplePoolConfig sampleTree) ⟨uploadServer.state, recalculateDiskPoolSize {}⟩).isSome = true := by
    decide +kernel
  obtain ⟨s, hs⟩ := Option.isSome_iff_exists.mp hsome
  exact ⟨s, hs, counters_match_recalculation samplePoolConfig sampleTree uploadServer.state {} _ s
    (along_of_checkAlong (c := fun s op => decide (KeepsSizes samplePoolConfig sampleTree s op))
      (fun _ _ h => of_decide_eq_true h) (by decide +kernel)) hs⟩

/-- Two chunks of a confirmed data root: the second one sets the size of the data root to its own. -/
theorem second_chunk_resets_size :
    ([sampleTipOp, .addChunk sampleUpload1 (fun _ => false) 6 6, .addChunk sampleUpload2 (fun _ => false) 7 7].foldlM
      (PoolState.step samplePoolConfig sampleTree) ⟨uploadServer.state, recalculateDiskPoolSize {}⟩).any (fun s =>
        (s.pool.dataRoots.lookup (dataRootKey sampleRoot 10)).any fun value =>
          decide (value.size = 6 ∧ s.pool.totalOf (dataRootKey sampleRoot 10) = 10)) = true := by
  decide +kernel

end Arweave.DataSync

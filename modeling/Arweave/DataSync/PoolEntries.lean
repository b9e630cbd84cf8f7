import Arweave.DataSync.PoolScan

/-!
# The entries of disk pool chunks

An entry of the default index that is recorded leads to data that is stored, as long as the removal of a
chunk finds all its entries. It goes over the last ten offsets of the data root only, and an entry that was
written when its offset was one of them may be older by then.
-/

namespace Arweave.DataSync

open Lib Intervals

section Conditions

variable {H : Type} (s : PoolServer H)

/-- The entries that are recorded have their data. -/
def NoDangling : Prop :=
  ∀ (o : Nat) (e : ChunkEntry), s.chunksIndex.lookup (offsetKey o) = some e → isInside s.recorded o = true →
    (s.pool.chunkData.lookup e.chunkDataKey).isSome = true

/-- Neither stored data nor a message has the key. -/
def IsFresh (chunkDataKey : Bytes) : Prop :=
  s.pool.chunkData.lookup chunkDataKey = none ∧ ∀ args ∈ s.messages, args.chunk.chunkDataKey ≠ chunkDataKey

/-- The message writes an entry. -/
def Writes (f : OffsetFindings) (args : OffsetsArgs) : Prop :=
  ∃ r ∈ dataRootIndexNextV2 s.sync.indices.dataRootIndex args.iterator 10,
    passedValidation f.merkleRebaseThreshold (r.1.1 + args.chunk.endOffset) args.chunk = true ∧
      s.diskPoolThreshold < r.1.1 + args.chunk.endOffset ∧
      isInside s.recorded (r.1.1 + args.chunk.endOffset : Nat) = false ∧ f.isByteBlacklisted = false

/-- The message removes the chunk. -/
def Concludes (args : OffsetsArgs) : Prop :=
  dataRootIndexNextV2 s.sync.indices.dataRootIndex args.iterator 10 = none ∧ args.mayConclude = true

/-- The offsets with an entry of the chunk are among the last ten from the start of the iterator on. -/
def InReach (args : OffsetsArgs) : Prop :=
  ∀ o ∈ offsetsOf s.sync.indices.dataRootIndex args.chunk.dataRootKey,
    (∃ e ∈ s.chunksIndex.lookup (offsetKey (o + args.chunk.endOffset : Nat)),
      e.chunkDataKey = args.chunk.chunkDataKey) →
    o < args.iterator.latestTxStartOffset ∧
      ((offsetsOf s.sync.indices.dataRootIndex args.chunk.dataRootKey).filter fun a =>
        o < a ∧ a < args.iterator.latestTxStartOffset).length < 10

/-- The uploads that are accepted have new keys, entries are written while the data is stored, and a chunk is
removed when its entries are in reach. -/
def KeepsEntries (cfg : PoolConfig) : ServerOp H → Prop
  | .addChunk u recorded now now2 => acceptsChunk cfg s.sync.indices.dataRootIndex recorded now u s.pool = true →
    IsFresh s (timedKey now2 (cfg.sha256 u.dataPath))
  | .processOffsets i f => ∀ args ∈ s.messages[i]?,
    (Writes s f args → (s.pool.chunkData.lookup args.chunk.chunkDataKey).isSome = true) ∧
      (Concludes s args → InReach s args)
  | _ => True

/-- The size of the data of an upload fits into a key, and the tips follow the chain. -/
def Promised [DecidableEq H] (W : Weave H) (tree : TxTree) : ServerOp H → Prop
  | .addChunk u _ _ _ => u.txSize < 2 ^ 256
  | .addTipBlock blockTxPairs bi _ _ => ∃ t : Tip H, blockTxPairs = t.blockTxPairs W ∧ bi = t.blockIndex W tree ∧
    Shares s.sync.blockIndex blockTxPairs
  | _ => True

end Conditions

section Offsets

variable {H : Type} {W : Weave H} {tree : TxTree} {B : H → Prop} {I : Indices} {key : Bytes} {o : Nat}

/-- The size in a key of a data root. -/
def sizeOf (dataRootKey : Bytes) : Nat := Bytes.toNat (dataRootKey.drop 32)

lemma sizeOf_dataRootKey {root : Bytes} {size : Nat} (hroot : root.length = 32) (hsize : size < 2 ^ 256) :
    (dataRootKey root size).length = 64 ∧ sizeOf (dataRootKey root size) = size := by
  rw [sizeOf, dataRootKey, List.take_of_length_le hroot.le]
  constructor
  · rw [List.length_append, hroot, length_offsetKey]
  · rw [List.drop_append_of_le_length hroot.ge, List.drop_of_length_le hroot.le, List.nil_append, toNat_offsetKey hsize]

lemma hasOffset_iff (hI : Describes W tree B I) (hkey : key.length = 64) :
    HasOffset I.dataRootIndex key o ↔ ∃ x, B x ∧ ∃ p ∈ rootPieces (W.txs x),
      dataRootKey p.label (p.stop - p.start) = key ∧ o = W.start x + p.start := by
  constructor
  · rintro ⟨hlt, v, hv⟩
    obtain ⟨x, hx, p, hp, heq, -⟩ := (hI.dataRoot _ v).mp hv
    have hspec := Weave.piece_spec hp
    have hweave := W.weave_lt x
    obtain ⟨hlen, hoffset⟩ := rootKeys_spec hp (W.start x + p.start)
    obtain ⟨hroot, hstart⟩ := offsetOf_inj hlen hkey (by omega) hlt (hoffset.trans heq)
    exact ⟨x, hx, p, hp, hroot, hstart.symm⟩
  · rintro ⟨x, hx, p, hp, rfl, rfl⟩
    have hspec := Weave.piece_spec hp
    have hweave := W.weave_lt x
    refine ⟨by omega, tree.path (W.txs x) (p.stop - 1), ?_⟩
    rw [(rootKeys_spec hp _).2]
    exact (hI.dataRoot _ _).mpr ⟨x, hx, p, hp, rfl, rfl⟩

lemma hasOffset_of_next {index : SortedMap Bytes Bytes} {it it2 : OffsetIterator} {limit : Nat} {path : Bytes}
    (hkeyed : Keyed index) (hkey : it.dataRootKey.length = 64) (hcursor : it.txStartOffset ≤ 2 ^ 256)
    (h : dataRootIndexNextV2 index it limit = some ((o, path), it2)) :
    HasOffset index it.dataRootKey o ∧ it2.dataRootKey = it.dataRootKey ∧ it2.txStartOffset < it.txStartOffset ∧
      it2.latestTxStartOffset = it.latestTxStartOffset := by
  unfold dataRootIndexNextV2 at h
  split_ifs at h with hcount hzero
  obtain ⟨r, hprev, h⟩ := Option.map_eq_some_iff.mp h
  have hlast := isLast_prevOffset hkeyed hkey (Nat.pos_of_ne_zero hzero) hcursor
  rw [hprev] at hlast
  obtain ⟨hlt, ho, -⟩ := hlast
  cases h
  exact ⟨ho, rfl, hlt, rfl⟩

end Offsets

section Deletion

variable {index : SortedMap Bytes Bytes} {c : DiskPoolChunk} {n : Nat} {it : OffsetIterator}
  {acc acc' : SortedMap Bytes ChunkEntry × IntervalSet}

/-- The entries that are left are not those of the chunk at the offsets that are visited. -/
lemma deleteChunkEntries_spec (h : deleteChunkEntries index c n it acc = some acc') (k : Bytes) (e : ChunkEntry)
    (hk : acc'.1.lookup k = some e) :
    acc.1.lookup k = some e ∧ (e.chunkDataKey = c.chunkDataKey → ∀ o ∈ iterate index 10 n it,
      k ≠ offsetKey (o + c.endOffset : Nat)) := by
  induction n generalizing it acc with
  | zero =>
    cases h
    exact ⟨hk, fun _ o ho => absurd ho List.not_mem_nil⟩
  | succ n ih =>
    rw [deleteChunkEntries] at h
    rw [iterate]
    cases hnext : dataRootIndexNextV2 index it 10 with
    | none =>
      rw [hnext] at h
      cases h
      exact ⟨hk, fun _ o ho => absurd ho List.not_mem_nil⟩
    | some r =>
      obtain ⟨⟨o1, path⟩, it2⟩ := r
      rw [hnext] at h
      dsimp only at h ⊢
      cases hentry : acc.1.lookup (offsetKey (o1 + c.endOffset : Nat)) with
      | none =>
        rw [hentry] at h
        obtain ⟨hold, hvisited⟩ := ih h
        refine ⟨hold, fun hkey o ho => ?_⟩
        obtain rfl | ho := List.mem_cons.mp ho
        · intro heq
          rw [heq, hentry] at hold
          cases hold
        · exact hvisited hkey o ho
      | some e1 =>
        rw [hentry] at h
        dsimp only at h
        split_ifs at h with hsame
        · obtain ⟨recorded, -, h⟩ := Option.bind_eq_some_iff.mp h
          obtain ⟨hold, hvisited⟩ := ih h
          dsimp only at hold
          rw [SortedMap.lookup_erase] at hold
          split_ifs at hold with hne
          refine ⟨hold, fun hkey o ho => ?_⟩
          obtain rfl | ho := List.mem_cons.mp ho
          · exact hne
          · exact hvisited hkey o ho
        · obtain ⟨hold, hvisited⟩ := ih h
          refine ⟨hold, fun hkey o ho => ?_⟩
          obtain rfl | ho := List.mem_cons.mp ho
          · intro heq
            rw [heq, hentry] at hold
            cases hold
            exact hsame hkey
          · exact hvisited hkey o ho

end Deletion

section Invariant

variable {H : Type} {W : Weave H} {tree : TxTree} {r : Server H} {s s' : PoolServer H} {key : Bytes}
  {c : DiskPoolChunk} {args : OffsetsArgs} {f : OffsetFindings} {sha256 : Digest 32}

/-- The pool has the chunk under the key, or a message does. -/
def Knows (s : PoolServer H) (key : Bytes) (c : DiskPoolChunk) : Prop :=
  s.pool.chunksIndex.lookup key = some c ∨ ∃ args ∈ s.messages, args.key = key ∧ args.chunk = c

/-- The key of an entry is that of the chunk at an offset of its data root. -/
def Placed (index : SortedMap Bytes Bytes) (k : Bytes) (c : DiskPoolChunk) : Prop :=
  ∃ o, HasOffset index c.dataRootKey o ∧ k = offsetKey (o + c.endOffset : Nat)

/-- The bounds of a chunk in its data. -/
def DiskPoolChunk.Fits (c : DiskPoolChunk) : Prop :=
  c.dataRootKey.length = 64 ∧ 0 < c.endOffset ∧ c.endOffset ≤ sizeOf c.dataRootKey

/-- The iterator of a message is at offsets of the data root of its chunk. -/
def OffsetsArgs.Fits (args : OffsetsArgs) : Prop :=
  args.iterator.dataRootKey = args.chunk.dataRootKey ∧ args.iterator.txStartOffset ≤ 2 ^ 256 ∧
    args.iterator.latestTxStartOffset ≤ 2 ^ 256

/-- A key of data belongs to one chunk, the chunks of the pool have their data, and the entries have theirs
and are where their chunks are. -/
structure PoolServer.Good (W : Weave H) (tree : TxTree) (r : Server H) (s : PoolServer H) : Prop where
  sync : r.state = s.sync
  server : r.Good W tree
  fits : ∀ key c, Knows s key c → c.Fits
  unique : ∀ key c key' c', Knows s key c → Knows s key' c' → c.chunkDataKey = c'.chunkDataKey → key = key' ∧ c = c'
  stored : ∀ key c, s.pool.chunksIndex.lookup key = some c → (s.pool.chunkData.lookup c.chunkDataKey).isSome = true
  messages : ∀ args ∈ s.messages, args.Fits
  entries : ∀ k e, s.chunksIndex.lookup k = some e → (s.pool.chunkData.lookup e.chunkDataKey).isSome = true ∧
    ∀ key c, Knows s key c → c.chunkDataKey = e.chunkDataKey → Placed s.sync.indices.dataRootIndex k c

lemma PoolServer.Good.noDangling (h : s.Good W tree r) : NoDangling s :=
  fun _ e he _ => (h.entries _ e he).1

lemma PoolServer.Good.keyed (h : s.Good W tree r) : Keyed s.sync.indices.dataRootIndex := by
  rw [← h.sync]
  exact h.server.describes.keyed

lemma knows_of_mem (hargs : args ∈ s.messages) : Knows s args.key args.chunk := .inr ⟨args, hargs, rfl, rfl⟩

lemma PoolServer.Good.mono (h : s.Good W tree r) (hsync : s'.sync = s.sync)
    (hpool : ∀ key c, s'.pool.chunksIndex.lookup key = some c → s.pool.chunksIndex.lookup key = some c ∧
      (s'.pool.chunkData.lookup c.chunkDataKey).isSome = true)
    (hmessages : ∀ args ∈ s'.messages, args.Fits ∧ Knows s args.key args.chunk)
    (hentries : ∀ k e, s'.chunksIndex.lookup k = some e → (s'.pool.chunkData.lookup e.chunkDataKey).isSome = true ∧
      (s.chunksIndex.lookup k = some e ∨
        ∀ key c, Knows s key c → c.chunkDataKey = e.chunkDataKey → Placed s.sync.indices.dataRootIndex k c)) :
    s'.Good W tree r := by
  have hknows : ∀ key c, Knows s' key c → Knows s key c := by
    rintro key c (hc | ⟨args, hargs, rfl, rfl⟩)
    · exact .inl (hpool key c hc).1
    · exact (hmessages args hargs).2
  constructor
  · rw [h.sync, hsync]
  · exact h.server
  · exact fun key c hc => h.fits key c (hknows key c hc)
  · exact fun key c key' c' hc hc' => h.unique key c key' c' (hknows key c hc) (hknows key' c' hc')
  · exact fun key c hc => (hpool key c hc).2
  · exact fun args hargs => (hmessages args hargs).1
  · intro k e he
    obtain ⟨hdata, hplaced⟩ := hentries k e he
    refine ⟨hdata, fun key c hc heq => ?_⟩
    rw [hsync]
    obtain hold | hplaced := hplaced
    · exact (h.entries k e hold).2 key c (hknows key c hc) heq
    · exact hplaced key c (hknows key c hc) heq

lemma PoolServer.Good.remove (h : s.Good W tree r) (hsync : s'.sync = s.sync) (hc : Knows s key c)
    (hpool : s'.pool = removeDiskPoolChunk key c s.pool) (hmessages : ∀ args ∈ s'.messages, args ∈ s.messages)
    (hentries : ∀ k e, s'.chunksIndex.lookup k = some e → s.chunksIndex.lookup k = some e ∧
      e.chunkDataKey ≠ c.chunkDataKey) : s'.Good W tree r := by
  have hdata : ∀ k, k ≠ c.chunkDataKey → s'.pool.chunkData.lookup k = s.pool.chunkData.lookup k := by
    intro k hne
    rw [hpool]
    change (s.pool.chunkData.erase c.chunkDataKey).lookup k = _
    rw [SortedMap.lookup_erase, if_neg hne]
  apply h.mono hsync
  · intro key' c' hc'
    rw [hpool] at hc'
    change (s.pool.chunksIndex.erase key).lookup key' = some c' at hc'
    rw [SortedMap.lookup_erase] at hc'
    split_ifs at hc' with hne
    have hother : c'.chunkDataKey ≠ c.chunkDataKey := fun heq => hne (h.unique key' c' key c (.inl hc') hc heq).1
    rw [hdata _ hother]
    exact ⟨hc', h.stored key' c' hc'⟩
  · exact fun args hargs => ⟨h.messages args (hmessages args hargs), knows_of_mem (hmessages args hargs)⟩
  · intro k e he
    obtain ⟨hold, hne⟩ := hentries k e he
    rw [hdata _ hne]
    exact ⟨(h.entries k e hold).1, .inl hold⟩

lemma PoolServer.Good.withPool {pool : DiskPool} (h : s.Good W tree r) (hindex : pool.chunksIndex = s.pool.chunksIndex)
    (hdata : pool.chunkData = s.pool.chunkData) : PoolServer.Good W tree r { s with pool := pool } := by
  refine h.mono ?_ ?_ ?_ ?_
  · rfl
  · intro key c hc
    change pool.chunksIndex.lookup key = some c at hc
    change _ ∧ (pool.chunkData.lookup c.chunkDataKey).isSome = true
    rw [hindex] at hc
    rw [hdata]
    exact ⟨hc, h.stored key c hc⟩
  · exact fun args hargs => ⟨h.messages args hargs, knows_of_mem hargs⟩
  · intro k e he
    change (pool.chunkData.lookup e.chunkDataKey).isSome = true ∧ _
    rw [hdata]
    exact ⟨(h.entries k e he).1, .inl he⟩

lemma addDataRootToDiskPool_chunks {dataRoot txid : Bytes} {txSize now : Nat} {pool : DiskPool} :
    (addDataRootToDiskPool dataRoot txSize txid now pool).chunksIndex = pool.chunksIndex ∧
      (addDataRootToDiskPool dataRoot txSize txid now pool).chunkData = pool.chunkData := by
  unfold addDataRootToDiskPool
  split_ifs
  · exact ⟨rfl, rfl⟩
  · dsimp only
    split <;> exact ⟨rfl, rfl⟩

lemma maybeDropDataRootFromDiskPool_chunks {dataRoot txid : Bytes} {txSize : Nat} {pool : DiskPool} :
    (maybeDropDataRootFromDiskPool dataRoot txSize txid pool).chunksIndex = pool.chunksIndex ∧
      (maybeDropDataRootFromDiskPool dataRoot txSize txid pool).chunkData = pool.chunkData := by
  unfold maybeDropDataRootFromDiskPool
  split_ifs
  · exact ⟨rfl, rfl⟩
  · dsimp only
    split
    · exact ⟨rfl, rfl⟩
    · exact ⟨rfl, rfl⟩
    · split_ifs <;> exact ⟨rfl, rfl⟩

/-- An upload with a new key brings its chunk. -/
lemma PoolServer.Good.addChunk {cfg : PoolConfig} {recorded : Nat → Bool} {now now2 : Nat} {u : Upload} {pool : DiskPool}
    {reply : Except AddChunkError Unit} (h : s.Good W tree r) (hsize : u.txSize < 2 ^ 256)
    (hfresh : acceptsChunk cfg s.sync.indices.dataRootIndex recorded now u s.pool = true →
      IsFresh s (timedKey now2 (cfg.sha256 u.dataPath)))
    (hadd : addChunk cfg s.sync.indices.dataRootIndex recorded now now2 u s.pool = some (pool, reply)) :
    PoolServer.Good W tree r { s with pool := pool } := by
  obtain rfl | ⟨haccepts, value, k, c, -, -, -, hroot, hdataKey, ⟨hlen, hpos, hle⟩, rfl⟩ := addChunk_cases hadd
  · exact h.withPool rfl rfl
  replace hfresh := hfresh haccepts
  obtain ⟨hkey, hsizeOf⟩ := sizeOf_dataRootKey hlen hsize
  rw [← hdataKey] at hfresh
  -- a chunk with another key of its data
  have hother : ∀ key c', Knows s key c' → c'.chunkDataKey ≠ c.chunkDataKey := by
    rintro key c' (hc' | ⟨args, hargs, rfl, rfl⟩) heq
    · have hdata := h.stored key c' hc'
      rw [heq, hfresh.1] at hdata
      cases hdata
    · exact hfresh.2 args hargs heq
  have hknows : ∀ key c', Knows { s with pool := ⟨s.pool.dataRoots.insert (dataRootKey u.dataRoot u.txSize) value,
      s.pool.chunksIndex.insert k c, s.pool.chunkData.insert c.chunkDataKey (u.chunk, u.dataPath),
      s.pool.size + u.chunk.length⟩ } key c' → key = k ∧ c' = c ∨ Knows s key c' := by
    rintro key c' (hc' | hmessage)
    · change (s.pool.chunksIndex.insert k c).lookup key = some c' at hc'
      rw [SortedMap.lookup_insert] at hc'
      split_ifs at hc' with heq
      · exact .inl ⟨heq, (Option.some.inj hc').symm⟩
      · exact .inr (.inl hc')
    · exact .inr (.inr hmessage)
  have hdata : ∀ k', (s.pool.chunkData.lookup k').isSome = true →
      ((s.pool.chunkData.insert c.chunkDataKey (u.chunk, u.dataPath)).lookup k').isSome = true := by
    intro k' hk'
    rw [SortedMap.lookup_insert]
    split_ifs
    · rfl
    · exact hk'
  constructor
  · exact h.sync
  · exact h.server
  · intro key c' hc'
    obtain ⟨-, rfl⟩ | hc' := hknows key c' hc'
    · rw [DiskPoolChunk.Fits, hroot, hsizeOf]
      exact ⟨hkey, hpos, hle⟩
    · exact h.fits key c' hc'
  · intro key1 c1 key2 c2 h1 h2 heq
    obtain ⟨hkey1, hc1⟩ | hold1 := hknows key1 c1 h1
    · obtain ⟨hkey2, hc2⟩ | hold2 := hknows key2 c2 h2
      · exact ⟨hkey1.trans hkey2.symm, hc1.trans hc2.symm⟩
      · exact absurd (heq.symm.trans (congrArg DiskPoolChunk.chunkDataKey hc1)) (hother key2 c2 hold2)
    · obtain ⟨hkey2, hc2⟩ | hold2 := hknows key2 c2 h2
      · exact absurd (heq.trans (congrArg DiskPoolChunk.chunkDataKey hc2)) (hother key1 c1 hold1)
      · exact h.unique key1 c1 key2 c2 hold1 hold2 heq
  · intro key c' hc'
    change ((s.pool.chunkData.insert c.chunkDataKey (u.chunk, u.dataPath)).lookup c'.chunkDataKey).isSome = true
    change (s.pool.chunksIndex.insert k c).lookup key = some c' at hc'
    rw [SortedMap.lookup_insert] at hc'
    split_ifs at hc' with heq
    · cases hc'
      rw [SortedMap.lookup_insert, if_pos rfl]
      rfl
    · exact hdata _ (h.stored key c' hc')
  · exact h.messages
  · intro k' e he
    obtain ⟨hold, hplaced⟩ := h.entries k' e he
    refine ⟨hdata _ hold, fun key c' hc' heq => ?_⟩
    obtain ⟨-, rfl⟩ | hc' := hknows key c' hc'
    · rw [← heq, hfresh.1] at hold
      cases hold
    · exact hplaced key c' hc' heq

/-- The scan passes over a chunk, removes one that is not in a chain, or starts with its offsets. -/
lemma PoolServer.Good.processDiskPoolItem {migrated : Bool} (h : s.Good W tree r) :
    (processDiskPoolItem migrated key s).Good W tree r := by
  unfold DataSync.processDiskPoolItem
  by_cases hprocessed : key ∈ s.currentlyProcessedDiskPoolKeys
  · rwa [if_pos hprocessed]
  rw [if_neg hprocessed]
  cases hc : s.pool.chunksIndex.lookup key with
  | none => exact h
  | some c =>
    obtain ⟨hlen, -⟩ := h.fits key c (.inl hc)
    have hlast := isLast_getDataRootOffset h.keyed hlen
    dsimp only
    cases hoffset : getDataRootOffset s.sync.indices.dataRootIndex c.dataRootKey with
    | none =>
      rw [hoffset] at hlast
      cases s.pool.dataRoots.lookup c.dataRootKey with
      | some value => exact h
      | none =>
        dsimp only
        split_ifs with hmigrated
        · -- without an offset of the data root there is no entry
          refine h.remove rfl (.inl hc) rfl (fun args hargs => hargs) fun k e he => ⟨he, fun heq => ?_⟩
          obtain ⟨o, ho, -⟩ := (h.entries k e he).2 key c (.inl hc) heq.symm
          exact hlast o trivial ho
        · exact h
    | some offset =>
      obtain ⟨o, path⟩ := offset
      rw [hoffset] at hlast
      obtain ⟨-, ⟨hlt, -⟩, -⟩ := hlast
      dsimp only
      refine h.mono ?_ ?_ ?_ ?_
      · rfl
      · exact fun key c hc => ⟨hc, h.stored key c hc⟩
      · intro args hargs
        obtain hargs | hargs := List.mem_append.mp hargs
        · exact ⟨h.messages args hargs, knows_of_mem hargs⟩
        · obtain rfl := List.mem_singleton.mp hargs
          exact ⟨⟨rfl, Nat.succ_le_of_lt hlt, Nat.succ_le_of_lt hlt⟩, .inl hc⟩
      · exact fun k e he => ⟨(h.entries k e he).1, .inl he⟩

lemma PoolServer.Good.placed {t : Tip H} {blocks : List H} {st : State H} {z : H} {k : Bytes}
    (hroom : ∀ x, W.weaveSize x + 1 < 2 ^ 256) (h : s.Good W tree r)
    (hnew : Server.Good W tree ⟨t, r.seen ++ blocks, st⟩) (hz : z ∈ W.path r.last.tip)
    (hcommon : ∀ x ∈ W.path z, x ∈ W.path t.tip) (hc : c.Fits)
    (hk : ¬(offsetKey (W.weaveSize z + 1 : Nat) ≤ k ∧ k < offsetKey (W.weaveSize r.last.tip + 1 : Nat)))
    (hplaced : Placed s.sync.indices.dataRootIndex k c) : Placed st.indices.dataRootIndex k c := by
  obtain ⟨hlen, hpos, hle⟩ := hc
  obtain ⟨o, ho, heq⟩ := hplaced
  rw [← h.sync] at ho
  obtain ⟨x, ⟨hseen, hpath⟩, p, hp, hkey, hstart⟩ := (hasOffset_iff h.server.describes hlen).mp ho
  have hspec := Weave.piece_spec hp
  have hbelow := Weave.weaveSize_le hpath
  have hlast := hroom r.last.tip
  have hcut := hroom z
  rw [← hkey, (sizeOf_dataRootKey (length_label hp) (by omega)).2] at hle
  have hin : x ∈ W.path t.tip := by
    by_cases hx : x ∈ W.path z
    · exact hcommon x hx
    · have habove := Weave.weaveSize_le_start_of_notMem hz hpath hx
      rw [heq, hstart] at hk
      refine absurd ⟨?_, ?_⟩ hk
      · rw [offsetKey_le_iff hcut (by omega)]
        omega
      · rw [offsetKey_lt_iff (by omega) hlast]
        omega
  exact ⟨o, (hasOffset_iff hnew.describes hlen).mpr
    ⟨x, ⟨List.mem_append_left _ hseen, hin⟩, p, hp, hkey, hstart⟩, heq⟩

lemma PoolServer.Good.addTipBlock [DecidableEq H] {cfg : PoolConfig} {t : Tip H} {now now2 : Nat}
    (hroom : ∀ x, W.weaveSize x + 1 < 2 ^ 256) (h : s.Good W tree r)
    (hshares : Shares s.sync.blockIndex (t.blockTxPairs W))
    (hstep : s.step cfg tree (.addTipBlock (t.blockTxPairs W) (t.blockIndex W tree) now now2) = some s') :
    ∃ r', s'.Good W tree r' := by
  have hacc : r.Accepts W t := by rwa [Server.Accepts, h.sync]
  obtain ⟨st, report, hadd, hnew, -⟩ := addTipBlock_spec h.server hacc
  rw [Server.Accepts, h.server.blockIndex_eq] at hacc
  obtain ⟨z, above, hz, hpath, -, hpick⟩ := pickMissingBlocks_spec hacc
  rw [← h.server.blockIndex_eq, h.sync] at hpick
  rw [h.sync] at hadd
  have hweave : s.sync.weaveSize = W.weaveSize r.last.tip := by rw [← h.sync, h.server.weaveSize_eq]
  have hcommon : ∀ x ∈ W.path z, x ∈ W.path t.tip := by
    intro x hx
    rw [hpath]
    exact List.mem_append_right _ hx
  rw [PoolServer.step, hpick, PoolServer.poolStep, PoolState.step, hadd] at hstep
  cases hstep
  refine ⟨⟨t, r.seen ++ report.blocks, st⟩, rfl, hnew, h.fits, h.unique, h.stored, h.messages, fun k e he => ?_⟩
  change (removeChunksIndexRange (W.weaveSize z) s.sync.weaveSize s.chunksIndex).lookup k = some e at he
  rw [removeChunksIndexRange, SortedMap.lookup_deleteRange, hweave] at he
  obtain ⟨hold, hplaced⟩ := h.entries k e he.1
  exact ⟨hold, fun key c hc heq => h.placed hroom hnew hz hcommon (h.fits key c hc) he.2 (hplaced key c hc heq)⟩

/-- The server has sent the message on, or it has dropped it. -/
def SentOn (args : OffsetsArgs) (s s' : PoolServer H) : Prop :=
  s'.sync = s.sync ∧ s'.pool = s.pool ∧
    (s'.messages = s.messages ∨ ∃ mayConclude, s'.messages = s.messages ++ [{ args with mayConclude := mayConclude }])

lemma sentOn_cast {mayConclude : Bool} (hsync : s'.sync = s.sync) (hpool : s'.pool = s.pool)
    (hmessages : s'.messages = s.messages) : SentOn args s (s'.cast { args with mayConclude := mayConclude }) := by
  refine ⟨hsync, hpool, .inr ⟨mayConclude, ?_⟩⟩
  rw [PoolServer.cast, hmessages]

lemma processDiskPoolMaturedChunkOffset_spec {o : Nat} :
    SentOn args s (processDiskPoolMaturedChunkOffset f o args s) ∧
      (processDiskPoolMaturedChunkOffset f o args s).chunksIndex = s.chunksIndex := by
  unfold processDiskPoolMaturedChunkOffset
  dsimp only
  by_cases hmodule : f.hasStorageModule = false
  · rw [if_pos hmodule]
    exact ⟨sentOn_cast rfl rfl rfl, rfl⟩
  rw [if_neg hmodule]
  by_cases hskip : f.isByteBlacklisted = true ∨ f.isSynced = true
  · rw [if_pos hskip]
    exact ⟨sentOn_cast rfl rfl rfl, rfl⟩
  rw [if_neg hskip]
  by_cases hbusy : toLex (o, args.chunk.chunkDataKey) ∈ s.recentlyProcessedDiskPoolOffsets ∨ f.isChunkCacheFull = true
  · rw [if_pos hbusy]
    exact ⟨sentOn_cast rfl rfl rfl, rfl⟩
  rw [if_neg hbusy]
  cases s.pool.chunkData.lookup args.chunk.chunkDataKey with
  | none => exact ⟨sentOn_cast rfl rfl rfl, rfl⟩
  | some data =>
    by_cases hfails : f.readFails = true
    · rw [hfails]
      exact ⟨⟨rfl, rfl, .inl rfl⟩, rfl⟩
    · rw [Bool.not_eq_true] at hfails
      rw [hfails]
      exact ⟨sentOn_cast rfl rfl rfl, rfl⟩

lemma processDiskPoolImmatureChunkOffset_cases {txRoot txPath : Bytes} {o : Nat}
    (h : processDiskPoolImmatureChunkOffset f txRoot txPath o args s = some s') :
    SentOn args s s' ∧ (s'.chunksIndex = s.chunksIndex ∨
      (isInside s.recorded o = false ∧ f.isByteBlacklisted = false) ∧ ∃ e : ChunkEntry,
        e.chunkDataKey = args.chunk.chunkDataKey ∧ s'.chunksIndex = s.chunksIndex.insert (offsetKey o) e) := by
  unfold processDiskPoolImmatureChunkOffset at h
  by_cases hrecorded : isInside s.recorded o = true
  · rw [if_pos hrecorded] at h
    cases h
    exact ⟨sentOn_cast rfl rfl rfl, .inl rfl⟩
  · rw [if_neg hrecorded] at h
    obtain ⟨s2, hupdate, rfl⟩ := Option.map_eq_some_iff.mp h
    unfold updateChunksIndex at hupdate
    by_cases hblacklisted : f.isByteBlacklisted = true
    · rw [if_pos hblacklisted] at hupdate
      cases hupdate
      exact ⟨sentOn_cast rfl rfl rfl, .inl rfl⟩
    · rw [if_neg hblacklisted] at hupdate
      obtain ⟨recorded, -, rfl⟩ := Option.map_eq_some_iff.mp hupdate
      rw [Bool.not_eq_true] at hrecorded hblacklisted
      exact ⟨sentOn_cast rfl rfl rfl, .inr ⟨⟨hrecorded, hblacklisted⟩, _, rfl, rfl⟩⟩

lemma processDiskPoolChunkOffset_cases {txRoot txPath : Bytes} {o : Nat}
    (h : processDiskPoolChunkOffset f txRoot txPath o args s = some s') :
    SentOn args s s' ∧ (s'.chunksIndex = s.chunksIndex ∨
      (passedValidation f.merkleRebaseThreshold o args.chunk = true ∧ s.diskPoolThreshold < o ∧
        isInside s.recorded o = false ∧ f.isByteBlacklisted = false) ∧ ∃ e : ChunkEntry,
        e.chunkDataKey = args.chunk.chunkDataKey ∧ s'.chunksIndex = s.chunksIndex.insert (offsetKey o) e) := by
  unfold processDiskPoolChunkOffset at h
  by_cases hfailed : passedValidation f.merkleRebaseThreshold o args.chunk = false
  · rw [if_pos hfailed] at h
    cases h
    exact ⟨sentOn_cast rfl rfl rfl, .inl rfl⟩
  rw [if_neg hfailed] at h
  rw [Bool.not_eq_false] at hfailed
  by_cases himmature : o > s.diskPoolThreshold
  · rw [if_pos himmature] at h
    obtain ⟨hsent, hsame | ⟨⟨hrecorded, hblacklisted⟩, hentry⟩⟩ := processDiskPoolImmatureChunkOffset_cases h
    · exact ⟨hsent, .inl hsame⟩
    · exact ⟨hsent, .inr ⟨⟨hfailed, himmature, hrecorded, hblacklisted⟩, hentry⟩⟩
  · rw [if_neg himmature] at h
    cases h
    exact ⟨processDiskPoolMaturedChunkOffset_spec.1, .inl processDiskPoolMaturedChunkOffset_spec.2⟩

lemma processDiskPoolChunkOffsets_cases (h : processDiskPoolChunkOffsets sha256 f args s = some s') :
    (Concludes s args ∧ s'.sync = s.sync ∧ s'.pool = removeDiskPoolChunk args.key args.chunk s.pool ∧
        s'.messages = s.messages ∧
        ∃ recorded, deleteChunkEntries s.sync.indices.dataRootIndex args.chunk 10 (dataRootIndexReset args.iterator)
          (s.chunksIndex, s.recorded) = some (s'.chunksIndex, recorded)) ∨
      (s'.sync = s.sync ∧ s'.pool = s.pool ∧ s'.messages = s.messages ∧ s'.chunksIndex = s.chunksIndex) ∨
      ∃ o path it2, dataRootIndexNextV2 s.sync.indices.dataRootIndex args.iterator 10 = some ((o, path), it2) ∧
        SentOn { args with iterator := it2 } s s' ∧ (s'.chunksIndex = s.chunksIndex ∨ Writes s f args ∧ ∃ e : ChunkEntry,
          e.chunkDataKey = args.chunk.chunkDataKey ∧
            s'.chunksIndex = s.chunksIndex.insert (offsetKey (o + args.chunk.endOffset : Nat)) e) := by
  unfold processDiskPoolChunkOffsets at h
  cases hnext : dataRootIndexNextV2 s.sync.indices.dataRootIndex args.iterator 10 with
  | none =>
    rw [hnext] at h
    dsimp only at h
    by_cases hconclude : args.mayConclude = true
    · rw [if_pos hconclude] at h
      obtain ⟨s2, hdelete, rfl⟩ := Option.map_eq_some_iff.mp h
      obtain ⟨⟨chunksIndex, recorded⟩, hentries, rfl⟩ := Option.map_eq_some_iff.mp hdelete
      exact .inl ⟨⟨hnext, hconclude⟩, rfl, rfl, rfl, recorded, hentries⟩
    · rw [if_neg hconclude] at h
      cases h
      exact .inr (.inl ⟨rfl, rfl, rfl, rfl⟩)
  | some r =>
    obtain ⟨⟨o, path⟩, it2⟩ := r
    rw [hnext] at h
    obtain ⟨txRoot, -, h⟩ := Option.bind_eq_some_iff.mp h
    obtain ⟨hsent, hentries⟩ := processDiskPoolChunkOffset_cases h
    refine .inr (.inr ⟨o, path, it2, rfl, hsent, ?_⟩)
    obtain hsame | ⟨hwrites, hentry⟩ := hentries
    · exact .inl hsame
    · exact .inr ⟨⟨((o, path), it2), hnext, hwrites⟩, hentry⟩

lemma PoolServer.Good.fits_sentOn {messages : List OffsetsArgs} {it2 : OffsetIterator} {o : Nat} {path : Bytes}
    (h : s.Good W tree r) (hargs : args ∈ s.messages) (hmessages : ∀ a ∈ messages, a ∈ s.messages)
    (hnext : dataRootIndexNextV2 s.sync.indices.dataRootIndex args.iterator 10 = some ((o, path), it2))
    (hsent : SentOn { args with iterator := it2 } { s with messages := messages } s') :
    ∀ a ∈ s'.messages, a.Fits ∧ Knows s a.key a.chunk := by
  have hold : ∀ a ∈ messages, a.Fits ∧ Knows s a.key a.chunk := fun a ha =>
    ⟨h.messages a (hmessages a ha), knows_of_mem (hmessages a ha)⟩
  obtain ⟨hroot, hcursor, hlatest⟩ := h.messages args hargs
  have hlen := (h.fits args.key args.chunk (knows_of_mem hargs)).1
  rw [← hroot] at hlen
  obtain ⟨-, hkey, hlt, hsame⟩ := hasOffset_of_next h.keyed hlen hcursor hnext
  obtain ⟨-, -, heq | ⟨mayConclude, heq⟩⟩ := hsent
  · rw [heq]
    exact hold
  · rw [heq]
    intro a ha
    obtain ha | ha := List.mem_append.mp ha
    · exact hold a ha
    · rw [List.mem_singleton.mp ha]
      refine ⟨⟨hkey.trans hroot, ?_, ?_⟩, .inr ⟨args, hargs, rfl, rfl⟩⟩
      · exact hlt.le.trans hcursor
      · exact hsame.le.trans hlatest

/-- A message is handled: the chunk has its data when an entry is written, and its entries are in reach when
it is removed. -/
lemma PoolServer.Good.processDiskPoolChunkOffsets {messages : List OffsetsArgs} (h : s.Good W tree r)
    (hargs : args ∈ s.messages) (hmessages : ∀ a ∈ messages, a ∈ s.messages)
    (hwrites : Writes s f args → (s.pool.chunkData.lookup args.chunk.chunkDataKey).isSome = true)
    (hreach : Concludes s args → InReach s args)
    (hstep : processDiskPoolChunkOffsets sha256 f args { s with messages := messages } = some s') :
    s'.Good W tree r := by
  have hknows := knows_of_mem hargs
  obtain ⟨hroot, hcursor, hlatest⟩ := h.messages args hargs
  have hlen := (h.fits args.key args.chunk hknows).1
  have hstored : ∀ k e, s.chunksIndex.lookup k = some e → (s.pool.chunkData.lookup e.chunkDataKey).isSome = true :=
    fun k e he => (h.entries k e he).1
  obtain ⟨hconcludes, hsync, hpool, heq, recorded, hdelete⟩ | ⟨hsync, hpool, heq, hindex⟩ |
    ⟨o, path, it2, hnext, hsent, hentries⟩ := processDiskPoolChunkOffsets_cases hstep
  · refine h.remove hsync hknows hpool (heq ▸ hmessages) fun k e he => ?_
    obtain ⟨hold, hvisited⟩ := deleteChunkEntries_spec hdelete k e he
    refine ⟨hold, fun hkey => ?_⟩
    obtain ⟨o, ho, hplace⟩ := (h.entries k e hold).2 _ _ hknows hkey.symm
    obtain ⟨hlt, hfew⟩ := hreach hconcludes o (mem_offsetsOf hlen ho) ⟨e, hplace ▸ hold, hkey⟩
    refine hvisited hkey o (mem_iterate h.keyed ?_ hlatest ?_ rfl ?_ hlt) hplace
    · exact hroot ▸ hlen
    · rw [dataRootIndexReset, hroot]
      refine lt_of_le_of_lt ?_ hfew
      refine le_trans (Finset.card_le_card fun a ha => ?_) (List.toFinset_card_le _)
      obtain ⟨hmem, hbetween⟩ := Finset.mem_filter.mp ha
      exact List.mem_toFinset.mpr (List.mem_filter.mpr ⟨List.mem_toFinset.mp hmem, decide_eq_true hbetween⟩)
    · exact hroot ▸ ho
  · refine h.mono hsync ?_ ?_ ?_
    · rw [hpool]
      exact fun key c hc => ⟨hc, h.stored key c hc⟩
    · rw [heq]
      exact fun a ha => ⟨h.messages a (hmessages a ha), knows_of_mem (hmessages a ha)⟩
    · rw [hpool, hindex]
      exact fun k e he => ⟨hstored k e he, .inl he⟩
  · obtain ⟨hsync, hpool, -⟩ := id hsent
    refine h.mono hsync ?_ (h.fits_sentOn hargs hmessages hnext hsent) ?_
    · rw [hpool]
      exact fun key c hc => ⟨hc, h.stored key c hc⟩
    · rw [hpool]
      intro k e he
      obtain hindex | ⟨hwrite, e1, hkey, hindex⟩ := hentries
      · rw [hindex] at he
        exact ⟨hstored k e he, .inl he⟩
      · rw [hindex, SortedMap.lookup_insert] at he
        split_ifs at he with hk
        · -- the new entry is where its chunk is, and no other chunk has its key
          cases he
          refine ⟨hkey ▸ hwrites hwrite, .inr fun key c hc hsame => ?_⟩
          obtain ⟨-, rfl⟩ := h.unique key c args.key args.chunk hc hknows (hsame.trans hkey)
          refine ⟨o, ?_, hk⟩
          rw [← hroot]
          exact (hasOffset_of_next h.keyed (hroot ▸ hlen) hcursor hnext).1
        · exact ⟨hstored k e he, .inl he⟩

end Invariant

section Runs

variable {H : Type} [DecidableEq H] {W : Weave H} {tree : TxTree} {cfg : PoolConfig} {s s' : PoolServer H}
  {op : ServerOp H}

lemma PoolServer.Good.step {r : Server H} (hroom : ∀ x, W.weaveSize x + 1 < 2 ^ 256) (h : s.Good W tree r)
    (hpromised : Promised s W tree op) (hkeeps : KeepsEntries s cfg op) (hstep : s.step cfg tree op = some s') :
    ∃ r', s'.Good W tree r' := by
  cases op with
  | addChunk u recorded now now2 =>
    obtain ⟨st, hpool, rfl⟩ := Option.map_eq_some_iff.mp hstep
    obtain ⟨⟨pool, reply⟩, hadd, hst⟩ := Option.bind_eq_some_iff.mp hpool
    cases hst
    exact ⟨r, h.addChunk hpromised hkeeps hadd⟩
  | addDataRoot dataRoot txSize txid now =>
    cases hstep
    exact ⟨r, h.withPool addDataRootToDiskPool_chunks.1 addDataRootToDiskPool_chunks.2⟩
  | maybeDropDataRoot dataRoot txSize txid =>
    cases hstep
    exact ⟨r, h.withPool maybeDropDataRootFromDiskPool_chunks.1 maybeDropDataRootFromDiskPool_chunks.2⟩
  | addTipBlock blockTxPairs bi now now2 =>
    obtain ⟨t, rfl, rfl, hshares⟩ := hpromised
    exact h.addTipBlock hroom hshares hstep
  | removeExpired now =>
    cases hstep
    exact ⟨r, h.withPool rfl rfl⟩
  | processItem key migrated =>
    cases hstep
    exact ⟨r, h.processDiskPoolItem⟩
  | processOffsets i f =>
    obtain ⟨args, hargs, hprocess⟩ := Option.bind_eq_some_iff.mp hstep
    obtain ⟨hwrites, hreach⟩ := hkeeps args hargs
    exact ⟨r, h.processDiskPoolChunkOffsets (List.mem_of_getElem? hargs) (fun a ha => List.mem_of_mem_eraseIdx ha) hwrites
      hreach hprocess⟩
  | removeRecentlyProcessed offset chunkDataKey =>
    cases hstep
    refine ⟨r, h.mono rfl ?_ ?_ ?_⟩
    · exact fun key c hc => ⟨hc, h.stored key c hc⟩
    · exact fun a ha => ⟨h.messages a ha, knows_of_mem ha⟩
    · exact fun k e he => ⟨(h.entries k e he).1, .inl he⟩

/-- In every state of a run, the entries that are recorded have their data, as long as the uploads get new
keys, an entry is written only while the data of its chunk is stored, and a chunk is removed only when its
entries are in reach. -/
theorem noDangling_of_keepsEntries (W : Weave H) (tree : TxTree) (cfg : PoolConfig) (s0 : Server H)
    (hgood : s0.Good W tree) (hroom : ∀ x, W.weaveSize x + 1 < 2 ^ 256) (ops : List (ServerOp H)) (s : PoolServer H)
    (hpromised : Along (PoolServer.step cfg tree) (fun s op => Promised s W tree op) { sync := s0.state, pool := {} } ops)
    (hkeeps : Along (PoolServer.step cfg tree) (fun s op => KeepsEntries s cfg op) { sync := s0.state, pool := {} } ops)
    (hrun : ops.foldlM (PoolServer.step cfg tree) { sync := s0.state, pool := {} } = some s) : NoDangling s := by
  have hempty : ∀ key c, ¬ Knows ({ sync := s0.state, pool := {} } : PoolServer H) key c := by
    rintro key c (hc | ⟨args, hargs, -⟩)
    · cases hc
    · cases hargs
  have hinit : ∃ r, PoolServer.Good W tree r { sync := s0.state, pool := {} } :=
    ⟨s0, rfl, hgood, fun key c hc => absurd hc (hempty key c), fun key c _ _ hc => absurd hc (hempty key c),
      fun key c hc => absurd (Or.inl hc) (hempty key c), fun args hargs => absurd hargs List.not_mem_nil,
      fun k e he => by cases he⟩
  obtain ⟨r, hr⟩ := foldlM_invariant (P := fun s => ∃ r, PoolServer.Good W tree r s) hinit
    (fun s op s' _ ⟨_, hs⟩ hcond hstep => hs.step hroom hcond.1 hcond.2 hstep) (hpromised.and hkeeps) hrun
  exact hr.noDangling

end Runs

/-- Blocks with the same data, and without data after the first ones. -/
def agedTxs (n : Fin 12) (x : Nat) : List SizeTagged :=
  if x = 0 ∨ n < x then [] else [⟨some (List.replicate x 0), sampleRoot, 10⟩]

lemma blockSize_agedTxs (n : Fin 12) (x : Nat) : blockSize (agedTxs n x) = if x = 0 ∨ n < x then 0 else 10 := by
  unfold agedTxs
  split_ifs <;> rfl

lemma mem_txPieces_agedTxs {n : Fin 12} {x : Nat} {p : Piece} (hp : p ∈ txPieces (agedTxs n x)) :
    p = ⟨List.replicate x 0, 0, 10⟩ := by
  unfold agedTxs at hp
  split_ifs at hp
  · cases hp
  · exact List.mem_singleton.mp hp

/-- A chain with the data in the first blocks after the genesis block. -/
def agedWeave (n : Fin 12) : Weave Nat where
  parent x := if x = 0 then none else some (x - 1)
  height x := x
  height_eq x y h := by
    split_ifs at h
    cases h
    omega
  txs := agedTxs n
  weaveSize x := 10 * min x n
  weave_eq x y h := by
    split_ifs at h
    cases h
    rw [blockSize_agedTxs]
    split_ifs <;> omega
  size_le x := by
    rw [blockSize_agedTxs]
    split_ifs <;> omega
  ordered x := by
    unfold agedTxs
    split_ifs <;> simp [Ordered]
  weave_lt x := by
    have hle : 10 * min x n ≤ 110 := by omega
    exact hle.trans_lt (by norm_num)
  roots x t ht := by
    unfold agedTxs at ht
    split_ifs at ht
    · cases ht
    · cases List.mem_singleton.mp ht
      exact (Merkle.length_nodeHash Sha2.sha256 sampleLeft sampleRight 4).le
  ids tip x _ y _ p hp q hq heq := by
    obtain rfl := mem_txPieces_agedTxs hp
    obtain rfl := mem_txPieces_agedTxs hq
    have hxy := congrArg List.length heq
    rw [List.length_replicate, List.length_replicate] at hxy
    exact ⟨hxy, by rw [hxy]⟩

/-- The tree of a block with one transaction, which has the data. -/
def agedTree : TxTree where
  root txs := if txs = [] then [] else Merkle.leafHash Sha2.sha256 sampleRoot 10
  path _ _ := sampleRoot ++ Merkle.noteToBinary 10

def agedServer (n : Fin 12) : Server Nat :=
  let t : Tip Nat := ⟨0, 1, 1⟩
  ⟨t, [], ⟨{}, 0, t.blockIndex (agedWeave n) agedTree⟩⟩

lemma agedServer_good (n : Fin 12) : (agedServer n).Good (agedWeave n) agedTree :=
  ⟨rfl, rfl, describes_empty fun _ hx => List.not_mem_nil hx.1⟩

lemma agedWeave_room (n : Fin 12) (x : Nat) : (agedWeave n).weaveSize x + 1 < 2 ^ 256 := by
  have hle : 10 * min x n + 1 ≤ 111 := by omega
  exact hle.trans_lt (by norm_num)

/-- The message with all the blocks up to a tip. -/
def agedTipOp (n : Fin 12) (x now : Nat) : ServerOp Nat :=
  let t : Tip Nat := ⟨x, x + 1, x + 1⟩
  .addTipBlock (t.blockTxPairs (agedWeave n)) (t.blockIndex (agedWeave n) agedTree) now now

/-- A chunk is uploaded and gets an entry in the first block. Then the chain grows, the data is scanned again
without a storage module for it, and the chunk is removed. -/
def agedOps (n : Fin 12) : List (ServerOp Nat) :=
  let key := timedKey 5 (Sha2.sha256 sampleUpload1.dataPath)
  [agedTipOp n 1 5, .addChunk sampleUpload1 (fun _ => false) 6 6, .processItem key true, .processOffsets 0 {},
    .processOffsets 0 {}, agedTipOp n 61 7, .processItem key true] ++
    List.replicate (min n.val 10 + 1) (.processOffsets 0 {})

instance decidableWrites (s : PoolServer Nat) (f : OffsetFindings) (args : OffsetsArgs) : Decidable (Writes s f args) :=
  inferInstanceAs (Decidable (∃ r ∈ _, _))

instance decidableKeepsEntries (s : PoolServer Nat) (op : ServerOp Nat) : Decidable (KeepsEntries s samplePoolConfig op) :=
  match op with
  | .addChunk .. => inferInstanceAs (Decidable (_ = true → _ = none ∧ ∀ args ∈ _, _ ≠ _))
  | .processOffsets .. => inferInstanceAs (Decidable (∀ args ∈ _, (_ → _ = true) ∧ (_ ∧ _ = true → ∀ o ∈ _,
      (∃ e ∈ _, _ = _) → _ < _ ∧ _ < _)))
  | .addDataRoot .. | .maybeDropDataRoot .. | .addTipBlock .. | .removeExpired .. | .processItem .. |
    .removeRecentlyProcessed .. => isTrue trivial

/-- A test of the tips. -/
def agedPromised (n : Fin 12) (s : PoolServer Nat) : ServerOp Nat → Bool
  | .addChunk u _ _ _ => u.txSize < 2 ^ 256
  | .addTipBlock blockTxPairs bi _ _ =>
    [(⟨1, 2, 2⟩ : Tip Nat), ⟨61, 62, 62⟩].any (fun t =>
        decide (blockTxPairs = t.blockTxPairs (agedWeave n) ∧ bi = t.blockIndex (agedWeave n) agedTree)) &&
      s.sync.blockIndex.any fun e => blockTxPairs.any fun p => p.1 = e.1
  | _ => true

lemma promised_of_agedPromised {n : Fin 12} (s : PoolServer Nat) (op : ServerOp Nat) (h : agedPromised n s op = true) :
    Promised s (agedWeave n) agedTree op := by
  cases op with
  | addChunk u recorded now now2 =>
    change u.txSize < 2 ^ 256
    exact of_decide_eq_true h
  | addTipBlock blockTxPairs bi now now2 =>
    rw [agedPromised, Bool.and_eq_true] at h
    obtain ⟨t, -, ht⟩ := List.any_eq_true.mp h.1
    obtain ⟨hpairs, hbi⟩ := of_decide_eq_true ht
    exact ⟨t, hpairs, hbi, by simpa [Shares] using h.2⟩
  | _ => trivial

/-- The tests of the two runs. -/
lemma checks_agedOps :
    ((((agedOps 1).take 5).foldlM (PoolServer.step samplePoolConfig agedTree)
        { sync := (agedServer 1).state, pool := {} }).any
          (fun s => isInside s.recorded 4 && (s.chunksIndex.lookup (offsetKey 4)).isSome) = true ∧
      ((agedOps 1).foldlM (PoolServer.step samplePoolConfig agedTree)
        { sync := (agedServer 1).state, pool := {} }).isSome = true ∧
      checkAlong (PoolServer.step samplePoolConfig agedTree)
        (fun s op => agedPromised 1 s op && decide (KeepsEntries s samplePoolConfig op))
        { sync := (agedServer 1).state, pool := {} } (agedOps 1) = true) ∧
    ((agedOps 11).foldlM (PoolServer.step samplePoolConfig agedTree)
        { sync := (agedServer 11).state, pool := {} }).any (fun s => isInside s.recorded 4 &&
          (s.chunksIndex.lookup (offsetKey 4)).any fun e => (s.pool.chunkData.lookup e.chunkDataKey).isNone) = true ∧
      checkAlong (PoolServer.step samplePoolConfig agedTree) (agedPromised 11)
        { sync := (agedServer 11).state, pool := {} } ((agedOps 11).take 6) = true := by
  decide +kernel

/-- With the data in one block, the entry is in reach: it is recorded after the first scan, and removed with the chunk. -/
theorem noDangling_of_keepsEntries_aged :
    (∃ s, ((agedOps 1).take 5).foldlM (PoolServer.step samplePoolConfig agedTree)
        { sync := (agedServer 1).state, pool := {} } = some s ∧
      (isInside s.recorded 4 && (s.chunksIndex.lookup (offsetKey 4)).isSome) = true ∧ NoDangling s) ∧
    ∃ s, (agedOps 1).foldlM (PoolServer.step samplePoolConfig agedTree) { sync := (agedServer 1).state, pool := {} } =
      some s ∧ NoDangling s := by
  obtain ⟨⟨hrecorded, hsome, hchecks⟩, -⟩ := checks_agedOps
  obtain ⟨s, hs, hentry⟩ := (Option.any_eq_true _ _).mp hrecorded
  obtain ⟨s', hs'⟩ := Option.isSome_iff_exists.mp hsome
  have hpromised : Along (PoolServer.step samplePoolConfig agedTree)
      (fun s op => Promised s (agedWeave 1) agedTree op) { sync := (agedServer 1).state, pool := {} } (agedOps 1) :=
    along_of_checkAlong (fun s op h => promised_of_agedPromised s op (Bool.and_eq_true_iff.mp h).1) hchecks
  have hkeeps : Along (PoolServer.step samplePoolConfig agedTree) (fun s op => KeepsEntries s samplePoolConfig op)
      { sync := (agedServer 1).state, pool := {} } (agedOps 1) :=
    along_of_checkAlong (fun _ _ h => of_decide_eq_true (Bool.and_eq_true_iff.mp h).2) hchecks
  refine ⟨⟨s, hs, hentry, ?_⟩, s', hs', ?_⟩
  · exact noDangling_of_keepsEntries (agedWeave 1) agedTree samplePoolConfig (agedServer 1) (agedServer_good 1)
      (agedWeave_room 1) ((agedOps 1).take 5) s (hpromised.take 5) (hkeeps.take 5) hs
  · exact noDangling_of_keepsEntries (agedWeave 1) agedTree samplePoolConfig (agedServer 1) (agedServer_good 1)
      (agedWeave_room 1) (agedOps 1) s' hpromised hkeeps hs'

/-- With the data in eleven blocks, the entry in the first one is still recorded when the data of the chunk is
removed. -/
theorem first_entry_dangles :
    Along (PoolServer.step samplePoolConfig agedTree) (fun s op => Promised s (agedWeave 11) agedTree op)
        { sync := (agedServer 11).state, pool := {} } (agedOps 11) ∧
      ∃ s, (agedOps 11).foldlM (PoolServer.step samplePoolConfig agedTree)
        { sync := (agedServer 11).state, pool := {} } = some s ∧ ¬ NoDangling s := by
  obtain ⟨-, hany, hchecks⟩ := checks_agedOps
  have htips : Along (PoolServer.step samplePoolConfig agedTree) (fun s op => Promised s (agedWeave 11) agedTree op)
      { sync := (agedServer 11).state, pool := {} } ((agedOps 11).take 6) :=
    along_of_checkAlong promised_of_agedPromised hchecks
  refine ⟨?_, ?_⟩
  · -- the messages of the scan
    rw [← List.take_append_drop 6 (agedOps 11)]
    refine htips.append fun op hop s => ?_
    obtain rfl | hop := List.mem_cons.mp hop
    · trivial
    · rw [List.eq_of_mem_replicate hop]
      trivial
  obtain ⟨s, hs, hentry⟩ := (Option.any_eq_true _ _).mp hany
  rw [Bool.and_eq_true] at hentry
  obtain ⟨e, he, hnone⟩ := (Option.any_eq_true _ _).mp hentry.2
  refine ⟨s, hs, fun h => ?_⟩
  have hdata := h 4 e he hentry.1
  rw [Option.isNone_iff_eq_none.mp hnone] at hdata
  cases hdata

end Arweave.DataSync

import Mathlib.Algebra.BigOperators.Ring.Finset
import Mathlib.Data.Prod.Lex
import Arweave.Lib.Runs
import Arweave.Poa.RecallChunk

/-!
# Slots of the chunk cache

Chunks on their way into a storage module take slots of a cache whose size all servers share. A chunk
waits in a message, in the packing map of a server while the packing server works on it, or in the queue
of chunks to be stored. Messages are delivered in any order. The packing server may answer late or not at
all, and timers clean the packing map up.
-/

namespace Arweave.DataSync

open Lib Merkle Poa

section Code

variable {Store Packing : Type}

/-- `?STRICT_DATA_SPLIT_THRESHOLD` -/
def strictDataSplitThreshold : Nat := 30607159107830

/-- `?STORE_CHUNK_QUEUE_FLUSH_SIZE_THRESHOLD` -/
def flushSizeThreshold : Int := 100

/-- `?STORE_CHUNK_QUEUE_FLUSH_TIME_THRESHOLD` -/
def flushTimeThreshold : Int := 2000

structure ChunkArgs (Packing : Type) where
  packing : Packing
  chunk : Bytes
  absoluteOffset : Int
  txRoot : Bytes
  chunkSize : Int

/-- The proof of a chunk that a peer has sent. -/
structure FetchedProof (Packing : Type) where
  dataPath : Bytes
  txPath : Bytes
  chunk : Bytes
  packing : Packing

structure FetchedArgs where
  absoluteTXStartOffset : Int
  txSize : Int
  dataPath : Bytes
  txPath : Bytes
  dataRoot : Bytes
  chunk : Bytes
  chunkID : Bytes
  chunkEndOffset : Int
  byte : Nat

/-- The arguments of `pack_and_store_chunk`. -/
structure PackArgs (Store Packing : Type) where
  dataRoot : Bytes
  absoluteOffset : Int
  txPath : Bytes
  txRoot : Bytes
  dataPath : Bytes
  packing : Packing
  offset : Int
  chunkSize : Int
  chunk : Bytes
  unpackedChunk : Option Bytes
  originStoreID : Option Store
  originChunkDataKey : Option Bytes

/-- What is kept of a chunk until it is stored. -/
structure StoreArgs (Store Packing : Type) where
  packing : Packing
  dataPath : Bytes
  offset : Int
  dataRoot : Bytes
  txPath : Bytes
  originStoreID : Option Store
  originChunkDataKey : Option Bytes

/-- The values of the packing map. -/
inductive PackingRequest (Store Packing : Type) where
  | unpackFetchedChunk (args : FetchedArgs)
  | packChunk (args : StoreArgs Store Packing)

abbrev PackingKey (Packing : Type) := Int ×ₗ Packing

inductive Message (Store Packing : Type) where
  | storeFetchedChunk (byte : Nat) (proof : FetchedProof Packing)
  | packAndStoreChunk (args : PackArgs Store Packing)
  | expireRepackChunkRequest (key : PackingKey Packing)
  | expireUnpackFetchedChunkRequest (key : PackingKey Packing)
  | chunkUnpacked (offset : Int) (args : ChunkArgs Packing)
  | chunkPacked (offset : Int) (args : ChunkArgs Packing)
  | processStoreChunkQueue

/-- What the packing server is asked for. -/
inductive PackingJob (Packing : Type) where
  | unpack (ref : Int) (args : ChunkArgs Packing)
  | repack (ref : Int) (requestedPacking : Packing) (args : ChunkArgs Packing)

variable [LinearOrder Packing]

/-- The parts of the state of a server that chunks pass through. References are numbered in the order in
which they are made. -/
structure StoreServer (Store Packing : Type) [LinearOrder Packing] where
  packingMap : SortedMap (PackingKey Packing) (PackingRequest Store Packing)
  storeChunkQueue : SortedMap (Int ×ₗ Int ×ₗ Nat) (ChunkArgs Packing × StoreArgs Store Packing)
  storeChunkQueueLen : Int
  storeChunkQueueThreshold : Int
  nextRef : Nat

/-- What a server finds out while it handles a message. Each reading of the clock may give another time. -/
structure Findings (Packing : Type) where
  blockBounds : Int → Nat × Nat × Bytes
  merkleRebaseThreshold : Option Nat
  isRecorded : Nat → Bool
  isBufferFull : Bool
  isDiskSpaceSufficient : Bool
  diskPoolThreshold : Int
  storePacking : Packing
  clock : Nat → Int

/-- The effect of a message: the new state, the size of the cache, messages that the server sends to
itself, at once or later, and requests to the packing server. -/
structure Outcome (Store Packing : Type) [LinearOrder Packing] where
  server : StoreServer Store Packing
  chunkCacheSize : Int
  casts : List (Message Store Packing)
  jobs : List (PackingJob Packing)

variable (H : Digest 32) (unpacked : Packing)

inductive ProofVerdict (Packing : Type) where
  | invalid
  | needUnpacking (absoluteOffset : Int) (chunkArgs : ChunkArgs Packing)
      (dataRoot : Bytes) (txStartOffset chunkEndOffset txSize : Int) (chunkID : Bytes)
  | valid (dataRoot : Bytes) (txStartOffset chunkEndOffset txSize chunkSize : Int) (chunkID : Bytes)

def validateProof (txRoot : Bytes) (blockStartOffset : Nat) (offset blockSize : Int) (proof : FetchedProof Packing)
    (ruleset : Ruleset) : Except PathError (ProofVerdict Packing) := do
  match ← validatePath H txRoot offset blockSize proof.txPath .basic with
  | none => pure .invalid
  | some tx =>
    let txSize := tx.endOffset - tx.startOffset
    let chunkOffset := offset - tx.startOffset
    match ← validatePath H tx.leaf chunkOffset txSize proof.dataPath ruleset with
    | none => pure .invalid
    | some chunk =>
      let absoluteEndOffset := blockStartOffset + tx.startOffset + chunk.endOffset
      let chunkSize := chunk.endOffset - chunk.startOffset
      if proof.packing = unpacked then
        if H proof.chunk = chunk.leaf ∧ chunkSize = proof.chunk.length then
          pure (.valid tx.leaf tx.startOffset chunk.endOffset txSize chunkSize chunk.leaf)
        else pure .invalid
      else
        pure (.needUnpacking absoluteEndOffset ⟨proof.packing, proof.chunk, absoluteEndOffset, txRoot, chunkSize⟩
          tx.leaf tx.startOffset chunk.endOffset txSize chunk.leaf)

/-- The note of the leaf is the last of the path. -/
def isChunkProofRatioAttractive (chunkSize txSize : Int) (dataPath : Bytes) : Bool :=
  if dataPath.length < noteSize then false
  else Bytes.toNat (dataPath.drop (dataPath.length - noteSize)) = txSize ∨ dataPath.length ≤ chunkSize

variable (env : Findings Packing)

def getRequiredChunkPacking (offset chunkSize : Int) : Packing :=
  if offset ≤ strictDataSplitThreshold ∧ chunkSize < dataChunkSize then unpacked else env.storePacking

/-- The chunks of the queue are taken in the order of their offsets. The call fails when the length is not
that of the queue. -/
def processStoreChunkQueue (clock : Nat → Int) (s : StoreServer Store Packing) (chunkCacheSize : Int) :
    Option (StoreServer Store Packing × Int) :=
  if s.storeChunkQueueLen = 0 then some (s, chunkCacheSize)
  else
    match hsmallest : s.storeChunkQueue.entries.head? with
    | none => none
    | some (key, _) =>
      let timestamp := (ofLex (ofLex key).2).1
      let threshold2 :=
        if s.storeChunkQueueThreshold < flushSizeThreshold then s.storeChunkQueueThreshold
        else if s.storeChunkQueueLen > s.storeChunkQueueThreshold then 0
        else s.storeChunkQueueThreshold
      if s.storeChunkQueueLen > threshold2 ∨ clock 0 - timestamp > flushTimeThreshold then
        processStoreChunkQueue (fun i => clock (i + 1))
          { s with
            storeChunkQueue := s.storeChunkQueue.erase key
            storeChunkQueueLen := s.storeChunkQueueLen - 1
            storeChunkQueueThreshold := min (threshold2 + 1) flushSizeThreshold }
          (chunkCacheSize - 1)
      else some (s, chunkCacheSize)
termination_by s.storeChunkQueue.size
decreasing_by
  have hlookup := SortedMap.lookup_eq_some.mpr (List.mem_of_head? hsmallest)
  have := SortedMap.size_erase_add_one hlookup
  omega

def storeChunk (chunkArgs : ChunkArgs Packing) (args : StoreArgs Store Packing) (s : StoreServer Store Packing)
    (chunkCacheSize : Int) : Option (Outcome Store Packing) := do
  let key := toLex (chunkArgs.absoluteOffset, toLex (env.clock 0, s.nextRef))
  let (s, chunkCacheSize) ← processStoreChunkQueue (fun i => env.clock (i + 1))
    { s with
      storeChunkQueue := s.storeChunkQueue.insert key (chunkArgs, args)
      storeChunkQueueLen := s.storeChunkQueueLen + 1
      nextRef := s.nextRef + 1 }
    chunkCacheSize
  some ⟨s, chunkCacheSize, [], []⟩

def packAndStoreChunk (args : PackArgs Store Packing) (s : StoreServer Store Packing) (chunkCacheSize : Int) :
    Option (Outcome Store Packing) :=
  if args.absoluteOffset > env.diskPoolThreshold then some ⟨s, chunkCacheSize - 1, [], []⟩
  else
    let requiredPacking := getRequiredChunkPacking unpacked env args.absoluteOffset args.chunkSize
    let storeArgs : StoreArgs Store Packing := ⟨requiredPacking, args.dataPath, args.offset, args.dataRoot, args.txPath,
      args.originStoreID, args.originChunkDataKey⟩
    if requiredPacking = args.packing then
      storeChunk env ⟨args.packing, args.chunk, args.absoluteOffset, args.txRoot, args.chunkSize⟩ storeArgs s chunkCacheSize
    else
      let key := toLex (args.absoluteOffset, requiredPacking)
      if (s.packingMap.lookup key).isSome then some ⟨s, chunkCacheSize - 1, [], []⟩
      else if env.isBufferFull then some ⟨s, chunkCacheSize, [.packAndStoreChunk args], []⟩
      else
        let (packing2, chunk2) :=
          match args.unpackedChunk with
          | none => (args.packing, args.chunk)
          | some chunk => (unpacked, chunk)
        some {
          server := { s with packingMap := s.packingMap.insert key (.packChunk storeArgs) }
          chunkCacheSize := chunkCacheSize
          casts := [.expireRepackChunkRequest key]
          jobs := [.repack args.absoluteOffset requiredPacking
            ⟨packing2, chunk2, args.absoluteOffset, args.txRoot, args.chunkSize⟩] }

def processValidFetchedChunk (chunkArgs : ChunkArgs Packing) (args : FetchedArgs) (s : StoreServer Store Packing)
    (chunkCacheSize : Int) : Option (Outcome Store Packing) :=
  if isChunkProofRatioAttractive chunkArgs.chunkSize args.txSize args.dataPath = false then
    some ⟨s, chunkCacheSize - 1, [], []⟩
  else if env.isRecorded (args.byte + 1) then some ⟨s, chunkCacheSize - 1, [], []⟩
  else do
    guard (chunkArgs.absoluteOffset = args.absoluteTXStartOffset + args.chunkEndOffset)
    packAndStoreChunk unpacked env
      { dataRoot := args.dataRoot
        absoluteOffset := chunkArgs.absoluteOffset
        txPath := args.txPath
        txRoot := chunkArgs.txRoot
        dataPath := args.dataPath
        packing := chunkArgs.packing
        offset := args.chunkEndOffset
        chunkSize := chunkArgs.chunkSize
        chunk := args.chunk
        unpackedChunk := some chunkArgs.chunk
        originStoreID := none
        originChunkDataKey := none }
      s chunkCacheSize

def storeFetchedChunk (byte : Nat) (proof : FetchedProof Packing) (s : StoreServer Store Packing) (chunkCacheSize : Int) :
    Option (Outcome Store Packing) :=
  let seekByte := getChunkSeekOffset strictDataSplitThreshold (byte + 1) - 1
  let (blockStartOffset, blockEndOffset, txRoot) := env.blockBounds seekByte
  let blockSize : Int := blockEndOffset - blockStartOffset
  let offset := seekByte - blockStartOffset
  let ruleset := getDataPathValidationRuleset blockStartOffset env.merkleRebaseThreshold strictDataSplitThreshold
  match validateProof H unpacked txRoot blockStartOffset offset blockSize proof ruleset with
  | .error _ => none
  | .ok (.needUnpacking absoluteOffset chunkArgs dataRoot txStartOffset chunkEndOffset txSize chunkID) =>
    let args : FetchedArgs := ⟨blockStartOffset + txStartOffset, txSize, proof.dataPath, proof.txPath, dataRoot,
      proof.chunk, chunkID, chunkEndOffset, byte⟩
    let key := toLex (absoluteOffset, unpacked)
    if (s.packingMap.lookup key).isSome then some ⟨s, chunkCacheSize - 1, [], []⟩
    else if env.isBufferFull then some ⟨s, chunkCacheSize, [.storeFetchedChunk byte proof], []⟩
    else
      some {
        server := { s with packingMap := s.packingMap.insert key (.unpackFetchedChunk args) }
        chunkCacheSize := chunkCacheSize
        casts := [.expireUnpackFetchedChunkRequest key]
        jobs := [.unpack absoluteOffset chunkArgs] }
  | .ok .invalid => some ⟨s, chunkCacheSize - 1, [], []⟩
  | .ok (.valid dataRoot txStartOffset chunkEndOffset txSize chunkSize chunkID) =>
    let absoluteTXStartOffset := blockStartOffset + txStartOffset
    let absoluteEndOffset := absoluteTXStartOffset + chunkEndOffset
    processValidFetchedChunk unpacked env ⟨unpacked, proof.chunk, absoluteEndOffset, txRoot, chunkSize⟩
      ⟨absoluteTXStartOffset, txSize, proof.dataPath, proof.txPath, dataRoot, proof.chunk, chunkID, chunkEndOffset, byte⟩
      s chunkCacheSize

def processUnpackedChunk (chunkArgs : ChunkArgs Packing) (args : FetchedArgs) (s : StoreServer Store Packing)
    (chunkCacheSize : Int) : Option (Outcome Store Packing) :=
  if H chunkArgs.chunk = args.chunkID ∧ chunkArgs.chunkSize = chunkArgs.chunk.length then
    processValidFetchedChunk unpacked env chunkArgs args s chunkCacheSize
  else some ⟨s, chunkCacheSize - 1, [], []⟩

/-- The handlers of the messages. -/
def StoreServer.handle (s : StoreServer Store Packing) (chunkCacheSize : Int) : Message Store Packing → Option (Outcome Store Packing)
  | .storeFetchedChunk byte proof => storeFetchedChunk H unpacked env byte proof s chunkCacheSize
  | .packAndStoreChunk args =>
    if env.isDiskSpaceSufficient then packAndStoreChunk unpacked env args s chunkCacheSize
    else some ⟨s, chunkCacheSize, [.packAndStoreChunk args], []⟩
  | .expireRepackChunkRequest key =>
    match s.packingMap.lookup key with
    | some (.packChunk _) => some ⟨{ s with packingMap := s.packingMap.erase key }, chunkCacheSize - 1, [], []⟩
    | _ => some ⟨s, chunkCacheSize, [], []⟩
  | .expireUnpackFetchedChunkRequest key =>
    match s.packingMap.lookup key with
    | some (.unpackFetchedChunk _) =>
      some ⟨{ s with packingMap := s.packingMap.erase key }, chunkCacheSize - 1, [], []⟩
    | _ => some ⟨s, chunkCacheSize, [], []⟩
  | .chunkUnpacked offset chunkArgs =>
    let key := toLex (offset, unpacked)
    match s.packingMap.lookup key with
    | some (.unpackFetchedChunk args) =>
      processUnpackedChunk H unpacked env chunkArgs args { s with packingMap := s.packingMap.erase key } chunkCacheSize
    | _ => some ⟨s, chunkCacheSize, [], []⟩
  | .chunkPacked offset chunkArgs =>
    let key := toLex (offset, chunkArgs.packing)
    match s.packingMap.lookup key with
    | some (.packChunk args) =>
      if args.packing = chunkArgs.packing then
        storeChunk env chunkArgs args { s with packingMap := s.packingMap.erase key } chunkCacheSize
      else some ⟨s, chunkCacheSize, [], []⟩
    | _ => some ⟨s, chunkCacheSize, [], []⟩
  | .processStoreChunkQueue => do
    let (s, chunkCacheSize) ← DataSync.processStoreChunkQueue env.clock s chunkCacheSize
    some ⟨s, chunkCacheSize, [.processStoreChunkQueue], []⟩

/-- The metadata of a chunk that is read from a storage module. -/
structure ReadChunk (Packing : Type) where
  dataRoot : Bytes
  absoluteOffset : Int
  txPath : Bytes
  txRoot : Bytes
  dataPath : Bytes
  packing : Packing
  relativeOffset : Int
  chunkSize : Int
  chunk : Bytes
  chunkDataKey : Bytes

/-- What the worker that copies chunks between storage modules sends. -/
def ReadChunk.readArgs (target : Store) (c : ReadChunk Packing) : PackArgs Store Packing where
  dataRoot := c.dataRoot
  absoluteOffset := c.absoluteOffset
  txPath := c.txPath
  txRoot := c.txRoot
  dataPath := c.dataPath
  packing := c.packing
  offset := c.relativeOffset
  chunkSize := c.chunkSize
  chunk := c.chunk
  unpackedChunk := if c.packing = unpacked then some c.chunk else none
  originStoreID := some target
  originChunkDataKey := some c.chunkDataKey

/-- What the disk pool sends of a matured chunk. -/
def ReadChunk.maturedArgs (c : ReadChunk Packing) : PackArgs Store Packing where
  dataRoot := c.dataRoot
  absoluteOffset := c.absoluteOffset
  txPath := c.txPath
  txRoot := c.txRoot
  dataPath := c.dataPath
  packing := unpacked
  offset := c.relativeOffset
  chunkSize := c.chunkSize
  chunk := c.chunk
  unpackedChunk := some c.chunk
  originStoreID := none
  originChunkDataKey := none

/-- The servers, the size of the cache, the messages in flight and the requests to the packing server. -/
structure StoreSystem (Store Packing : Type) [LinearOrder Packing] where
  servers : Store → StoreServer Store Packing
  chunkCacheSize : Int
  messages : List (Store × Message Store Packing)
  jobs : List (Store × PackingJob Packing)

/-- The three senders, the delivery of any message in flight and the answer to any request, which may be
lost. -/
inductive StoreOp (Store Packing : Type) where
  | fetched (store : Store) (byte : Nat) (proof : FetchedProof Packing)
  | read (store : Store) (chunk : ReadChunk Packing)
  | matured (store : Store) (chunk : ReadChunk Packing)
  | deliver (i : Nat) (env : Findings Packing)
  | answer (i : Nat) (result : Option Bytes)

def StoreServer.new : StoreServer Store Packing where
  packingMap := SortedMap.empty
  storeChunkQueue := SortedMap.empty
  storeChunkQueueLen := 0
  storeChunkQueueThreshold := flushSizeThreshold
  nextRef := 0

def StoreSystem.new (stores : List Store) : StoreSystem Store Packing where
  servers := fun _ => StoreServer.new
  chunkCacheSize := 0
  messages := stores.map fun store => (store, .processStoreChunkQueue)
  jobs := []

/-- A message with a chunk, which takes a slot. -/
def StoreSystem.send (s : StoreSystem Store Packing) (store : Store) (m : Message Store Packing) : StoreSystem Store Packing :=
  { s with chunkCacheSize := s.chunkCacheSize + 1, messages := s.messages ++ [(store, m)] }

/-- Unpacked chunks that are to be unpacked are sent back as they are. -/
def PackingJob.reply (chunk : Bytes) : PackingJob Packing → Message Store Packing
  | .unpack ref args => .chunkUnpacked ref { args with chunk := chunk }
  | .repack ref requestedPacking args =>
    .chunkPacked ref
      { args with
        packing := requestedPacking
        chunk := if requestedPacking = unpacked ∧ args.packing = unpacked then args.chunk else chunk }

variable [DecidableEq Store]

def StoreSystem.step (s : StoreSystem Store Packing) : StoreOp Store Packing → Option (StoreSystem Store Packing)
  | .fetched store byte proof => some (s.send store (.storeFetchedChunk byte proof))
  | .read store chunk => some (s.send store (.packAndStoreChunk (chunk.readArgs unpacked store)))
  | .matured store chunk => some (s.send store (.packAndStoreChunk (chunk.maturedArgs unpacked)))
  | .deliver i env =>
    match s.messages[i]? with
    | none => some s
    | some (store, m) => do
      let o ← (s.servers store).handle H unpacked env s.chunkCacheSize m
      some {
        servers := Function.update s.servers store o.server
        chunkCacheSize := o.chunkCacheSize
        messages := s.messages.eraseIdx i ++ o.casts.map fun m => (store, m)
        jobs := s.jobs ++ o.jobs.map fun job => (store, job) }
  | .answer i result =>
    match s.jobs[i]?, result with
    | some (store, job), some chunk =>
      some { s with messages := s.messages ++ [(store, job.reply unpacked chunk)], jobs := s.jobs.eraseIdx i }
    | _, _ => some { s with jobs := s.jobs.eraseIdx i }

def StoreSystem.run (s : StoreSystem Store Packing) (ops : List (StoreOp Store Packing)) : Option (StoreSystem Store Packing) :=
  ops.foldlM (StoreSystem.step H unpacked) s

end Code

section Servers

variable {Store Packing : Type} [LinearOrder Packing] {H : Digest 32} {unpacked : Packing} {env : Findings Packing}
  {s : StoreServer Store Packing} {chunkCacheSize : Int} {o : Outcome Store Packing} {key : PackingKey Packing}
  {request : PackingRequest Store Packing} {k : Nat}

/-- The messages that hold a slot of the cache. -/
def Message.holdsSlot : Message Store Packing → Bool
  | .storeFetchedChunk _ _ => true
  | .packAndStoreChunk _ => true
  | _ => false

/-- The slots of the chunks that a server has. -/
def StoreServer.slots (s : StoreServer Store Packing) : Nat := s.packingMap.size + s.storeChunkQueue.size

/-- The length is that of the queue, and the references of the queue have been made. -/
structure StoreServer.WellFormed (s : StoreServer Store Packing) : Prop where
  len_eq : s.storeChunkQueueLen = s.storeChunkQueue.size
  ref_lt : ∀ e ∈ s.storeChunkQueue.entries, (ofLex (ofLex e.1).2).2 < s.nextRef

/-- After the handling of something that holds `k` slots each slot is still counted once. -/
structure Conserves (k : Nat) (s : StoreServer Store Packing) (chunkCacheSize : Int) (o : Outcome Store Packing) : Prop where
  wellFormed : o.server.WellFormed
  slots_eq : o.chunkCacheSize + s.slots + k = chunkCacheSize + o.server.slots + o.casts.countP Message.holdsSlot

lemma conserves_release (hs : s.WellFormed) : Conserves 1 s chunkCacheSize ⟨s, chunkCacheSize - 1, [], []⟩ := by
  refine ⟨hs, ?_⟩
  simp only [List.countP_nil]
  omega

lemma conserves_same (hs : s.WellFormed) : Conserves 0 s chunkCacheSize ⟨s, chunkCacheSize, [], []⟩ := ⟨hs, rfl⟩

lemma conserves_again {m : Message Store Packing} (hs : s.WellFormed) (hm : m.holdsSlot = true) :
    Conserves 1 s chunkCacheSize ⟨s, chunkCacheSize, [m], []⟩ := by
  refine ⟨hs, ?_⟩
  simp only [List.countP_cons, List.countP_nil, hm, if_true]

lemma conserves_request {m : Message Store Packing} {jobs : List (PackingJob Packing)} (hs : s.WellFormed)
    (hm : m.holdsSlot = false) (hnew : s.packingMap.lookup key = none) :
    Conserves 1 s chunkCacheSize
      ⟨{ s with packingMap := s.packingMap.insert key request }, chunkCacheSize, [m], jobs⟩ := by
  refine ⟨⟨hs.len_eq, hs.ref_lt⟩, ?_⟩
  have hsize : (s.packingMap.insert key request).size = s.packingMap.size + 1 := by
    rw [SortedMap.size_insert_eq, SortedMap.erase_of_lookup_eq_none hnew]
  simp only [StoreServer.slots, List.countP_cons, List.countP_nil, hm, hsize, Bool.false_eq_true, if_false]
  push_cast
  omega

lemma Conserves.of_erase (hlookup : s.packingMap.lookup key = some request)
    (h : Conserves 1 { s with packingMap := s.packingMap.erase key } chunkCacheSize o) : Conserves 0 s chunkCacheSize o := by
  refine ⟨h.wellFormed, ?_⟩
  have heq := h.slots_eq
  have hsize := SortedMap.size_erase_add_one hlookup
  simp only [StoreServer.slots] at heq ⊢
  push_cast at heq ⊢
  omega

lemma processStoreChunkQueue_spec {clock : Nat → Int} (hs : s.WellFormed) :
    ∃ s' size, processStoreChunkQueue clock s chunkCacheSize = some (s', size) ∧ s'.WellFormed ∧
      size + s.slots = chunkCacheSize + s'.slots := by
  fun_induction processStoreChunkQueue clock s chunkCacheSize with
  | case1 clock s chunkCacheSize hzero => exact ⟨s, chunkCacheSize, rfl, hs, rfl⟩
  | case2 clock s chunkCacheSize hlen hnone =>
    have hsize : s.storeChunkQueue.size = 0 := by rw [SortedMap.size, List.head?_eq_none_iff.mp hnone, List.length_nil]
    exact absurd (hs.len_eq.trans (by rw [hsize]; rfl)) hlen
  | case3 clock s chunkCacheSize hlen key value hsmallest timestamp threshold2 hflush ih =>
    have hsize := SortedMap.size_erase_add_one (SortedMap.lookup_eq_some.mpr (List.mem_of_head? hsmallest))
    have hlen' := hs.len_eq
    obtain ⟨s', size, hrun, hs', heq⟩ := ih ⟨by dsimp only; omega, fun e he => hs.ref_lt e (SortedMap.mem_erase.mp he).2⟩
    refine ⟨s', size, hrun, hs', ?_⟩
    simp only [StoreServer.slots] at heq ⊢
    push_cast at heq ⊢
    omega
  | case4 clock s chunkCacheSize hlen key value hsmallest timestamp threshold2 hkeep =>
    exact ⟨s, chunkCacheSize, rfl, hs, rfl⟩

lemma storeChunk_spec {chunkArgs : ChunkArgs Packing} {args : StoreArgs Store Packing} (hs : s.WellFormed)
    (h : storeChunk env chunkArgs args s chunkCacheSize = some o) : Conserves 1 s chunkCacheSize o := by
  rw [storeChunk] at h
  obtain ⟨⟨s', size⟩, hprocess, h⟩ := Option.bind_eq_some_iff.mp h
  cases h
  have hfresh : s.storeChunkQueue.lookup (toLex (chunkArgs.absoluteOffset, toLex (env.clock 0, s.nextRef))) = none := by
    by_contra hsome
    obtain ⟨value, hvalue⟩ := Option.ne_none_iff_exists'.mp hsome
    exact (hs.ref_lt _ (SortedMap.lookup_eq_some.mp hvalue)).false
  have hsize : (s.storeChunkQueue.insert (toLex (chunkArgs.absoluteOffset, toLex (env.clock 0, s.nextRef)))
      (chunkArgs, args)).size = s.storeChunkQueue.size + 1 := by
    rw [SortedMap.size_insert_eq, SortedMap.erase_of_lookup_eq_none hfresh]
  have hs0 : StoreServer.WellFormed { s with
      storeChunkQueue := s.storeChunkQueue.insert (toLex (chunkArgs.absoluteOffset, toLex (env.clock 0, s.nextRef))) (chunkArgs, args)
      storeChunkQueueLen := s.storeChunkQueueLen + 1
      nextRef := s.nextRef + 1 } := by
    constructor
    · have hlen := hs.len_eq
      dsimp only
      rw [hsize]
      push_cast
      omega
    · intro e he
      obtain rfl | ⟨-, he⟩ := SortedMap.mem_insert.mp he
      · exact Nat.lt_succ_self _
      · exact (hs.ref_lt e he).trans (Nat.lt_succ_self _)
  obtain ⟨s1, size1, hprocess1, hs1, heq⟩ := processStoreChunkQueue_spec hs0
  cases hprocess.symm.trans hprocess1
  refine ⟨hs1, ?_⟩
  simp only [StoreServer.slots, hsize, List.countP_nil] at heq ⊢
  push_cast at heq ⊢
  omega

lemma packAndStoreChunk_spec {args : PackArgs Store Packing} (hs : s.WellFormed)
    (h : packAndStoreChunk unpacked env args s chunkCacheSize = some o) : Conserves 1 s chunkCacheSize o := by
  rw [packAndStoreChunk] at h
  dsimp only at h
  split_ifs at h with hthreshold hready hkey hfull
  · cases h
    exact conserves_release hs
  · exact storeChunk_spec hs h
  · cases h
    exact conserves_release hs
  · cases h
    exact conserves_again hs rfl
  · cases h
    exact conserves_request hs rfl (Option.not_isSome_iff_eq_none.mp hkey)

lemma processValidFetchedChunk_spec {chunkArgs : ChunkArgs Packing} {args : FetchedArgs} (hs : s.WellFormed)
    (h : processValidFetchedChunk unpacked env chunkArgs args s chunkCacheSize = some o) : Conserves 1 s chunkCacheSize o := by
  rw [processValidFetchedChunk] at h
  split_ifs at h with hratio hrecorded
  · cases h
    exact conserves_release hs
  · cases h
    exact conserves_release hs
  · obtain ⟨-, -, h⟩ := Option.bind_eq_some_iff.mp h
    exact packAndStoreChunk_spec hs h

lemma storeFetchedChunk_spec {byte : Nat} {proof : FetchedProof Packing} (hs : s.WellFormed)
    (h : storeFetchedChunk H unpacked env byte proof s chunkCacheSize = some o) : Conserves 1 s chunkCacheSize o := by
  rw [storeFetchedChunk] at h
  dsimp only at h
  split at h
  · cases h
  · split_ifs at h with hkey hfull
    · cases h
      exact conserves_release hs
    · cases h
      exact conserves_again hs rfl
    · cases h
      exact conserves_request hs rfl (Option.not_isSome_iff_eq_none.mp hkey)
  · cases h
    exact conserves_release hs
  · exact processValidFetchedChunk_spec hs h

lemma processUnpackedChunk_spec {chunkArgs : ChunkArgs Packing} {args : FetchedArgs} (hs : s.WellFormed)
    (h : processUnpackedChunk H unpacked env chunkArgs args s chunkCacheSize = some o) : Conserves 1 s chunkCacheSize o := by
  rw [processUnpackedChunk] at h
  split_ifs at h
  · exact processValidFetchedChunk_spec hs h
  · cases h
    exact conserves_release hs

/-- Every handler keeps count of the slots, that of its message included. -/
lemma handle_conserves {m : Message Store Packing} (hs : s.WellFormed)
    (h : s.handle H unpacked env chunkCacheSize m = some o) : Conserves m.holdsSlot.toNat s chunkCacheSize o := by
  have hs' : ∀ key, ({ s with packingMap := s.packingMap.erase key } : StoreServer Store Packing).WellFormed :=
    fun key => ⟨hs.len_eq, hs.ref_lt⟩
  cases m with
  | storeFetchedChunk byte proof => exact storeFetchedChunk_spec hs h
  | packAndStoreChunk args =>
    rw [StoreServer.handle] at h
    split_ifs at h
    · exact packAndStoreChunk_spec hs h
    · cases h
      exact conserves_again hs rfl
  | expireRepackChunkRequest key =>
    rw [StoreServer.handle] at h
    split at h
    · next hlookup =>
      cases h
      exact (conserves_release (hs' key)).of_erase hlookup
    · cases h
      exact conserves_same hs
  | expireUnpackFetchedChunkRequest key =>
    rw [StoreServer.handle] at h
    split at h
    · next hlookup =>
      cases h
      exact (conserves_release (hs' key)).of_erase hlookup
    · cases h
      exact conserves_same hs
  | chunkUnpacked offset args =>
    rw [StoreServer.handle] at h
    split at h
    · next hlookup => exact (processUnpackedChunk_spec (hs' _) h).of_erase hlookup
    · cases h
      exact conserves_same hs
  | chunkPacked offset args =>
    rw [StoreServer.handle] at h
    split at h
    · next hlookup =>
      split_ifs at h
      · exact (storeChunk_spec (hs' _) h).of_erase hlookup
      · cases h
        exact conserves_same hs
    · cases h
      exact conserves_same hs
  | processStoreChunkQueue =>
    rw [StoreServer.handle] at h
    obtain ⟨⟨s', size⟩, hprocess, h⟩ := Option.bind_eq_some_iff.mp h
    cases h
    obtain ⟨s1, size1, hprocess1, hs1, heq⟩ := processStoreChunkQueue_spec hs
    cases hprocess.symm.trans hprocess1
    refine ⟨hs1, ?_⟩
    change size + s.slots + ((0 : Nat) : Int) = chunkCacheSize + s'.slots + ((0 : Nat) : Int)
    rw [heq]

end Servers

section Runs

variable {Store Packing : Type} [LinearOrder Packing] [Fintype Store] {H : Digest 32} {unpacked : Packing}
  {s s' : StoreSystem Store Packing} {op : StoreOp Store Packing} {store : Store} {i : Nat}

/-- The slots that are taken: by messages in flight and by chunks that the servers have. -/
def StoreSystem.slots (s : StoreSystem Store Packing) : Nat :=
  s.messages.countP (fun m => m.2.holdsSlot) + ∑ store, (s.servers store).slots

structure StoreSystem.Balanced (s : StoreSystem Store Packing) : Prop where
  wellFormed : ∀ store, (s.servers store).WellFormed
  chunkCacheSize_eq : s.chunkCacheSize = s.slots

lemma balanced_new (stores : List Store) : (StoreSystem.new stores : StoreSystem Store Packing).Balanced := by
  refine ⟨fun store => ⟨rfl, fun e he => absurd he List.not_mem_nil⟩, ?_⟩
  have hmessages : (StoreSystem.new stores : StoreSystem Store Packing).messages.countP (fun m => m.2.holdsSlot) = 0 := by
    rw [List.countP_eq_zero]
    intro m hm
    obtain ⟨store, -, rfl⟩ := List.mem_map.mp hm
    exact Bool.false_ne_true
  rw [StoreSystem.slots, hmessages, zero_add]
  exact (Nat.cast_eq_zero.mpr (Finset.sum_eq_zero fun store _ => rfl)).symm

lemma balanced_send {m : Message Store Packing} (hs : s.Balanced) (hm : m.holdsSlot = true) : (s.send store m).Balanced := by
  refine ⟨hs.wellFormed, ?_⟩
  have heq := hs.chunkCacheSize_eq
  simp only [StoreSystem.slots, StoreSystem.send, List.countP_append, List.countP_cons, List.countP_nil, hm, if_true] at heq ⊢
  push_cast at heq ⊢
  omega

lemma countP_eraseIdx {α : Type*} {l : List α} {p : α → Bool} {x : α} (h : l[i]? = some x) :
    (l.eraseIdx i).countP p + (p x).toNat = l.countP p := by
  induction l generalizing i with
  | nil => cases h
  | cons y l ih =>
    cases i with
    | zero =>
      cases h
      rw [List.eraseIdx_cons_zero, List.countP_cons]
      cases p x <;> rfl
    | succ i =>
      have := ih (i := i) h
      rw [List.eraseIdx_cons_succ, List.countP_cons, List.countP_cons]
      omega

variable [DecidableEq Store]

lemma sum_slots_update (servers : Store → StoreServer Store Packing) (store : Store) (server : StoreServer Store Packing) :
    (∑ x, (Function.update servers store server x).slots) + (servers store).slots =
      (∑ x, (servers x).slots) + server.slots := by
  have hrest : ∀ x ∈ Finset.univ.erase store, (Function.update servers store server x).slots = (servers x).slots := by
    intro x hx
    rw [Function.update_of_ne (Finset.ne_of_mem_erase hx)]
  rw [← Finset.add_sum_erase _ _ (Finset.mem_univ store), ← Finset.add_sum_erase _ (fun x => (servers x).slots) (Finset.mem_univ store),
    Finset.sum_congr rfl hrest, Function.update_self]
  omega

lemma balanced_step (hs : s.Balanced) (h : s.step H unpacked op = some s') : s'.Balanced := by
  cases op with
  | fetched store byte proof =>
    cases h
    exact balanced_send hs rfl
  | read store chunk =>
    cases h
    exact balanced_send hs rfl
  | matured store chunk =>
    cases h
    exact balanced_send hs rfl
  | deliver i env =>
    rw [StoreSystem.step] at h
    cases hm : s.messages[i]? with
    | none =>
      rw [hm] at h
      cases h
      exact hs
    | some message =>
      obtain ⟨store, m⟩ := message
      rw [hm] at h
      obtain ⟨o, hhandle, h⟩ := Option.bind_eq_some_iff.mp h
      cases h
      have hconserves := handle_conserves (hs.wellFormed store) hhandle
      refine ⟨fun x => ?_, ?_⟩
      · dsimp only
        by_cases hx : x = store
        · rw [hx, Function.update_self]
          exact hconserves.wellFormed
        · rw [Function.update_of_ne hx]
          exact hs.wellFormed x
      · have herase := countP_eraseIdx (p := fun m : Store × Message Store Packing => m.2.holdsSlot) hm
        have hsum := sum_slots_update s.servers store o.server
        have heq := hs.chunkCacheSize_eq
        have hslots := hconserves.slots_eq
        have hcasts : (o.casts.map fun m => (store, m)).countP (fun m => m.2.holdsSlot) = o.casts.countP Message.holdsSlot := by
          rw [List.countP_map]
          rfl
        replace herase : (s.messages.eraseIdx i).countP (fun m => m.2.holdsSlot) + m.holdsSlot.toNat =
            s.messages.countP fun m => m.2.holdsSlot := herase
        simp only [StoreSystem.slots, List.countP_append, Nat.cast_add] at heq ⊢
        rw [hcasts]
        omega
  | answer i result =>
    simp only [StoreSystem.step] at h
    split at h
    · next store job chunk hjob =>
      cases h
      refine ⟨hs.wellFormed, ?_⟩
      have hreply : (job.reply unpacked chunk : Message Store Packing).holdsSlot = false := by cases job <;> rfl
      have heq := hs.chunkCacheSize_eq
      simp only [StoreSystem.slots, List.countP_append, List.countP_cons, List.countP_nil, hreply] at heq ⊢
      exact heq
    · cases h
      exact ⟨hs.wellFormed, hs.chunkCacheSize_eq⟩

/-- In every order of deliveries the size of the cache is the number of slots that are taken. -/
theorem chunk_cache_slots (H : Digest 32) (unpacked : Packing) (stores : List Store) (ops : List (StoreOp Store Packing))
    (s : StoreSystem Store Packing) (hrun : (StoreSystem.new stores).run H unpacked ops = some s) :
    s.chunkCacheSize = s.messages.countP (fun m => m.2.holdsSlot) +
        ∑ store, (((s.servers store).packingMap.size : Int) + (s.servers store).storeChunkQueue.size) ∧
      0 ≤ s.chunkCacheSize ∧
      ∀ store, (s.servers store).storeChunkQueueLen = (s.servers store).storeChunkQueue.size := by
  have hs : s.Balanced :=
    foldlM_preserves (P := StoreSystem.Balanced) (balanced_new stores)
      (fun s op s' _ hs hstep => balanced_step hs hstep) hrun
  have heq := hs.chunkCacheSize_eq
  refine ⟨?_, by omega, fun store => (hs.wellFormed store).len_eq⟩
  rw [heq, StoreSystem.slots]
  push_cast
  simp only [StoreServer.slots, Nat.cast_add]

def sampleFindings : Findings Nat where
  blockBounds := fun _ => (0, 262144, [])
  merkleRebaseThreshold := none
  isRecorded := fun _ => false
  isBufferFull := false
  isDiskSpaceSufficient := true
  diskPoolThreshold := 1000000
  storePacking := 1
  clock := fun _ => 0

/-- A matured chunk is packed and queued while the timer of its request is still running. -/
def sampleStoreOps : List (StoreOp Unit Nat) :=
  [.matured () ⟨[], 262144, [], [], [], 0, 262144, 262144, [1], []⟩, .deliver 1 sampleFindings, .answer 0 (some [2]),
    .deliver 2 sampleFindings]

theorem chunk_cache_slots_sample :
    ∃ s, (StoreSystem.new [()]).run Sha2.sha256 0 sampleStoreOps = some s ∧ s.chunkCacheSize = 1 ∧
      s.chunkCacheSize = s.messages.countP (fun m => m.2.holdsSlot) +
        ∑ store, (((s.servers store).packingMap.size : Int) + (s.servers store).storeChunkQueue.size) := by
  have hsize : ((StoreSystem.new [()]).run Sha2.sha256 0 sampleStoreOps).map (fun s => s.chunkCacheSize) = some 1 := by
    decide +kernel
  obtain ⟨s, hrun, hsize⟩ := Option.map_eq_some_iff.mp hsize
  exact ⟨s, hrun, hsize, (chunk_cache_slots Sha2.sha256 0 [()] sampleStoreOps s hrun).1⟩

end Runs

end Arweave.DataSync

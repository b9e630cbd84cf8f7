import Mathlib.Data.Prod.Lex
import Arweave.Constants
import Arweave.Lib.Bytes
import Arweave.Lib.Sorted

/-!
# The mining worker

A worker takes the candidates of a mining session through their hashes. The chunks of the two recall ranges
are read in parallel. One cache slot for each nonce holds the chunk that comes first, and the worker reserves
space for the chunks of a range, in counters for each partition, and gives it back chunk by chunk.
-/

namespace Arweave.Mining

open Lib

section Data

variable {Session Peer : Type}

/-- The reference of a candidate, with the number of the reference that was made for it. -/
structure CacheRef where
  partition1 : Nat
  partition2 : Option Nat
  partitionUpperBound : Nat
  ref : Nat
  deriving DecidableEq

/-- The fields of a candidate that the worker uses. `none` is `not_set`. -/
structure Candidate (Session Peer : Type) where
  cacheRef : Option CacheRef := none
  chunk1 : Option Bytes := none
  chunk2 : Option Bytes := none
  cmDiff : Option Nat := none
  cmH1List : List (Bytes × Nat) := []
  cmLeadPeer : Option Peer := none
  h0 : Option Bytes := none
  h1 : Option Bytes := none
  h2 : Option Bytes := none
  miningAddress : Bytes := []
  nonce : Option Nat := none
  partitionNumber : Nat
  partitionNumber2 : Option Nat := none
  partitionUpperBound : Nat
  poa2 : Option Bytes := none
  seed : Option Bytes := none
  sessionKey : Option Session := none
  stepNumber : Nat
  deriving DecidableEq

inductive TaskType where
  | computed_h2
  | computed_h1
  | compute_h2_for_peer
  | chunk2
  | chunk1
  | computed_h0
  | compute_h0
  deriving DecidableEq

structure Task (Session Peer : Type) where
  type : TaskType
  candidate : Candidate Session Peer
  deriving DecidableEq

abbrev CacheKey := CacheRef × Option Nat

/-- What a slot of the cache holds. The second chunk of a peer's candidate needs no first one. -/
inductive Entry where
  | doNotCache
  | chunk1 (chunk h1 : Option Bytes)
  | peerH1 (h1 : Bytes)
  | chunk2 (chunk : Option Bytes)
  deriving DecidableEq

inductive Which where
  | chunk1
  | chunk2
  deriving DecidableEq

/-- The key of a task in the queue: its priority and a reference. -/
abbrev TaskKey := (Nat ×ₗ Int) ×ₗ Nat

/-- References are numbered in the order in which they are made. -/
structure Worker (Session Peer : Type) where
  diff : WithTop Nat := ⊤
  taskQueue : SortedMap TaskKey (Task Session Peer) := SortedMap.empty
  sessionKey : Option Session := none
  seed : Option Bytes := none
  chunkCache : CacheKey → Option Entry := fun _ => none
  chunkCacheSize : Option Nat → Int := fun _ => 0
  nextRef : Nat := 0

/-- What the worker sends to the hashing threads, the reading threads, the mining server and the peers. -/
inductive Effect (Session Peer : Type) where
  | computeH0 (candidate : Candidate Session Peer)
  | computeH1 (candidate : Candidate Session Peer)
  | computeH2 (candidate : Candidate Session Peer)
  | readRecallRange (which : Which) (candidate : Candidate Session Peer) (start : Nat)
  | updateChunkCacheSize (partition : Option Nat) (delta : Int)
  | reserveCacheSpace (partition : Option Nat) (chunks : Nat)
  | releaseCache (sizes : Option Nat → Int)
  | addDelayedTask (task : Task Session Peer)
  | postSolution (candidate : Candidate Session Peer)
  | computedH1 (candidate : Candidate Session Peer) (diff : WithTop Nat)
  | computedH2ForPeer (candidate : Candidate Session Peer)

/-- What the worker finds out while it handles a task. -/
structure Answers where
  hasCacheSpace : Bool
  rangeExists : Which → Bool
  coordinatedMining : Bool
  readPoA : Nat → Option Bytes → Bytes → Option Bytes

end Data

section Code

variable {Session Peer : Type} [DecidableEq Session] (recallRangeSize : Nat)

def nonceMax : Nat := recallRangeSize / dataChunkSize - 1

def isSessionValid (w : Worker Session Peer) (candidate : Candidate Session Peer) : Bool :=
  w.sessionKey = candidate.sessionKey

def priority (type : TaskType) (stepNumber : Nat) : Nat ×ₗ Int :=
  toLex (match type with
    | .computed_h2 => 1
    | .computed_h1 => 2
    | .compute_h2_for_peer => 2
    | .chunk2 => 3
    | .chunk1 => 4
    | .computed_h0 => 5
    | .compute_h0 => 6, -(stepNumber : Int))

/-- `ar_block:get_recall_range/3` -/
def getRecallRange (h0 : Bytes) (partitionNumber partitionUpperBound : Nat) : Option (Nat × Nat) :=
  if h0.length < 8 ∨ partitionUpperBound = 0 then none
  else some (partitionNumber * partitionSize + Bytes.toNat (h0.take 8) % min partitionSize partitionUpperBound,
    Bytes.toNat h0 % partitionUpperBound)

def updateChunkCacheSize (partition : Option Nat) (delta : Int) (w : Worker Session Peer) :
    Worker Session Peer × List (Effect Session Peer) :=
  ({ w with chunkCacheSize := Function.update w.chunkCacheSize partition (w.chunkCacheSize partition + delta) },
    [.updateChunkCacheSize partition delta])

def reserveCacheSpace (partition : Option Nat) (chunks : Nat) (w : Worker Session Peer) :
    Worker Session Peer × List (Effect Session Peer) :=
  ({ w with chunkCacheSize := Function.update w.chunkCacheSize partition (w.chunkCacheSize partition + chunks) },
    [.reserveCacheSpace partition chunks])

/-- Two steps of a handler that does not fail. -/
def andThen {α : Type} (r : Worker Session Peer × List α) (f : Worker Session Peer → Worker Session Peer × List α) :
    Worker Session Peer × List α :=
  ((f r.1).1, r.2 ++ (f r.1).2)

/-- `do_not_cache/2` -/
def doNotCache (ref : CacheRef) (w : Worker Session Peer) : Worker Session Peer :=
  (List.range (nonceMax recallRangeSize + 1)).foldl
    (fun w nonce => { w with chunkCache := Function.update w.chunkCache (ref, some nonce) (some .doNotCache) }) w

/-- What was found in the slot, and the cache afterwards. Nothing found is `cached`. -/
def cycleChunkCache (candidate : Candidate Session Peer) (data : Entry) (cache : CacheKey → Option Entry) :
    Option (Option Entry × (CacheKey → Option Entry)) := do
  let ref ← candidate.cacheRef
  match cache (ref, candidate.nonce) with
  | none => some (none, Function.update cache (ref, candidate.nonce) (some data))
  | some cachedData => some (some cachedData, Function.update cache (ref, candidate.nonce) none)

def removeChunkFromCache (which : Which) (candidate : Candidate Session Peer) (w : Worker Session Peer) :
    Option (Worker Session Peer × List (Effect Session Peer)) := do
  let ref ← candidate.cacheRef
  let partition1 := some candidate.partitionNumber
  let partition2 := candidate.partitionNumber2
  let r := match which with
    | .chunk1 => updateChunkCacheSize partition1 (-1) w
    | .chunk2 => updateChunkCacheSize partition2 (-1) w
  let put (e : Option Entry) (w : Worker Session Peer) : Worker Session Peer × List (Effect Session Peer) :=
    ({ w with chunkCache := Function.update w.chunkCache (ref, candidate.nonce) e }, [])
  match w.chunkCache (ref, candidate.nonce) with
  | some .doNotCache => some (andThen r (put none))
  | none => some (andThen r (put (some .doNotCache)))
  | some (.chunk2 _) => some (andThen (andThen r (put none)) (updateChunkCacheSize partition2 (-1)))
  | some _ => some (andThen (andThen r (put none)) (updateChunkCacheSize partition1 (-1)))

def cacheH1List (ref : CacheRef) (candidate : Candidate Session Peer) (w : Worker Session Peer) :
    Worker Session Peer × List (Effect Session Peer) :=
  andThen (reserveCacheSpace candidate.partitionNumber2 candidate.cmH1List.length w) fun w =>
    (candidate.cmH1List.foldl
      (fun w entry => { w with chunkCache := Function.update w.chunkCache (ref, some entry.2) (some (.peerH1 entry.1)) }) w, [])

/-- `generate_cache_ref/1`, with the reference that is made. -/
def generateCacheRef (candidate : Candidate Session Peer) (w : Worker Session Peer) : CacheRef × Worker Session Peer :=
  (⟨candidate.partitionNumber, candidate.partitionNumber2, candidate.partitionUpperBound, w.nextRef⟩,
    { w with nextRef := w.nextRef + 1 })

def getDifficulty (w : Worker Session Peer) (candidate : Candidate Session Peer) : WithTop Nat :=
  match candidate.cmDiff with
  | none => w.diff
  | some diff => diff

def handleChunk2 (candidate : Candidate Session Peer) (w : Worker Session Peer) :
    Option (Worker Session Peer × List (Effect Session Peer)) := do
  let partition1 := some candidate.partitionNumber
  let partition2 := candidate.partitionNumber2
  let (found, cache2) ← cycleChunkCache candidate (.chunk2 candidate.chunk2) w.chunkCache
  let w := { w with chunkCache := cache2 }
  match found with
  | some (.chunk1 chunk1 h1) =>
    some (andThen (andThen (w, [.computeH2 { candidate with chunk1 := chunk1, h1 := h1 }])
      (updateChunkCacheSize partition1 (-1))) (updateChunkCacheSize partition2 (-1)))
  | some (.peerH1 h1) =>
    some (andThen (w, [.computeH2 { candidate with h1 := some h1 }]) (updateChunkCacheSize partition2 (-1)))
  | some .doNotCache => some (updateChunkCacheSize partition2 (-1) w)
  | none => some (w, [])
  | some (.chunk2 _) => none

def handleComputedH0 (answers : Answers) (candidate : Candidate Session Peer) (w : Worker Session Peer) :
    Option (Worker Session Peer × List (Effect Session Peer)) :=
  if answers.hasCacheSpace then do
    let h0 ← candidate.h0
    let (recallRange1Start, recallRange2Start) ←
      getRecallRange h0 candidate.partitionNumber candidate.partitionUpperBound
    let candidate2 := { candidate with partitionNumber2 := some (recallRange2Start / partitionSize) }
    let (ref, w) := generateCacheRef candidate2 w
    let candidate3 := { candidate2 with cacheRef := some ref }
    if answers.rangeExists .chunk1 then
      let r := andThen (w, [.readRecallRange .chunk1 candidate3 recallRange1Start])
        (reserveCacheSpace (some candidate.partitionNumber) (nonceMax recallRangeSize + 1))
      if answers.rangeExists .chunk2 then
        some (andThen (andThen r fun w => (w, [.readRecallRange .chunk2 candidate3 recallRange2Start]))
          (reserveCacheSpace candidate3.partitionNumber2 (nonceMax recallRangeSize + 1)))
      else some (andThen r fun w => (doNotCache recallRangeSize ref w, []))
    else some (w, [])
  else some (w, [.addDelayedTask ⟨.computed_h0, candidate⟩])

def handleComputedH1 (answers : Answers) (candidate : Candidate Session Peer) (w : Worker Session Peer) :
    Option (Worker Session Peer × List (Effect Session Peer)) := do
  let h1 ← candidate.h1
  if w.diff < (Bytes.toNat h1 : WithTop Nat) then
    (removeChunkFromCache .chunk1 candidate w).map fun r => andThen r fun w => (w, [.postSolution candidate])
  else
    let partition1 := some candidate.partitionNumber
    let partition2 := candidate.partitionNumber2
    let (found, cache2) ← cycleChunkCache candidate (.chunk1 candidate.chunk1 candidate.h1) w.chunkCache
    let w := { w with chunkCache := cache2 }
    match found with
    | none => some (w, [])
    | some .doNotCache =>
      some (andThen (w, if answers.coordinatedMining then [.computedH1 candidate w.diff] else [])
        (updateChunkCacheSize partition1 (-1)))
    | some (.chunk2 chunk2) =>
      some (andThen (andThen (w, [.computeH2 { candidate with chunk2 := chunk2 }])
        (updateChunkCacheSize partition1 (-1))) (updateChunkCacheSize partition2 (-1)))
    | some _ => none

def handleComputedH2 (answers : Answers) (candidate : Candidate Session Peer) (w : Worker Session Peer) :
    Option (Worker Session Peer × List (Effect Session Peer)) := do
  let h2 ← candidate.h2
  if getDifficulty w candidate < (Bytes.toNat h2 : WithTop Nat) then
    match candidate.cmLeadPeer with
    | none => some (w, [.postSolution candidate])
    | some _ => do
      let h0 ← candidate.h0
      let nonce ← candidate.nonce
      let (_, recallRange2Start) ← getRecallRange h0 candidate.partitionNumber candidate.partitionUpperBound
      match answers.readPoA (recallRange2Start + nonce * dataChunkSize) candidate.chunk2 candidate.miningAddress with
      | none => some (w, [])
      | some poa2 => some (w, [.computedH2ForPeer { candidate with poa2 := some poa2 }])
  else some (w, [])

def handleComputeH2ForPeer (answers : Answers) (candidate : Candidate Session Peer) (w : Worker Session Peer) :
    Option (Worker Session Peer × List (Effect Session Peer)) := do
  let h0 ← candidate.h0
  let (_, recallRange2Start) ← getRecallRange h0 candidate.partitionNumber candidate.partitionUpperBound
  let candidate2 := { candidate with partitionNumber2 := some (recallRange2Start / partitionSize) }
  let (ref, w) := generateCacheRef candidate2 w
  let candidate3 := { candidate2 with cacheRef := some ref }
  if answers.rangeExists .chunk2 then
    some (andThen (w, [.readRecallRange .chunk2 { candidate3 with cmH1List := [] } recallRange2Start])
      (cacheH1List ref candidate3))
  else some (w, [])

def handleTask (answers : Answers) (task : Task Session Peer) (w : Worker Session Peer) :
    Option (Worker Session Peer × List (Effect Session Peer)) :=
  match task.type with
  | .chunk1 => some (w, [.computeH1 task.candidate])
  | .chunk2 => handleChunk2 task.candidate w
  | .compute_h0 => some (w, [.computeH0 { task.candidate with seed := w.seed }])
  | .computed_h0 => handleComputedH0 recallRangeSize answers task.candidate w
  | .computed_h1 => handleComputedH1 answers task.candidate w
  | .computed_h2 => handleComputedH2 answers task.candidate w
  | .compute_h2_for_peer => handleComputeH2ForPeer answers task.candidate w

/-- `reset/1` -/
def resetWorker (w : Worker Session Peer) : Worker Session Peer × List (Effect Session Peer) :=
  ({ w with taskQueue := SortedMap.empty, chunkCache := fun _ => none, chunkCacheSize := fun _ => 0 },
    [.releaseCache w.chunkCacheSize])

inductive Cast (Session Peer : Type) where
  | setDifficulty (diff : WithTop Nat)
  | reset (diff : WithTop Nat)
  | newSession (sessionKey : Session) (seed : Bytes)
  | addTask (task : Task Session Peer)
  | handleTask (answers : Answers)
  | removeChunkFromCache (which : Which) (candidate : Candidate Session Peer)

/-- The messages of the worker. That of a new session comes with the seed of the session. -/
def handleCast (w : Worker Session Peer) : Cast Session Peer → Option (Worker Session Peer × List (Effect Session Peer))
  | .setDifficulty diff => some ({ w with diff := diff }, [])
  | .reset diff => some (andThen (resetWorker w) fun w => ({ w with diff := diff }, []))
  | .newSession sessionKey seed =>
    some (andThen (resetWorker w) fun w => ({ w with sessionKey := some sessionKey, seed := some seed }, []))
  | .addTask task =>
    if isSessionValid w task.candidate then
      some ({ w with
        taskQueue := w.taskQueue.insert (toLex (priority task.type task.candidate.stepNumber, w.nextRef)) task
        nextRef := w.nextRef + 1 }, [])
    else some (w, [])
  | .handleTask answers =>
    match w.taskQueue.entries with
    | [] => some (w, [])
    | (key, task) :: _ =>
      if isSessionValid w task.candidate then
        handleTask recallRangeSize answers task { w with taskQueue := w.taskQueue.erase key }
      else some (w, [])
  | .removeChunkFromCache which candidate => removeChunkFromCache which candidate w

end Code

section Steps

variable {Session Peer : Type} {w : Worker Session Peer} {partition partition' : Option Nat} {delta : Int}

@[simp] lemma andThen_fst {α : Type} (r : Worker Session Peer × List α) (f : Worker Session Peer → Worker Session Peer × List α) :
    (andThen r f).1 = (f r.1).1 := rfl

@[simp] lemma andThen_snd {α : Type} (r : Worker Session Peer × List α) (f : Worker Session Peer → Worker Session Peer × List α) :
    (andThen r f).2 = r.2 ++ (f r.1).2 := rfl

@[simp] lemma updateChunkCacheSize_size : (updateChunkCacheSize partition delta w).1.chunkCacheSize partition' =
    w.chunkCacheSize partition' + if partition = partition' then delta else 0 := by
  simp only [updateChunkCacheSize]
  by_cases h : partition' = partition
  · rw [h, Function.update_self, if_pos rfl]
  · rw [Function.update_of_ne h, if_neg (Ne.symm h), add_zero]

@[simp] lemma updateChunkCacheSize_cache : (updateChunkCacheSize partition delta w).1.chunkCache = w.chunkCache := rfl

@[simp] lemma updateChunkCacheSize_queue : (updateChunkCacheSize partition delta w).1.taskQueue = w.taskQueue := rfl

@[simp] lemma updateChunkCacheSize_session : (updateChunkCacheSize partition delta w).1.sessionKey = w.sessionKey := rfl

@[simp] lemma updateChunkCacheSize_ref : (updateChunkCacheSize partition delta w).1.nextRef = w.nextRef := rfl

@[simp] lemma updateChunkCacheSize_effects :
    (updateChunkCacheSize partition delta w).2 = [.updateChunkCacheSize partition delta] := rfl

@[simp] lemma reserveCacheSpace_eq (chunks : Nat) : (reserveCacheSpace partition chunks w).1 =
    (updateChunkCacheSize partition chunks w).1 := rfl

@[simp] lemma reserveCacheSpace_effects (chunks : Nat) :
    (reserveCacheSpace partition chunks w).2 = [.reserveCacheSpace partition chunks] := rfl

end Steps

end Arweave.Mining

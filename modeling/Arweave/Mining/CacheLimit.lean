import Arweave.Lib.Runs
import Arweave.Mining.Sessions

/-!
# The shared cache limit

The mining server counts the chunks of all workers for each partition. What a worker tells the server adds up to
its own counter, in every run.
-/

namespace Arweave.Mining

open Lib

section CacheLimit

variable {Session Peer : Type} {recallRangeSize : Nat} {w : Worker Session Peer} {partition partition' : Option Nat} {delta : Int}
  {candidate : Candidate Session Peer} {answers : Answers} {task : Task Session Peer}
  {r : Worker Session Peer × List (Effect Session Peer)}

/-- What an effect adds to the counter of a partition in the mining server. -/
def Effect.change (partition : Option Nat) : Effect Session Peer → Int
  | .updateChunkCacheSize partition' delta => if partition' = partition then delta else 0
  | .reserveCacheSpace partition' chunks => if partition' = partition then chunks else 0
  | .releaseCache sizes => -sizes partition
  | _ => 0

def shared (effects : List (Effect Session Peer)) (partition : Option Nat) : Int :=
  (effects.map (Effect.change partition)).sum

/-- The counters of the worker and of the mining server change alike. -/
def Balanced (w : Worker Session Peer) (r : Worker Session Peer × List (Effect Session Peer)) : Prop :=
  ∀ partition, r.1.chunkCacheSize partition = w.chunkCacheSize partition + shared r.2 partition

lemma shared_append (effects effects' : List (Effect Session Peer)) :
    shared (effects ++ effects') partition = shared effects partition + shared effects' partition := by
  rw [shared, List.map_append, List.sum_append, shared, shared]

lemma balanced_update : Balanced w (updateChunkCacheSize partition delta w) := by
  intro partition'
  simp [shared, Effect.change]

lemma balanced_reserve (chunks : Nat) : Balanced w (reserveCacheSpace partition chunks w) := by
  intro partition'
  simp [shared, Effect.change]

lemma Balanced.andThen {f : Worker Session Peer → Worker Session Peer × List (Effect Session Peer)} (h : Balanced w r)
    (hf : ∀ w, Balanced w (f w)) : Balanced w (Mining.andThen r f) := by
  intro partition
  rw [andThen_fst, andThen_snd, hf r.1 partition, h partition, shared_append, add_assoc]

lemma balanced_of_eq (hsizes : r.1.chunkCacheSize = w.chunkCacheSize) (hnone : ∀ partition, shared r.2 partition = 0) :
    Balanced w r := by
  intro partition
  rw [hsizes, hnone, add_zero]

lemma cycleChunkCache_balanced (cache : CacheKey → Option Entry) {effects : List (Effect Session Peer)}
    (hnone : ∀ partition, shared effects partition = 0) : Balanced w ({ w with chunkCache := cache }, effects) :=
  balanced_of_eq rfl hnone

lemma handleChunk2_balanced (h : handleChunk2 candidate w = some r) : Balanced w r := by
  simp only [handleChunk2, Option.bind_eq_bind, Option.bind_eq_some_iff] at h
  obtain ⟨⟨found, cache⟩, -, h⟩ := h
  cases found with
  | none =>
    cases h
    exact cycleChunkCache_balanced cache fun _ => rfl
  | some entry =>
    cases entry with
    | doNotCache =>
      cases h
      exact fun partition => balanced_update partition
    | chunk1 chunk h1 =>
      cases h
      exact ((cycleChunkCache_balanced cache fun _ => rfl).andThen fun _ => balanced_update).andThen fun _ => balanced_update
    | peerH1 h1 =>
      cases h
      exact (cycleChunkCache_balanced cache fun _ => rfl).andThen fun _ => balanced_update
    | chunk2 chunk => cases h

lemma balanced_give (which : Which) (partition1 partition2 : Option Nat) : Balanced w (match which with
    | .chunk1 => updateChunkCacheSize partition1 (-1) w
    | .chunk2 => updateChunkCacheSize partition2 (-1) w) := by
  cases which <;> exact balanced_update

lemma removeChunkFromCache_balanced {which : Which} (h : removeChunkFromCache which candidate w = some r) : Balanced w r := by
  simp only [removeChunkFromCache, Option.bind_eq_bind, Option.bind_eq_some_iff] at h
  obtain ⟨ref, -, h⟩ := h
  have hput : ∀ entry (w : Worker Session Peer), Balanced w
      (({ w with chunkCache := Function.update w.chunkCache (ref, candidate.nonce) entry }, []) :
        Worker Session Peer × List (Effect Session Peer)) := fun entry w => balanced_of_eq rfl fun _ => rfl
  have hfirst := balanced_give (w := w) which (some candidate.partitionNumber) candidate.partitionNumber2
  cases hslot : w.chunkCache (ref, candidate.nonce) with
  | none =>
    rw [hslot] at h
    cases h
    exact hfirst.andThen (hput _)
  | some entry =>
    rw [hslot] at h
    cases entry with
    | doNotCache =>
      cases h
      exact hfirst.andThen (hput _)
    | _ =>
      cases h
      exact (hfirst.andThen (hput _)).andThen fun _ => balanced_update

lemma doNotCache_sizes (ref : CacheRef) : (doNotCache recallRangeSize ref w).chunkCacheSize = w.chunkCacheSize := by
  rw [doNotCache]
  induction List.range (nonceMax recallRangeSize + 1) generalizing w with
  | nil => rfl
  | cons nonce nonces ih =>
    rw [List.foldl_cons, ih]

lemma cacheH1List_balanced (ref : CacheRef) : Balanced w (cacheH1List ref candidate w) := by
  refine (balanced_reserve _).andThen fun w => balanced_of_eq ?_ fun _ => rfl
  dsimp only
  induction candidate.cmH1List generalizing w with
  | nil => rfl
  | cons entry entries ih =>
    rw [List.foldl_cons, ih]

lemma handleComputedH0_balanced (h : handleComputedH0 recallRangeSize answers candidate w = some r) : Balanced w r := by
  unfold handleComputedH0 at h
  by_cases hspace : answers.hasCacheSpace
  swap
  · rw [if_neg hspace] at h
    cases h
    exact balanced_of_eq rfl fun _ => rfl
  rw [if_pos hspace] at h
  simp only [Option.bind_eq_bind, Option.bind_eq_some_iff] at h
  obtain ⟨h0, -, ⟨start1, start2⟩, -, h⟩ := h
  simp only [generateCacheRef] at h
  have hasks : ∀ which candidate' start (w w' : Worker Session Peer), w'.chunkCacheSize = w.chunkCacheSize →
      Balanced w (w', [.readRecallRange which candidate' start]) := fun _ _ _ _ _ hsizes => balanced_of_eq hsizes fun _ => rfl
  cases hexists1 : answers.rangeExists .chunk1 with
  | false =>
    rw [hexists1] at h
    cases h
    exact balanced_of_eq rfl fun _ => rfl
  | true =>
    rw [hexists1] at h
    cases hexists2 : answers.rangeExists .chunk2 with
    | true =>
      rw [hexists2] at h
      cases h
      exact (((hasks _ _ _ _ _ rfl).andThen fun _ => balanced_reserve _).andThen fun _ => hasks _ _ _ _ _ rfl).andThen
        fun _ => balanced_reserve _
    | false =>
      rw [hexists2] at h
      cases h
      exact ((hasks _ _ _ _ _ rfl).andThen fun _ => balanced_reserve _).andThen
        fun _ => balanced_of_eq (doNotCache_sizes _) fun _ => rfl

lemma handleComputedH1_balanced (h : handleComputedH1 answers candidate w = some r) : Balanced w r := by
  simp only [handleComputedH1, Option.bind_eq_bind, Option.bind_eq_some_iff] at h
  obtain ⟨h1, -, h⟩ := h
  by_cases hsolution : w.diff < (Bytes.toNat h1 : WithTop Nat)
  · rw [if_pos hsolution] at h
    obtain ⟨r', hr', rfl⟩ := Option.map_eq_some_iff.mp h
    exact (removeChunkFromCache_balanced hr').andThen fun _ => balanced_of_eq rfl fun _ => rfl
  · rw [if_neg hsolution] at h
    obtain ⟨⟨found, cache⟩, -, h⟩ := Option.bind_eq_some_iff.mp h
    cases found with
    | none =>
      cases h
      exact cycleChunkCache_balanced cache fun _ => rfl
    | some entry =>
      cases entry with
      | doNotCache =>
        cases h
        refine (cycleChunkCache_balanced cache fun _ => ?_).andThen fun _ => balanced_update
        split_ifs <;> rfl
      | chunk2 chunk =>
        cases h
        exact ((cycleChunkCache_balanced cache fun _ => rfl).andThen fun _ => balanced_update).andThen fun _ => balanced_update
      | _ => cases h

lemma handleComputedH2_balanced (h : handleComputedH2 answers candidate w = some r) : Balanced w r := by
  simp only [handleComputedH2, Option.bind_eq_bind, Option.bind_eq_some_iff] at h
  obtain ⟨h2, -, h⟩ := h
  split_ifs at h with hsolution
  · cases hpeer : candidate.cmLeadPeer with
    | none =>
      rw [hpeer] at h
      cases h
      exact balanced_of_eq rfl fun _ => rfl
    | some peer =>
      simp only [hpeer, Option.bind_eq_some_iff] at h
      obtain ⟨h0, -, nonce, -, range, -, h⟩ := h
      split at h <;> cases h <;> exact balanced_of_eq rfl fun _ => rfl
  · cases h
    exact balanced_of_eq rfl fun _ => rfl

lemma handleComputeH2ForPeer_balanced (h : handleComputeH2ForPeer answers candidate w = some r) : Balanced w r := by
  simp only [handleComputeH2ForPeer, Option.bind_eq_bind, Option.bind_eq_some_iff] at h
  obtain ⟨h0, -, ⟨start1, start2⟩, -, h⟩ := h
  simp only [generateCacheRef] at h
  split_ifs at h <;> cases h
  · exact Balanced.andThen (balanced_of_eq rfl fun _ => rfl) fun _ => cacheH1List_balanced _
  · exact balanced_of_eq rfl fun _ => rfl

variable [DecidableEq Session] {s s' : System Session Peer} {op : Op Session Peer}

lemma handleCast_balanced {cast : Cast Session Peer} (h : handleCast recallRangeSize w cast = some r) : Balanced w r := by
  cases cast with
  | setDifficulty diff =>
    cases h
    exact balanced_of_eq rfl fun _ => rfl
  | reset diff =>
    cases h
    exact fun partition => by simp [resetWorker, shared, Effect.change]
  | newSession sessionKey seed =>
    cases h
    exact fun partition => by simp [resetWorker, shared, Effect.change]
  | addTask task =>
    simp only [handleCast] at h
    split_ifs at h <;> cases h <;> exact balanced_of_eq rfl fun _ => rfl
  | handleTask answers =>
    simp only [handleCast] at h
    split at h
    · cases h
      exact balanced_of_eq rfl fun _ => rfl
    · split_ifs at h with hvalid
      · rename_i k task rest hqueue
        have hdequeued : Balanced { w with taskQueue := w.taskQueue.erase k } r := by
          cases htype : task.type <;> simp only [handleTask, htype] at h
          · exact handleComputedH2_balanced h
          · exact handleComputedH1_balanced h
          · exact handleComputeH2ForPeer_balanced h
          · exact handleChunk2_balanced h
          · cases h
            exact balanced_of_eq rfl fun _ => rfl
          · exact handleComputedH0_balanced h
          · cases h
            exact balanced_of_eq rfl fun _ => rfl
        exact hdequeued
      · cases h
        exact balanced_of_eq rfl fun _ => rfl
  | removeChunkFromCache which candidate => exact removeChunkFromCache_balanced h

lemma shared_eq_chunkCacheSize {candidate : Candidate Session Peer} {ops : List (Op Session Peer)}
    (hrun : ops.foldlM (System.step recallRangeSize) (System.start {} candidate) = some s) :
    shared s.effects partition = s.worker.chunkCacheSize partition := by
  refine foldlM_preserves (P := fun s : System Session Peer => shared s.effects partition = s.worker.chunkCacheSize partition)
    rfl (fun s op s' _ hs hstep => ?_) hrun
  simp only [System.step, Option.bind_eq_some_iff, Option.map_eq_some_iff] at hstep
  obtain ⟨cast, -, r, hr, rfl⟩ := hstep
  rw [shared_append, hs, handleCast_balanced hr partition]

end CacheLimit

end Arweave.Mining

import Mathlib.Algebra.BigOperators.Group.Finset.Piecewise
import Arweave.Mining.Worker

/-!
# The slots of the nonces

For every nonce of a candidate the progress of its two chunks is recorded: what has been asked of the reading
and hashing threads, and what has come back. The progress determines what the slot of the nonce holds and how
much of the reserved space it still takes. A reset starts a new epoch, and what was asked before is stale.
-/

namespace Arweave.Mining

open Lib

section Progress

variable {Session Peer : Type}

/-- The progress of a first chunk. That of a peer's candidate is not read: the peer has given its hash, or not. -/
inductive First where
  | reading
  | queued (chunk1 : Bytes)
  | hashing (chunk1 : Bytes)
  | hashQueued (chunk1 h1 : Bytes)
  | hashed (chunk1 h1 : Bytes)
  | solved (chunk1 h1 : Bytes)
  | skipped
  | lost
  | given (h1 : Bytes)
  | absent
  deriving DecidableEq

inductive Second where
  | reading
  | queued (chunk2 : Bytes)
  | read (chunk2 : Bytes)
  | skipped
  | lost
  | absent
  deriving DecidableEq

/-- What matters of a first chunk to its slot. -/
inductive FirstPhase where
  | waiting
  | hashed (chunk1 h1 : Bytes)
  | over
  | given (h1 : Bytes)
  | absent

inductive SecondPhase where
  | waiting
  | read (chunk2 : Bytes)
  | over
  | absent

def First.phase : First → FirstPhase
  | .hashed chunk1 h1 => .hashed chunk1 h1
  | .solved _ _ => .over
  | .skipped => .over
  | .given h1 => .given h1
  | .absent => .absent
  | _ => .waiting

lemma First.phase_hashed (solution : Prop) [Decidable solution] (chunk1 h1 : Bytes) :
    (if solution then First.solved chunk1 h1 else .hashed chunk1 h1).phase =
      if solution then .over else .hashed chunk1 h1 := by
  split_ifs <;> rfl

def Second.phase : Second → SecondPhase
  | .read chunk2 => .read chunk2
  | .skipped => .over
  | .absent => .absent
  | _ => .waiting

/-- What the slot holds. -/
def content : FirstPhase → SecondPhase → Option Entry
  | .waiting, .read chunk2 => some (.chunk2 (some chunk2))
  | .waiting, .over => some .doNotCache
  | .waiting, .absent => some .doNotCache
  | .hashed chunk1 h1, .waiting => some (.chunk1 (some chunk1) (some h1))
  | .over, .waiting => some .doNotCache
  | .given h1, .waiting => some (.peerH1 h1)
  | .given h1, .absent => some (.peerH1 h1)
  | .absent, .read chunk2 => some (.chunk2 (some chunk2))
  | _, _ => none

/-- The space that is still reserved for the first chunk. -/
def held1 : FirstPhase → SecondPhase → Int
  | .waiting, _ => 1
  | .hashed _ _, .waiting => 1
  | _, _ => 0

/-- The space that is still reserved for the second chunk. -/
def held2 : FirstPhase → SecondPhase → Int
  | .given _, .absent => 1
  | .absent, _ => 0
  | _, .waiting => 1
  | .waiting, .read _ => 1
  | _, _ => 0

/-- A nonce of a candidate that has been sent to the reading threads. -/
structure Progress (Session Peer : Type) where
  candidate : Candidate Session Peer
  epoch : Nat
  first : First
  second : Second

def Progress.content (p : Progress Session Peer) : Option Entry := Mining.content p.first.phase p.second.phase

/-- The space reserved in a partition. -/
def Progress.held (p : Progress Session Peer) (partition : Option Nat) : Int :=
  (if some p.candidate.partitionNumber = partition then held1 p.first.phase p.second.phase else 0) +
    if p.candidate.partitionNumber2 = partition then held2 p.first.phase p.second.phase else 0

/-- The second hashes asked for: one when both chunks have come and the first is no solution. -/
def Progress.h2s (p : Progress Session Peer) (nonce : Option Nat) : List (Candidate Session Peer) :=
  match p.first.phase, p.second.phase with
  | .hashed chunk1 h1, .read chunk2 =>
    [{ p.candidate with nonce := nonce, chunk1 := some chunk1, h1 := some h1, chunk2 := some chunk2 }]
  | .given h1, .read chunk2 => [{ p.candidate with nonce := nonce, h1 := some h1, chunk2 := some chunk2 }]
  | _, _ => []

lemma Progress.held_nonneg (p : Progress Session Peer) (partition : Option Nat) : 0 ≤ p.held partition := by
  have h1 : 0 ≤ held1 p.first.phase p.second.phase := by unfold held1; split <;> decide
  have h2 : 0 ≤ held2 p.first.phase p.second.phase := by unfold held2; split <;> decide
  unfold Progress.held
  split_ifs <;> omega

lemma Progress.h2s_eq_nil {p : Progress Session Peer} (h : ∀ chunk2, p.second.phase ≠ .read chunk2) (nonce : Option Nat) :
    p.h2s nonce = [] := by
  unfold Progress.h2s
  cases hfirst : p.first.phase <;> cases hsecond : p.second.phase <;> first | rfl | exact (h _ hsecond).elim

end Progress

section Slots

variable {Session Peer : Type} {w w' : Worker Session Peer} {effects : List (Effect Session Peer)} {key : CacheKey}
  {p p' : Progress Session Peer} {candidate : Candidate Session Peer} {chunk1 chunk2 h1 : Bytes}

/-- The second hash that an effect asks for, if it is for the nonce. -/
def h2For (key : CacheKey) : Effect Session Peer → Option (Candidate Session Peer)
  | .computeH2 candidate => if candidate.cacheRef = some key.1 ∧ candidate.nonce = key.2 then some candidate else none
  | _ => none

/-- The worker makes the slot of a nonce follow its progress, and nothing else. -/
structure Follows (key : CacheKey) (p p' : Progress Session Peer) (w w' : Worker Session Peer)
    (effects : List (Effect Session Peer)) : Prop where
  cache : w'.chunkCache = Function.update w.chunkCache key p'.content
  size : ∀ partition, w'.chunkCacheSize partition + p.held partition = w.chunkCacheSize partition + p'.held partition
  queue : w'.taskQueue = w.taskQueue
  session : w'.sessionKey = w.sessionKey
  ref : w'.nextRef = w.nextRef
  own : p.h2s key.2 ++ effects.filterMap (h2For key) = p'.h2s key.2
  others : ∀ key', key' ≠ key → effects.filterMap (h2For key') = []

lemma handleChunk2_follows (p' : Progress Session Peer) (hcontent : w.chunkCache key = p.content) (href : p.candidate.cacheRef = some key.1)
    (hsecond : p.second.phase = .waiting) (hcandidate' : p'.candidate = p.candidate) (hfirst' : p'.first.phase = p.first.phase)
    (hsecond' : p'.second.phase = .read chunk2) :
    ∃ r, handleChunk2 { p.candidate with nonce := key.2, chunk2 := some chunk2 } w = some r ∧ Follows key p p' w r.1 r.2 := by
  obtain ⟨ref, nonce⟩ := key
  rw [Progress.content, hsecond] at hcontent
  simp only [handleChunk2, cycleChunkCache, href, Option.bind_eq_bind, Option.bind_some]
  -- the slot holds what the progress of the first chunk says
  cases hfirst : p.first.phase <;> rw [hfirst] at hcontent <;> simp only [content] at hcontent <;> simp only [hcontent]
  all_goals
    refine ⟨_, rfl, ?_, fun partition => ?_, rfl, rfl, rfl, ?_, fun key' hne => ?_⟩
    · simp [Progress.content, hfirst', hsecond', hfirst, content]
    · simp only [andThen_fst, updateChunkCacheSize_size, Progress.held, hcandidate', hfirst', hsecond', hfirst, hsecond, held1,
        held2] <;> split_ifs <;> omega
    · simp [Progress.h2s, h2For, hcandidate', hfirst', hsecond', hfirst, hsecond, href]
    · simp [h2For] <;> exact fun h h' => hne (Prod.ext h.symm h'.symm)

/-- A first or second chunk is skipped, or not needed. -/
lemma removeChunkFromCache_follows (which : Which) (candidate : Candidate Session Peer) (p' : Progress Session Peer)
    (hcontent : w.chunkCache key = p.content)
    (href : candidate.cacheRef = some key.1) (hnonce : candidate.nonce = key.2)
    (hpartition1 : candidate.partitionNumber = p.candidate.partitionNumber)
    (hpartition2 : candidate.partitionNumber2 = p.candidate.partitionNumber2) (hcandidate' : p'.candidate = p.candidate)
    (hfirst : p.first.phase = .waiting ∨ p.first.phase = .over ∨ ∃ chunk1 h1, p.first.phase = .hashed chunk1 h1)
    (hmoves : which = .chunk1 ∧ p.first.phase = .waiting ∧ p'.first.phase = .over ∧ p'.second.phase = p.second.phase ∨
      which = .chunk2 ∧ p.second.phase = .waiting ∧ p'.first.phase = p.first.phase ∧ p'.second.phase = .over) :
    ∃ r, removeChunkFromCache which candidate w = some r ∧ Follows key p p' w r.1 r.2 := by
  obtain ⟨ref, nonce⟩ := key
  rw [Progress.content] at hcontent
  simp only [removeChunkFromCache, href, hnonce, Option.bind_eq_bind, Option.bind_some, hpartition1, hpartition2]
  obtain ⟨rfl, hwaiting, hfirst', hsecond'⟩ | ⟨rfl, hwaiting, hfirst', hsecond'⟩ := hmoves
  · cases hsecond : p.second.phase <;> rw [hwaiting, hsecond] at hcontent <;> simp only [content] at hcontent <;>
      simp only [hcontent]
    all_goals
      refine ⟨_, rfl, ?_, fun partition => ?_, rfl, rfl, rfl, ?_, fun key' hne => ?_⟩
      · simp [Progress.content, hfirst', hsecond', hsecond, content]
      · simp only [andThen_fst, updateChunkCacheSize_size, Progress.held, hcandidate', hfirst', hsecond', hwaiting, hsecond,
          held1, held2]
        split_ifs <;> omega
      · simp [Progress.h2s, h2For, hfirst', hsecond', hwaiting, hsecond]
      · simp [h2For]
  · obtain hfirst | hfirst | ⟨chunk1, h1, hfirst⟩ := hfirst
    all_goals
      rw [hfirst, hwaiting] at hcontent
      simp only [content] at hcontent
      simp only [hcontent]
      refine ⟨_, rfl, ?_, fun partition => ?_, rfl, rfl, rfl, ?_, fun key' hne => ?_⟩
      · simp [Progress.content, hfirst', hsecond', hfirst, content]
      · simp only [andThen_fst, updateChunkCacheSize_size, Progress.held, hcandidate', hfirst', hsecond', hwaiting, hfirst,
          held1, held2]
        split_ifs <;> omega
      · simp [Progress.h2s, h2For, hfirst', hsecond', hwaiting, hfirst]
      · simp [h2For]

/-- A first hash comes. A solution is posted, and the second chunk is not needed. -/
lemma handleComputedH1_follows (answers : Answers) (p' : Progress Session Peer) (hcontent : w.chunkCache key = p.content)
    (href : p.candidate.cacheRef = some key.1) (hfirst : p.first.phase = .waiting) (hcandidate' : p'.candidate = p.candidate)
    (hfirst' : p'.first.phase = if w.diff < (Bytes.toNat h1 : WithTop Nat) then .over else .hashed chunk1 h1)
    (hsecond' : p'.second.phase = p.second.phase) :
    ∃ r, handleComputedH1 answers { p.candidate with nonce := key.2, chunk1 := some chunk1, h1 := some h1 } w = some r ∧
      Follows key p p' w r.1 r.2 ∧ (w.diff < (Bytes.toNat h1 : WithTop Nat) →
        .postSolution { p.candidate with nonce := key.2, chunk1 := some chunk1, h1 := some h1 } ∈ r.2) := by
  by_cases hsolution : w.diff < (Bytes.toNat h1 : WithTop Nat)
  · rw [if_pos hsolution] at hfirst'
    obtain ⟨r, hr, hfollows⟩ := removeChunkFromCache_follows .chunk1
      { p.candidate with nonce := key.2, chunk1 := some chunk1, h1 := some h1 } p' hcontent href rfl rfl rfl
      hcandidate' (Or.inl hfirst) (Or.inl ⟨rfl, hfirst, hfirst', hsecond'⟩)
    refine ⟨andThen r fun w => (w, [.postSolution { p.candidate with nonce := key.2, chunk1 := some chunk1, h1 := some h1 }]),
      ?_, ?_, fun _ => ?_⟩
    · simp only [handleComputedH1, Option.bind_eq_bind, Option.bind_some, if_pos hsolution, hr, Option.map_some]
    · refine ⟨hfollows.cache, hfollows.size, hfollows.queue, hfollows.session, hfollows.ref, ?_, fun key' hne => ?_⟩
      · rw [andThen_snd, List.filterMap_append, ← List.append_assoc, hfollows.own]
        exact List.append_nil _
      · rw [andThen_snd, List.filterMap_append, hfollows.others key' hne]
        rfl
    · rw [andThen_snd]
      exact List.mem_append_right _ List.mem_cons_self
  · rw [if_neg hsolution] at hfirst'
    obtain ⟨ref, nonce⟩ := key
    rw [Progress.content, hfirst] at hcontent
    simp only [handleComputedH1, cycleChunkCache, href, Option.bind_eq_bind, Option.bind_some, if_neg hsolution]
    cases hsecond : p.second.phase <;> rw [hsecond] at hcontent <;> simp only [content] at hcontent <;> simp only [hcontent]
    all_goals
      refine ⟨_, rfl, ⟨?_, fun partition => ?_, rfl, rfl, rfl, ?_, fun key' hne => ?_⟩, fun h => (hsolution h).elim⟩
      · simp [Progress.content, hfirst', hsecond', hsecond, content]
      · simp only [andThen_fst, updateChunkCacheSize_size, Progress.held, hcandidate', hfirst', hsecond', hfirst, hsecond,
          held1, held2] <;> split_ifs <;> omega
      · cases answers.coordinatedMining <;>
          simp [Progress.h2s, h2For, hcandidate', hfirst', hsecond', hfirst, hsecond, href]
      · cases answers.coordinatedMining <;> simp [h2For] <;> exact fun h h' => hne (Prod.ext h.symm h'.symm)

end Slots

end Arweave.Mining

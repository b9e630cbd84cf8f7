import Mathlib.Algebra.Order.Field.Rat
import Mathlib.Data.Prod.Lex
import Mathlib.Tactic.Ring
import Arweave.Lib.Runs
import Arweave.Lib.Sorted

/-!
# The ratings of the peers

A server rates the peers by what they send and keeps the sums of the ratings beside them. At most ten ports of
a host are rated: a new one takes the place of the one that came first. The ratings are exact rationals.
-/

namespace Arweave.Peers

open Lib

abbrev IP := Nat ×ₗ Nat ×ₗ Nat ×ₗ Nat

/-- `⊥` is `empty_slot`. -/
abbrev Port := WithBot Nat

/-- A host and a port of it. -/
abbrev Peer := IP ×ₗ Port

structure Performance where
  release : Int := -1
  totalBytes : Nat := 0
  totalThroughput : ℚ := 0
  totalTransfers : Nat := 0
  averageLatency : ℚ := 0
  averageThroughput : ℚ := 0
  averageSuccess : ℚ := 1
  lifetimeRating : ℚ := 0
  currentRating : ℚ := 0

inductive Rating where
  | lifetime
  | current
  deriving DecidableEq

/-- The size of `?DEFAULT_PEER_PORT_MAP` -/
def maxSize : Nat := 10

abbrev PortMap := Vector Port maxSize

/-- `?DEFAULT_PEER_PORT_MAP` -/
def defaultPeerPortMap : PortMap := Vector.replicate maxSize ⊥

/-- The objects of the ets table. A total that is not stored is zero. -/
structure State where
  peers : SortedMap Peer Performance := SortedMap.empty
  peerIP : SortedMap IP (PortMap × Nat) := SortedMap.empty
  ratingTotal : Rating → ℚ := fun _ => 0

/-- A transfer, by its latency in milliseconds and its size. -/
structure Transfer where
  latency : ℚ
  dataSize : Nat

inductive RejectionReason where
  | failed_to_fetch_first_chunk
  | failed_to_fetch_second_chunk
  | failed_to_fetch_chunk
  | invalid_previous_solution_hash
  | invalid_last_retarget
  | invalid_difficulty
  | invalid_cumulative_difficulty
  | invalid_hash_preimage
  | invalid_nonce_limiter_seed_data
  | invalid_partition_number
  | invalid_nonce
  | invalid_pow
  | invalid_poa
  | invalid_poa2
  | invalid_nonce_limiter
  | invalid_nonce_limiter_cache_mismatch
  | invalid_chunk_hash
  | invalid_chunk2_hash
  | invalid_signature
  | invalid_proof_size
  | invalid_first_chunk
  | invalid_second_chunk
  | invalid_hash
  | invalid_timestamp
  | invalid_resigned_solution_hash
  | invalid_nonce_limiter_global_step_number
  | other
  deriving DecidableEq

/-- The messages that change ratings. A peer is added with the answer whether it is banned. The peer of a
rejected block may be `no_peer`. -/
inductive Message where
  | addPeer (peer : Peer) (release : Int) (isBanned : Bool)
  | validData (peer : Peer) (latency : ℚ) (dataSize concurrency : Nat)
  | invalidData (peer : Peer)
  | warning (peer : Peer)
  | blockRejected (reason : RejectionReason) (peer : Option Peer)

/-- `?MINIMUM_SUCCESS` -/
def minimumSuccess : ℚ := 8 / 10

/-- `?SUCCESS_ALPHA` -/
def successAlpha : ℚ := 35 / 1000

/-- `?THROUGHPUT_ALPHA` -/
def throughputAlpha : ℚ := 5 / 100

/-- `?PEER_PERMANENT_BLACKLIST` -/
def peerPermanentBlacklist : List Peer := []

/-- `?BLOCK_REJECTION_WARNING` -/
def blockRejectionWarning : List RejectionReason :=
  [.failed_to_fetch_first_chunk, .failed_to_fetch_second_chunk, .failed_to_fetch_chunk]

/-- `?BLOCK_REJECTION_BAN` -/
def blockRejectionBan : List RejectionReason :=
  [.invalid_previous_solution_hash, .invalid_last_retarget, .invalid_difficulty, .invalid_cumulative_difficulty,
    .invalid_hash_preimage, .invalid_nonce_limiter_seed_data, .invalid_partition_number, .invalid_nonce, .invalid_pow,
    .invalid_poa, .invalid_poa2, .invalid_nonce_limiter, .invalid_nonce_limiter_cache_mismatch, .invalid_chunk_hash,
    .invalid_chunk2_hash]

/-- `?BLOCK_REJECTION_IGNORE` -/
def blockRejectionIgnore : List RejectionReason :=
  [.invalid_signature, .invalid_proof_size, .invalid_first_chunk, .invalid_second_chunk, .invalid_hash,
    .invalid_timestamp, .invalid_resigned_solution_hash, .invalid_nonce_limiter_global_step_number]

def getIP (peer : Peer) : IP := (ofLex peer).1

def getPort (peer : Peer) : Port := (ofLex peer).2

def constructPeer (ip : IP) (port : Port) : Peer := toLex (ip, port)

def isLoopbackIP (peer : Peer) : Bool :=
  let (a, rest) := ofLex (getIP peer)
  let (b, rest) := ofLex rest
  let (c, d) := ofLex rest
  a = 127 ∨ a = 0 ∨ (a = 169 ∧ b = 254) ∨ (a = 255 ∧ b = 255 ∧ c = 255 ∧ d = 255)

def checkPeer (isBanned : Bool) (peer : Peer) : Bool :=
  !isLoopbackIP peer && peer ∉ peerPermanentBlacklist && !isBanned

def getPeerRating : Rating → Performance → ℚ
  | .lifetime, performance => performance.lifetimeRating
  | .current, performance => performance.currentRating

def getOrInitPerformance (peer : Peer) (s : State) : Performance := (s.peers.lookup peer).getD {}

def setPerformance (peer : Peer) (performance : Performance) (s : State) : State :=
  { s with peers := s.peers.insert peer performance }

def getTotalRating (rating : Rating) (s : State) : ℚ := s.ratingTotal rating

def setTotalRating (rating : Rating) (total : ℚ) (s : State) : State :=
  { s with ratingTotal := fun r => if r = rating then total else s.ratingTotal r }

def recalculateTotalRating (rating : Rating) (s : State) : State :=
  setTotalRating rating (s.peers.sum (getPeerRating rating)) s

/-- The position of a port, counted from zero. -/
def isInPortMap (port : Port) (portMap : PortMap) : Option Nat := portMap.toList.findIdx? (· = port)

def isPortMapEmpty (portMap : PortMap) : Bool := portMap.toList.all (· = ⊥)

def shiftPortMapLeft (portMap : PortMap) : PortMap :=
  ((List.range (maxSize - 1)).foldl (fun portMap n => portMap.setIfInBounds n (portMap[n + 1]?.getD ⊥)) portMap)
    |>.setIfInBounds (maxSize - 1) ⊥

def removePeerPort (peer : Peer) (s : State) : State :=
  match s.peerIP.lookup (getIP peer) with
  | none => s
  | some (portMap, position) =>
    match isInPortMap (getPort peer) portMap with
    | none => s
    | some n =>
      let portMap2 := portMap.setIfInBounds n ⊥
      if isPortMapEmpty portMap2 then { s with peerIP := s.peerIP.erase (getIP peer) }
      else { s with peerIP := s.peerIP.insert (getIP peer) (portMap2, position) }

def removePeer (removedPeer : Peer) (s : State) : State :=
  let performance := getOrInitPerformance removedPeer s
  let totalLifetimeRating := getTotalRating .lifetime s
  let totalCurrentRating := getTotalRating .current s
  let s := setTotalRating .lifetime (totalLifetimeRating - getPeerRating .lifetime performance) s
  let s := setTotalRating .current (totalCurrentRating - getPeerRating .current performance) s
  removePeerPort removedPeer { s with peers := s.peers.erase removedPeer }

def maybeRotatePeerPorts (peer : Peer) (s : State) : State :=
  let ip := getIP peer
  let port := getPort peer
  match s.peerIP.lookup ip with
  | none => { s with peerIP := s.peerIP.insert ip (defaultPeerPortMap.setIfInBounds 0 port, 1) }
  | some (portMap, position) =>
    match isInPortMap port portMap with
    | some _ => s
    | none =>
      if position < maxSize then
        { s with peerIP := s.peerIP.insert ip (portMap.setIfInBounds position port, position + 1) }
      else
        let removedPeer := constructPeer ip portMap[0]
        let portMap3 := (shiftPortMapLeft portMap).setIfInBounds (maxSize - 1) port
        removePeer removedPeer { s with peerIP := s.peerIP.insert ip (portMap3, maxSize) }

def calculateEMA (oldEMA value alpha : ℚ) : ℚ := alpha * value + (1 - alpha) * oldEMA

/-- The new performance of `update_rating/5`. -/
def rate (performance : Performance) (transfer : Option Transfer) (concurrency : Nat) (isSuccess : Bool) : Performance :=
  let totalBytes2 := match transfer with
    | none => performance.totalBytes
    | some t => performance.totalBytes + t.dataSize
  let averageLatency2 := match transfer with
    | none => performance.averageLatency
    | some t => calculateEMA performance.averageLatency t.latency throughputAlpha
  let averageThroughput2 := match transfer with
    | none => performance.averageThroughput
    | some t => calculateEMA performance.averageThroughput (t.dataSize * concurrency / t.latency) throughputAlpha
  let totalThroughput2 := match transfer with
    | none => performance.totalThroughput
    | some t => performance.totalThroughput + t.dataSize / t.latency
  let totalTransfers2 : Nat := match transfer with
    | none => performance.totalTransfers
    | some _ => performance.totalTransfers + 1
  let averageSuccess2 := calculateEMA performance.averageSuccess (if isSuccess then 1 else 0) successAlpha
  let lifetimeRating2 :=
    if totalTransfers2 > 0 then totalThroughput2 / totalTransfers2 * averageSuccess2 else performance.lifetimeRating
  let currentRating2 :=
    if averageThroughput2 > 0 then averageThroughput2 * averageSuccess2 else performance.currentRating
  { performance with
    totalBytes := totalBytes2
    totalThroughput := totalThroughput2
    totalTransfers := totalTransfers2
    averageLatency := averageLatency2
    averageThroughput := averageThroughput2
    averageSuccess := averageSuccess2
    lifetimeRating := lifetimeRating2
    currentRating := currentRating2 }

def updateRating (peer : Peer) (transfer : Option Transfer) (concurrency : Nat) (isSuccess : Bool) (s : State) :
    Performance × State :=
  -- failed requests earn no credit, and a latency of zero is as good as none
  let transfer := transfer.filter fun t => isSuccess && t.latency ≠ 0
  let performance := getOrInitPerformance peer s
  let performance2 := rate performance transfer concurrency isSuccess
  let totalLifetimeRating2 := getTotalRating .lifetime s - performance.lifetimeRating + performance2.lifetimeRating
  let totalCurrentRating2 := getTotalRating .current s - performance.currentRating + performance2.currentRating
  let s := maybeRotatePeerPorts peer s
  let s := setPerformance peer performance2 s
  let s := setTotalRating .lifetime totalLifetimeRating2 s
  (performance2, setTotalRating .current totalCurrentRating2 s)

def maybeAddPeer (isBanned : Bool) (peer : Peer) (release : Int) (s : State) : State :=
  let s := maybeRotatePeerPorts peer s
  match s.peers.lookup peer with
  | some performance =>
    if performance.release = release then s else setPerformance peer { performance with release := release } s
  | none => if checkPeer isBanned peer then setPerformance peer { release := release } s else s

/-- What the server does on a message. A rejection for an unknown reason is an error. A warning about a rejected
block is a message of its own, and bans are kept elsewhere. -/
def step (s : State) : Message → Option State
  | .addPeer peer release isBanned => some (maybeAddPeer isBanned peer release s)
  | .validData peer latency dataSize concurrency =>
    some (updateRating peer (some ⟨latency, dataSize⟩) concurrency true s).2
  | .invalidData peer => some (updateRating peer none 1 false s).2
  | .warning peer =>
    let (performance, s) := updateRating peer none 1 false s
    some (if performance.averageSuccess < minimumSuccess then removePeer peer s else s)
  | .blockRejected _ none => some s
  | .blockRejected reason (some peer) =>
    match decide (reason ∈ blockRejectionBan), decide (reason ∈ blockRejectionWarning),
      decide (reason ∈ blockRejectionIgnore) with
    | true, false, false => some (removePeer peer s)
    | false, true, false => some s
    | false, false, true => some s
    | _, _, _ => none

section Totals

variable {s : State} {peer p : Peer} {rating : Rating} {performance : Performance} {message : Message}

/-- The sum of the ratings of the stored peers. -/
def State.ratingSum (s : State) (rating : Rating) : ℚ := s.peers.sum (getPeerRating rating)

/-- What a total has over the sum of the ratings. -/
def State.drift (s : State) (rating : Rating) : ℚ := s.ratingTotal rating - s.ratingSum rating

/-- Recalculating a total does not change it. -/
def State.Exact (s : State) : Prop := ∀ rating, getTotalRating rating (recalculateTotalRating rating s) = getTotalRating rating s

/-- The peer that gives its port up for another one of its host. -/
def rotatedOut (peer : Peer) (s : State) : Option Peer :=
  match s.peerIP.lookup (getIP peer) with
  | none => none
  | some (portMap, position) =>
    if (isInPortMap (getPort peer) portMap).isNone ∧ maxSize ≤ position then some (constructPeer (getIP peer) portMap[0])
    else none

/-- The rating of the peer that gives its port up. -/
def lostRating (rating : Rating) (peer : Peer) (s : State) : ℚ :=
  ((rotatedOut peer s).map fun removed => getPeerRating rating (getOrInitPerformance removed s)).getD 0

/-- The peer whose rating a message updates. -/
def Message.rated : Message → Option Peer
  | .validData peer _ _ _ => some peer
  | .invalidData peer => some peer
  | .warning peer => some peer
  | _ => none

/-- No rated peer gives its port up while the rating of another one is updated. -/
def Message.Keeps (s : State) (message : Message) : Prop :=
  ∀ peer, message.rated = some peer → ∀ removed, rotatedOut peer s = some removed →
    ∀ rating, getPeerRating rating (getOrInitPerformance removed s) = 0

instance : Decidable (message.Keeps s) :=
  decidable_of_iff (∀ peer ∈ message.rated, ∀ removed ∈ rotatedOut peer s, ∀ rating ∈ [Rating.lifetime, .current],
    getPeerRating rating (getOrInitPerformance removed s) = 0) <| by
      refine forall₂_congr fun peer _ => forall₂_congr fun removed _ => ?_
      exact ⟨fun h rating => h rating (by cases rating <;> simp), fun h rating _ => h rating⟩

lemma exact_iff : s.Exact ↔ ∀ rating, s.drift rating = 0 := by
  refine forall_congr' fun rating => ?_
  simp only [recalculateTotalRating, getTotalRating, setTotalRating, State.drift, State.ratingSum, if_true, sub_eq_zero]
  exact eq_comm

@[simp] lemma setTotalRating_peers {total : ℚ} : (setTotalRating rating total s).peers = s.peers := rfl

@[simp] lemma setPerformance_ratingTotal : (setPerformance peer performance s).ratingTotal = s.ratingTotal := rfl

lemma removePeerPort_eq (peer : Peer) (s : State) : ∃ ports, removePeerPort peer s = { s with peerIP := ports } := by
  simp only [removePeerPort]
  split
  · exact ⟨s.peerIP, rfl⟩
  · split
    · exact ⟨s.peerIP, rfl⟩
    · split_ifs
      · exact ⟨_, rfl⟩
      · exact ⟨_, rfl⟩

lemma removePeer_eq (peer : Peer) (s : State) : ∃ ports, removePeer peer s = {
    peers := s.peers.erase peer
    peerIP := ports
    ratingTotal := fun rating => s.ratingTotal rating - getPeerRating rating (getOrInitPerformance peer s) } := by
  obtain ⟨ports, hports⟩ := removePeerPort_eq peer {
    peers := s.peers.erase peer
    peerIP := s.peerIP
    ratingTotal := fun rating => s.ratingTotal rating - getPeerRating rating (getOrInitPerformance peer s) }
  refine ⟨ports, Eq.trans ?_ hports⟩
  simp only [removePeer, setTotalRating, getTotalRating]
  congr 2
  funext rating
  cases rating <;> rfl

lemma removePeer_peers : (removePeer peer s).peers = s.peers.erase peer := by
  obtain ⟨ports, hremoved⟩ := removePeer_eq peer s
  rw [hremoved]

lemma getPeerRating_default : getPeerRating rating {} = 0 := by
  cases rating <;> rfl

lemma ratingSum_eq (peer : Peer) : s.ratingSum rating =
    getPeerRating rating (getOrInitPerformance peer s) + (s.peers.erase peer).sum (getPeerRating rating) := by
  rw [State.ratingSum, getOrInitPerformance]
  cases hlookup : s.peers.lookup peer with
  | none => rw [Option.getD_none, getPeerRating_default, zero_add, SortedMap.sum_erase_of_none hlookup]
  | some performance => rw [Option.getD_some, SortedMap.sum_erase hlookup]

lemma ratingSum_setPerformance : (setPerformance peer performance s).ratingSum rating =
    s.ratingSum rating - getPeerRating rating (getOrInitPerformance peer s) + getPeerRating rating performance := by
  rw [ratingSum_eq (s := s) peer, State.ratingSum, setPerformance, SortedMap.sum_insert]
  ring

lemma drift_removePeer : (removePeer peer s).drift rating = s.drift rating := by
  obtain ⟨ports, hremoved⟩ := removePeer_eq peer s
  rw [hremoved, State.drift, State.drift, ratingSum_eq (s := s) peer, State.ratingSum]
  ring

lemma maybeRotatePeerPorts_cases (peer : Peer) (s : State) :
    (rotatedOut peer s = none ∧ (maybeRotatePeerPorts peer s).peers = s.peers ∧
      (maybeRotatePeerPorts peer s).ratingTotal = s.ratingTotal) ∨
    ∃ removed ports, rotatedOut peer s = some removed ∧ removed ≠ peer ∧
      maybeRotatePeerPorts peer s = removePeer removed { s with peerIP := ports } := by
  cases hports : s.peerIP.lookup (getIP peer) with
  | none =>
    simp only [rotatedOut, maybeRotatePeerPorts, hports]
    exact Or.inl ⟨trivial, trivial, trivial⟩
  | some entry =>
    obtain ⟨portMap, position⟩ := entry
    cases hin : isInPortMap (getPort peer) portMap with
    | some n =>
      simp only [rotatedOut, maybeRotatePeerPorts, hports, hin]
      exact Or.inl ⟨if_neg (by simp), trivial, trivial⟩
    | none =>
      by_cases hroom : position < maxSize
      · simp only [rotatedOut, maybeRotatePeerPorts, hports, hin, if_pos hroom]
        exact Or.inl ⟨if_neg (by simp [hroom]), trivial, trivial⟩
      · simp only [rotatedOut, maybeRotatePeerPorts, hports, hin, if_neg hroom]
        refine Or.inr ⟨_, _, if_pos ⟨rfl, not_lt.mp hroom⟩, ?_, rfl⟩
        -- the port of the peer is not in the map, so it is not in the first slot
        intro heq
        have hport : portMap[0] = getPort peer := by rw [← heq]; rfl
        have hmem : portMap[0] ∈ portMap.toList := by simp
        simpa [hport] using List.findIdx?_eq_none_iff.mp hin _ hmem

lemma drift_maybeRotatePeerPorts : (maybeRotatePeerPorts peer s).drift rating = s.drift rating := by
  obtain ⟨-, hpeers, htotal⟩ | ⟨removed, ports, -, -, hremoved⟩ := maybeRotatePeerPorts_cases peer s
  · rw [State.drift, State.ratingSum, hpeers, htotal]
    rfl
  · rw [hremoved, drift_removePeer]
    rfl

lemma getOrInitPerformance_maybeRotatePeerPorts :
    getOrInitPerformance peer (maybeRotatePeerPorts peer s) = getOrInitPerformance peer s := by
  rw [getOrInitPerformance, getOrInitPerformance]
  obtain ⟨-, hpeers, -⟩ | ⟨removed, ports, -, hne, hremoved⟩ := maybeRotatePeerPorts_cases peer s
  · rw [hpeers]
  · rw [hremoved, removePeer_peers, SortedMap.lookup_erase, if_neg hne.symm]

lemma ratingSum_maybeRotatePeerPorts :
    (maybeRotatePeerPorts peer s).ratingSum rating = s.ratingSum rating - lostRating rating peer s := by
  rw [lostRating]
  obtain ⟨hnone, hpeers, -⟩ | ⟨removed, ports, hsome, -, hremoved⟩ := maybeRotatePeerPorts_cases peer s
  · rw [hnone, State.ratingSum, hpeers]
    exact (sub_zero _).symm
  · rw [hsome, hremoved, State.ratingSum, removePeer_peers, ratingSum_eq removed]
    simp

lemma drift_updateRating (transfer : Option Transfer) (concurrency : Nat) (isSuccess : Bool) :
    (updateRating peer transfer concurrency isSuccess s).2.drift rating = s.drift rating + lostRating rating peer s := by
  have hsum : (updateRating peer transfer concurrency isSuccess s).2.ratingSum rating =
      (setPerformance peer (updateRating peer transfer concurrency isSuccess s).1 (maybeRotatePeerPorts peer s)).ratingSum rating :=
    rfl
  have htotal : (updateRating peer transfer concurrency isSuccess s).2.ratingTotal rating =
      s.ratingTotal rating - getPeerRating rating (getOrInitPerformance peer s) +
        getPeerRating rating (updateRating peer transfer concurrency isSuccess s).1 := by
    cases rating <;> rfl
  rw [State.drift, State.drift, hsum, htotal, ratingSum_setPerformance, getOrInitPerformance_maybeRotatePeerPorts,
    ratingSum_maybeRotatePeerPorts]
  ring

lemma drift_maybeAddPeer {isBanned : Bool} {release : Int} :
    (maybeAddPeer isBanned peer release s).drift rating = s.drift rating := by
  have hset : ∀ performance, getPeerRating rating performance = getPeerRating rating (getOrInitPerformance peer (maybeRotatePeerPorts peer s)) →
      (setPerformance peer performance (maybeRotatePeerPorts peer s)).drift rating = s.drift rating := by
    intro performance hrating
    rw [State.drift, ratingSum_setPerformance, hrating, sub_add_cancel, ← @drift_maybeRotatePeerPorts s peer rating]
    rfl
  simp only [maybeAddPeer]
  cases hlookup : (maybeRotatePeerPorts peer s).peers.lookup peer with
  | none =>
    dsimp only
    split_ifs
    · exact hset _ (by rw [getOrInitPerformance, hlookup]; cases rating <;> rfl)
    · exact drift_maybeRotatePeerPorts
  | some performance =>
    dsimp only
    split_ifs
    · exact drift_maybeRotatePeerPorts
    · exact hset _ (by rw [getOrInitPerformance, hlookup]; cases rating <;> rfl)

lemma drift_step {t : State} (h : step s message = some t) :
    t.drift rating = s.drift rating + (message.rated.map fun peer => lostRating rating peer s).getD 0 := by
  cases message with
  | addPeer peer release isBanned =>
    cases h
    rw [drift_maybeAddPeer]
    exact (add_zero _).symm
  | validData peer latency dataSize concurrency =>
    cases h
    exact drift_updateRating _ _ _
  | invalidData peer =>
    cases h
    exact drift_updateRating _ _ _
  | warning peer =>
    cases h
    split_ifs
    · rw [drift_removePeer]
      exact drift_updateRating _ _ _
    · exact drift_updateRating _ _ _
  | blockRejected reason peer =>
    have hdrift : t.drift rating = s.drift rating := by
      cases peer with
      | none =>
        cases h
        rfl
      | some peer =>
        simp only [step] at h
        split at h <;> cases h
        · exact drift_removePeer
        · rfl
        · rfl
    rw [hdrift]
    exact (add_zero _).symm

lemma exact_step_iff (hs : s.Exact) : (∀ t, step s message = some t → t.Exact) ↔ message.Keeps s := by
  have hstep : ∀ t, step s message = some t → (t.Exact ↔ message.Keeps s) := by
    intro t h
    rw [exact_iff] at hs
    simp only [exact_iff, drift_step h, hs, zero_add, Message.Keeps]
    cases message.rated with
    | none => simp
    | some peer =>
      simp only [Option.map_some, Option.getD_some, Option.some.injEq, forall_eq', lostRating]
      cases rotatedOut peer s with
      | none => simp
      | some removed => simp
  cases hsome : step s message with
  | some t => simp only [Option.some.injEq, forall_eq', hstep t hsome]
  | none =>
    -- only the rejection of a block is refused, and it updates no rating
    refine ⟨fun _ peer hrated => ?_, fun _ t h => by cases h⟩
    cases message <;> cases hrated <;> cases hsome

/-- The totals are exact in all states of a run just as long as no rated peer gives its port up while the rating
of another one is updated. -/
theorem totals_exact_iff (hs : s.Exact) (messages : List Message) :
    (∀ before after t, messages = before ++ after → before.foldlM step s = some t → t.Exact) ↔
      Along step Message.Keeps s messages :=
  forall_reached_iff_along hs fun _ _ hs => exact_step_iff hs

lemma exact_start : ({} : State).Exact := by
  intro rating
  cases rating <;> rfl

def samplePeer (port : Nat) : Peer := constructPeer (toLex (1, toLex (2, toLex (3, 4)))) port

/-- Ten ports of a host are added. -/
def samplePorts : List Message := (List.range 10).map fun n => .addPeer (samplePeer (n + 1)) 1 false

theorem totals_exact_iff_sample :
    ∃ t, (samplePorts ++ [Message.validData (samplePeer 11) 1 1 1]).foldlM step {} = some t ∧ t.Exact := by
  have hrun : ((samplePorts ++ [Message.validData (samplePeer 11) 1 1 1]).foldlM step {}).isSome = true := by
    decide
  obtain ⟨t, ht⟩ := Option.isSome_iff_exists.mp hrun
  refine ⟨t, ht, (totals_exact_iff exact_start _).mpr ?_ _ [] t (List.append_nil _).symm ht⟩
  exact along_of_checkAlong (fun _ _ => of_decide_eq_true) (by decide)

/-- The first port of a host sends a byte in a millisecond. An eleventh one fails a request and takes its slot. -/
def rotatingMessages : List Message :=
  .validData (samplePeer 1) 1 1 1 :: samplePorts ++ [.invalidData (samplePeer 11)]

/-- The rating of a port that has been removed stays in the total. -/
theorem rotated_rating_stays : ∃ t, rotatingMessages.foldlM step {} = some t ∧ ¬t.Exact := by
  have hrun : (rotatingMessages.foldlM step {}).map (fun t =>
      (getTotalRating .lifetime t, getTotalRating .lifetime (recalculateTotalRating .lifetime t))) = some ((1 : ℚ), (0 : ℚ)) := by
    decide +kernel
  obtain ⟨t, ht, htotals⟩ := Option.map_eq_some_iff.mp hrun
  obtain ⟨htotal, hsum⟩ := Prod.mk.inj htotals
  refine ⟨t, ht, fun hexact => ?_⟩
  have heq := hexact .lifetime
  rw [htotal, hsum] at heq
  exact zero_ne_one heq

end Totals

end Arweave.Peers

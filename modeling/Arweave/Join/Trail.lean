import Arweave.Lib.Runs
import Arweave.BlockIndex.Index
import Arweave.Tx.Transaction

/-!
# Downloading the block trail

A joining node downloads the blocks behind the head block. It hands the requests out to its workers and
peers in turn, counts the blocks and transactions it still waits for, and asks again after a failure. A peer
that has failed too often is removed, and the last one ends the node.
-/

namespace Arweave.Join

open Lib BlockIndex Tx

section Code

/-- The fields of a block that the download reads. -/
structure Shadow where
  indepHash : Bytes
  height : Nat
  txs : List Bytes
  deriving DecidableEq

/-- A block with its transactions. -/
structure TrailBlock (Tagged : Type) where
  shadow : Shadow
  txs : List TX
  sizeTaggedTxs : Tagged

inductive Query where
  | block (h : Bytes)
  | tx (h txid : Bytes)
  deriving DecidableEq

/-- A request in the hands of a worker. -/
structure Request (Peer : Type) where
  worker : Nat
  query : Query
  peer : Peer
  deriving DecidableEq

/-- A block with the transactions that have come and the number of those that have not. -/
structure Fetched where
  shadow : Shadow
  txs : SortedMap Bytes TX
  awaiting : Int

variable {Peer : Type} [LinearOrder Peer] {Tagged : Type}

structure Loop (Peer : Type) [LinearOrder Peer] where
  workerQ : List Nat
  peerQ : List Peer
  retries : SortedMap Peer Nat
  fetched : SortedMap Bytes Fetched
  awaiting : Int
  requests : List (Request Peer)

inductive Status (Peer Tagged : Type) [LinearOrder Peer] where
  | running (loop : Loop Peer)
  | returned (blocks : List (TrailBlock Tagged))
  | halted

/-- `request_block` and `request_tx`. An empty queue of workers or peers is a crash. -/
def request (s : Loop Peer) (query : Query) : Option (Loop Peer) :=
  match s.workerQ, s.peerQ with
  | worker :: workerQ, peer :: peerQ =>
    some { s with
      workerQ := workerQ ++ [worker], peerQ := peerQ ++ [peer], requests := s.requests ++ [⟨worker, query, peer⟩] }
  | _, _ => none

def requestBlocks (s : Loop Peer) (trail : List Element) : Option (Loop Peer) :=
  trail.foldlM (fun s e => request s (.block e.h)) s

def requestTxs (s : Loop Peer) (h : Bytes) (txids : List Bytes) : Option (Loop Peer) :=
  txids.foldlM (fun s txid => request s (.tx h txid)) s

variable (sizeTag : List TX → Nat → Tagged)

/-- A block or a transaction that is not there is a crash. -/
def getBlocks (fetched : SortedMap Bytes Fetched) (trail : List Element) : Option (List (TrailBlock Tagged)) :=
  trail.mapM fun e => do
    let b ← fetched.lookup e.h
    let txs ← b.shadow.txs.mapM b.txs.lookup
    some ⟨b.shadow, txs, sizeTag txs b.shadow.height⟩

/-- The loop goes on while a block is awaited. -/
def continueLoop (trail : List Element) (s : Loop Peer) : Option (Status Peer Tagged) :=
  if s.awaiting = 0 then (getBlocks sizeTag s.fetched trail).map .returned else some (.running s)

def blockResponse (trail : List Element) (s : Loop Peer) (h : Bytes) (shadow : Shadow) : Option (Status Peer Tagged) := do
  let txCount : Int := shadow.txs.length
  let awaiting := if txCount = 0 then s.awaiting - 1 else s.awaiting
  let s ← requestTxs { s with fetched := s.fetched.insert h ⟨shadow, SortedMap.empty, txCount⟩, awaiting := awaiting } h
    shadow.txs
  continueLoop sizeTag trail s

def txResponse (trail : List Element) (s : Loop Peer) (h txid : Bytes) (tx : TX) : Option (Status Peer Tagged) := do
  let b ← s.fetched.lookup h
  let awaitingTx := b.awaiting - 1
  let awaiting := if awaitingTx = 0 then s.awaiting - 1 else s.awaiting
  continueLoop sizeTag trail
    { s with fetched := s.fetched.insert h ⟨b.shadow, b.txs.insert txid tx, awaitingTx⟩, awaiting := awaiting }

/-- A failed request, for a block or a transaction, is made again while the peers have attempts left. -/
def failure (s : Loop Peer) (query : Query) (peer : Peer) : Option (Status Peer Tagged) := do
  let attempts ← s.retries.lookup peer
  if 0 < attempts then (request { s with retries := s.retries.insert peer (attempts - 1) } query).map .running
  else if s.peerQ = [peer] then some .halted
  else if peer ∈ s.peerQ then (request { s with peerQ := s.peerQ.erase peer } query).map .running
  else (request s query).map .running

variable (shadow : Bytes → Shadow) (getTx : Bytes → TX)

/-- The loop receives the answer to a request. A successful one brings the block or the transaction itself. -/
def respond (trail : List Element) (s : Loop Peer) (r : Request Peer) (ok : Bool) : Option (Status Peer Tagged) :=
  let s := { s with requests := s.requests.erase r }
  match r.query, ok with
  | .block h, true => blockResponse sizeTag trail s h (shadow h)
  | .tx h txid, true => txResponse sizeTag trail s h txid (getTx txid)
  | query, false => failure s query r.peer

def getBlockTrail (workers : List Nat) (peers : List Peer) (trail : List Element) (attempts : Nat) :
    Option (Status Peer Tagged) :=
  match trail with
  | [] => some (.returned [])
  | _ => (requestBlocks ⟨workers, peers, peers.foldl (fun m p => m.insert p attempts) SortedMap.empty,
      SortedMap.empty, trail.length, []⟩ trail).map .running

/-- The states of the loop in all orders of answers. -/
inductive Reaches (trail : List Element) (start : Option (Status Peer Tagged)) : Status Peer Tagged → Prop where
  | start {st : Status Peer Tagged} (h : start = some st) : Reaches trail start st
  | step {s : Loop Peer} {r : Request Peer} {ok : Bool} {st : Status Peer Tagged} (hs : Reaches trail start (.running s))
    (hr : r ∈ s.requests) (h : respond sizeTag shadow getTx trail s r ok = some st) : Reaches trail start st

end Code

section Counts

variable {shadow : Bytes → Shadow} {getTx : Bytes → TX} {hashes : List Bytes} {fetched : SortedMap Bytes Fetched}
  {awaiting : Int} {queries queries' : List Query} {h txid : Bytes}

def Query.isTxOf (h : Bytes) : Query → Bool
  | .block _ => false
  | .tx h' _ => h' = h

/-- A block that has not come, or waits for a transaction. -/
def incomplete (fetched : SortedMap Bytes Fetched) (h : Bytes) : Bool :=
  match fetched.lookup h with
  | none => true
  | some b => b.awaiting ≠ 0

/-- The counters agree with the requests that have not been answered. -/
structure Counts (shadow : Bytes → Shadow) (getTx : Bytes → TX) (hashes : List Bytes) (fetched : SortedMap Bytes Fetched)
    (awaiting : Int) (queries : List Query) : Prop where
  asked : ∀ h ∈ hashes, fetched.lookup h = none → .block h ∈ queries
  once : ∀ h, queries.count (.block h) ≤ 1
  block : ∀ h, .block h ∈ queries → h ∈ hashes ∧ fetched.lookup h = none
  tx : ∀ h txid, .tx h txid ∈ queries → fetched.lookup h ≠ none
  come : ∀ h b, fetched.lookup h = some b → h ∈ hashes ∧ b.shadow = shadow h ∧ b.awaiting = queries.countP (Query.isTxOf h)
  txs : ∀ h b, fetched.lookup h = some b → ∀ txid t, b.txs.lookup txid = some t → t = getTx txid
  needed : ∀ h b, fetched.lookup h = some b → ∀ txid ∈ b.shadow.txs, b.txs.lookup txid ≠ none ∨ .tx h txid ∈ queries
  count : awaiting = hashes.countP (incomplete fetched)

lemma Counts.perm (hc : Counts shadow getTx hashes fetched awaiting queries) (hperm : queries.Perm queries') :
    Counts shadow getTx hashes fetched awaiting queries' := by
  refine ⟨?_, ?_, ?_, ?_, ?_, hc.txs, ?_, hc.count⟩
  · intro h hh hnone
    exact hperm.mem_iff.mp (hc.asked h hh hnone)
  · intro h
    rw [← hperm.count_eq]
    exact hc.once h
  · intro h hmem
    exact hc.block h (hperm.mem_iff.mpr hmem)
  · intro h txid hmem
    exact hc.tx h txid (hperm.mem_iff.mpr hmem)
  · intro h b hb
    rw [← hperm.countP_eq]
    exact hc.come h b hb
  · intro h b hb txid htxid
    rw [← hperm.mem_iff]
    exact hc.needed h b hb txid htxid

lemma countP_change {α : Type} [DecidableEq α] {l : List α} {p : α → Bool} (p' : α → Bool) {x : α} (hl : l.Nodup) (hx : x ∈ l)
    (h : ∀ y, y ≠ x → p' y = p y) :
    l.countP p' + (if p x then 1 else 0) = l.countP p + (if p' x then 1 else 0) := by
  have hperm := List.perm_cons_erase hx
  have hrest : (l.erase x).countP p' = (l.erase x).countP p := by
    apply List.countP_congr
    intro y hy
    rw [h y (by rintro rfl; exact hl.not_mem_erase hy)]
  rw [hperm.countP_eq, hperm.countP_eq, List.countP_cons, List.countP_cons, hrest]
  omega

lemma countP_incomplete_insert (hnodup : hashes.Nodup) (hh : h ∈ hashes) (hbefore : incomplete fetched h = true) (b : Fetched) :
    (hashes.countP (incomplete (fetched.insert h b)) : Int) =
      if b.awaiting = 0 then (hashes.countP (incomplete fetched) : Int) - 1 else hashes.countP (incomplete fetched) := by
  have hchange := countP_change (p := incomplete fetched) (incomplete (fetched.insert h b)) hnodup hh (by
    intro h' hne
    rw [incomplete, incomplete, SortedMap.lookup_insert, if_neg hne])
  have hafter : incomplete (fetched.insert h b) h = decide (b.awaiting ≠ 0) := by
    rw [incomplete, SortedMap.lookup_insert, if_pos rfl]
  rw [hbefore, hafter] at hchange
  split_ifs with hzero
  · rw [if_pos rfl, if_neg (by simp [hzero])] at hchange
    omega
  · rw [if_pos rfl, if_pos (decide_eq_true hzero)] at hchange
    omega

lemma counts_start (shadow : Bytes → Shadow) (getTx : Bytes → TX) (hashes : List Bytes) (hnodup : hashes.Nodup) :
    Counts shadow getTx hashes SortedMap.empty hashes.length (hashes.map .block) := by
  refine ⟨?_, ?_, ?_, ?_, ?_, ?_, ?_, ?_⟩
  · intro h hh _
    exact List.mem_map.mpr ⟨h, hh, rfl⟩
  · intro h
    exact List.nodup_iff_count_le_one.mp (hnodup.map fun _ _ heq => Query.block.inj heq) _
  · intro h hmem
    obtain ⟨h', hh', heq⟩ := List.mem_map.mp hmem
    cases heq
    exact ⟨hh', rfl⟩
  · intro h txid hmem
    obtain ⟨h', -, heq⟩ := List.mem_map.mp hmem
    cases heq
  · rintro _ _ ⟨⟩
  · rintro _ _ ⟨⟩
  · rintro _ _ ⟨⟩
  · have hall : hashes.countP (incomplete SortedMap.empty) = hashes.length := List.countP_eq_length.mpr fun _ _ => rfl
    rw [hall]

/-- A block comes, and its transactions are asked for. -/
lemma Counts.block_come (hnodup : hashes.Nodup) (hc : Counts shadow getTx hashes fetched awaiting (.block h :: queries)) :
    Counts shadow getTx hashes (fetched.insert h ⟨shadow h, SortedMap.empty, (shadow h).txs.length⟩)
      (if ((shadow h).txs.length : Int) = 0 then awaiting - 1 else awaiting) (queries ++ (shadow h).txs.map (.tx h)) := by
  obtain ⟨hh, hnone⟩ := hc.block h List.mem_cons_self
  have hgone : .block h ∉ queries := by
    have honce := hc.once h
    rw [List.count_cons_self] at honce
    exact List.count_eq_zero.mp (by omega)
  have hnotx : queries.countP (Query.isTxOf h) = 0 := by
    rw [List.countP_eq_zero]
    intro q hq htx
    cases q with
    | block h' => cases htx
    | tx h' txid =>
      have heq : h' = h := by simpa [Query.isTxOf] using htx
      subst heq
      exact hc.tx _ txid (List.mem_cons_of_mem _ hq) hnone
  have hnew : ∀ h', ((shadow h).txs.map (Query.tx h)).countP (Query.isTxOf h') = if h' = h then (shadow h).txs.length else 0 := by
    intro h'
    rw [List.countP_map]
    split_ifs with heq
    · rw [List.countP_eq_length]
      intro txid _
      simp [Query.isTxOf, heq]
    · rw [List.countP_eq_zero]
      intro txid _
      simp [Query.isTxOf, Ne.symm heq]
  refine ⟨?_, ?_, ?_, ?_, ?_, ?_, ?_, ?_⟩
  · intro h' hh' hlookup
    rw [SortedMap.lookup_insert] at hlookup
    split_ifs at hlookup with heq
    obtain hmem | hmem := List.mem_cons.mp (hc.asked h' hh' hlookup)
    · cases hmem
      exact (heq rfl).elim
    · exact List.mem_append_left _ hmem
  · intro h'
    have honce := hc.once h'
    have hnone' : ((shadow h).txs.map (Query.tx h)).count (.block h') = 0 := by
      rw [List.count_eq_zero]
      intro hmem
      obtain ⟨_, -, heq⟩ := List.mem_map.mp hmem
      cases heq
    rw [List.count_cons] at honce
    rw [List.count_append, hnone']
    omega
  · intro h' hmem
    obtain hold | hmem := List.mem_append.mp hmem
    · obtain ⟨hh', hlookup⟩ := hc.block h' (List.mem_cons_of_mem _ hold)
      refine ⟨hh', ?_⟩
      rw [SortedMap.lookup_insert, if_neg]
      · exact hlookup
      · rintro rfl
        exact hgone hold
    · obtain ⟨_, -, heq⟩ := List.mem_map.mp hmem
      cases heq
  · intro h' txid hmem
    rw [SortedMap.lookup_insert]
    split_ifs with heq
    · simp
    · obtain hmem | hmem := List.mem_append.mp hmem
      · exact hc.tx h' txid (List.mem_cons_of_mem _ hmem)
      · obtain ⟨_, -, heq'⟩ := List.mem_map.mp hmem
        cases heq'
        exact (heq rfl).elim
  · intro h' b hb
    rw [List.countP_append, hnew]
    rw [SortedMap.lookup_insert] at hb
    split_ifs at hb ⊢ with heq
    · cases hb
      rw [heq]
      refine ⟨hh, rfl, ?_⟩
      simp only
      omega
    · obtain ⟨hh', hshadow, hawaiting⟩ := hc.come h' b hb
      exact ⟨hh', hshadow, by simpa [Query.isTxOf] using hawaiting⟩
  · intro h' b hb txid t ht
    rw [SortedMap.lookup_insert] at hb
    split_ifs at hb with heq
    · cases hb
      cases ht
    · exact hc.txs h' b hb txid t ht
  · intro h' b hb txid htxid
    rw [SortedMap.lookup_insert] at hb
    split_ifs at hb with heq
    · cases hb
      rw [heq]
      exact Or.inr (List.mem_append_right _ (List.mem_map.mpr ⟨txid, htxid, rfl⟩))
    · obtain hlookup | hmem := hc.needed h' b hb txid htxid
      · exact Or.inl hlookup
      · refine Or.inr (List.mem_append_left _ ?_)
        simpa using hmem
  · have hbefore : incomplete fetched h = true := by rw [incomplete, hnone]
    rw [countP_incomplete_insert hnodup hh hbefore, hc.count]

/-- A transaction comes. -/
lemma Counts.tx_come (hnodup : hashes.Nodup) (hc : Counts shadow getTx hashes fetched awaiting (.tx h txid :: queries)) :
    ∃ b, fetched.lookup h = some b ∧
      Counts shadow getTx hashes (fetched.insert h ⟨b.shadow, b.txs.insert txid (getTx txid), b.awaiting - 1⟩)
        (if b.awaiting - 1 = 0 then awaiting - 1 else awaiting) queries := by
  obtain ⟨b, hb⟩ := Option.ne_none_iff_exists'.mp (hc.tx h txid List.mem_cons_self)
  obtain ⟨hh, hshadow, hawaiting⟩ := hc.come h b hb
  have hself : Query.isTxOf h (.tx h txid) = true := by simp [Query.isTxOf]
  rw [List.countP_cons_of_pos hself] at hawaiting
  refine ⟨b, hb, ?_, ?_, ?_, ?_, ?_, ?_, ?_, ?_⟩
  · intro h' hh' hlookup
    rw [SortedMap.lookup_insert] at hlookup
    split_ifs at hlookup
    simpa using hc.asked h' hh' hlookup
  · intro h'
    simpa using hc.once h'
  · intro h' hmem
    obtain ⟨hh', hlookup⟩ := hc.block h' (List.mem_cons_of_mem _ hmem)
    refine ⟨hh', ?_⟩
    rw [SortedMap.lookup_insert, if_neg]
    · exact hlookup
    · rintro rfl
      rw [hb] at hlookup
      cases hlookup
  · intro h' txid' hmem
    rw [SortedMap.lookup_insert]
    split_ifs
    · simp
    · exact hc.tx h' txid' (List.mem_cons_of_mem _ hmem)
  · intro h' b' hb'
    rw [SortedMap.lookup_insert] at hb'
    split_ifs at hb' with heq
    · cases hb'
      rw [heq]
      refine ⟨hh, hshadow, ?_⟩
      simp only
      omega
    · obtain ⟨hh', hshadow', hawaiting'⟩ := hc.come h' b' hb'
      rw [List.countP_cons_of_neg (by simp [Query.isTxOf, Ne.symm heq])] at hawaiting'
      exact ⟨hh', hshadow', hawaiting'⟩
  · intro h' b' hb' txid' t ht
    rw [SortedMap.lookup_insert] at hb'
    split_ifs at hb' with heq
    · cases hb'
      simp only [SortedMap.lookup_insert] at ht
      split_ifs at ht with hid
      · cases ht
        rw [hid]
      · exact hc.txs h b hb txid' t ht
    · exact hc.txs h' b' hb' txid' t ht
  · intro h' b' hb' txid' htxid'
    rw [SortedMap.lookup_insert] at hb'
    split_ifs at hb' with heq
    · cases hb'
      simp only [SortedMap.lookup_insert]
      by_cases hid : txid' = txid
      · exact Or.inl (by simp [hid])
      · rw [if_neg hid]
        obtain hlookup | hmem := hc.needed h b hb txid' htxid'
        · exact Or.inl hlookup
        · refine Or.inr ?_
          rw [heq]
          simpa [hid] using hmem
    · obtain hlookup | hmem := hc.needed h' b' hb' txid' htxid'
      · exact Or.inl hlookup
      · exact Or.inr (by simpa [heq] using hmem)
  · have hbefore : incomplete fetched h = true := by
      rw [incomplete, hb]
      simp only [ne_eq, decide_eq_true_eq]
      omega
    rw [countP_incomplete_insert hnodup hh hbefore, hc.count]

lemma Counts.awaiting_ne_zero (hc : Counts shadow getTx hashes fetched awaiting queries) {query : Query}
    (hq : query ∈ queries) : awaiting ≠ 0 := by
  have hmem : ∃ h ∈ hashes, incomplete fetched h = true := by
    cases query with
    | block h =>
      obtain ⟨hh, hnone⟩ := hc.block h hq
      exact ⟨h, hh, by rw [incomplete, hnone]⟩
    | tx h txid =>
      obtain ⟨b, hb⟩ := Option.ne_none_iff_exists'.mp (hc.tx h txid hq)
      obtain ⟨hh, -, hawaiting⟩ := hc.come h b hb
      have hpos : 0 < queries.countP (Query.isTxOf h) := List.countP_pos_iff.mpr ⟨_, hq, by simp [Query.isTxOf]⟩
      refine ⟨h, hh, ?_⟩
      rw [incomplete, hb]
      simp only [ne_eq, decide_eq_true_eq]
      omega
  have hpos := List.countP_pos_iff.mpr hmem
  have hcount := hc.count
  omega

lemma Counts.all_come (hc : Counts shadow getTx hashes fetched awaiting queries) (h0 : queries = []) :
    awaiting = 0 ∧ ∀ h ∈ hashes, ∃ b, fetched.lookup h = some b ∧ b.shadow = shadow h ∧
      ∀ txid ∈ b.shadow.txs, b.txs.lookup txid = some (getTx txid) := by
  have hcome : ∀ h ∈ hashes, ∃ b, fetched.lookup h = some b ∧ b.shadow = shadow h ∧ b.awaiting = 0 ∧
      ∀ txid ∈ b.shadow.txs, b.txs.lookup txid = some (getTx txid) := by
    intro h hh
    cases hlookup : fetched.lookup h with
    | none =>
      have hmem := hc.asked h hh hlookup
      rw [h0] at hmem
      cases hmem
    | some b =>
      obtain ⟨-, hshadow, hawaiting⟩ := hc.come h b hlookup
      rw [h0, List.countP_nil] at hawaiting
      refine ⟨b, rfl, hshadow, hawaiting, ?_⟩
      intro txid htxid
      obtain hne | hmem := hc.needed h b hlookup txid htxid
      · obtain ⟨t, ht⟩ := Option.ne_none_iff_exists'.mp hne
        rw [ht, hc.txs h b hlookup txid t ht]
      · rw [h0] at hmem
        cases hmem
  constructor
  · have hzero : hashes.countP (incomplete fetched) = 0 := by
      rw [List.countP_eq_zero]
      intro h hh
      obtain ⟨b, hb, -, hawaiting, -⟩ := hcome h hh
      rw [incomplete, hb]
      simp [hawaiting]
    rw [hc.count, hzero]
    rfl
  · intro h hh
    obtain ⟨b, hb, hshadow, -, htxs⟩ := hcome h hh
    exact ⟨b, hb, hshadow, htxs⟩

end Counts

section Requests

variable {Peer : Type} [LinearOrder Peer] {s s' s'' : Loop Peer} {asked asked' : List Query}

/-- What the requests that have not been answered ask for. -/
def Loop.queries (s : Loop Peer) : List Query := s.requests.map (·.query)

/-- New requests, made to peers of the queue in turn. -/
structure Asks (s s' : Loop Peer) (asked : List Query) : Prop where
  workers : s'.workerQ ≠ []
  peers : s'.peerQ.Perm s.peerQ
  retries : s'.retries = s.retries
  fetched : s'.fetched = s.fetched
  awaiting : s'.awaiting = s.awaiting
  requests : ∃ rs, s'.requests = s.requests ++ rs ∧ rs.map (·.query) = asked ∧ ∀ r ∈ rs, r.peer ∈ s.peerQ

lemma Asks.trans (h : Asks s s' asked) (h' : Asks s' s'' asked') : Asks s s'' (asked ++ asked') := by
  obtain ⟨rs, hrs, hasked, hpeers⟩ := h.requests
  obtain ⟨rs', hrs', hasked', hpeers'⟩ := h'.requests
  refine ⟨h'.workers, h'.peers.trans h.peers, h'.retries.trans h.retries, h'.fetched.trans h.fetched,
    h'.awaiting.trans h.awaiting, rs ++ rs', ?_, ?_, ?_⟩
  · rw [hrs', hrs, List.append_assoc]
  · rw [List.map_append, hasked, hasked']
  · intro r hr
    obtain hr | hr := List.mem_append.mp hr
    · exact hpeers r hr
    · exact h.peers.mem_iff.mp (hpeers' r hr)

lemma request_asks (hw : s.workerQ ≠ []) (hp : s.peerQ ≠ []) (query : Query) :
    ∃ s', request s query = some s' ∧ Asks s s' [query] := by
  obtain ⟨worker, workerQ, hworkers⟩ := List.exists_cons_of_ne_nil hw
  obtain ⟨peer, peerQ, hpeers⟩ := List.exists_cons_of_ne_nil hp
  refine ⟨{ s with
    workerQ := workerQ ++ [worker], peerQ := peerQ ++ [peer], requests := s.requests ++ [⟨worker, query, peer⟩] }, ?_,
    ?_, ?_, rfl, rfl, rfl, [⟨worker, query, peer⟩], rfl, rfl, ?_⟩
  · simp only [request, hworkers, hpeers]
  · simp
  · rw [hpeers]
    exact List.perm_append_singleton peer peerQ
  · intro r hr
    rw [List.mem_singleton.mp hr, hpeers]
    exact List.mem_cons_self

lemma foldlM_request_asks {ι : Type} (q : ι → Query) (l : List ι) (hw : s.workerQ ≠ []) (hp : s.peerQ ≠ []) :
    ∃ s', l.foldlM (fun s i => request s (q i)) s = some s' ∧ Asks s s' (l.map q) := by
  induction l generalizing s with
  | nil => exact ⟨s, rfl, hw, List.Perm.refl _, rfl, rfl, rfl, [], (List.append_nil _).symm, rfl, by simp⟩
  | cons i l ih =>
    obtain ⟨s1, hs1, hasks⟩ := request_asks hw hp (q i)
    have hp1 : s1.peerQ ≠ [] := by
      rw [← List.length_pos_iff, hasks.peers.length_eq, List.length_pos_iff]
      exact hp
    obtain ⟨s', hs', hrest⟩ := ih hasks.workers hp1
    refine ⟨s', ?_, hasks.trans hrest⟩
    rw [List.foldlM_cons, hs1]
    exact hs'

end Requests

section Steps

variable {Peer Tagged : Type} [LinearOrder Peer] {sizeTag : List TX → Nat → Tagged} {shadow : Bytes → Shadow}
  {getTx : Bytes → TX} {trail : List Element} {s s' : Loop Peer} {r : Request Peer} {ok : Bool} {query : Query}
  {asked : List Query} {status : Status Peer Tagged}

/-- The queues are in use, every peer has its attempts, the counters agree with the requests, and something is awaited. -/
structure Loop.Sound (shadow : Bytes → Shadow) (getTx : Bytes → TX) (trail : List Element) (s : Loop Peer) : Prop where
  workers : s.workerQ ≠ []
  peers : s.peerQ ≠ []
  known : ∀ p, (p ∈ s.peerQ ∨ ∃ r ∈ s.requests, r.peer = p) → s.retries.lookup p ≠ none
  counts : Counts shadow getTx (trail.map (·.h)) s.fetched s.awaiting s.queries
  waiting : s.requests ≠ []

/-- The blocks of the trail in its order, with their transactions in the order of the block. -/
def trailBlocks (sizeTag : List TX → Nat → Tagged) (shadow : Bytes → Shadow) (getTx : Bytes → TX) (trail : List Element) :
    List (TrailBlock Tagged) :=
  trail.map fun e => ⟨shadow e.h, (shadow e.h).txs.map getTx, sizeTag ((shadow e.h).txs.map getTx) (shadow e.h).height⟩

lemma mapM_eq_some_map {α β : Type} {f : α → Option β} {g : α → β} {l : List α} (h : ∀ x ∈ l, f x = some (g x)) :
    l.mapM f = some (l.map g) := by
  induction l with
  | nil => rfl
  | cons x l ih =>
    rw [List.forall_mem_cons] at h
    rw [List.mapM_cons, h.1, ih h.2]
    rfl

lemma getBlocks_eq {fetched : SortedMap Bytes Fetched}
    (h : ∀ h ∈ trail.map (·.h), ∃ b, fetched.lookup h = some b ∧ b.shadow = shadow h ∧
      ∀ txid ∈ b.shadow.txs, b.txs.lookup txid = some (getTx txid)) :
    getBlocks sizeTag fetched trail = some (trailBlocks sizeTag shadow getTx trail) := by
  apply mapM_eq_some_map
  intro e he
  obtain ⟨b, hb, hshadow, htxs⟩ := h e.h (List.mem_map.mpr ⟨e, he, rfl⟩)
  rw [hshadow] at htxs
  simp only [hb, hshadow, mapM_eq_some_map htxs, Option.bind_eq_bind, Option.bind_some]

/-- The answers a query still needs. -/
def Query.weight (shadow : Bytes → Shadow) : Query → Nat
  | .block h => 1 + (shadow h).txs.length
  | .tx _ _ => 1

/-- The attempts and peers left, the answers needed, and the requests to peers that have been removed. -/
def Loop.size (shadow : Bytes → Shadow) (s : Loop Peer) : Nat ×ₗ Nat ×ₗ Nat :=
  toLex (s.retries.sum id + s.peerQ.length,
    toLex ((s.queries.map (Query.weight shadow)).sum, s.requests.countP fun r => r.peer ∉ s.peerQ))

/-- What the answer to a request may lead to. -/
inductive Leads (sizeTag : List TX → Nat → Tagged) (shadow : Bytes → Shadow) (getTx : Bytes → TX) (trail : List Element)
    (s : Loop Peer) (r : Request Peer) (ok : Bool) : Status Peer Tagged → Prop where
  | running {s' : Loop Peer} (hs : s'.Sound shadow getTx trail) (hsize : s'.size shadow < s.size shadow) :
    Leads sizeTag shadow getTx trail s r ok (.running s')
  | returned (hok : ok = true) (hlast : s.requests = [r]) :
    Leads sizeTag shadow getTx trail s r ok (.returned (trailBlocks sizeTag shadow getTx trail))
  | halted (hok : ok = false) (hlast : s.peerQ = [r.peer]) (hout : s.retries.lookup r.peer = some 0) :
    Leads sizeTag shadow getTx trail s r ok .halted

lemma queries_perm_cons (hr : r ∈ s.requests) : s.queries.Perm (r.query :: (s.requests.erase r).map (·.query)) :=
  (List.perm_cons_erase hr).map Request.query

lemma Asks.queries_eq (h : Asks s s' asked) : s'.queries = s.queries ++ asked := by
  obtain ⟨rs, hrs, hasked, -⟩ := h.requests
  rw [Loop.queries, hrs, List.map_append, hasked]
  rfl

lemma Asks.known (h : Asks s s' asked) (hknown : ∀ p, (p ∈ s.peerQ ∨ ∃ r ∈ s.requests, r.peer = p) → s.retries.lookup p ≠ none) :
    ∀ p, (p ∈ s'.peerQ ∨ ∃ r ∈ s'.requests, r.peer = p) → s'.retries.lookup p ≠ none := by
  obtain ⟨rs, hrs, -, hpeers⟩ := h.requests
  rw [h.retries, hrs]
  rintro p (hp | ⟨r, hr, rfl⟩)
  · exact hknown p (Or.inl (h.peers.mem_iff.mp hp))
  · obtain hr | hr := List.mem_append.mp hr
    · exact hknown r.peer (Or.inr ⟨r, hr, rfl⟩)
    · exact hknown r.peer (Or.inl (hpeers r hr))

lemma continueLoop_eq (hc : Counts shadow getTx (trail.map (·.h)) s.fetched s.awaiting s.queries) :
    continueLoop sizeTag trail s =
      some (if s.requests = [] then .returned (trailBlocks sizeTag shadow getTx trail) else .running s) := by
  by_cases hnil : s.requests = []
  · obtain ⟨hzero, hall⟩ := hc.all_come (by rw [Loop.queries, hnil]; rfl)
    rw [continueLoop, if_pos hzero, if_pos hnil, getBlocks_eq hall]
    rfl
  · obtain ⟨r, hr⟩ := List.exists_mem_of_ne_nil _ hnil
    rw [continueLoop, if_neg (hc.awaiting_ne_zero (List.mem_map_of_mem hr)), if_neg hnil]

lemma leads_of_come (sizeTag : List TX → Nat → Tagged) {s1 s2 : Loop Peer} {fetched : SortedMap Bytes Fetched} {awaiting : Int} (hs : s.Sound shadow getTx trail)
    (hr : r ∈ s.requests) (hs1 : s1 = { s with requests := s.requests.erase r, fetched := fetched, awaiting := awaiting })
    (hasks : Asks s1 s2 asked) (hless : (asked.map (Query.weight shadow)).sum < r.query.weight shadow)
    (hc : Counts shadow getTx (trail.map (·.h)) fetched awaiting ((s.requests.erase r).map (·.query) ++ asked)) :
    ∃ st, continueLoop sizeTag trail s2 = some st ∧ Leads sizeTag shadow getTx trail s r true st := by
  have hqueries : s2.queries = (s.requests.erase r).map (·.query) ++ asked := by rw [hasks.queries_eq, hs1]; rfl
  have hcounts : Counts shadow getTx (trail.map (·.h)) s2.fetched s2.awaiting s2.queries := by
    rw [hqueries, hasks.fetched, hasks.awaiting, hs1]
    exact hc
  refine ⟨_, continueLoop_eq hcounts, ?_⟩
  split_ifs with hnil
  · obtain ⟨rs, hrs, -⟩ := hasks.requests
    rw [hnil, hs1] at hrs
    have herase := (List.append_eq_nil_iff.mp hrs.symm).1
    have hperm := List.perm_cons_erase hr
    simp only at herase
    rw [herase] at hperm
    exact .returned rfl (List.perm_singleton.mp hperm)
  · have hpeers : s2.peerQ.Perm s.peerQ := by
      rw [hs1] at hasks
      exact hasks.peers
    have hretries : s2.retries = s.retries := by rw [hasks.retries, hs1]
    refine .running ⟨hasks.workers, ?_, ?_, hcounts, hnil⟩ ?_
    · exact fun h => hs.peers (h ▸ hpeers).nil_eq.symm
    · apply hasks.known
      rw [hs1]
      rintro p (hp | ⟨r', hr', rfl⟩)
      · exact hs.known p (Or.inl hp)
      · exact hs.known r'.peer (Or.inr ⟨r', List.mem_of_mem_erase hr', rfl⟩)
    · have hbefore := ((queries_perm_cons hr).map (Query.weight shadow)).sum_eq
      have hafter := congrArg (fun l => (l.map (Query.weight shadow)).sum) hqueries
      simp only [List.map_cons, List.sum_cons, List.map_append, List.sum_append] at hbefore hafter
      rw [Loop.size, Loop.size, Prod.Lex.toLex_lt_toLex, Prod.Lex.toLex_lt_toLex, hretries, hpeers.length_eq]
      exact Or.inr ⟨rfl, Or.inl (by omega)⟩

lemma blockResponse_leads (sizeTag : List TX → Nat → Tagged) (hnodup : (trail.map (·.h)).Nodup) (hs : s.Sound shadow getTx trail) (hr : r ∈ s.requests)
    {h : Bytes} (hquery : r.query = .block h) :
    ∃ st, blockResponse sizeTag trail { s with requests := s.requests.erase r } h (shadow h) = some st ∧
      Leads sizeTag shadow getTx trail s r true st := by
  have hperm := queries_perm_cons hr
  rw [hquery] at hperm
  have hcome := (hs.counts.perm hperm).block_come hnodup
  obtain ⟨s2, hs2, hasks⟩ := foldlM_request_asks (s := { s with
    requests := s.requests.erase r
    fetched := s.fetched.insert h ⟨shadow h, SortedMap.empty, (shadow h).txs.length⟩
    awaiting := if ((shadow h).txs.length : Int) = 0 then s.awaiting - 1 else s.awaiting }) (Query.tx h) (shadow h).txs
    hs.workers hs.peers
  have hless : (((shadow h).txs.map (Query.tx h)).map (Query.weight shadow)).sum < r.query.weight shadow := by
    rw [hquery, List.map_map]
    have hone : (Query.weight shadow) ∘ (Query.tx h) = fun _ => 1 := funext fun _ => rfl
    simp [hone, Query.weight]
  obtain ⟨st, hst, hleads⟩ := leads_of_come sizeTag hs hr rfl hasks hless hcome
  refine ⟨st, ?_, hleads⟩
  simp only [blockResponse, requestTxs, Option.bind_eq_bind]
  rw [hs2]
  exact hst

lemma txResponse_leads (sizeTag : List TX → Nat → Tagged) (hnodup : (trail.map (·.h)).Nodup) (hs : s.Sound shadow getTx trail) (hr : r ∈ s.requests)
    {h txid : Bytes} (hquery : r.query = .tx h txid) :
    ∃ st, txResponse sizeTag trail { s with requests := s.requests.erase r } h txid (getTx txid) = some st ∧
      Leads sizeTag shadow getTx trail s r true st := by
  have hperm := queries_perm_cons hr
  rw [hquery] at hperm
  obtain ⟨b, hb, hcome⟩ := (hs.counts.perm hperm).tx_come hnodup
  rw [← List.append_nil ((s.requests.erase r).map (·.query))] at hcome
  have hasks : Asks _ { s with
      requests := s.requests.erase r
      fetched := s.fetched.insert h ⟨b.shadow, b.txs.insert txid (getTx txid), b.awaiting - 1⟩
      awaiting := if b.awaiting - 1 = 0 then s.awaiting - 1 else s.awaiting } [] :=
    ⟨hs.workers, List.Perm.refl _, rfl, rfl, rfl, [], (List.append_nil _).symm, rfl, by simp⟩
  have hless : (([] : List Query).map (Query.weight shadow)).sum < r.query.weight shadow := by
    rw [hquery]
    exact Nat.one_pos
  obtain ⟨st, hst, hleads⟩ := leads_of_come sizeTag hs hr rfl hasks hless hcome
  refine ⟨st, ?_, hleads⟩
  simp only [txResponse, hb, Option.bind_eq_bind, Option.bind_some]
  exact hst

lemma request_again (retries : SortedMap Peer Nat) {peerQ : List Peer} (hs : s.Sound shadow getTx trail)
    (hr : r ∈ s.requests) (hpeers : peerQ ≠ []) (hqueue : ∀ p ∈ peerQ, p ∈ s.peerQ)
    (hretries : ∀ p, s.retries.lookup p ≠ none → retries.lookup p ≠ none) :
    ∃ s', request { s with requests := s.requests.erase r, retries := retries, peerQ := peerQ } r.query = some s' ∧
      s'.Sound shadow getTx trail ∧ s'.queries.Perm s.queries ∧
      Asks { s with requests := s.requests.erase r, retries := retries, peerQ := peerQ } s' [r.query] := by
  obtain ⟨s', hs', hasks⟩ := request_asks (s := { s with requests := s.requests.erase r, retries := retries, peerQ := peerQ })
    hs.workers hpeers r.query
  have hperm : s'.queries.Perm s.queries := by
    rw [hasks.queries_eq]
    exact (List.perm_append_singleton _ _).trans (queries_perm_cons hr).symm
  refine ⟨s', hs', ⟨hasks.workers, ?_, ?_, ?_, ?_⟩, hperm, hasks⟩
  · exact fun h => hpeers (h ▸ hasks.peers).nil_eq.symm
  · apply hasks.known
    rintro p (hp | ⟨r', hr', rfl⟩)
    · exact hretries p (hs.known p (Or.inl (hqueue p hp)))
    · exact hretries _ (hs.known _ (Or.inr ⟨r', List.mem_of_mem_erase hr', rfl⟩))
  · rw [hasks.fetched, hasks.awaiting]
    exact hs.counts.perm hperm.symm
  · obtain ⟨rs, hrs, hasked, -⟩ := hasks.requests
    rw [hrs]
    intro hnil
    rw [(List.append_eq_nil_iff.mp hnil).2] at hasked
    cases hasked

lemma failure_leads (sizeTag : List TX → Nat → Tagged) (hs : s.Sound shadow getTx trail) (hr : r ∈ s.requests) :
    ∃ st, failure { s with requests := s.requests.erase r } r.query r.peer = some st ∧
      Leads sizeTag shadow getTx trail s r false st := by
  obtain ⟨attempts, hattempts⟩ := Option.ne_none_iff_exists'.mp (hs.known r.peer (Or.inr ⟨r, hr, rfl⟩))
  by_cases hpos : 0 < attempts
  · obtain ⟨s', hs', hsound, hperm, hasks⟩ := request_again (s.retries.insert r.peer (attempts - 1)) hs hr
      hs.peers (fun _ hp => hp) (by
        intro p hp
        rw [SortedMap.lookup_insert]
        split_ifs
        · simp
        · exact hp)
    refine ⟨.running s', by simp [failure, hattempts, hpos, hs'], .running hsound ?_⟩
    have hsum := SortedMap.sum_erase (f := id) hattempts
    have hsum' : s'.retries.sum id = attempts - 1 + (s.retries.erase r.peer).sum id := by
      rw [hasks.retries]
      exact SortedMap.sum_insert
    rw [Loop.size, Loop.size, Prod.Lex.toLex_lt_toLex, hasks.peers.length_eq]
    refine Or.inl ?_
    simp only [id] at hsum ⊢
    omega
  have hzero : attempts = 0 := by omega
  subst hzero
  by_cases hlast : s.peerQ = [r.peer]
  · exact ⟨.halted, by simp [failure, hattempts, hlast], .halted rfl hlast hattempts⟩
  by_cases hmem : r.peer ∈ s.peerQ
  · have hlength : (s.peerQ.erase r.peer).length + 1 = s.peerQ.length := by
      rw [List.length_erase_of_mem hmem]
      have := List.length_pos_of_mem hmem
      omega
    have hpeers : s.peerQ.erase r.peer ≠ [] := by
      intro hnil
      have hperm := List.perm_cons_erase hmem
      rw [hnil] at hperm
      exact hlast (List.perm_singleton.mp hperm)
    obtain ⟨s', hs', hsound, hperm, hasks⟩ := request_again _ hs hr hpeers (fun _ hp => List.mem_of_mem_erase hp)
      (fun _ hp => hp)
    refine ⟨.running s', by simp [failure, hattempts, hlast, hmem, hs'], .running hsound ?_⟩
    rw [Loop.size, Loop.size, Prod.Lex.toLex_lt_toLex, hasks.retries, hasks.peers.length_eq]
    refine Or.inl ?_
    simp only
    omega
  · obtain ⟨s', hs', hsound, hperm, hasks⟩ := request_again _ hs hr hs.peers (fun _ hp => hp) (fun _ hp => hp)
    refine ⟨.running s', by simp [failure, hattempts, hlast, hmem, hs'], .running hsound ?_⟩
    have hrequests : s'.requests.countP (fun r => r.peer ∉ s'.peerQ) + 1 = s.requests.countP (fun r => r.peer ∉ s.peerQ) := by
      obtain ⟨rs, hrs, -, hnew⟩ := hasks.requests
      have hnew' : rs.countP (fun r => r.peer ∉ s.peerQ) = 0 := by
        rw [List.countP_eq_zero]
        intro r' hr'
        simpa using hnew r' hr'
      have hsame : ∀ l : List (Request Peer), l.countP (fun r => r.peer ∉ s'.peerQ) = l.countP fun r => r.peer ∉ s.peerQ :=
        fun l => List.countP_congr fun r' _ => by simp [hasks.peers.mem_iff]
      rw [hsame, hrs, List.countP_append, hnew', (List.perm_cons_erase hr).countP_eq,
        List.countP_cons_of_pos (by simpa using hmem)]
    rw [Loop.size, Loop.size, Prod.Lex.toLex_lt_toLex, Prod.Lex.toLex_lt_toLex, hasks.retries, hasks.peers.length_eq,
      (hperm.map _).sum_eq]
    exact Or.inr ⟨rfl, Or.inr ⟨rfl, by omega⟩⟩

lemma respond_leads (sizeTag : List TX → Nat → Tagged) (hnodup : (trail.map (·.h)).Nodup) (hs : s.Sound shadow getTx trail) (hr : r ∈ s.requests) (ok : Bool) :
    ∃ st, respond sizeTag shadow getTx trail s r ok = some st ∧ Leads sizeTag shadow getTx trail s r ok st := by
  cases ok with
  | false =>
    obtain ⟨st, hst, hleads⟩ := failure_leads sizeTag hs hr
    refine ⟨st, ?_, hleads⟩
    rw [← hst]
    simp only [respond]
  | true =>
    cases hquery : r.query with
    | block h =>
      obtain ⟨st, hst, hleads⟩ := blockResponse_leads sizeTag hnodup hs hr hquery
      refine ⟨st, ?_, hleads⟩
      rw [← hst]
      simp only [respond, hquery]
    | tx h txid =>
      obtain ⟨st, hst, hleads⟩ := txResponse_leads sizeTag hnodup hs hr hquery
      refine ⟨st, ?_, hleads⟩
      rw [← hst]
      simp only [respond, hquery]

end Steps

section Trail

variable {Peer Tagged : Type} [LinearOrder Peer] {sizeTag : List TX → Nat → Tagged} {shadow : Bytes → Shadow}
  {getTx : Bytes → TX} {trail : List Element} {workers : List Nat} {peers : List Peer} {status : Status Peer Tagged}

lemma lookup_foldl_insert (attempts : Nat) (peers : List Peer) (m : SortedMap Peer Nat) {p : Peer}
    (h : p ∈ peers ∨ m.lookup p ≠ none) : (peers.foldl (fun m p => m.insert p attempts) m).lookup p ≠ none := by
  induction peers generalizing m with
  | nil => simpa using h
  | cons q peers ih =>
    apply ih
    rw [SortedMap.lookup_insert]
    split_ifs with heq
    · exact Or.inr (by simp)
    · simpa [heq] using h

lemma getBlockTrail_sound (shadow : Bytes → Shadow) (getTx : Bytes → TX) (hw : workers ≠ []) (hp : peers ≠ []) (ht : trail ≠ []) (hnodup : (trail.map (·.h)).Nodup)
    (attempts : Nat) :
    ∃ s, (getBlockTrail workers peers trail attempts : Option (Status Peer Tagged)) = some (.running s) ∧
      s.Sound shadow getTx trail := by
  obtain ⟨e, trail', rfl⟩ := List.exists_cons_of_ne_nil ht
  obtain ⟨s, hs, hasks⟩ := foldlM_request_asks (s := ⟨workers, peers,
    peers.foldl (fun m p => m.insert p attempts) SortedMap.empty, SortedMap.empty, (e :: trail').length, []⟩)
    (fun e : Element => Query.block e.h) (e :: trail') hw hp
  refine ⟨s, ?_, hasks.workers, ?_, ?_, ?_, ?_⟩
  · simp only [getBlockTrail, requestBlocks]
    rw [hs]
    rfl
  · exact fun h => hp (h ▸ hasks.peers).nil_eq.symm
  · apply hasks.known
    rintro p (hp | ⟨r, hr, -⟩)
    · exact lookup_foldl_insert attempts peers _ (Or.inl hp)
    · cases hr
  · rw [hasks.queries_eq, hasks.fetched, hasks.awaiting]
    have hstart := counts_start shadow getTx ((e :: trail').map (·.h)) hnodup
    rw [List.length_map, List.map_map] at hstart
    exact hstart
  · obtain ⟨rs, hrs, hasked, -⟩ := hasks.requests
    rw [hrs]
    rintro hnil
    rw [(List.append_eq_nil_iff.mp hnil).2] at hasked
    cases hasked

/-- What every state of the download satisfies. -/
inductive Status.Sound (sizeTag : List TX → Nat → Tagged) (shadow : Bytes → Shadow) (getTx : Bytes → TX)
    (trail : List Element) : Status Peer Tagged → Prop where
  | running {s : Loop Peer} (hs : s.Sound shadow getTx trail) : Status.Sound sizeTag shadow getTx trail (.running s)
  | returned : Status.Sound sizeTag shadow getTx trail (.returned (trailBlocks sizeTag shadow getTx trail))
  | halted : Status.Sound sizeTag shadow getTx trail .halted

lemma Reaches.sound (hw : workers ≠ []) (hp : peers ≠ []) (ht : trail ≠ []) (hnodup : (trail.map (·.h)).Nodup)
    {attempts : Nat} (h : Reaches sizeTag shadow getTx trail (getBlockTrail workers peers trail attempts) status) :
    status.Sound sizeTag shadow getTx trail := by
  induction h with
  | start h =>
    obtain ⟨s, hs, hsound⟩ := @getBlockTrail_sound Peer Tagged _ _ _ _ shadow getTx hw hp ht hnodup attempts
    rw [hs] at h
    cases h
    exact .running hsound
  | step _ hr h ih =>
    cases ih with
    | running hs =>
      obtain ⟨st, hst, hleads⟩ := respond_leads sizeTag hnodup hs hr _
      rw [hst] at h
      cases h
      cases hleads with
      | running hs' _ => exact .running hs'
      | returned _ _ => exact .returned
      | halted _ _ _ => exact .halted

/-- With a worker and a peer, and distinct blocks in the trail, the download neither crashes nor waits for nothing. It
halts only when the last peer of the queue fails without an attempt left, and returns exactly the blocks of the trail
when the last request is answered. There is no endless run. -/
theorem trail_downloaded (sizeTag : List TX → Nat → Tagged) (shadow : Bytes → Shadow) (getTx : Bytes → TX)
    (workers : List Nat) (peers : List Peer) (trail : List Element) (attempts : Nat) (hw : workers ≠ []) (hp : peers ≠ [])
    (ht : trail ≠ []) (hnodup : (trail.map (·.h)).Nodup) :
    (∃ s, (getBlockTrail workers peers trail attempts : Option (Status Peer Tagged)) = some (.running s)) ∧
    (∀ s, Reaches sizeTag shadow getTx trail (getBlockTrail workers peers trail attempts) (.running s) →
      s.requests ≠ [] ∧ ∀ r ∈ s.requests, ∀ ok, ∃ st, respond sizeTag shadow getTx trail s r ok = some st ∧
        (∀ blocks, st = .returned blocks → ok = true ∧ s.requests = [r]) ∧
        (st = .halted → ok = false ∧ s.peerQ = [r.peer] ∧ s.retries.lookup r.peer = some 0)) ∧
    (∀ blocks, Reaches sizeTag shadow getTx trail (getBlockTrail workers peers trail attempts) (.returned blocks) →
      blocks = trail.map fun e => ⟨shadow e.h, (shadow e.h).txs.map getTx,
        sizeTag ((shadow e.h).txs.map getTx) (shadow e.h).height⟩) ∧
    ¬∃ run : Nat → Loop Peer, (getBlockTrail workers peers trail attempts : Option (Status Peer Tagged)) = some (.running (run 0)) ∧
      ∀ i, ∃ r ∈ (run i).requests, ∃ ok, respond sizeTag shadow getTx trail (run i) r ok = some (.running (run (i + 1))) := by
  refine ⟨?_, ?_, ?_, ?_⟩
  · obtain ⟨s, hs, -⟩ := @getBlockTrail_sound Peer Tagged _ _ _ _ shadow getTx hw hp ht hnodup attempts
    exact ⟨s, hs⟩
  · intro s hreach
    cases hreach.sound hw hp ht hnodup with
    | running hs =>
      refine ⟨hs.waiting, fun r hr ok => ?_⟩
      obtain ⟨st, hst, hleads⟩ := respond_leads sizeTag hnodup hs hr ok
      refine ⟨st, hst, ?_, ?_⟩
      · rintro blocks rfl
        cases hleads with
        | returned hok hlast => exact ⟨hok, hlast⟩
      · rintro rfl
        cases hleads with
        | halted hok hlast hout => exact ⟨hok, hlast, hout⟩
  · intro blocks hreach
    cases hreach.sound hw hp ht hnodup with
    | returned => rfl
  · rintro ⟨run, hstart, hrun⟩
    have hsound : ∀ i, (run i).Sound shadow getTx trail := by
      intro i
      induction i with
      | zero =>
        obtain ⟨s, hs, hsound⟩ := @getBlockTrail_sound Peer Tagged _ _ _ _ shadow getTx hw hp ht hnodup attempts
        rw [hs] at hstart
        cases hstart
        exact hsound
      | succ i ih =>
        obtain ⟨r, hr, ok, h⟩ := hrun i
        obtain ⟨st, hst, hleads⟩ := respond_leads sizeTag hnodup ih hr ok
        rw [hst] at h
        cases h
        cases hleads with
        | running hs _ => exact hs
    -- each answer makes the state smaller
    have hless : ∀ i, (run (i + 1)).size shadow < (run i).size shadow := by
      intro i
      obtain ⟨r, hr, ok, h⟩ := hrun i
      obtain ⟨st, hst, hleads⟩ := respond_leads sizeTag hnodup (hsound i) hr ok
      rw [hst] at h
      cases h
      cases hleads with
      | running _ hsize => exact hsize
    obtain ⟨i, hi⟩ := WellFounded.not_rel_apply_succ (r := (· < ·)) fun i => (run i).size shadow
    exact hi (hless i)

lemma Reaches.answer {start : Option (Status Peer Tagged)} {s : Loop Peer} (r : Request Peer) (ok : Bool)
    (hs : Reaches sizeTag shadow getTx trail start (.running s)) (hr : r ∈ s.requests)
    (h : respond sizeTag shadow getTx trail s r ok = some status) : Reaches sizeTag shadow getTx trail start status :=
  hs.step hr h

def sampleShadow (h : Bytes) : Shadow := ⟨h, 7, [[9]]⟩

def sampleTx (txid : Bytes) : TX := { id := txid }

def sampleTrail : List Element := [⟨[2], 1, []⟩, ⟨[1], 0, []⟩]

theorem trail_downloaded_sample :
    ∃ blocks, Reaches (fun txs _ => txs.length) sampleShadow sampleTx sampleTrail
        (getBlockTrail [0] [10, 20] sampleTrail 1) (.returned blocks) ∧
      blocks = [⟨sampleShadow [2], [sampleTx [9]], 1⟩, ⟨sampleShadow [1], [sampleTx [9]], 1⟩] := by
  obtain ⟨-, -, hreturned, -⟩ := trail_downloaded (fun txs _ => txs.length) sampleShadow sampleTx [0] [10, 20] sampleTrail 1
    (by decide) (by decide) (by decide) (by decide)
  have hreach : ∃ blocks, Reaches (fun txs _ => txs.length) sampleShadow sampleTx sampleTrail
      (getBlockTrail [0] [10, 20] sampleTrail 1) (.returned blocks) := by
    refine ⟨_, .answer ⟨0, .tx [1] [9], 20⟩ true (.answer ⟨0, .tx [2] [9], 10⟩ true
      (.answer ⟨0, .block [2], 10⟩ true (.answer ⟨0, .block [1], 20⟩ true
      (.answer ⟨0, .block [2], 10⟩ false (.start rfl) ?_ rfl) ?_ rfl) ?_ rfl) ?_ rfl) ?_ rfl⟩
    all_goals decide
  obtain ⟨blocks, hblocks⟩ := hreach
  exact ⟨blocks, hblocks, hreturned blocks hblocks⟩

/-- Without a worker the first request is a crash, and a block that stands in the trail twice leaves the loop waiting for
answers when every request has been answered. -/
theorem trail_not_downloaded :
    (getBlockTrail [] [10, 20] sampleTrail 1 : Option (Status Nat Unit)) = none ∧
    ∃ s, Reaches (fun _ _ => ()) sampleShadow sampleTx [⟨[1], 0, []⟩, ⟨[1], 0, []⟩]
        (getBlockTrail [0] [10] [⟨[1], 0, []⟩, ⟨[1], 0, []⟩] 1) (.running s) ∧ s.requests = [] := by
  refine ⟨rfl, _, .answer ⟨0, .tx [1] [9], 10⟩ true (.answer ⟨0, .tx [1] [9], 10⟩ true
    (.answer ⟨0, .block [1], 10⟩ true (.answer ⟨0, .block [1], 10⟩ true
    (.start rfl) ?_ rfl) ?_ rfl) ?_ rfl) ?_ rfl, rfl⟩
  all_goals decide

end Trail

end Arweave.Join

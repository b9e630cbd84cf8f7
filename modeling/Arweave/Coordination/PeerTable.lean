import Mathlib.Data.List.Count
import Arweave.Lib.Histories
import Arweave.Lib.Sorted

/-!
# The peers of coordinated mining

A miner asks its peers for their partition tables and keeps, for every partition, the peers that mine it. A peer that
answers again, or stops answering, is first taken out of the lists of all partitions. It is taken out once of each
list, and put into one as many times as its answer names the partition.
-/

namespace Arweave.Coordination

open Lib

section Code

/-- An entry of a partition table. A peer has one for every storage module. -/
structure TableEntry (Partition Addr : Type) where
  partitionId : Partition
  partitionSize : Nat
  packingAddr : Addr
  deriving DecidableEq

/-- The partition table of a peer, when the request for it succeeded. -/
abbrev Response (Partition Addr : Type) := Option (List (TableEntry Partition Addr))

variable {Peer Partition Addr : Type} [LinearOrder Peer] [LinearOrder Partition]

structure PeerTable (Peer Partition Addr : Type) [LinearOrder Peer] [LinearOrder Partition] where
  lastPeerResponse : SortedMap Peer (Bool × List (TableEntry Partition Addr)) := .empty
  peersByPartition : SortedMap Partition (List Peer) := .empty

/-- The process crashes on an empty list. -/
def getPeer (partitionNumber : Partition) (s : PeerTable Peer Partition Addr) : Option (Option Peer) :=
  match s.peersByPartition.lookup partitionNumber with
  | some peers => peers.getLast?.map some
  | none => some none

def addMiningPeer (peer : Peer) (storageModules : List (TableEntry Partition Addr))
    (s : PeerTable Peer Partition Addr) : PeerTable Peer Partition Addr :=
  let peersByPartition := storageModules.foldl
    (fun acc entry => acc.insert entry.partitionId (peer :: (acc.lookup entry.partitionId).getD []))
    s.peersByPartition
  { s with peersByPartition := peersByPartition }

/-- A partition whose list becomes empty is left out. -/
def removeMiningPeer (peer : Peer) (s : PeerTable Peer Partition Addr) : PeerTable Peer Partition Addr :=
  let peersByPartition :=
    (s.peersByPartition.mapValues fun _ peers => peers.erase peer).filter fun _ peers2 => peers2 ≠ []
  { s with peersByPartition := peersByPartition }

/-- What is done with the response of one peer. -/
def respond (peer : Peer) (response : Response Partition Addr)
    (s : PeerTable Peer Partition Addr) : PeerTable Peer Partition Addr :=
  match response with
  | some partitionList =>
    addMiningPeer peer partitionList (removeMiningPeer peer
      { s with lastPeerResponse := s.lastPeerResponse.insert peer (true, partitionList) })
  | none =>
    match s.lastPeerResponse.lookup peer with
    | none => s
    | some (_, oldPartitionList) =>
      removeMiningPeer peer
        { s with lastPeerResponse := s.lastPeerResponse.insert peer (false, oldPartitionList) }

/-- The peers come with what they answer. -/
def refresh : List (Peer × Response Partition Addr) → PeerTable Peer Partition Addr →
    PeerTable Peer Partition Addr
  | [], s => s
  | (peer, response) :: peers, s => refresh peers (respond peer response s)

end Code

section Answers

variable {Peer Partition Addr : Type} {p : Peer} {partition : Partition} {response : Response Partition Addr}
  {answers before after : List (Peer × Response Partition Addr)}
  {history : List (List (Peer × Response Partition Addr))}

/-- A request that failed answers with no partition. -/
def Answers (response : Response Partition Addr) (partition : Partition) : Prop :=
  ∃ entries, response = some entries ∧ ∃ entry ∈ entries, entry.partitionId = partition

/-- The latest answer of a peer contains a partition. -/
def Mines (history : List (List (Peer × Response Partition Addr))) (p : Peer)
    (partition : Partition) : Prop :=
  ∃ response, Since (·.1 = p) (p, response) history.flatten ∧ Answers response partition

lemma mines_refresh (hafter : ∀ answer ∈ after, ¬ answer.1 = p) :
    Mines (history ++ [before ++ (p, response) :: after]) p partition ↔ Answers response partition := by
  have hlast : Since (fun answer => answer.1 = p) (p, response)
      (history ++ [before ++ (p, response) :: after]).flatten :=
    ⟨history.flatten ++ before, after, by simp, hafter⟩
  constructor
  · rintro ⟨response', hsince, hanswers⟩
    cases since_unique hsince hlast rfl rfl
    exact hanswers
  · exact fun hanswers => ⟨response, hlast, hanswers⟩

lemma mines_refresh_other (hother : ∀ answer ∈ answers, ¬ answer.1 = p) :
    Mines (history ++ [answers]) p partition ↔ Mines history p partition := by
  have hnone : ∀ response, ¬ Since (fun answer => answer.1 = p) (p, response) answers := by
    rintro response ⟨before, after, rfl, -⟩
    exact hother (p, response) (by simp) rfl
  have hother : (∀ answer ∈ answers, ¬ answer.1 = p) ↔ True := iff_true_intro hother
  simp only [Mines, List.flatten_append, List.flatten_singleton, since_append, hnone, false_or, hother, and_true]

end Answers

section Listed

variable {Peer Partition Addr : Type} [LinearOrder Peer] [LinearOrder Partition] {s : PeerTable Peer Partition Addr}
  {p q : Peer} {partition : Partition} {entries : List (TableEntry Partition Addr)}
  {response : Response Partition Addr}

/-- The peers of a partition. -/
def PeerTable.peers (s : PeerTable Peer Partition Addr) (partition : Partition) : List Peer :=
  (s.peersByPartition.lookup partition).getD []

/-- No partition is mapped to an empty list. -/
def PeerTable.Nonempty (s : PeerTable Peer Partition Addr) : Prop :=
  ∀ partition, s.peersByPartition.lookup partition ≠ some []

lemma addMiningPeer_cons {entry : TableEntry Partition Addr} :
    addMiningPeer p (entry :: entries) s = addMiningPeer p entries (addMiningPeer p [entry] s) := rfl

lemma peers_addMiningPeer_one {entry : TableEntry Partition Addr} : (addMiningPeer p [entry] s).peers partition =
    if entry.partitionId = partition then p :: s.peers partition else s.peers partition := by
  simp only [PeerTable.peers, addMiningPeer, List.foldl_cons, List.foldl_nil, SortedMap.lookup_insert,
    @eq_comm _ partition]
  split_ifs with h
  · rw [h, Option.getD_some]
  · rfl

lemma count_addMiningPeer : ((addMiningPeer p entries s).peers partition).count q =
    (s.peers partition).count q + if q = p then entries.countP (·.partitionId = partition) else 0 := by
  induction entries generalizing s with
  | nil => simp [addMiningPeer]
  | cons entry entries ih =>
    rw [addMiningPeer_cons, ih, peers_addMiningPeer_one, List.countP_cons]
    by_cases he : entry.partitionId = partition
    · by_cases hq : q = p
      · simp [hq, he]
        omega
      · simp [hq, he, List.count_cons_of_ne (Ne.symm hq)]
    · simp [he]

lemma count_removeMiningPeer : ((removeMiningPeer p s).peers partition).count q =
    (s.peers partition).count q - if q = p then 1 else 0 := by
  simp only [PeerTable.peers, removeMiningPeer, SortedMap.lookup_filter, SortedMap.lookup_mapValues]
  cases s.peersByPartition.lookup partition with
  | none => simp
  | some peers =>
    have herase : ((some (peers.erase p)).filter fun peers2 => decide (peers2 ≠ [])).getD [] = peers.erase p := by
      cases peers.erase p <;> rfl
    rw [Option.map_some, herase, List.count_erase, Option.getD_some]
    simp only [beq_iff_eq, @eq_comm _ p]

lemma nonempty_addMiningPeer (h : s.Nonempty) : (addMiningPeer p entries s).Nonempty := by
  induction entries generalizing s with
  | nil => exact h
  | cons entry entries ih =>
    rw [addMiningPeer_cons]
    apply ih
    intro partition
    simp only [addMiningPeer, List.foldl_cons, List.foldl_nil, SortedMap.lookup_insert]
    split_ifs
    · simp
    · exact h partition

lemma nonempty_removeMiningPeer : (removeMiningPeer p s).Nonempty := by
  intro partition
  simp only [removeMiningPeer, SortedMap.lookup_filter]
  intro h
  simpa using (Option.filter_eq_some_iff.mp h).2

/-- No partition is mapped to an empty list, and a peer that is listed has answered. -/
structure Kept (s : PeerTable Peer Partition Addr) : Prop where
  nonempty : s.Nonempty
  answered : ∀ p partition, p ∈ s.peers partition → s.lastPeerResponse.lookup p ≠ none

lemma kept_init : Kept ({} : PeerTable Peer Partition Addr) := by
  refine ⟨fun _ => by simp, fun p partition h => ?_⟩
  simp [PeerTable.peers] at h

lemma count_respond (h : Kept s) : ((respond p response s).peers partition).count q =
    if q = p then (s.peers partition).count p - 1 + (response.getD []).countP (·.partitionId = partition)
    else (s.peers partition).count q := by
  unfold respond
  cases response with
  | some entries =>
    simp only [count_addMiningPeer, count_removeMiningPeer]
    split_ifs with hq
    · subst hq
      rfl
    · rfl
  | none =>
    cases hlast : s.lastPeerResponse.lookup p with
    | none =>
      have hzero : (s.peers partition).count p = 0 :=
        List.count_eq_zero.mpr fun hmem => h.answered p partition hmem hlast
      split_ifs with hq
      · subst hq
        simp [hzero]
      · rfl
    | some last =>
      simp only [count_removeMiningPeer]
      split_ifs with hq
      · subst hq
        rfl
      · rfl

lemma mem_respond_self (h : Kept s) : p ∈ (respond p response s).peers partition ↔
    2 ≤ (s.peers partition).count p ∨ Answers response partition := by
  have hanswers : Answers response partition ↔ 0 < (response.getD []).countP (·.partitionId = partition) := by
    cases response <;> simp [Answers, List.countP_pos_iff]
  rw [← List.count_pos_iff, count_respond h, if_pos rfl, hanswers]
  omega

lemma mem_respond_other (h : Kept s) (hq : q ≠ p) :
    q ∈ (respond p response s).peers partition ↔ q ∈ s.peers partition := by
  rw [← List.count_pos_iff, count_respond h, if_neg hq, List.count_pos_iff]

lemma nonempty_respond (h : s.Nonempty) : (respond p response s).Nonempty := by
  unfold respond
  cases response with
  | some entries => exact nonempty_addMiningPeer nonempty_removeMiningPeer
  | none =>
    cases s.lastPeerResponse.lookup p with
    | none => exact h
    | some last => exact nonempty_removeMiningPeer

lemma lookup_respond : (respond p response s).lastPeerResponse.lookup q = none ↔
    s.lastPeerResponse.lookup q = none ∧ (q = p → response = none) := by
  unfold respond
  cases response with
  | some entries =>
    by_cases hq : q = p <;> simp [addMiningPeer, removeMiningPeer, SortedMap.lookup_insert, hq]
  | none =>
    cases hlast : s.lastPeerResponse.lookup p with
    | none => simp
    | some last =>
      by_cases hq : q = p <;> simp [removeMiningPeer, SortedMap.lookup_insert, hq, hlast]

lemma Kept.respond (h : Kept s) : Kept (respond p response s) where
  nonempty := nonempty_respond h.nonempty
  answered q partition hmem hnone := by
    obtain ⟨hlast, hresponse⟩ := lookup_respond.mp hnone
    by_cases hq : q = p
    · subst hq
      rcases (mem_respond_self h).mp hmem with htwice | ⟨entries, hentries, -⟩
      · exact h.answered q partition (List.count_pos_iff.mp (by omega)) hlast
      · rw [hresponse rfl] at hentries
        cases hentries
    · exact h.answered q partition ((mem_respond_other h hq).mp hmem) hlast

lemma Kept.refresh {answers : List (Peer × Response Partition Addr)} (h : Kept s) :
    Kept (refresh answers s) := by
  induction answers generalizing s with
  | nil => exact h
  | cons answer answers ih => exact ih h.respond

lemma refresh_append {answers answers' : List (Peer × Response Partition Addr)} :
    refresh (answers ++ answers') s = refresh answers' (refresh answers s) := by
  induction answers generalizing s with
  | nil => rfl
  | cons answer answers ih => exact ih

lemma mem_refresh_other {answers : List (Peer × Response Partition Addr)} (h : Kept s)
    (hother : ∀ answer ∈ answers, ¬ answer.1 = q) :
    q ∈ (refresh answers s).peers partition ↔ q ∈ s.peers partition := by
  induction answers generalizing s with
  | nil => rfl
  | cons answer answers ih =>
    obtain ⟨hfirst, hother⟩ := List.forall_mem_cons.mp hother
    exact (ih h.respond hother).trans (mem_respond_other h (Ne.symm hfirst))

end Listed

section Refreshes

variable {Peer Partition Addr : Type} [LinearOrder Peer] [LinearOrder Partition] {s : PeerTable Peer Partition Addr}
  {p : Peer} {partition : Partition} {response : Response Partition Addr}
  {answers before after : List (Peer × Response Partition Addr)}
  {history : List (List (Peer × Response Partition Addr))}

/-- A refresh takes place with every list of peers and of what they answer. -/
def PeerTable.step (s : PeerTable Peer Partition Addr) (answers : List (Peer × Response Partition Addr)) :
    Option (PeerTable Peer Partition Addr) :=
  some (refresh answers s)

/-- The table lists the peers by their latest answers, and a peer is selected for a partition that it mines. -/
structure PeerTable.Exact (history : List (List (Peer × Response Partition Addr)))
    (s : PeerTable Peer Partition Addr) : Prop where
  listed : ∀ p partition, p ∈ s.peers partition ↔ Mines history p partition
  nonempty : s.Nonempty
  selected : ∀ partition, ∃ choice, getPeer partition s = some choice ∧ ∀ p, choice = some p → Mines history p partition

/-- A peer is listed at most once under a partition when its last answer of a refresh drops the partition. -/
def PeerTable.Single (_ : List (List (Peer × Response Partition Addr)))
    (s : PeerTable Peer Partition Addr) (answers : List (Peer × Response Partition Addr)) : Prop :=
  ∀ before p response after, answers = before ++ (p, response) :: after → (∀ answer ∈ after, ¬ answer.1 = p) →
    ∀ partition, ¬ Answers response partition → ((refresh before s).peers partition).count p ≤ 1

lemma mem_refresh (h : Kept s) (hafter : ∀ answer ∈ after, ¬ answer.1 = p) :
    p ∈ (refresh (before ++ (p, response) :: after) s).peers partition ↔
      2 ≤ ((refresh before s).peers partition).count p ∨ Answers response partition := by
  rw [refresh_append]
  exact (mem_refresh_other h.refresh.respond hafter).trans (mem_respond_self h.refresh)

lemma listed_getPeer (h : Kept s) :
    ∃ choice, getPeer partition s = some choice ∧ ∀ p, choice = some p → p ∈ s.peers partition := by
  unfold getPeer PeerTable.peers
  cases hfind : s.peersByPartition.lookup partition with
  | none => exact ⟨none, rfl, fun p hp => by cases hp⟩
  | some peers =>
    have hne : peers ≠ [] := by
      rintro rfl
      exact h.nonempty partition hfind
    refine ⟨some (peers.getLast hne), by simp [List.getLast?_eq_some_getLast hne], ?_⟩
    rintro p ⟨⟩
    exact List.getLast_mem hne

/-- The invariant of a run with exact tables. -/
structure Agrees (history : List (List (Peer × Response Partition Addr))) (s : PeerTable Peer Partition Addr) : Prop
    extends Kept s where
  listed : ∀ p partition, p ∈ s.peers partition ↔ Mines history p partition

lemma agrees_init : Agrees [] ({} : PeerTable Peer Partition Addr) where
  toKept := kept_init
  listed p partition := by simp [PeerTable.peers, Mines, since_nil]

lemma Agrees.exact (h : Agrees history s) : s.Exact history where
  listed := h.listed
  nonempty := h.nonempty
  selected partition := by
    obtain ⟨choice, hchoice, hmem⟩ := listed_getPeer h.toKept
    exact ⟨choice, hchoice, fun p hp => (h.listed p partition).mp (hmem p hp)⟩

lemma Agrees.refresh (h : Agrees history s) (hsingle : s.Single history answers) :
    Agrees (history ++ [answers]) (refresh answers s) where
  toKept := h.toKept.refresh
  listed p partition := by
    by_cases hp : ∃ answer ∈ answers, answer.1 = p
    · obtain ⟨⟨p', response⟩, (heq : p' = p), before, after, rfl, hafter⟩ := exists_since hp
      subst heq
      rw [mem_refresh h.toKept hafter, mines_refresh hafter]
      refine ⟨fun hlisted => hlisted.elim (fun htwice => ?_) id, Or.inr⟩
      by_contra hnot
      have hone := hsingle before _ response after rfl hafter partition hnot
      omega
    · push Not at hp
      rw [mem_refresh_other h.toKept hp, mines_refresh_other hp]
      exact h.listed p partition

lemma Agrees.single (h : Agrees history s) (hexact : (Coordination.refresh answers s).Exact (history ++ [answers])) :
    s.Single history answers := by
  rintro before p response after rfl hafter partition hnot
  have hlisted := hexact.listed p partition
  rw [mem_refresh h.toKept hafter, mines_refresh hafter] at hlisted
  by_contra hmany
  exact hnot (hlisted.mp (Or.inl (by omega)))

/-- The table is exact after every refresh of a run exactly when no answer drops a partition that its peer is listed
under more than once. -/
theorem peer_table_exact_iff (refreshes : List (List (Peer × Response Partition Addr))) :
    AllReached PeerTable.step (fun history s => s.Exact history) {} refreshes ↔
      AllPerformed PeerTable.step (fun history s => s.Single history) {} refreshes := by
  refine allReached_iff_allPerformed agrees_init (fun _ _ h => h.exact) ?_ ?_
  · rintro history s answers _ h ⟨⟩ hsingle
    exact h.refresh hsingle
  · rintro history s answers _ h ⟨⟩ hexact
    exact h.single hexact

end Refreshes

/-- A peer with two storage modules of a partition is still listed under it after it dropped the partition, and after
it became unavailable. -/
theorem dropped_peer_still_listed :
    ¬ AllReached PeerTable.step (fun history s => s.Exact history) ({} : PeerTable Nat Nat Nat)
        [[(1, some [⟨0, 10, 1⟩, ⟨0, 10, 2⟩])], [(1, some [])]] ∧
      ¬ AllReached PeerTable.step (fun history s => s.Exact history) ({} : PeerTable Nat Nat Nat)
        [[(1, some [⟨0, 10, 1⟩, ⟨0, 10, 2⟩])], [(1, none)]] := by
  have hdropped : ∀ response : Response Nat Nat, response = some [] ∨ response = none →
      ¬ Mines ([[(1, some [⟨0, 10, 1⟩, ⟨0, 10, 2⟩])]] ++ [[] ++ (1, response) :: []]) 1 0 := by
    intro response hresponse
    rw [mines_refresh (by simp)]
    rcases hresponse with rfl | rfl <;> simp [Answers]
  constructor
  · intro h
    exact hdropped (some []) (Or.inl rfl) (((h _ [] _ (List.append_nil _).symm rfl).listed 1 0).mp (by decide))
  · intro h
    exact hdropped none (Or.inr rfl) (((h _ [] _ (List.append_nil _).symm rfl).listed 1 0).mp (by decide))

end Arweave.Coordination

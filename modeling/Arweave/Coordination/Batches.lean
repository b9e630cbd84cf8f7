import Mathlib.Algebra.Order.BigOperators.Group.List
import Mathlib.Data.Multiset.OrderedMonoid
import Mathlib.Tactic.Abel
import Arweave.Coordination.PeerTable

/-!
# The batches of coordinated mining

A miner hands the hashes whose second chunk it does not store to the server, which collects them by the cache
reference of their candidate and sends what it has when a timer fires or a batch is full. Both are the same message.
When nothing waits the message starts a new timer beside the one that runs, and each of them then starts its own
successors.
-/

namespace Arweave.Coordination

open Lib

section Code

/-- The fields of a candidate that are sent and those that are cleared first. -/
structure MiningCandidate (Ref Partition Peer Field : Type) where
  cacheRef : Ref
  chunk1 : Option Field := none
  cmDiff : Option Nat := none
  cmH1List : List (Option Field × Option Field) := []
  cmLeadPeer : Option Peer := none
  h1 : Option Field := none
  h2 : Option Field := none
  nonce : Option Field := none
  partitionNumber2 : Partition
  poa2 : Option Field := none
  preimage : Option Field := none
  deriving DecidableEq

inductive Message (Ref Partition Peer Field : Type) where
  | computedH1 (candidate : MiningCandidate Ref Partition Peer Field) (diff : Nat)
  | sendH1BatchToPeer
  deriving DecidableEq

variable {Ref Partition Peer Addr Field : Type} [LinearOrder Ref] [LinearOrder Partition] [LinearOrder Peer]

/-- The server with its mailbox, the timers that run, and what it sent. `refs` numbers the timers. -/
structure Server (Ref Partition Peer Addr Field : Type) [LinearOrder Ref] [LinearOrder Partition]
    [LinearOrder Peer] where
  table : PeerTable Peer Partition Addr := {}
  peerRequests : SortedMap Ref (MiningCandidate Ref Partition Peer Field) := .empty
  h1BatchTimer : Nat
  mailbox : List (Message Ref Partition Peer Field) := []
  timers : List Nat
  refs : Nat
  sent : List (Peer × MiningCandidate Ref Partition Peer Field) := []

/-- A timer runs from the start. -/
def Server.start : Server Ref Partition Peer Addr Field where
  h1BatchTimer := 0
  timers := [0]
  refs := 1

def Server.castAfter (s : Server Ref Partition Peer Addr Field) : Server Ref Partition Peer Addr Field :=
  { s with timers := s.refs :: s.timers, h1BatchTimer := s.refs, refs := s.refs + 1 }

/-- A timer that fired is not there to be cancelled. -/
def Server.cancelTimer (s : Server Ref Partition Peer Addr Field) (timer : Nat) :
    Server Ref Partition Peer Addr Field :=
  { s with timers := s.timers.erase timer }

def Server.cast (s : Server Ref Partition Peer Addr Field) (message : Message Ref Partition Peer Field) :
    Server Ref Partition Peer Addr Field :=
  { s with mailbox := s.mailbox ++ [message] }

/-- A full batch asks to be sent. -/
def handleComputedH1 (batchSizeLimit : Nat) (candidate : MiningCandidate Ref Partition Peer Field) (diff : Nat)
    (s : Server Ref Partition Peer Addr Field) : Server Ref Partition Peer Addr Field :=
  let defaultCandidate := { candidate with
    chunk1 := none, cmDiff := some diff, cmLeadPeer := none, h1 := none, h2 := none, nonce := none, poa2 := none,
    preimage := none }
  let shareableCandidate := (s.peerRequests.lookup candidate.cacheRef).getD defaultCandidate
  let h1List := (candidate.h1, candidate.nonce) :: shareableCandidate.cmH1List
  let s' := { s with
    peerRequests := s.peerRequests.insert candidate.cacheRef { shareableCandidate with cmH1List := h1List } }
  if batchSizeLimit ≤ h1List.length then s'.cast .sendH1BatchToPeer else s'

/-- The batches with the peers they are sent to. A batch of a partition without a peer is not sent. -/
def batches (table : PeerTable Peer Partition Addr) :
    List (Ref × MiningCandidate Ref Partition Peer Field) →
      Option (List (Peer × MiningCandidate Ref Partition Peer Field))
  | [] => some []
  | (_, candidate) :: peerRequests =>
    match getPeer candidate.partitionNumber2 table with
    | none => none
    | some none => batches table peerRequests
    | some (some peer) => (batches table peerRequests).map ((peer, candidate) :: ·)

/-- Without requests the timer of the state is not cancelled. -/
def handleSendH1BatchToPeer (s : Server Ref Partition Peer Addr Field) :
    Option (Server Ref Partition Peer Addr Field) :=
  if s.peerRequests.size = 0 then some s.castAfter
  else
    (batches s.table s.peerRequests.entries).map fun sent =>
      { (s.cancelTimer s.h1BatchTimer).castAfter with peerRequests := .empty, sent := s.sent ++ sent }

inductive Event (Ref Partition Peer Addr Field : Type) where
  | computedH1 (candidate : MiningCandidate Ref Partition Peer Field) (diff : Nat)
  | fire (timer : Nat)
  | refreshPeers (answers : List (Peer × Response Partition Addr))
  | handle
  deriving DecidableEq

/-- A miner's own candidate comes with no list of hashes. The server takes its messages in order. -/
def Server.step (batchSizeLimit : Nat) (s : Server Ref Partition Peer Addr Field) :
    Event Ref Partition Peer Addr Field → Option (Server Ref Partition Peer Addr Field)
  | .computedH1 candidate diff => if candidate.cmH1List = [] then some (s.cast (.computedH1 candidate diff)) else none
  | .fire timer => if timer ∈ s.timers then some ((s.cancelTimer timer).cast .sendH1BatchToPeer) else none
  | .refreshPeers answers => some { s with table := refresh answers s.table }
  | .handle =>
    match s.mailbox with
    | [] => none
    | .computedH1 candidate diff :: mailbox =>
      some (handleComputedH1 batchSizeLimit candidate diff { s with mailbox := mailbox })
    | .sendH1BatchToPeer :: mailbox => handleSendH1BatchToPeer { s with mailbox := mailbox }

end Code

section Hashes

variable {Ref Partition Peer Addr Field : Type} [LinearOrder Partition] [LinearOrder Peer]
  {table : PeerTable Peer Partition Addr} {entries : List (Ref × MiningCandidate Ref Partition Peer Field)}

/-- The hashes of a candidate, with their nonces. -/
def MiningCandidate.h1s (candidate : MiningCandidate Ref Partition Peer Field) :
    Multiset (Option Field × Option Field) := candidate.cmH1List

/-- The hash that a message brings. -/
def Message.h1s : Message Ref Partition Peer Field → Multiset (Option Field × Option Field)
  | .computedH1 candidate _ => {(candidate.h1, candidate.nonce)}
  | .sendH1BatchToPeer => 0

def Event.h1s : Event Ref Partition Peer Addr Field → Multiset (Option Field × Option Field)
  | .computedH1 candidate _ => {(candidate.h1, candidate.nonce)}
  | _ => 0

/-- The hashes that wait to be sent. -/
def Server.waiting [LinearOrder Ref] (s : Server Ref Partition Peer Addr Field) : Multiset (Option Field × Option Field) :=
  s.peerRequests.sum MiningCandidate.h1s

/-- The hashes of the batches that were sent. -/
def Server.sentH1s [LinearOrder Ref] (s : Server Ref Partition Peer Addr Field) : Multiset (Option Field × Option Field) :=
  (s.sent.map fun batch => batch.2.h1s).sum

/-- The hashes that did not reach the server yet. -/
def Server.arriving [LinearOrder Ref] (s : Server Ref Partition Peer Addr Field) : Multiset (Option Field × Option Field) :=
  (s.mailbox.map Message.h1s).sum

/-- The hashes of the waiting candidates whose partition has no peer. -/
def stranded (table : PeerTable Peer Partition Addr)
    (entries : List (Ref × MiningCandidate Ref Partition Peer Field)) : Multiset (Option Field × Option Field) :=
  ((entries.filter fun entry => getPeer entry.2.partitionNumber2 table = some none).map fun entry => entry.2.h1s).sum

lemma batches_spec (h : Kept table) : ∃ sent, batches table entries = some sent ∧
    (sent.map fun batch => batch.2.h1s).sum + stranded table entries = (entries.map fun entry => entry.2.h1s).sum := by
  induction entries with
  | nil => exact ⟨[], rfl, rfl⟩
  | cons entry entries ih =>
    obtain ⟨sent, hsent, hsum⟩ := ih
    obtain ⟨choice, hchoice, -⟩ : ∃ choice, getPeer entry.2.partitionNumber2 table = some choice ∧ _ :=
      listed_getPeer h
    cases choice with
    | none =>
      refine ⟨sent, by simp [batches, hchoice, hsent], ?_⟩
      simp only [stranded, List.filter_cons, hchoice, decide_true, if_true, List.map_cons, List.sum_cons, ← hsum]
      abel
    | some peer =>
      refine ⟨(peer, entry.2) :: sent, by simp [batches, hchoice, hsent], ?_⟩
      simp only [stranded, List.filter_cons, hchoice, List.map_cons, List.sum_cons, ← hsum]
      simp [add_assoc]

lemma stranded_eq_zero (h : ∀ entry ∈ entries, entry.2.cmH1List ≠ []) :
    stranded table entries = 0 ↔ ∀ entry ∈ entries, getPeer entry.2.partitionNumber2 table ≠ some none := by
  simp only [stranded, List.sum_eq_zero_iff, List.forall_mem_map, List.mem_filter, decide_eq_true_eq]
  constructor
  · intro hzero entry hentry hnone
    exact h entry hentry (Multiset.coe_eq_zero _ |>.mp (hzero entry ⟨hentry, hnone⟩))
  · rintro hall entry ⟨hentry, hnone⟩
    exact absurd hnone (hall entry hentry)

end Hashes

section Handlers

variable {Ref Partition Peer Addr Field : Type} [LinearOrder Ref] [LinearOrder Partition] [LinearOrder Peer]
  {diff : Nat} {candidate : MiningCandidate Ref Partition Peer Field}

/-- The candidate that collects the hashes, with one more of them. -/
def collect (peerRequests : SortedMap Ref (MiningCandidate Ref Partition Peer Field))
    (candidate : MiningCandidate Ref Partition Peer Field) (diff : Nat) :
    MiningCandidate Ref Partition Peer Field :=
  let shareableCandidate := (peerRequests.lookup candidate.cacheRef).getD { candidate with
    chunk1 := none, cmDiff := some diff, cmLeadPeer := none, h1 := none, h2 := none, nonce := none, poa2 := none,
    preimage := none }
  { shareableCandidate with cmH1List := (candidate.h1, candidate.nonce) :: shareableCandidate.cmH1List }

omit [LinearOrder Partition] [LinearOrder Peer] in
lemma sum_insert_collect {peerRequests : SortedMap Ref (MiningCandidate Ref Partition Peer Field)}
    (hown : candidate.cmH1List = []) :
    (peerRequests.insert candidate.cacheRef (collect peerRequests candidate diff)).sum MiningCandidate.h1s =
      {(candidate.h1, candidate.nonce)} + peerRequests.sum MiningCandidate.h1s := by
  rw [SortedMap.sum_insert]
  cases hfind : peerRequests.lookup candidate.cacheRef with
  | none =>
    rw [SortedMap.sum_erase_of_none hfind]
    simp [collect, hfind, MiningCandidate.h1s, hown]
  | some waiting =>
    rw [← SortedMap.sum_erase hfind, ← add_assoc]
    simp [collect, hfind, MiningCandidate.h1s, ← Multiset.cons_coe, ← Multiset.singleton_add]

lemma handleComputedH1_spec (batchSizeLimit : Nat) (candidate : MiningCandidate Ref Partition Peer Field) (diff : Nat)
    (s : Server Ref Partition Peer Addr Field) : ∃ mailbox, (mailbox = s.mailbox ∨ mailbox = s.mailbox ++ [.sendH1BatchToPeer]) ∧
    handleComputedH1 batchSizeLimit candidate diff s =
      { s with
        peerRequests := s.peerRequests.insert candidate.cacheRef (collect s.peerRequests candidate diff)
        mailbox := mailbox } := by
  unfold handleComputedH1
  dsimp only
  split_ifs
  · exact ⟨_, Or.inr rfl, rfl⟩
  · exact ⟨_, Or.inl rfl, rfl⟩

end Handlers

section Runs

variable {Ref Partition Peer Addr Field : Type} [LinearOrder Ref] [LinearOrder Partition] [LinearOrder Peer]
  {s s' : Server Ref Partition Peer Addr Field} {batchSizeLimit : Nat} {event : Event Ref Partition Peer Addr Field}
  {history : List (Event Ref Partition Peer Addr Field)}

/-- One timer at most runs, one runs when no message asks to send the batches, and every hash that was computed is
under way to the server, waits there, or was sent in a batch. -/
structure Server.Exact (history : List (Event Ref Partition Peer Addr Field))
    (s : Server Ref Partition Peer Addr Field) : Prop where
  single : s.timers.length ≤ 1
  armed : .sendH1BatchToPeer ∉ s.mailbox → s.timers.length = 1
  once : (history.map Event.h1s).sum = s.arriving + s.waiting + s.sentH1s

/-- The batches are asked to be sent while no timer runs or something waits, and the partitions of all that waits have
a peer. -/
def Server.Timely (_ : List (Event Ref Partition Peer Addr Field)) (s : Server Ref Partition Peer Addr Field) :
    Event Ref Partition Peer Addr Field → Prop
  | .handle => s.mailbox.head? = some .sendH1BatchToPeer →
      (s.peerRequests.size = 0 → s.timers = []) ∧
        ∀ entry ∈ s.peerRequests.entries, getPeer entry.2.partitionNumber2 s.table ≠ some none
  | _ => True

/-- What holds in every run. -/
structure Sound (s : Server Ref Partition Peer Addr Field) : Prop where
  kept : Kept s.table
  fresh : ∀ timer ∈ s.timers, timer < s.refs
  nodup : s.timers.Nodup
  filled : ∀ entry ∈ s.peerRequests.entries, entry.2.cmH1List ≠ []
  own : ∀ candidate diff, .computedH1 candidate diff ∈ s.mailbox → candidate.cmH1List = []
  alive : s.timers ≠ [] ∨ .sendH1BatchToPeer ∈ s.mailbox

lemma sound_start : Sound (Server.start : Server Ref Partition Peer Addr Field) where
  kept := kept_init
  fresh := by simp [Server.start]
  nodup := List.nodup_singleton 0
  filled := by simp [Server.start, SortedMap.empty]
  own := by simp [Server.start]
  alive := Or.inl (by simp [Server.start])

/-- What an event does. -/
inductive Outcome (s : Server Ref Partition Peer Addr Field) :
    Event Ref Partition Peer Addr Field → Server Ref Partition Peer Addr Field → Prop
  | arrives (candidate : MiningCandidate Ref Partition Peer Field) (diff : Nat) (hown : candidate.cmH1List = []) :
    Outcome s (.computedH1 candidate diff) (s.cast (.computedH1 candidate diff))
  | fires (timer : Nat) (htimer : timer ∈ s.timers) :
    Outcome s (.fire timer) ((s.cancelTimer timer).cast .sendH1BatchToPeer)
  | refreshes (answers : List (Peer × Response Partition Addr)) :
    Outcome s (.refreshPeers answers) { s with table := refresh answers s.table }
  | collects (candidate : MiningCandidate Ref Partition Peer Field) (diff : Nat)
    (mailbox mailbox' : List (Message Ref Partition Peer Field))
    (hmailbox : s.mailbox = .computedH1 candidate diff :: mailbox)
    (hfull : mailbox' = mailbox ∨ mailbox' = mailbox ++ [.sendH1BatchToPeer]) :
    Outcome s .handle { s with
      peerRequests := s.peerRequests.insert candidate.cacheRef (collect s.peerRequests candidate diff)
      mailbox := mailbox' }
  | idles (mailbox : List (Message Ref Partition Peer Field)) (hmailbox : s.mailbox = .sendH1BatchToPeer :: mailbox)
    (hsize : s.peerRequests.size = 0) :
    Outcome s .handle { s with
      mailbox := mailbox, timers := s.refs :: s.timers, h1BatchTimer := s.refs, refs := s.refs + 1 }
  | sends (mailbox : List (Message Ref Partition Peer Field))
    (sent : List (Peer × MiningCandidate Ref Partition Peer Field))
    (hmailbox : s.mailbox = .sendH1BatchToPeer :: mailbox) (hsize : s.peerRequests.size ≠ 0)
    (hsent : (sent.map fun batch => batch.2.h1s).sum + stranded s.table s.peerRequests.entries = s.waiting) :
    Outcome s .handle { s with
      peerRequests := .empty, mailbox := mailbox, timers := s.refs :: s.timers.erase s.h1BatchTimer
      h1BatchTimer := s.refs, refs := s.refs + 1, sent := s.sent ++ sent }

lemma outcome_of_step (h : Kept s.table) (hs : s.step batchSizeLimit event = some s') : Outcome s event s' := by
  cases event with
  | computedH1 candidate diff =>
    simp only [Server.step] at hs
    split_ifs at hs with hown
    cases hs
    exact .arrives candidate diff hown
  | fire timer =>
    simp only [Server.step] at hs
    split_ifs at hs with htimer
    cases hs
    exact .fires timer htimer
  | refreshPeers answers =>
    cases hs
    exact .refreshes answers
  | handle =>
    simp only [Server.step] at hs
    split at hs
    · cases hs
    · next candidate diff mailbox hmailbox =>
      obtain ⟨mailbox', hfull, heq⟩ := handleComputedH1_spec batchSizeLimit candidate diff { s with mailbox := mailbox }
      rw [heq] at hs
      cases hs
      exact .collects candidate diff mailbox mailbox' hmailbox hfull
    · next mailbox hmailbox =>
      unfold handleSendH1BatchToPeer at hs
      split_ifs at hs with hsize
      · cases hs
        exact .idles mailbox hmailbox hsize
      · obtain ⟨sent, hsent, hsum⟩ : ∃ sent, batches s.table s.peerRequests.entries = some sent ∧ _ := batches_spec h
        rw [hsent] at hs
        cases hs
        exact .sends mailbox sent hmailbox hsize hsum

lemma Sound.rearm {timers : List Nat} (h : Sound s) (htimers : timers.Sublist s.timers) :
    (∀ timer ∈ s.refs :: timers, timer < s.refs + 1) ∧ (s.refs :: timers).Nodup := by
  have hfresh : ∀ timer ∈ timers, timer < s.refs := fun timer htimer => h.fresh timer (htimers.subset htimer)
  refine ⟨List.forall_mem_cons.mpr ⟨Nat.lt_succ_self _, fun timer htimer => Nat.lt_succ_of_lt (hfresh timer htimer)⟩, ?_⟩
  exact List.nodup_cons.mpr ⟨fun hmem => (hfresh _ hmem).false, h.nodup.sublist htimers⟩

lemma Sound.own_tail {message : Message Ref Partition Peer Field} {mailbox : List (Message Ref Partition Peer Field)}
    (h : Sound s) (hmailbox : s.mailbox = message :: mailbox) :
    ∀ candidate diff, .computedH1 candidate diff ∈ mailbox → candidate.cmH1List = [] :=
  fun candidate diff hmem => h.own candidate diff (hmailbox ▸ List.mem_cons_of_mem _ hmem)

lemma Sound.step (h : Sound s) (hs : Outcome s event s') : Sound s' := by
  cases hs with
  | arrives candidate diff hown =>
    refine { h with own := ?_, alive := h.alive.imp_right fun hmem => List.mem_append.mpr (Or.inl hmem) }
    intro candidate' diff' hmem
    rcases List.mem_append.mp hmem with hmem | hmem
    · exact h.own candidate' diff' hmem
    · cases List.mem_singleton.mp hmem
      exact hown
  | fires timer htimer =>
    refine { h with fresh := ?_, nodup := h.nodup.erase timer, own := ?_, alive := Or.inr (by simp [Server.cast]) }
    · exact fun timer' htimer' => h.fresh timer' (List.mem_of_mem_erase htimer')
    · intro candidate diff hmem
      exact h.own candidate diff (by simpa [Server.cast, Server.cancelTimer] using hmem)
  | refreshes answers => exact { h with kept := h.kept.refresh }
  | collects candidate diff mailbox mailbox' hmailbox hfull =>
    refine { h with filled := ?_, own := ?_, alive := ?_ }
    · intro entry hentry
      rcases SortedMap.mem_insert.mp hentry with rfl | ⟨-, hentry⟩
      · exact List.cons_ne_nil _ _
      · exact h.filled entry hentry
    · intro candidate' diff' hmem
      apply h.own_tail hmailbox candidate' diff'
      rcases hfull with rfl | rfl
      · exact hmem
      · simpa using hmem
    · refine h.alive.imp_right fun hmem => ?_
      rw [hmailbox] at hmem
      rcases hfull with rfl | rfl
      · simpa using hmem
      · simp
  | idles mailbox hmailbox hsize =>
    obtain ⟨hfresh, hnodup⟩ := h.rearm (List.Sublist.refl _)
    exact { h with
      fresh := hfresh, nodup := hnodup, own := h.own_tail hmailbox, alive := Or.inl (List.cons_ne_nil _ _) }
  | sends mailbox sent hmailbox hsize hsent =>
    obtain ⟨hfresh, hnodup⟩ := h.rearm (List.erase_sublist (a := s.h1BatchTimer))
    exact { h with
      fresh := hfresh, nodup := hnodup, filled := List.forall_mem_nil _, own := h.own_tail hmailbox
      alive := Or.inl (List.cons_ne_nil _ _) }

/-- The hashes that an event drops. -/
def Server.lost (s : Server Ref Partition Peer Addr Field) :
    Event Ref Partition Peer Addr Field → Multiset (Option Field × Option Field)
  | .handle =>
    match s.mailbox with
    | .sendH1BatchToPeer :: _ => stranded s.table s.peerRequests.entries
    | _ => 0
  | _ => 0

lemma Outcome.once (hs : Outcome s event s') (h : Sound s) :
    s'.arriving + s'.waiting + s'.sentH1s + s.lost event =
      s.arriving + s.waiting + s.sentH1s + event.h1s := by
  cases hs with
  | arrives candidate diff hown =>
    simp only [Server.arriving, Server.cast, List.map_append, List.sum_append, Server.lost, Event.h1s,
      List.map_singleton, List.sum_singleton, Message.h1s, Server.waiting, Server.sentH1s]
    abel
  | fires timer htimer =>
    simp [Server.arriving, Server.cast, Server.cancelTimer, Server.lost, Event.h1s, Message.h1s, Server.waiting,
      Server.sentH1s]
  | refreshes answers => rfl
  | collects candidate diff mailbox mailbox' hmailbox hfull =>
    have hown := h.own candidate diff (by rw [hmailbox]; exact List.mem_cons_self)
    have hsame : (mailbox'.map Message.h1s).sum = (mailbox.map Message.h1s).sum := by
      rcases hfull with rfl | rfl
      · rfl
      · simp [Message.h1s]
    simp only [Server.arriving, hsame, Server.waiting, sum_insert_collect hown, hmailbox, Server.lost,
      List.map_cons, List.sum_cons, Message.h1s, Event.h1s, Server.sentH1s]
    abel
  | idles mailbox hmailbox hsize =>
    have hnil : s.peerRequests.entries = [] := List.length_eq_zero_iff.mp hsize
    simp [Server.arriving, hmailbox, Server.lost, Message.h1s, Event.h1s, Server.waiting, Server.sentH1s, stranded, hnil]
  | sends mailbox sent hmailbox hsize hsent =>
    simp only [Server.arriving, Server.waiting, SortedMap.sum, SortedMap.empty, List.map_nil, List.sum_nil, hmailbox, Server.lost,
      Message.h1s, Event.h1s, Server.sentH1s, List.map_append, List.sum_append, List.map_cons, List.sum_cons]
    rw [Server.waiting, SortedMap.sum] at hsent
    rw [← hsent]
    abel

lemma lost_eq_zero (h : Sound s) : s.lost .handle = 0 ↔ (s.mailbox.head? = some .sendH1BatchToPeer →
    ∀ entry ∈ s.peerRequests.entries, getPeer entry.2.partitionNumber2 s.table ≠ some none) := by
  simp only [Server.lost]
  split
  · next mailbox hmailbox => simp [stranded_eq_zero h.filled, hmailbox]
  · next hmailbox =>
    refine ⟨fun _ hhead => ?_, fun _ => rfl⟩
    obtain ⟨mailbox, hcons⟩ := List.head?_eq_some_iff.mp hhead
    exact absurd hcons (hmailbox mailbox)

/-- The invariant of a run with one timer. -/
structure Batched (history : List (Event Ref Partition Peer Addr Field)) (s : Server Ref Partition Peer Addr Field) :
    Prop extends Sound s where
  timer : ∀ timer ∈ s.timers, timer = s.h1BatchTimer
  once : (history.map Event.h1s).sum = s.arriving + s.waiting + s.sentH1s

lemma batched_start : Batched [] (Server.start : Server Ref Partition Peer Addr Field) where
  toSound := sound_start
  timer := by simp [Server.start]
  once := rfl

lemma Batched.single (h : Batched history s) : s.timers.length ≤ 1 := by
  have hall : s.timers = List.replicate s.timers.length s.h1BatchTimer := List.eq_replicate_of_mem h.timer
  exact List.nodup_replicate.mp (hall ▸ h.nodup)

lemma Batched.exact (h : Batched history s) : s.Exact history where
  single := h.single
  armed hnone := by
    have hpos : 0 < s.timers.length := List.length_pos_iff.mpr (h.alive.resolve_right hnone)
    exact Nat.le_antisymm h.single hpos
  once := h.once

lemma Batched.erase (h : Batched history s) : s.timers.erase s.h1BatchTimer = [] := by
  refine List.eq_nil_iff_forall_not_mem.mpr fun timer htimer => ?_
  obtain ⟨hne, hmem⟩ := h.nodup.mem_erase_iff.mp htimer
  exact hne (h.timer timer hmem)

lemma Batched.step (h : Batched history s) (hs : Outcome s event s') (htimely : s.Timely history event) :
    Batched (history ++ [event]) s' where
  toSound := h.toSound.step hs
  timer := by
    cases hs with
    | arrives candidate diff hown => exact h.timer
    | fires timer htimer => exact fun timer' htimer' => h.timer timer' (List.mem_of_mem_erase htimer')
    | refreshes answers => exact h.timer
    | collects candidate diff mailbox mailbox' hmailbox hfull => exact h.timer
    | idles mailbox hmailbox hsize =>
      have hnone := (htimely (by rw [hmailbox]; rfl)).1 hsize
      simp [hnone]
    | sends mailbox sent hmailbox hsize hsent => simp [h.erase]
  once := by
    have hlost : s.lost event = 0 := by
      cases event with
      | handle => exact (lost_eq_zero h.toSound).mpr fun hhead => (htimely hhead).2
      | _ => rfl
    have honce := hs.once h.toSound
    rw [hlost, add_zero] at honce
    rw [List.map_append, List.sum_append, h.once, honce]
    simp

lemma Batched.timely (h : Batched history s) (hs : Outcome s event s') (hexact : s'.Exact (history ++ [event])) :
    s.Timely history event := by
  cases event with
  | handle =>
    intro hhead
    refine ⟨fun hsize => ?_, ?_⟩
    · cases hs with
      | collects candidate diff mailbox mailbox' hmailbox hfull => simp [hmailbox] at hhead
      | idles mailbox hmailbox hsize => simpa using hexact.single
      | sends mailbox sent hmailbox hne hsent => exact absurd hsize hne
    · refine (lost_eq_zero h.toSound).mp ?_ hhead
      have honce := hs.once h.toSound
      have hexact := hexact.once
      rw [List.map_append, List.sum_append, h.once, List.map_singleton, List.sum_singleton, ← honce] at hexact
      simpa using hexact
  | _ => trivial

/-- In every state of a run one timer runs at most, and the hashes are all accounted for, exactly when the message to
send the batches is always handled while no timer runs or something waits, and the partitions of all that waits have
a peer. -/
theorem batches_exact_iff (batchSizeLimit : Nat) (events : List (Event Ref Partition Peer Addr Field)) :
    AllReached (Server.step batchSizeLimit) (fun history s => s.Exact history) .start events ↔
      AllPerformed (Server.step batchSizeLimit) (fun history s => s.Timely history) .start events := by
  refine allReached_iff_allPerformed batched_start (fun _ _ h => h.exact) ?_ ?_
  · intro history s event s' h hs htimely
    exact h.step (outcome_of_step h.kept hs) htimely
  · intro history s event s' h hs hexact
    exact h.timely (outcome_of_step h.kept hs) hexact

end Runs

/-- The hashes of a full batch, a timer that fires after the last of them, and the two messages to send the batch. -/
def fullBatch : List (Event Nat Nat Nat Nat Nat) :=
  .refreshPeers [(1, some [⟨0, 10, 1⟩])] ::
    (List.replicate 400 (.computedH1 { cacheRef := 0, partitionNumber2 := 0, h1 := some 5, nonce := some 6 } 1) ++
      List.replicate 400 .handle ++ [.fire 0, .handle, .handle])

/-- The second message finds nothing waiting and starts a second timer. -/
theorem full_batch_starts_two_timers :
    ¬ AllReached (Server.step 400) (fun history s => s.Exact history) .start fullBatch := by
  have htwo : (fullBatch.foldlM (Server.step 400) .start).map (fun s => s.timers.length) = some 2 := by
    decide +kernel
  obtain ⟨s, hrun, htimers⟩ := Option.map_eq_some_iff.mp htwo
  intro h
  have hsingle := (h fullBatch [] s (List.append_nil _).symm hrun).single
  omega

end Arweave.Coordination

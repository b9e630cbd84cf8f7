import Mathlib.Algebra.Order.Field.Rat
import Mathlib.Data.Finset.Erase
import Mathlib.Data.Finset.Insert
import Arweave.Lib.Runs
import Arweave.Lib.Sorted

/-!
# Which peer has which data

The server asks peers which parts of the weave they have, and keeps the answers in a table that is ordered by
the place in the weave. A peer that has not answered for an hour is removed by a timer. Messages to the server
queue up in its mailbox, and a timer that expires sends one.
-/

namespace Arweave.Peers.DataDiscovery

open Lib

section Code

/-- `?NETWORK_DATA_BUCKET_SIZE` -/
def networkDataBucketSize : Nat := 10000000000

/-- `?PEER_EXPIRATION_TIME_MS` -/
def peerExpirationTime : Nat := 60 * 60 * 1000

/-- The shares of the buckets of one size. -/
structure SyncBuckets where
  size : Nat
  map : SortedMap Nat ℚ

/-- `ar_sync_buckets:foreach/3`, as the list of the arguments of the function. -/
def SyncBuckets.foreach (bucketSize : Nat) (buckets : SyncBuckets) : List (Nat × ℚ) :=
  if buckets.size ≥ bucketSize ∧ buckets.size % bucketSize = 0 then
    buckets.map.entries.flatMap fun (bucket, share) =>
      (List.range' (bucket * buckets.size / bucketSize)
        ((bucket + 1) * buckets.size / bucketSize - bucket * buckets.size / bucketSize)).map fun subBucket => (subBucket, share)
  else []

variable {Peer : Type} [LinearOrder Peer]

/-- A timer of `erlang:send_after`, with the time of its start. -/
structure Timer (Peer : Type) where
  ref : Nat
  peer : Peer
  started : Nat
  deriving DecidableEq

/-- A removal comes with the timer that sent it, if one did. -/
inductive Message (Peer : Type) where
  | addPeerSyncBuckets (peer : Peer) (buckets : SyncBuckets)
  | removePeer (peer : Peer) (timer : Option (Timer Peer))
  | peerRemoved (peer : Peer)

/-- The state of the server and the table, with the clock, the running timers and the mailbox. -/
structure State (Peer : Type) [LinearOrder Peer] where
  networkMap : SortedMap Peer SyncBuckets := SortedMap.empty
  expirationMap : SortedMap Peer (Timer Peer) := SortedMap.empty
  table : Finset (Nat × ℚ × Peer) := ∅
  now : Nat := 0
  timers : List (Timer Peer) := []
  nextRef : Nat := 0
  mailbox : List (Message Peer) := []

/-- `timer:cancel/1` does nothing to a timer that is none of the timer module. -/
def cancel (_timer : Timer Peer) (s : State Peer) : State Peer := s

def castAfter (peer : Peer) (s : State Peer) : Timer Peer × State Peer :=
  let timer : Timer Peer := ⟨s.nextRef, peer, s.now⟩
  (timer, { s with timers := timer :: s.timers, nextRef := s.nextRef + 1 })

def refreshExpirationTimer (peer : Peer) (s : State Peer) : State Peer :=
  let s := match s.expirationMap.lookup peer with
    | none => s
    | some timer => cancel timer s
  let (timer2, s) := castAfter peer s
  { s with expirationMap := s.expirationMap.insert peer timer2 }

def handleAddPeerSyncBuckets (peer : Peer) (buckets : SyncBuckets) (s : State Peer) : State Peer :=
  let state2 := refreshExpirationTimer peer s
  { state2 with
    networkMap := s.networkMap.insert peer buckets
    table := (buckets.foreach networkDataBucketSize).foldl (fun table e => insert (e.1, e.2, peer) table) state2.table }

def handleRemovePeer (peer : Peer) (s : State Peer) : State Peer :=
  { s with
    networkMap := match s.networkMap.lookup peer with
      | none => s.networkMap
      | some _ => s.networkMap.erase peer
    table := match s.networkMap.lookup peer with
      | none => s.table
      | some buckets => (buckets.foreach networkDataBucketSize).foldl (fun table e => table.erase (e.1, e.2, peer)) s.table
    expirationMap := s.expirationMap.erase peer }

def handle (s : State Peer) : Message Peer → State Peer
  | .addPeerSyncBuckets peer buckets => handleAddPeerSyncBuckets peer buckets s
  | .removePeer peer _ => handleRemovePeer peer s
  | .peerRemoved peer => { s with mailbox := s.mailbox ++ [.removePeer peer none] }

/-- What happens: a peer answers, a peer is removed, time passes, a timer expires at or after its time, or the server
handles its next message. -/
inductive Op (Peer : Type) where
  | answer (peer : Peer) (buckets : SyncBuckets)
  | remove (peer : Peer)
  | wait (milliseconds : Nat)
  | expire (timer : Timer Peer)
  | handle

def step (s : State Peer) : Op Peer → Option (State Peer)
  | .answer peer buckets => some { s with mailbox := s.mailbox ++ [.addPeerSyncBuckets peer buckets] }
  | .remove peer => some { s with mailbox := s.mailbox ++ [.peerRemoved peer] }
  | .wait milliseconds => some { s with now := s.now + milliseconds }
  | .expire timer =>
    if timer ∈ s.timers ∧ timer.started + peerExpirationTime ≤ s.now then
      some { s with
        timers := s.timers.erase timer
        mailbox := s.mailbox ++ [.removePeer timer.peer (some timer)] }
    else none
  | .handle =>
    match s.mailbox with
    | [] => none
    | message :: mailbox => some (handle { s with mailbox := mailbox } message)

end Code

section Runs

variable {Peer : Type} [LinearOrder Peer] {s s' : State Peer} {peer p : Peer} {buckets : SyncBuckets} {op : Op Peer}
  {pairs : List (Nat × ℚ)} {table : Finset (Nat × ℚ × Peer)} {bucket : Nat} {share : ℚ}

/-- The table has the buckets of the stored answers, and nothing else. -/
def State.Mirrors (s : State Peer) : Prop :=
  ∀ bucket share peer, (bucket, share, peer) ∈ s.table ↔
    ∃ buckets, s.networkMap.lookup peer = some buckets ∧ (bucket, share) ∈ buckets.foreach networkDataBucketSize

/-- A peer that is about to be removed by a timer other than that of its last answer has not answered for an hour. -/
def State.Punctual (s : State Peer) : Prop :=
  ∀ peer timer mailbox last, s.mailbox = .removePeer peer (some timer) :: mailbox → s.expirationMap.lookup peer = some last →
    timer ≠ last → last.started + peerExpirationTime ≤ s.now

def Message.timer : Message Peer → Option (Timer Peer)
  | .removePeer _ timer => timer
  | _ => none

/-- The timers that run or have a message in the mailbox. -/
def State.live (s : State Peer) : List (Timer Peer) := s.timers ++ s.mailbox.filterMap Message.timer

/-- The answer that is handled. -/
def answerHandled (s : State Peer) : Op Peer → Option (Peer × SyncBuckets)
  | .handle =>
    match s.mailbox with
    | .addPeerSyncBuckets peer buckets :: _ => some (peer, buckets)
    | _ => none
  | _ => none

/-- An answer that is handled has the buckets of the stored answer of its peer, with the same shares. -/
def Extends (s : State Peer) (op : Op Peer) : Prop :=
  ∀ answer ∈ answerHandled s op, ∀ old ∈ s.networkMap.lookup answer.1,
    old.foreach networkDataBucketSize ⊆ answer.2.foreach networkDataBucketSize

/-- When an answer is handled, no timer of its peer that was started before is left. -/
def Alone (s : State Peer) (op : Op Peer) : Prop :=
  ∀ answer ∈ answerHandled s op, ∀ timer ∈ s.live, timer.peer = answer.1 → s.now ≤ timer.started

instance : Decidable (Extends s op) :=
  inferInstanceAs (Decidable (∀ answer ∈ answerHandled s op, ∀ old ∈ s.networkMap.lookup answer.1,
    old.foreach networkDataBucketSize ⊆ answer.2.foreach networkDataBucketSize))

instance : Decidable (Alone s op) :=
  inferInstanceAs (Decidable (∀ answer ∈ answerHandled s op, ∀ timer ∈ s.live, timer.peer = answer.1 → s.now ≤ timer.started))

lemma mem_foldl_insert : (bucket, share, p) ∈ pairs.foldl (fun table e => insert (e.1, e.2, peer) table) table ↔
    (p = peer ∧ (bucket, share) ∈ pairs) ∨ (bucket, share, p) ∈ table := by
  induction pairs generalizing table with
  | nil => simp
  | cons e pairs ih =>
    rw [List.foldl_cons, ih, Finset.mem_insert, List.mem_cons, Prod.ext_iff, Prod.ext_iff, Prod.ext_iff]
    tauto

lemma mem_foldl_erase : (bucket, share, p) ∈ pairs.foldl (fun table e => table.erase (e.1, e.2, peer)) table ↔
    ¬(p = peer ∧ (bucket, share) ∈ pairs) ∧ (bucket, share, p) ∈ table := by
  induction pairs generalizing table with
  | nil => simp
  | cons e pairs ih =>
    rw [List.foldl_cons, ih, Finset.mem_erase, List.mem_cons, Ne, Prod.ext_iff, Prod.ext_iff, Prod.ext_iff]
    tauto

@[simp] lemma handleAdd_networkMap : (handleAddPeerSyncBuckets peer buckets s).networkMap = s.networkMap.insert peer buckets := rfl

lemma mem_table_handleAdd : (bucket, share, p) ∈ (handleAddPeerSyncBuckets peer buckets s).table ↔
    (p = peer ∧ (bucket, share) ∈ buckets.foreach networkDataBucketSize) ∨ (bucket, share, p) ∈ s.table := by
  have htable : (refreshExpirationTimer peer s).table = s.table := by
    simp only [refreshExpirationTimer, castAfter, cancel]
    split <;> rfl
  rw [handleAddPeerSyncBuckets, mem_foldl_insert, htable]

lemma mirrors_handleAdd_iff (hs : s.Mirrors) : (handleAddPeerSyncBuckets peer buckets s).Mirrors ↔
    ∀ old, s.networkMap.lookup peer = some old → old.foreach networkDataBucketSize ⊆ buckets.foreach networkDataBucketSize := by
  simp only [State.Mirrors, mem_table_handleAdd, handleAdd_networkMap, SortedMap.lookup_insert]
  constructor
  · rintro h old hold ⟨bucket, share⟩ hmem
    obtain ⟨_, heq, hnew⟩ := (h bucket share peer).mp (Or.inr ((hs bucket share peer).mpr ⟨old, hold, hmem⟩))
    rw [if_pos rfl] at heq
    cases heq
    exact hnew
  · intro h bucket share p
    by_cases hp : p = peer
    · subst hp
      rw [if_pos rfl, hs]
      constructor
      · rintro (⟨-, hnew⟩ | ⟨old, hold, hmem⟩)
        · exact ⟨_, rfl, hnew⟩
        · exact ⟨_, rfl, h old hold hmem⟩
      · rintro ⟨_, heq, hnew⟩
        cases heq
        exact Or.inl ⟨rfl, hnew⟩
    · rw [if_neg hp, ← hs]
      exact or_iff_right fun h => hp h.1

lemma mirrors_handleRemove (hs : s.Mirrors) : (handleRemovePeer peer s).Mirrors := by
  intro bucket share p
  cases hlookup : s.networkMap.lookup peer with
  | none =>
    simp only [handleRemovePeer, hlookup]
    exact hs bucket share p
  | some buckets =>
    simp only [handleRemovePeer, hlookup, mem_foldl_erase, SortedMap.lookup_erase]
    by_cases hp : p = peer
    · subst hp
      rw [if_pos rfl, hs, hlookup]
      simp
    · rw [if_neg hp, hs]
      simp [hp]

lemma mirrors_step_iff (hs : s.Mirrors) : (∀ s', step s op = some s' → s'.Mirrors) ↔ Extends s op := by
  cases op with
  | answer peer buckets => exact iff_of_true (fun _ h => by cases h; exact hs) (fun _ h => by cases h)
  | remove peer => exact iff_of_true (fun _ h => by cases h; exact hs) (fun _ h => by cases h)
  | wait milliseconds => exact iff_of_true (fun _ h => by cases h; exact hs) (fun _ h => by cases h)
  | expire timer =>
    refine iff_of_true (fun _ h => ?_) (fun _ h => by cases h)
    simp only [step] at h
    split_ifs at h
    cases h
    exact hs
  | handle =>
    cases hmailbox : s.mailbox with
    | nil => exact iff_of_true (fun _ h => by simp [step, hmailbox] at h) (fun _ h => by simp [answerHandled, hmailbox] at h)
    | cons message mailbox =>
      have hrest : ({ s with mailbox := mailbox } : State Peer).Mirrors := hs
      simp only [step, hmailbox, Option.some.injEq, forall_eq', Extends, answerHandled]
      cases message with
      | addPeerSyncBuckets peer buckets =>
        rw [handle, mirrors_handleAdd_iff hrest]
        simp
      | removePeer peer timer => exact iff_of_true (mirrors_handleRemove hrest) (fun _ h => by cases h)
      | peerRemoved peer => exact iff_of_true hs (fun _ h => by cases h)

/-- No timer is older than the last answer of its peer, and those that have expired have run for an hour. -/
structure State.Timed (s : State Peer) : Prop where
  recent : ∀ timer ∈ s.live, ∀ last, s.expirationMap.lookup timer.peer = some last → last.started ≤ timer.started
  expired : ∀ peer timer, .removePeer peer (some timer) ∈ s.mailbox →
    timer.peer = peer ∧ timer.started + peerExpirationTime ≤ s.now

lemma State.Timed.punctual (hs : s.Timed) : s.Punctual := by
  intro peer timer mailbox last hmailbox hlast _
  have hmem : .removePeer peer (some timer) ∈ s.mailbox := by rw [hmailbox]; exact List.mem_cons_self
  obtain ⟨rfl, hexpired⟩ := hs.expired peer timer hmem
  have hlive : timer ∈ s.live := List.mem_append_right _ (List.mem_filterMap.mpr ⟨_, hmem, rfl⟩)
  have hle := hs.recent timer hlive last hlast
  omega

lemma State.Timed.mono (hs : s.Timed) (hlive : ∀ timer ∈ s'.live, timer ∈ s.live)
    (hmap : ∀ peer last, s'.expirationMap.lookup peer = some last → s.expirationMap.lookup peer = some last)
    (hmailbox : ∀ peer timer, .removePeer peer (some timer) ∈ s'.mailbox → .removePeer peer (some timer) ∈ s.mailbox)
    (hnow : s.now ≤ s'.now) : s'.Timed := by
  refine ⟨fun timer hlive' last hlast => hs.recent timer (hlive timer hlive') last (hmap _ _ hlast), fun peer timer hmem => ?_⟩
  obtain ⟨hpeer, hexpired⟩ := hs.expired peer timer (hmailbox peer timer hmem)
  exact ⟨hpeer, hexpired.trans hnow⟩

lemma State.Timed.send {message : Message Peer} (hs : s.Timed) (htimer : message.timer = none) :
    ({ s with mailbox := s.mailbox ++ [message] } : State Peer).Timed := by
  refine hs.mono (fun timer hlive => ?_) (fun _ _ hlast => hlast) (fun peer timer hmem => ?_) le_rfl
  · simp only [State.live, List.filterMap_append, List.filterMap_cons, htimer, List.filterMap_nil, List.append_nil] at hlive ⊢
    exact hlive
  · obtain hmem | hmem := List.mem_append.mp hmem
    · exact hmem
    · rw [← List.mem_singleton.mp hmem] at htimer
      cases htimer

lemma State.Timed.expire {timer : Timer Peer} (hs : s.Timed) (hmem : timer ∈ s.timers)
    (hexpired : timer.started + peerExpirationTime ≤ s.now) :
    ({ s with timers := s.timers.erase timer, mailbox := s.mailbox ++ [.removePeer timer.peer (some timer)] } : State Peer).Timed := by
  constructor
  · intro timer' hlive
    apply hs.recent
    simp only [State.live, List.filterMap_append, List.mem_append] at hlive ⊢
    obtain hrunning | hwaiting | hlast := hlive
    · exact Or.inl (List.mem_of_mem_erase hrunning)
    · exact Or.inr hwaiting
    · obtain rfl : timer' = timer := by simpa [Message.timer] using hlast
      exact Or.inl hmem
  · intro peer timer' hmem'
    obtain hmem' | hmem' := List.mem_append.mp hmem'
    · exact hs.expired peer timer' hmem'
    · cases List.mem_singleton.mp hmem'
      exact ⟨rfl, hexpired⟩

lemma State.Timed.handleAdd (hs : s.Timed) (halone : ∀ timer ∈ s.live, timer.peer = peer → s.now ≤ timer.started) :
    (handleAddPeerSyncBuckets peer buckets s).Timed := by
  have hrefresh : refreshExpirationTimer peer s = { s with
      timers := ⟨s.nextRef, peer, s.now⟩ :: s.timers
      nextRef := s.nextRef + 1
      expirationMap := s.expirationMap.insert peer ⟨s.nextRef, peer, s.now⟩ } := by
    simp only [refreshExpirationTimer, castAfter, cancel]
    split <;> rfl
  simp only [handleAddPeerSyncBuckets, hrefresh]
  refine ⟨fun timer hlive last hlast => ?_, fun p timer hmem => hs.expired p timer hmem⟩
  simp only [SortedMap.lookup_insert] at hlast
  simp only [State.live, List.cons_append, List.mem_cons] at hlive
  split_ifs at hlast with hpeer
  · cases hlast
    obtain rfl | hlive := hlive
    · exact le_rfl
    · exact halone timer hlive hpeer
  · obtain rfl | hlive := hlive
    · exact (hpeer rfl).elim
    · exact hs.recent timer hlive last hlast

lemma State.Timed.handleRemove (hs : s.Timed) : (handleRemovePeer peer s).Timed := by
  refine hs.mono (fun _ hlive => hlive) (fun p last hlast => ?_) (fun _ _ hmem => hmem) le_rfl
  simp only [handleRemovePeer, SortedMap.lookup_erase] at hlast
  split_ifs at hlast
  exact hlast

lemma State.Timed.step (hs : s.Timed) (halone : Alone s op) (h : step s op = some s') : s'.Timed := by
  cases op with
  | answer peer buckets =>
    cases h
    exact hs.send rfl
  | remove peer =>
    cases h
    exact hs.send rfl
  | wait milliseconds =>
    cases h
    exact hs.mono (fun _ hlive => hlive) (fun _ _ hlast => hlast) (fun _ _ hmem => hmem) (Nat.le_add_right _ _)
  | expire timer =>
    simp only [DataDiscovery.step] at h
    split_ifs at h with hexpires
    cases h
    exact hs.expire hexpires.1 hexpires.2
  | handle =>
    cases hmailbox : s.mailbox with
    | nil => simp [DataDiscovery.step, hmailbox] at h
    | cons message mailbox =>
      simp only [DataDiscovery.step, hmailbox, Option.some.injEq] at h
      have hlive : ∀ timer ∈ ({ s with mailbox := mailbox } : State Peer).live, timer ∈ s.live := by
        intro timer hmem
        simp only [State.live, hmailbox, List.mem_append] at hmem ⊢
        exact hmem.imp_right fun hmem => (List.sublist_cons_self message mailbox).filterMap _ |>.subset hmem
      have hrest : ({ s with mailbox := mailbox } : State Peer).Timed :=
        hs.mono hlive (fun _ _ hlast => hlast)
          (fun _ _ hmem => by rw [hmailbox]; exact List.mem_cons_of_mem _ hmem) le_rfl
      rw [← h]
      cases message with
      | addPeerSyncBuckets peer buckets =>
        exact hrest.handleAdd fun timer hmem =>
          halone (peer, buckets) (by simp [answerHandled, hmailbox]) timer (hlive timer hmem)
      | removePeer peer timer => exact hrest.handleRemove
      | peerRemoved peer => exact hrest.send rfl

/-- The table mirrors the answers all along a run exactly when every answer extends the stored one of its peer. When
no answer is handled while an older timer of its peer is left, no peer is removed before its time. -/
theorem discovery_exact (now : Nat) (ops : List (Op Peer)) :
    ((∀ before after s, ops = before ++ after → before.foldlM step { now := now } = some s → s.Mirrors) ↔
      Along step Extends { now := now } ops) ∧
    (Along step Alone { now := now } ops →
      ∀ before after s, ops = before ++ after → before.foldlM step { now := now } = some s → s.Punctual) := by
  constructor
  · apply forall_reached_iff_along
    · intro bucket share peer
      exact iff_of_false (Finset.notMem_empty _) (by rintro ⟨buckets, hnone, -⟩; cases hnone)
    · exact fun _ _ hs => mirrors_step_iff hs
  · intro halone before after s heq hrun
    have hbefore : Along step Alone { now := now } before := by
      intro before' op after' r heq' hrun'
      exact halone before' op (after' ++ after) r (by rw [heq, heq']; simp) hrun'
    have hstart : ({ now := now } : State Peer).Timed :=
      ⟨fun _ hlive => (List.not_mem_nil hlive).elim, fun _ _ hmem => (List.not_mem_nil hmem).elim⟩
    have htimed : s.Timed := foldlM_invariant hstart (fun _ _ _ _ hs hop hstep => hs.step hop hstep) hbefore hrun
    exact htimed.punctual

/-- All of the data of one bucket. -/
def sampleBuckets (bucket : Nat) : SyncBuckets := ⟨networkDataBucketSize, SortedMap.empty.insert bucket 1⟩

/-- A peer answers again when its timer has expired and it has been removed. -/
def sampleOps : List (Op Nat) :=
  [.answer 1 (sampleBuckets 0), .handle, .wait peerExpirationTime, .expire ⟨0, 1, 0⟩, .handle, .answer 1 (sampleBuckets 1),
    .handle]

theorem discovery_exact_sample : ∃ s, sampleOps.foldlM step {} = some s ∧ s.Mirrors ∧ s.Punctual := by
  obtain ⟨hmirrors, hpunctual⟩ := discovery_exact 0 sampleOps
  have hextends : Along step Extends {} sampleOps := along_of_checkAlong (fun _ _ => of_decide_eq_true) (by decide)
  have halone : Along step Alone {} sampleOps := along_of_checkAlong (fun _ _ => of_decide_eq_true) (by decide)
  refine ⟨_, rfl, hmirrors.mpr hextends sampleOps [] _ ?_ rfl, hpunctual halone sampleOps [] _ ?_ rfl⟩ <;>
    exact (List.append_nil _).symm

/-- The old buckets of a peer whose answer changes stay in the table. A peer that answers twice within an hour is removed
an hour after its first answer. -/
theorem old_buckets_and_timers_stay :
    (∃ s : State Nat, [.answer 1 (sampleBuckets 0), .handle, .answer 1 (sampleBuckets 1), .handle].foldlM step {} = some s ∧
      ¬s.Mirrors) ∧
    ∃ s : State Nat, [.answer 1 (sampleBuckets 0), .handle, .wait 1, .answer 1 (sampleBuckets 0), .handle,
      .wait (peerExpirationTime - 1), .expire ⟨0, 1, 0⟩].foldlM step {} = some s ∧ ¬s.Punctual := by
  constructor
  · refine ⟨_, rfl, fun h => ?_⟩
    obtain ⟨buckets, hbuckets, hmem⟩ := (h 0 1 1).mp (by decide)
    cases hbuckets
    revert hmem
    decide
  · refine ⟨_, rfl, fun h => ?_⟩
    have hle := h 1 ⟨0, 1, 0⟩ [] ⟨1, 1, 1⟩ rfl rfl (by decide)
    revert hle
    decide

end Runs

end Arweave.Peers.DataDiscovery

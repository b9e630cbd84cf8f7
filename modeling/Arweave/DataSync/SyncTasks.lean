import Mathlib.Tactic.Abel
import Arweave.DataSync.WorkerMaster

/-!
# The tasks of the sync workers

Every job that a submitted task comes to is in a queue of the master, with a worker, completed, or cut off the
queue of its peer, after any sequence of messages. Every message is handled to the end.
-/

namespace Arweave.DataSync.WorkerMaster

open Lib

section Queues

variable {Peer Store Worker : Type} [LinearOrder Peer] [LinearOrder Worker] {s s' : Master Peer Store Worker}
  {p : PeerTasks Peer Store} {peer : Peer} {args : SyncArgs Peer Store} {rest : List (SyncArgs Peer Store)}

def PeerTasks.jobs (p : PeerTasks Peer Store) : Multiset (Job Peer Store) := ↑(p.taskQueue.map fun args => Job.syncRange args 3)

/-- The jobs that wait in a queue, that a worker has, or that were cut off. -/
def Master.jobs (s : Master Peer Store Worker) : Multiset (Job Peer Store) :=
  ↑(s.taskQueue.flatMap Task.jobs) + s.peerTasks.sum PeerTasks.jobs + ↑(s.casts.map (·.2)) +
    ↑(s.cut.map fun args => Job.syncRange args 3)

lemma activeJobs_schedule (peer : Peer) {job : Job Peer Store} (h : IsScheduled job s s') :
    activeJobs peer s' = activeJobs peer s + if job.isSyncOf peer then 1 else 0 := by
  obtain ⟨worker, workers, -, -, rfl⟩ := h
  simp only [activeJobs, updateQueuedTaskCount, updateScheduledTaskCount, List.countP_append, List.countP_singleton]

/-- A task goes from the queue of a peer to a worker. -/
lemma schedule_from_peer (hs : (setPeerTasks p s).Sound) (hqueue : p.taskQueue = args :: rest)
    (h : IsScheduled (.syncRange args 3) s s') {p' : PeerTasks Peer Store}
    (hp' : p' = { p with taskQueue := rest, taskQueueLen := p.taskQueueLen - 1, activeCount := p.activeCount + 1 }) :
    (setPeerTasks p' s').Sound ∧ (setPeerTasks p' s').jobs = (setPeerTasks p s).jobs ∧ s'.taskQueue = s.taskQueue := by
  have hp := hs.peers p.peer
  rw [getPeerTasks_setPeerTasks, if_pos rfl] at hp
  have hown : args.peer = p.peer := hp.own args (by rw [hqueue]; exact List.mem_cons_self)
  have hstaffed := h.staffed hs.staffed
  have hactive := fun peer => activeJobs_schedule peer h
  have hlen := hp.len
  have hqueued := hs.queued
  rw [sum_setPeerTasks, hqueue] at hqueued
  rw [hqueue] at hlen
  obtain ⟨worker, workers, -, -, rfl⟩ := h
  refine ⟨⟨hstaffed, hs.len, ?_, ?_⟩, ?_, rfl⟩
  · rw [sum_setPeerTasks, hp']
    simp only [setPeerTasks, updateQueuedTaskCount, updateScheduledTaskCount, List.length_cons] at hqueued ⊢
    push_cast at hqueued
    omega
  · intro peer
    rw [getPeerTasks_setPeerTasks, hp']
    by_cases hpeer : peer = p.peer
    · rw [if_pos hpeer]
      refine ⟨hpeer.symm, ?_, ?_, ?_⟩
      · simp only [List.length_cons] at hlen ⊢
        push_cast at hlen
        omega
      · intro args' hargs'
        rw [hpeer]
        exact hp.own args' (by rw [hqueue]; exact List.mem_cons_of_mem _ hargs')
      · have hbefore := hp.active
        have hafter := hactive p.peer
        rw [Job.isSyncOf, if_pos (decide_eq_true hown)] at hafter
        rw [hpeer]
        simp only [activeJobs, setPeerTasks, updateQueuedTaskCount, updateScheduledTaskCount] at hbefore hafter ⊢
        omega
    · have hother := hs.peers peer
      rw [getPeerTasks_setPeerTasks, if_neg hpeer] at hother
      rw [if_neg hpeer]
      have hafter := hactive peer
      rw [Job.isSyncOf, hown, if_neg (by simpa using Ne.symm hpeer), Nat.add_zero] at hafter
      exact ⟨hother.name, hother.len, hother.own, hother.active.trans (congrArg Nat.cast hafter.symm)⟩
  · rw [Master.jobs, Master.jobs, sum_setPeerTasks, sum_setPeerTasks, hp', PeerTasks.jobs, PeerTasks.jobs, hqueue]
    simp only [setPeerTasks, updateQueuedTaskCount, updateScheduledTaskCount, List.map_append, List.map_cons, List.map_nil,
      ← Multiset.coe_add, ← Multiset.cons_coe, ← Multiset.singleton_add, Multiset.coe_nil, add_zero]
    abel

lemma processPeerQueue_returns (hs : (setPeerTasks p s).Sound) :
    ∃ p' s', Returns (fun fuel => processPeerQueue fuel p s) (p', s') ∧ (setPeerTasks p' s').Sound ∧
      (setPeerTasks p' s').jobs = (setPeerTasks p s).jobs ∧ s'.taskQueue = s.taskQueue := by
  induction hqueue : p.taskQueue generalizing p s with
  | nil =>
    have hp := hs.peers p.peer
    rw [getPeerTasks_setPeerTasks, if_pos rfl] at hp
    have hidle : ¬peerIsReady p := by
      rintro ⟨-, hlen⟩
      rw [hp.len, hqueue] at hlen
      exact absurd hlen (lt_irrefl _)
    refine ⟨p, s, (returns_const fun fuel => ?_).of_succ, hs, rfl, rfl⟩
    rw [processPeerQueue, if_neg hidle]
  | cons args rest ih =>
    by_cases hready : peerIsReady p
    · obtain ⟨s1, hreturns, hscheduled⟩ := scheduleTask_returns (s := s) hs.staffed (.syncRange args 3)
      obtain ⟨hsound, hjobs, htasks⟩ := schedule_from_peer hs hqueue hscheduled rfl
      obtain ⟨p', s', hrec, hsound', hjobs', htasks'⟩ := ih hsound rfl
      refine ⟨p', s', Returns.of_succ ?_, hsound', hjobs'.trans hjobs, htasks'.trans htasks⟩
      simp only [processPeerQueue, if_pos hready, dequeuePeerTask, hqueue, Option.bind_some, scheduleSyncRange]
      exact (hreturns.map _).bind hrec
    · refine ⟨p, s, (returns_const fun fuel => ?_).of_succ, hs, rfl, rfl⟩
      rw [processPeerQueue, if_neg hready]

/-- A task of the main queue goes to the queue of its peer. -/
lemma move_to_peer {tasks : List (Task Peer Store)} (hs : s.Sound) (hqueue : s.taskQueue = .syncRange args :: tasks)
    (hs' : s' = { s with taskQueue := tasks, taskQueueLen := s.taskQueueLen - 1 }) :
    (setPeerTasks (enqueuePeerTask (getPeerTasks args.peer s') args) s').Sound ∧
      (setPeerTasks (enqueuePeerTask (getPeerTasks args.peer s') args) s').jobs = s.jobs := by
  have hp := hs.peers args.peer
  have hsame : getPeerTasks args.peer s' = getPeerTasks args.peer s := by rw [hs']; rfl
  have hname : (enqueuePeerTask (getPeerTasks args.peer s) args).peer = args.peer := hp.name
  have hlen := hs.len
  have hqueued := hs.queued
  rw [hqueue] at hlen hqueued
  rw [sum_getPeerTasks args.peer _ rfl] at hqueued
  simp only [List.length_cons] at hlen hqueued
  rw [hsame]
  refine ⟨⟨?_, ?_, ?_, ?_⟩, ?_⟩
  · rw [hs']
    exact hs.staffed
  · rw [hs']
    simp only [setPeerTasks]
    omega
  · rw [sum_setPeerTasks, hname, hs']
    simp only [setPeerTasks, enqueuePeerTask, List.length_append, List.length_singleton]
    omega
  · intro peer
    rw [getPeerTasks_setPeerTasks, hname, hs']
    split_ifs with hpeer
    · rw [hpeer]
      refine ⟨hp.name, ?_, ?_, hp.active⟩
      · have hbefore := hp.len
        simp only [enqueuePeerTask, List.length_append, List.length_singleton]
        omega
      · intro args' hargs'
        obtain hold | hnew := List.mem_append.mp hargs'
        · exact hp.own args' hold
        · rw [List.mem_singleton.mp hnew]
    · have hother := hs.peers peer
      exact ⟨hother.name, hother.len, hother.own, hother.active⟩
  · rw [Master.jobs, Master.jobs, sum_setPeerTasks, hname, hqueue, sum_getPeerTasks (s := s) args.peer PeerTasks.jobs rfl,
      hs']
    simp only [setPeerTasks, enqueuePeerTask, PeerTasks.jobs, Task.jobs, List.flatMap_cons, List.map_append, List.map_cons,
      List.map_nil, ← Multiset.coe_add]
    abel

/-- A part of a range goes to a worker, and what is left of the range stays at the front of the main queue. -/
lemma schedule_part {args : ReadArgs Store} {tasks : List (Task Peer Store)} {stop : Nat} {t : Master Peer Store Worker}
    (hs : s.Sound) (hqueue : s.taskQueue = .readRange args :: tasks)
    (hs' : s' = { s with taskQueue := tasks, taskQueueLen := s.taskQueueLen - 1 })
    (hparts : (Task.readRange args : Task Peer Store).jobs = .readRange { args with stop := stop } ::
      (if stop = args.stop then [] else (Task.readRange { args with start := stop }).jobs))
    (h : IsScheduled (.readRange { args with stop := stop }) s' t) {t' : Master Peer Store Worker}
    (ht' : t' = if stop = args.stop then t else pushMainTask (.readRange { args with start := stop }) t) :
    t'.Sound ∧ t'.jobs = s.jobs ∧ (t'.taskQueue.flatMap Task.jobs).length < (s.taskQueue.flatMap Task.jobs).length := by
  have hstaffed := h.staffed (by rw [hs']; exact hs.staffed)
  have hactive : ∀ peer, activeJobs peer t = activeJobs peer s := by
    intro peer
    rw [activeJobs_schedule peer h, hs']
    rfl
  have hlen := hs.len
  have hqueued := hs.queued
  rw [hqueue] at hlen hqueued
  simp only [List.length_cons] at hlen hqueued
  push_cast at hlen hqueued
  obtain ⟨worker, workers, -, -, rfl⟩ := h
  rw [hs'] at hactive hstaffed ht'
  rw [Master.jobs, Master.jobs, hqueue, List.flatMap_cons, hparts, ht']
  split_ifs
  · refine ⟨⟨hstaffed, ?_, ?_, fun peer => ?_⟩, ?_, ?_⟩
    · simp only [updateQueuedTaskCount, updateScheduledTaskCount]
      omega
    · simp only [updateQueuedTaskCount, updateScheduledTaskCount]
      omega
    · obtain ⟨hname, hown, hlen, hcount⟩ := hs.peers peer
      exact ⟨hname, hown, hlen, hcount.trans (congrArg Nat.cast (hactive peer).symm)⟩
    · simp only [updateQueuedTaskCount, updateScheduledTaskCount, List.map_append, List.map_cons, List.map_nil,
        List.cons_append, List.nil_append, ← Multiset.coe_add, ← Multiset.cons_coe, ← Multiset.singleton_add,
        Multiset.coe_nil, add_zero]
      abel
    · simp [updateQueuedTaskCount, updateScheduledTaskCount]
  · refine ⟨⟨hstaffed, ?_, ?_, fun peer => ?_⟩, ?_, ?_⟩
    · simp only [pushMainTask, enqueueMainTask, if_true, updateQueuedTaskCount, updateScheduledTaskCount, List.length_cons]
      push_cast
      omega
    · simp only [pushMainTask, enqueueMainTask, if_true, updateQueuedTaskCount, updateScheduledTaskCount, List.length_cons]
      push_cast
      omega
    · obtain ⟨hname, hown, hlen, hcount⟩ := hs.peers peer
      exact ⟨hname, hown, hlen, hcount.trans (congrArg Nat.cast (hactive peer).symm)⟩
    · simp only [pushMainTask, enqueueMainTask, if_true, updateQueuedTaskCount, updateScheduledTaskCount, List.map_append,
        List.map_cons, List.map_nil, List.cons_append, List.flatMap_cons, ← Multiset.coe_add, ← Multiset.cons_coe,
        ← Multiset.singleton_add, Multiset.coe_nil, add_zero]
      abel
    · simp [pushMainTask, enqueueMainTask, updateQueuedTaskCount, updateScheduledTaskCount]

lemma scheduleReadRange_returns {args : ReadArgs Store} {tasks : List (Task Peer Store)} (hs : s.Sound)
    (hqueue : s.taskQueue = .readRange args :: tasks)
    (hs' : s' = { s with taskQueue := tasks, taskQueueLen := s.taskQueueLen - 1 }) :
    ∃ t, Returns (fun fuel => scheduleReadRange fuel args s') t ∧ t.Sound ∧ t.jobs = s.jobs ∧
      (t.taskQueue.flatMap Task.jobs).length < (s.taskQueue.flatMap Task.jobs).length := by
  have hparts := @jobs_readRange Peer Store args
  simp only [scheduleReadRange]
  generalize min (args.start + readRangeSize) args.stop = stop at hparts ⊢
  obtain ⟨t, hreturns, hscheduled⟩ := scheduleTask_returns (s := s') (by rw [hs']; exact hs.staffed)
    (.readRange { args with stop := stop })
  exact ⟨_, hreturns.map _, schedule_part hs hqueue hs' hparts hscheduled rfl⟩

lemma processTask_returns {task : Task Peer Store} {tasks : List (Task Peer Store)} (hs : s.Sound)
    (hqueue : s.taskQueue = task :: tasks)
    (hs' : s' = { s with taskQueue := tasks, taskQueueLen := s.taskQueueLen - 1 }) :
    ∃ t, Returns (fun fuel => processTask fuel task s') t ∧ t.Sound ∧ t.jobs = s.jobs ∧
      (t.taskQueue.flatMap Task.jobs).length < (s.taskQueue.flatMap Task.jobs).length := by
  cases task with
  | readRange args => exact scheduleReadRange_returns hs hqueue hs'
  | syncRange args =>
    obtain ⟨hsound, hjobs⟩ := move_to_peer hs hqueue hs'
    obtain ⟨p, t, hreturns, hsound', hjobs', htasks⟩ := processPeerQueue_returns hsound
    refine ⟨setPeerTasks p t, hreturns.map _, hsound', hjobs'.trans hjobs, ?_⟩
    have htasks' : (setPeerTasks p t).taskQueue = tasks := by
      rw [setPeerTasks, htasks, hs']
    rw [htasks', hqueue, List.flatMap_cons, List.length_append]
    exact Nat.lt_add_of_pos_left Nat.one_pos

lemma processMainQueue_returns (hs : s.Sound) :
    ∃ t, Returns (fun fuel => processMainQueue fuel s) t ∧ t.Sound ∧ t.jobs = s.jobs := by
  induction hsize : (s.taskQueue.flatMap Task.jobs).length using Nat.strong_induction_on generalizing s with
  | _ size ih =>
    cases hqueue : s.taskQueue with
    | nil =>
      have hzero : s.taskQueueLen = 0 := by
        rw [hs.len, hqueue]
        rfl
      refine ⟨s, (returns_const fun fuel => ?_).of_succ, hs, rfl⟩
      rw [processMainQueue, if_pos hzero]
    | cons task tasks =>
      have hne : s.taskQueueLen ≠ 0 := by
        rw [hs.len, hqueue, List.length_cons]
        omega
      obtain ⟨t, hreturns, hsound, hjobs, hless⟩ := processTask_returns hs hqueue rfl
      obtain ⟨t', hrec, hsound', hjobs'⟩ := ih _ (hsize ▸ hless) hsound rfl
      refine ⟨t', Returns.of_succ ?_, hsound', hjobs'.trans hjobs⟩
      simp only [processMainQueue, if_neg hne, dequeueMainTask, hqueue, Option.bind_some]
      exact hreturns.bind hrec

end Queues

section Casts

variable {Peer Store Worker : Type} [LinearOrder Peer] [LinearOrder Worker] {s s' : Master Peer Store Worker}
  {p : PeerTasks Peer Store} {worker : Worker} {job : Job Peer Store} {peer : Peer}

lemma enqueueMainTask_sound (hs : s.Sound) (task : Task Peer Store) (front : Bool) :
    (enqueueMainTask task s front).Sound ∧ (enqueueMainTask task s front).jobs = ↑task.jobs + s.jobs := by
  have hlen := hs.len
  have hqueued := hs.queued
  constructor
  · refine ⟨hs.staffed, ?_, ?_, fun peer => ?_⟩
    · cases front <;> simp [enqueueMainTask, updateQueuedTaskCount, hlen]
    · cases front <;> simp [enqueueMainTask, updateQueuedTaskCount, hqueued] <;> omega
    · exact ⟨(hs.peers peer).name, (hs.peers peer).len, (hs.peers peer).own, (hs.peers peer).active⟩
  · cases front with
    | true =>
      simp only [Master.jobs, enqueueMainTask, updateQueuedTaskCount, if_true, List.flatMap_cons, ← Multiset.coe_add]
      abel
    | false =>
      simp only [Master.jobs, enqueueMainTask, updateQueuedTaskCount, if_false, List.flatMap_append, List.flatMap_cons,
        List.flatMap_nil, List.append_nil, ← Multiset.coe_add, Bool.false_eq_true]
      abel

/-- A queue that is cut is longer than what is left of it. -/
lemma cutPeerQueue_sound (hs : (setPeerTasks p s).Sound) {maxQueue : Option Int} (hmax : ∀ limit, maxQueue = some limit → 0 ≤ limit) :
    ∃ p' s', cutPeerQueue maxQueue p s = some (p', s') ∧ (setPeerTasks p' s').Sound ∧
      (setPeerTasks p' s').jobs = (setPeerTasks p s).jobs ∧ s'.peerTasks = s.peerTasks := by
  have hp := hs.peers p.peer
  rw [getPeerTasks_setPeerTasks, if_pos rfl] at hp
  unfold cutPeerQueue
  split_ifs with hzero
  · exact ⟨p, s, rfl, hs, rfl, rfl⟩
  cases maxQueue with
  | none => exact ⟨p, s, rfl, hs, rfl, rfl⟩
  | some maxQueue =>
    have hlen := hp.len
    obtain ⟨limit, rfl⟩ := Int.eq_ofNat_of_zero_le (hmax maxQueue rfl)
    by_cases hlong : 0 < p.taskQueueLen - limit
    · have hkept : (p.taskQueue.take limit).length = limit := List.length_take_of_le (by omega)
      simp only [if_pos hlong]
      rw [if_neg (by omega)]
      refine ⟨_, _, rfl, ⟨hs.staffed, hs.len, ?_, fun peer => ?_⟩, ?_, rfl⟩
      · have hqueued := hs.queued
        rw [sum_setPeerTasks] at hqueued ⊢
        simp only [setPeerTasks, updateQueuedTaskCount, Int.toNat_natCast, hkept] at hqueued ⊢
        omega
      · have hpeer := hs.peers peer
        rw [getPeerTasks_setPeerTasks] at hpeer ⊢
        simp only
        split_ifs at hpeer ⊢
        · exact ⟨hpeer.name, rfl, fun args hargs => hpeer.own args (List.mem_of_mem_take hargs), hpeer.active⟩
        · exact ⟨hpeer.name, hpeer.len, hpeer.own, hpeer.active⟩
      · have hsplit := congrArg (List.map fun args => Job.syncRange args 3) (List.take_append_drop limit p.taskQueue)
        rw [List.map_append] at hsplit
        simp only [Master.jobs, sum_setPeerTasks, PeerTasks.jobs]
        simp only [setPeerTasks, updateQueuedTaskCount, Int.toNat_natCast, ← hsplit, List.map_append, ← Multiset.coe_add]
        abel
    · refine ⟨p, s, ?_, hs, rfl, rfl⟩
      simp only [if_neg hlong]

lemma maxPeerQueue_nonneg (performance : Performance) (totalThroughput : ℚ) (workerCount : Int) {limit : Int}
    (h : maxPeerQueue performance totalThroughput workerCount = some limit) : 0 ≤ limit := by
  rw [maxPeerQueue] at h
  split_ifs at h
  cases h
  exact le_trans (by decide) (le_max_right _ minPeerQueue)

lemma updateActive_sound (hs : (setPeerTasks p s).Sound) (performance : Performance) (totalMaxActive : Int)
    (targetLatency : ℚ) :
    (setPeerTasks (updateActive p performance totalMaxActive targetLatency s) s).Sound ∧
      (setPeerTasks (updateActive p performance totalMaxActive targetLatency s) s).jobs = (setPeerTasks p s).jobs := by
  have hqueued := hs.queued
  rw [sum_setPeerTasks] at hqueued
  refine ⟨⟨hs.staffed, hs.len, ?_, fun peer => ?_⟩, ?_⟩
  · rw [sum_setPeerTasks]
    exact hqueued
  · have hpeer := hs.peers peer
    rw [getPeerTasks_setPeerTasks] at hpeer ⊢
    simp only [updateActive]
    split_ifs at hpeer ⊢ <;> exact ⟨hpeer.name, hpeer.len, hpeer.own, hpeer.active⟩
  · simp only [Master.jobs, sum_setPeerTasks]
    rfl

lemma rebalancePeer_sound (hs : (setPeerTasks p s).Sound) (performance : Performance) (totalMaxActive : Int)
    (targetLatency totalThroughput : ℚ) :
    ∃ p' s', rebalancePeer p performance totalMaxActive targetLatency totalThroughput s = some (p', s') ∧
      (setPeerTasks p' s').Sound ∧ (setPeerTasks p' s').jobs = (setPeerTasks p s).jobs ∧ s'.peerTasks = s.peerTasks := by
  obtain ⟨p', s', hcut, hsound, hjobs, hpeers⟩ := cutPeerQueue_sound hs fun limit h =>
    maxPeerQueue_nonneg performance totalThroughput s.workerCount h
  obtain ⟨hsound', hjobs'⟩ := updateActive_sound hsound performance totalMaxActive targetLatency
  refine ⟨_, s', ?_, hsound', hjobs'.trans hjobs, hpeers⟩
  rw [rebalancePeer, hcut]
  rfl

lemma setPeerTasks_of_lookup (hs : s.Sound) (hp : s.peerTasks.lookup peer = some p) : setPeerTasks p s = s := by
  have hname := (hs.peers peer).name
  rw [getPeerTasks, hp, Option.getD_some] at hname
  rw [setPeerTasks, hname, SortedMap.insert_of_lookup_eq_some hp]

lemma rebalancePeers_sound (performances : Peer → Performance) (totalMaxActive : Int) (targetLatency totalThroughput : ℚ)
    (peers : List Peer) (hs : s.Sound) (hpeers : ∀ peer ∈ peers, s.peerTasks.lookup peer ≠ none) :
    ∃ s', rebalancePeers performances totalMaxActive targetLatency totalThroughput peers s = some s' ∧ s'.Sound ∧
      s'.jobs = s.jobs := by
  induction peers generalizing s with
  | nil => exact ⟨s, rfl, hs, rfl⟩
  | cons peer peers ih =>
    rw [List.forall_mem_cons] at hpeers
    obtain ⟨p, hp⟩ := Option.ne_none_iff_exists'.mp hpeers.1
    have hset := setPeerTasks_of_lookup hs hp
    obtain ⟨p', s1, hrebalance, hsound, hjobs, hsame⟩ := rebalancePeer_sound (p := p) (by rw [hset]; exact hs)
      (performances peer) totalMaxActive targetLatency totalThroughput
    rw [hset] at hjobs
    obtain ⟨s', hs', hsound', hjobs'⟩ := ih hsound fun peer' hpeer' => by
      rw [setPeerTasks, SortedMap.lookup_insert, hsame]
      split_ifs
      · exact Option.some_ne_none _
      · exact hpeers.2 peer' hpeer'
    refine ⟨s', ?_, hsound', hjobs'.trans hjobs⟩
    rw [rebalancePeers, List.foldlM_cons]
    simp only [hp, Option.bind_some, hrebalance, Option.map_some, Option.bind_eq_bind]
    exact hs'

lemma purged_idle (hs : s.Sound) (hp : s.peerTasks.lookup peer = some p)
    (hidle : decide (0 < p.taskQueueLen ∨ 0 < p.activeCount) = false) : p.taskQueue = [] ∧ activeJobs peer s = 0 := by
  obtain ⟨-, hlen, -, hactive⟩ := hs.peers peer
  rw [getPeerTasks, hp, Option.getD_some] at hlen hactive
  rw [decide_eq_false_iff_not] at hidle
  exact ⟨List.length_eq_zero_iff.mp (by omega), by omega⟩

lemma sum_purgeEmptyPeers {M : Type} [AddCommMonoid M] (hs : s.Sound) {f : PeerTasks Peer Store → M}
    (hf : ∀ p, p.taskQueue = [] → f p = 0) : (purgeEmptyPeers s).peerTasks.sum f = s.peerTasks.sum f :=
  SortedMap.sum_filter fun _ p hp hidle => hf p (purged_idle hs hp hidle).1

lemma purgeEmptyPeers_sound (hs : s.Sound) : (purgeEmptyPeers s).Sound ∧ (purgeEmptyPeers s).jobs = s.jobs := by
  refine ⟨⟨hs.staffed, hs.len, ?_, fun peer => ?_⟩, ?_⟩
  · rw [sum_purgeEmptyPeers hs fun p hp => by rw [hp]; rfl]
    exact hs.queued
  · have hpeer := hs.peers peer
    rw [getPeerTasks] at hpeer
    rw [getPeerTasks, purgeEmptyPeers, SortedMap.lookup_filter]
    cases hp : s.peerTasks.lookup peer with
    | none =>
      rw [hp] at hpeer
      exact ⟨hpeer.name, hpeer.len, hpeer.own, hpeer.active⟩
    | some p =>
      rw [hp] at hpeer
      rw [Option.filter_some]
      split_ifs with hbusy
      · exact ⟨hpeer.name, hpeer.len, hpeer.own, hpeer.active⟩
      · have hnone := (purged_idle hs hp (Bool.eq_false_iff.mpr hbusy)).2
        exact ⟨rfl, rfl, by simp, congrArg Nat.cast hnone.symm⟩
  · rw [Master.jobs, Master.jobs, sum_purgeEmptyPeers hs fun p hp => by rw [PeerTasks.jobs, hp]; rfl]
    rfl

end Casts

section Runs

variable {Peer Store Worker : Type} [LinearOrder Peer] [DecidableEq Store] [LinearOrder Worker]
  {s s' : Master Peer Store Worker} {worker : Worker} {job : Job Peer Store} {cast : Cast Peer Store Worker}
  {workers : List Worker} {given : List (Task Peer Store)} {done : List (Job Peer Store)}

/-- A worker hands a job back, and the counters of the job's peer are still to be changed. -/
lemma complete_staffed (hs : s.Staffed) (hmem : (worker, job) ∈ s.casts)
    (hs' : s' = updateScheduledTaskCount worker (-1) { s with casts := s.casts.erase (worker, job) }) :
    s'.Staffed ∧ s'.jobs + {job} = s.jobs ∧
      ∀ peer, activeJobs peer s' + (if job.isSyncOf peer then 1 else 0) = activeJobs peer s := by
  have hperm := List.perm_cons_erase hmem
  obtain ⟨hstaffed, hdistinct, hcount, hknown, hscheduled, hloads, htotal⟩ := hs
  refine ⟨⟨?_, ?_, ?_, ?_, ?_, ?_, ?_⟩, ?_, ?_⟩
  all_goals rw [hs']
  · exact hstaffed
  · exact hdistinct
  · exact hcount
  · exact fun c hc => hknown c (List.mem_of_mem_erase hc)
  · have hlength := hperm.length_eq
    simp only [updateScheduledTaskCount, List.length_cons] at hlength ⊢
    omega
  · intro worker'
    have hbusy := (hperm.map (·.1)).count_eq worker'
    have hbefore := hloads worker'
    rw [List.map_cons, List.count_cons] at hbusy
    simp only [updateScheduledTaskCount, SortedMap.lookup_insert]
    split_ifs with heq
    · rw [heq, if_pos (beq_self_eq_true _)] at hbusy
      rw [heq] at hbefore ⊢
      rw [Option.getD_some]
      omega
    · rw [if_neg (by simpa using Ne.symm heq)] at hbusy
      rw [hbefore, hbusy, Nat.add_zero]
  · simp only [updateScheduledTaskCount, sum_updateLoad]
    omega
  · have hjobs := Multiset.coe_eq_coe.mpr (hperm.map (·.2))
    rw [List.map_cons, ← Multiset.cons_coe, ← Multiset.singleton_add] at hjobs
    simp only [Master.jobs, updateScheduledTaskCount]
    rw [hjobs]
    abel
  · intro peer
    rw [activeJobs, activeJobs, hperm.countP_eq, List.countP_cons]
    rfl

lemma taskCompleted_returns {reported : Job Peer Store} (hs : s.Sound) (hmem : (worker, job) ∈ s.casts)
    (hreported : reported.Resumes job) :
    ∃ t, Returns (fun fuel => handleCast fuel s (.taskCompleted worker job reported)) t ∧ t.Sound ∧
      t.jobs + {job} = s.jobs := by
  obtain ⟨hstaffed, hjobs, hactive⟩ := complete_staffed hs.staffed hmem rfl
  cases job with
  | readRange args =>
    cases reported with
    | syncRange args' retryCount' => exact hreported.elim
    | readRange args' =>
      refine ⟨_, returns_const fun _ => rfl, ⟨hstaffed, hs.len, hs.queued, fun peer => ?_⟩, hjobs⟩
      exact ⟨(hs.peers peer).name, (hs.peers peer).len, (hs.peers peer).own,
        (hs.peers peer).active.trans (congrArg Nat.cast (hactive peer).symm)⟩
  | syncRange args retryCount =>
    cases reported with
    | readRange args' => exact hreported.elim
    | syncRange args' retryCount' =>
      have hargs : args'.peer = args.peer := by rw [hreported.2.1]
      have hpeer := hs.peers args.peer
      have hsound : (setPeerTasks (completeSyncRange (getPeerTasks args.peer s)) (updateScheduledTaskCount worker (-1)
          { s with casts := s.casts.erase (worker, .syncRange args retryCount) })).Sound := by
        refine ⟨hstaffed, hs.len, ?_, fun peer => ?_⟩
        · have hqueued := hs.queued
          rw [sum_getPeerTasks args.peer _ rfl] at hqueued
          rw [sum_setPeerTasks, completeSyncRange, hpeer.name]
          exact hqueued
        · have hcount := hactive peer
          have hname : (completeSyncRange (getPeerTasks args.peer s)).peer = args.peer := hpeer.name
          rw [getPeerTasks_setPeerTasks, hname]
          split_ifs with heq
          · rw [heq] at hcount ⊢
            rw [Job.isSyncOf, if_pos (decide_eq_true rfl)] at hcount
            refine ⟨hpeer.name, hpeer.len, hpeer.own, ?_⟩
            have hbefore := hpeer.active
            simp only [activeJobs, setPeerTasks, completeSyncRange] at hcount hbefore ⊢
            omega
          · rw [Job.isSyncOf, if_neg (by simpa using Ne.symm heq), Nat.add_zero] at hcount
            have hother := hs.peers peer
            exact ⟨hother.name, hother.len, hother.own, hother.active.trans (congrArg Nat.cast hcount.symm)⟩
      obtain ⟨p, t, hreturns, hsound', hjobs', -⟩ := processPeerQueue_returns hsound
      refine ⟨setPeerTasks p t, ?_, hsound', ?_⟩
      · simp only [handleCast, hargs]
        exact hreturns.map fun x => setPeerTasks x.1 x.2
      rw [hjobs', ← hjobs, Master.jobs, Master.jobs, sum_setPeerTasks,
        sum_getPeerTasks (s := updateScheduledTaskCount worker (-1) _) args.peer PeerTasks.jobs rfl, completeSyncRange,
        hpeer.name]
      rfl

/-- A job is completed once. -/
def Cast.Enabled (s : Master Peer Store Worker) : Cast Peer Store Worker → Prop
  | .taskCompleted worker job reported => (worker, job) ∈ s.casts ∧ reported.Resumes job
  | _ => True

instance (s : Master Peer Store Worker) : (cast : Cast Peer Store Worker) → Decidable (cast.Enabled s)
  | .taskCompleted worker job reported => inferInstanceAs (Decidable ((worker, job) ∈ s.casts ∧ reported.Resumes job))
  | .submit _ => isTrue trivial
  | .processMainQueue => isTrue trivial
  | .rebalancePeers _ => isTrue trivial

def Cast.tasks : Cast Peer Store Worker → List (Task Peer Store)
  | .submit task => [task]
  | _ => []

def Cast.completed : Cast Peer Store Worker → List (Job Peer Store)
  | .taskCompleted _ job _ => [job]
  | _ => []

/-- The states of the master, with the tasks submitted and the jobs completed so far. -/
inductive Reaches (workers : List Worker) : Master Peer Store Worker → List (Task Peer Store) → List (Job Peer Store) → Prop where
  | start : Reaches workers (init workers) [] []
  | step {s s' : Master Peer Store Worker} {submitted : List (Task Peer Store)} {completed : List (Job Peer Store)}
    {cast : Cast Peer Store Worker} (h : Reaches workers s submitted completed) (henabled : cast.Enabled s)
    (hreturns : Returns (fun fuel => handleCast fuel s cast) s') :
    Reaches workers s' (submitted ++ cast.tasks) (completed ++ cast.completed)

lemma Reaches.after {workers : List Worker} {submitted : List (Task Peer Store)} {completed : List (Job Peer Store)}
    (h : Reaches workers s submitted completed) (cast : Cast Peer Store Worker) (henabled : cast.Enabled s)
    (hreturns : Returns (fun fuel => handleCast fuel s cast) s') :
    Reaches workers s' (submitted ++ cast.tasks) (completed ++ cast.completed) :=
  h.step henabled hreturns

/-- Every message is handled to the end, and accounts for its tasks. -/
lemma handleCast_returns (hs : s.Sound) (henabled : cast.Enabled s) :
    ∃ t, Returns (fun fuel => handleCast fuel s cast) t ∧ t.Sound ∧
      t.jobs + ↑cast.completed = s.jobs + ↑(cast.tasks.flatMap Task.jobs) := by
  cases cast with
  | submit task =>
    have hstaff : s.workerCount ≠ 0 := by
      rw [hs.staffed.workerCount]
      have hpos := List.length_pos_iff.mpr hs.staffed.staffed
      omega
    obtain ⟨hsound, hjobs⟩ := enqueueMainTask_sound hs task false
    refine ⟨_, returns_const fun _ => ?_, hsound, ?_⟩
    · rw [handleCast, if_neg hstaff]
    · change _ + 0 = s.jobs + ↑([task].flatMap Task.jobs)
      rw [hjobs, List.flatMap_cons, List.flatMap_nil, List.append_nil, add_zero, add_comm]
  | processMainQueue =>
    obtain ⟨t, hreturns, hsound, hjobs⟩ := processMainQueue_returns hs
    by_cases hzero : s.taskQueueLen = 0
    · exact ⟨s, returns_const fun _ => by rw [handleCast, if_pos hzero], hs, rfl⟩
    · refine ⟨t, ?_, hsound, congrArg (· + 0) hjobs⟩
      simp only [handleCast, if_neg hzero]
      exact hreturns
  | taskCompleted worker job reported =>
    obtain ⟨t, hreturns, hsound, hjobs⟩ := taskCompleted_returns hs henabled.1 henabled.2
    exact ⟨t, hreturns, hsound, hjobs.trans (add_zero _).symm⟩
  | rebalancePeers performances =>
    obtain ⟨hsound, hjobs⟩ := purgeEmptyPeers_sound hs
    obtain ⟨t, ht, hsound', hjobs'⟩ := rebalancePeers_sound performances (calculateTotalMaxActive (purgeEmptyPeers s))
      (calculateTargets ((purgeEmptyPeers s).peerTasks.entries.map (·.1)) performances).1
      (calculateTargets ((purgeEmptyPeers s).peerTasks.entries.map (·.1)) performances).2
      ((purgeEmptyPeers s).peerTasks.entries.map (·.1)) hsound (by
        intro peer hpeer
        obtain ⟨e, he, rfl⟩ := List.mem_map.mp hpeer
        rw [SortedMap.lookup_eq_some.mpr he]
        exact Option.some_ne_none _)
    exact ⟨t, returns_const fun _ => ht, hsound', congrArg (· + 0) (hjobs'.trans hjobs)⟩

lemma Reaches.sound (hne : workers ≠ []) (hnodup : workers.Nodup) (h : Reaches workers s given done) :
    s.Sound ∧ (↑(given.flatMap Task.jobs) : Multiset (Job Peer Store)) = s.jobs + ↑done := by
  induction h with
  | start => exact ⟨sound_init hne hnodup, rfl⟩
  | step _ henabled hreturns ih =>
    obtain ⟨hs, hjobs⟩ := ih
    obtain ⟨t, ht, hsound, haccount⟩ := handleCast_returns hs henabled
    rw [hreturns.unique ht]
    refine ⟨hsound, ?_⟩
    rw [List.flatMap_append, ← Multiset.coe_add, ← Multiset.coe_add, hjobs, add_right_comm, ← haccount]
    abel

/-- The counters are exact in every state of the master, every task submitted is queued, with a worker, completed or cut
off, a range is read in parts that cover it, and every message is handled to the end. -/
theorem tasks_conserved (hne : workers ≠ []) (hnodup : workers.Nodup) (h : Reaches workers s given done) :
    s.taskQueueLen = s.taskQueue.length ∧
    (∀ peer p, s.peerTasks.lookup peer = some p → p.taskQueueLen = p.taskQueue.length) ∧
    s.queuedTaskCount = s.taskQueue.length + s.peerTasks.sum (fun p => (p.taskQueue.length : Int)) ∧
    s.scheduledTaskCount = s.workerLoads.sum id ∧ s.scheduledTaskCount = s.casts.length ∧
    (∀ peer, (getPeerTasks peer s).activeCount = s.casts.countP fun c => c.2.isSyncOf peer) ∧
    (↑(given.flatMap Task.jobs) : Multiset (Job Peer Store)) = s.jobs + ↑done ∧
    (∀ start stop, (parts start stop).IsChain (fun a b => a.2 = b.1) ∧ (parts start stop).head?.map Prod.fst = some start ∧
      (parts start stop).getLast?.map Prod.snd = some stop ∧ ∀ a ∈ parts start stop, a.2 ≤ a.1 + readRangeSize) ∧
    (∀ cast : Cast Peer Store Worker, cast.Enabled s → ∃ s', Returns (fun fuel => handleCast fuel s cast) s') ∧
    ∃ worker s', Returns (fun fuel => getWorker fuel s) (worker, s') := by
  obtain ⟨hs, hjobs⟩ := h.sound hne hnodup
  refine ⟨hs.len, ?_, hs.queued, hs.staffed.total.symm, hs.staffed.scheduled, fun peer => (hs.peers peer).active, hjobs,
    parts_cover, ?_, ?_⟩
  · intro peer p hp
    have hlen := (hs.peers peer).len
    rw [getPeerTasks, hp] at hlen
    exact hlen
  · intro cast henabled
    obtain ⟨t, ht, -⟩ := handleCast_returns hs henabled
    exact ⟨t, ht⟩
  · obtain ⟨worker, workers', hreturns, -⟩ := getWorker_returns hs.staffed
    exact ⟨worker, _, hreturns⟩

def sampleTasks : List (Task Nat Nat) := [.readRange ⟨0, 100, 7, 8, true⟩, .syncRange ⟨0, 100, 5, 7⟩]

theorem tasks_conserved_sample :
    ∃ s : Master Nat Nat Nat, Reaches [1, 2] s sampleTasks [.syncRange ⟨0, 100, 5, 7⟩ 3] ∧ s.workerLoads.lookup 1 = some 1 ∧
      s.scheduledTaskCount = s.workerLoads.sum id := by
  have hreach : ∃ s : Master Nat Nat Nat, Reaches [1, 2] s sampleTasks [.syncRange ⟨0, 100, 5, 7⟩ 3] ∧
      s.workerLoads.lookup 1 = some 1 := by
    have hstart : Reaches [1, 2] (init [1, 2] : Master Nat Nat Nat) [] [] := .start
    have hread := hstart.after (.submit (.readRange ⟨0, 100, 7, 8, true⟩)) trivial (returns_const fun _ => rfl)
    have hsync := hread.after (.submit (.syncRange ⟨0, 100, 5, 7⟩)) trivial (returns_const fun _ => rfl)
    have hprocessed := hsync.after .processMainQueue trivial ⟨5, fun fuel hle => by
      obtain ⟨k, rfl⟩ := Nat.exists_eq_add_of_le' hle
      with_unfolding_all rfl⟩
    have hcompleted := hprocessed.after
      (.taskCompleted 2 (.syncRange ⟨0, 100, 5, 7⟩ 3) (.syncRange ⟨40, 100, 5, 7⟩ 2)) (by decide)
      ⟨5, fun fuel hle => by
        obtain ⟨k, rfl⟩ := Nat.exists_eq_add_of_le' hle
        with_unfolding_all rfl⟩
    exact ⟨_, hcompleted, rfl⟩
  obtain ⟨s, hs, hload⟩ := hreach
  obtain ⟨-, -, -, htotal, -⟩ := tasks_conserved (by decide) (by decide) hs
  exact ⟨s, hs, hload, htotal⟩

end Runs

end Arweave.DataSync.WorkerMaster

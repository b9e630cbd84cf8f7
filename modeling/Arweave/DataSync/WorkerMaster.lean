import Mathlib.Algebra.BigOperators.Ring.Finset
import Mathlib.Algebra.Order.BigOperators.Group.Finset
import Mathlib.Algebra.Order.Field.Rat
import Arweave.Lib.Fuel
import Arweave.Lib.Sorted

/-!
# The master of the sync workers

The master queues the ranges to be read from other storage modules and those to be synced from peers, and
hands them out to the workers. A range to be read is cut into parts. A range to be synced passes through
the queue of its peer, which has a limit on its active tasks and loses tasks when it gets too long.
-/

namespace Arweave.DataSync.WorkerMaster

open Lib

section Code

/-- `?READ_RANGE_CHUNKS` times `?DATA_CHUNK_SIZE` -/
def readRangeSize : Nat := 10 * (256 * 1024)

/-- `?MIN_MAX_ACTIVE` -/
def minMaxActive : Int := 8

/-- `?MIN_PEER_QUEUE` -/
def minPeerQueue : Int := 20

structure ReadArgs (Store : Type) where
  start : Nat
  stop : Nat
  originStoreID : Store
  targetStoreID : Store
  skipSmall : Bool
  deriving DecidableEq

structure SyncArgs (Peer Store : Type) where
  start : Nat
  stop : Nat
  peer : Peer
  targetStoreID : Store
  deriving DecidableEq

inductive Task (Peer Store : Type) where
  | readRange (args : ReadArgs Store)
  | syncRange (args : SyncArgs Peer Store)
  deriving DecidableEq

/-- What a worker is sent. -/
inductive Job (Peer Store : Type) where
  | readRange (args : ReadArgs Store)
  | syncRange (args : SyncArgs Peer Store) (retryCount : Nat)
  deriving DecidableEq

/-- A job as a worker may have it after it has sent it to itself again: a part of the range is done, and there are
fewer retries. -/
def Job.Resumes : Job Peer Store → Job Peer Store → Prop
  | .readRange args', .readRange args => args.start ≤ args'.start ∧ args' = { args with start := args'.start }
  | .syncRange args' retryCount', .syncRange args retryCount =>
    args.start ≤ args'.start ∧ args' = { args with start := args'.start } ∧ retryCount' ≤ retryCount
  | _, _ => False

instance [DecidableEq Peer] [DecidableEq Store] : (job' job : Job Peer Store) → Decidable (job'.Resumes job)
  | .readRange _, .readRange _ => inferInstanceAs (Decidable (_ ∧ _))
  | .syncRange .., .syncRange .. => inferInstanceAs (Decidable (_ ∧ _ ∧ _))
  | .readRange _, .syncRange .. => isFalse id
  | .syncRange .., .readRange _ => isFalse id

structure PeerTasks (Peer Store : Type) where
  peer : Peer
  taskQueue : List (SyncArgs Peer Store) := []
  taskQueueLen : Int := 0
  activeCount : Int := 0
  maxActive : Int := minMaxActive

structure Performance where
  averageLatency : ℚ := 0
  currentRating : ℚ := 0

variable {Peer Store Worker : Type} [LinearOrder Peer] [LinearOrder Worker]

/-- The state of the master, the jobs that have been cast to workers and not completed, and the tasks that were
cut off a queue. -/
structure Master (Peer Store Worker : Type) [LinearOrder Peer] [LinearOrder Worker] where
  taskQueue : List (Task Peer Store) := []
  taskQueueLen : Int := 0
  queuedTaskCount : Int := 0
  scheduledTaskCount : Int := 0
  workers : List Worker
  workerCount : Int
  workerLoads : SortedMap Worker Int := SortedMap.empty
  peerTasks : SortedMap Peer (PeerTasks Peer Store) := SortedMap.empty
  casts : List (Worker × Job Peer Store) := []
  cut : List (SyncArgs Peer Store) := []

def init (workers : List Worker) : Master Peer Store Worker := { workers := workers, workerCount := workers.length }

def updateQueuedTaskCount (n : Int) (s : Master Peer Store Worker) : Master Peer Store Worker :=
  { s with queuedTaskCount := s.queuedTaskCount + n }

def updateScheduledTaskCount (worker : Worker) (n : Int) (s : Master Peer Store Worker) : Master Peer Store Worker :=
  { s with
    scheduledTaskCount := s.scheduledTaskCount + n
    workerLoads := s.workerLoads.insert worker ((s.workerLoads.lookup worker).getD 0 + n) }

def getPeerTasks (peer : Peer) (s : Master Peer Store Worker) : PeerTasks Peer Store :=
  (s.peerTasks.lookup peer).getD { peer := peer }

def setPeerTasks (p : PeerTasks Peer Store) (s : Master Peer Store Worker) : Master Peer Store Worker :=
  { s with peerTasks := s.peerTasks.insert p.peer p }

/-- The loads are compared with the exact average. -/
def cycleWorkers : Nat → ℚ → Master Peer Store Worker → Option (Worker × Master Peer Store Worker)
  | 0, _, _ => none
  | fuel + 1, averageLoad, s =>
    match s.workers with
    | [] => none
    | worker :: workers =>
      let load := (s.workerLoads.lookup worker).getD 0
      if (load : ℚ) ≤ averageLoad then some (worker, { s with workers := workers ++ [worker] })
      else cycleWorkers fuel averageLoad { s with workers := workers ++ [worker] }

def getWorker (fuel : Nat) (s : Master Peer Store Worker) : Option (Worker × Master Peer Store Worker) :=
  cycleWorkers fuel (s.scheduledTaskCount / s.workerCount) s

def scheduleTask (fuel : Nat) (job : Job Peer Store) (s : Master Peer Store Worker) : Option (Master Peer Store Worker) :=
  (getWorker fuel s).map fun (worker, s) =>
    updateQueuedTaskCount (-1) (updateScheduledTaskCount worker 1 { s with casts := s.casts ++ [(worker, job)] })

def scheduleSyncRange (fuel : Nat) (p : PeerTasks Peer Store) (args : SyncArgs Peer Store) (s : Master Peer Store Worker) :
    Option (PeerTasks Peer Store × Master Peer Store Worker) :=
  (scheduleTask fuel (.syncRange args 3) s).map fun s => ({ p with activeCount := p.activeCount + 1 }, s)

/-- `front` puts the task at the front of the queue. -/
def enqueueMainTask (task : Task Peer Store) (s : Master Peer Store Worker) (front : Bool) : Master Peer Store Worker :=
  let taskQueue := if front then task :: s.taskQueue else s.taskQueue ++ [task]
  { updateQueuedTaskCount 1 s with taskQueue := taskQueue, taskQueueLen := s.taskQueueLen + 1 }

def pushMainTask (task : Task Peer Store) (s : Master Peer Store Worker) : Master Peer Store Worker :=
  enqueueMainTask task s true

def dequeueMainTask (s : Master Peer Store Worker) : Option (Task Peer Store × Master Peer Store Worker) :=
  match s.taskQueue with
  | [] => none
  | task :: taskQueue => some (task, { s with taskQueue := taskQueue, taskQueueLen := s.taskQueueLen - 1 })

def scheduleReadRange (fuel : Nat) (args : ReadArgs Store) (s : Master Peer Store Worker) :
    Option (Master Peer Store Worker) :=
  let stop2 := min (args.start + readRangeSize) args.stop
  (scheduleTask fuel (.readRange { args with stop := stop2 }) s).map fun s =>
    if stop2 = args.stop then s else pushMainTask (.readRange { args with start := stop2 }) s

def enqueuePeerTask (p : PeerTasks Peer Store) (args : SyncArgs Peer Store) : PeerTasks Peer Store :=
  { p with taskQueue := p.taskQueue ++ [args], taskQueueLen := p.taskQueueLen + 1 }

def dequeuePeerTask (p : PeerTasks Peer Store) : Option (PeerTasks Peer Store × SyncArgs Peer Store) :=
  match p.taskQueue with
  | [] => none
  | args :: taskQueue => some ({ p with taskQueue := taskQueue, taskQueueLen := p.taskQueueLen - 1 }, args)

/-- `peer_has_capacity` and `peer_has_queued_tasks` -/
def peerIsReady (p : PeerTasks Peer Store) : Prop := p.activeCount < p.maxActive ∧ 0 < p.taskQueueLen

instance (p : PeerTasks Peer Store) : Decidable (peerIsReady p) := inferInstanceAs (Decidable (_ ∧ _))

def processPeerQueue : Nat → PeerTasks Peer Store → Master Peer Store Worker →
    Option (PeerTasks Peer Store × Master Peer Store Worker)
  | 0, _, _ => none
  | fuel + 1, p, s =>
    if peerIsReady p then
      (dequeuePeerTask p).bind fun (p, args) =>
        (scheduleSyncRange fuel p args s).bind fun (p, s) => processPeerQueue fuel p s
    else some (p, s)

/-- A task that has been taken from the main queue. -/
def processTask (fuel : Nat) (task : Task Peer Store) (s : Master Peer Store Worker) : Option (Master Peer Store Worker) :=
  match task with
  | .readRange args => scheduleReadRange fuel args s
  | .syncRange args =>
    (processPeerQueue fuel (enqueuePeerTask (getPeerTasks args.peer s) args) s).map fun (p, s) => setPeerTasks p s

def processMainQueue : Nat → Master Peer Store Worker → Option (Master Peer Store Worker)
  | 0, _ => none
  | fuel + 1, s =>
    if s.taskQueueLen = 0 then some s
    else (dequeueMainTask s).bind fun (task, s) => (processTask fuel task s).bind (processMainQueue fuel)

def maxTasks (workerCount : Int) : Int := workerCount * 50

def maxPeerQueue (performance : Performance) (totalThroughput : ℚ) (workerCount : Int) : Option Int :=
  if totalThroughput = 0 ∨ performance.currentRating = 0 then none
  else
    let share := performance.currentRating / totalThroughput * maxTasks workerCount
    some (max (share.num.tdiv share.den) minPeerQueue)

/-- A queue that is shorter than the split is a crash. -/
def cutPeerQueue (maxQueue : Option Int) (p : PeerTasks Peer Store) (s : Master Peer Store Worker) :
    Option (PeerTasks Peer Store × Master Peer Store Worker) :=
  if s.scheduledTaskCount = 0 then some (p, s)
  else match maxQueue with
    | none => some (p, s)
    | some maxQueue =>
      let tasksToCut := p.taskQueueLen - maxQueue
      if 0 < tasksToCut then
        if maxQueue < 0 ∨ p.taskQueue.length < maxQueue then none
        else
          let taskQueue := p.taskQueue.take maxQueue.toNat
          some ({ p with taskQueue := taskQueue, taskQueueLen := taskQueue.length },
            updateQueuedTaskCount (-tasksToCut) { s with cut := s.cut ++ p.taskQueue.drop maxQueue.toNat })
      else some (p, s)

def updateActive (p : PeerTasks Peer Store) (performance : Performance) (totalMaxActive : Int) (targetLatency : ℚ)
    (s : Master Peer Store Worker) : PeerTasks Peer Store :=
  let fasterThanTarget := performance.averageLatency < targetLatency
  let workersStarved := totalMaxActive < s.workerCount
  let targetMaxActive := if fasterThanTarget ∨ workersStarved then p.maxActive + 1 else p.maxActive - 1
  let workerLimitedMaxActive := min targetMaxActive s.workerCount
  let taskLimitedMaxActive := min workerLimitedMaxActive (max p.activeCount p.taskQueueLen)
  { p with maxActive := max taskLimitedMaxActive minMaxActive }

def rebalancePeer (p : PeerTasks Peer Store) (performance : Performance) (totalMaxActive : Int)
    (targetLatency totalThroughput : ℚ) (s : Master Peer Store Worker) :
    Option (PeerTasks Peer Store × Master Peer Store Worker) :=
  (cutPeerQueue (maxPeerQueue performance totalThroughput s.workerCount) p s).map fun (p, s) =>
    (updateActive p performance totalMaxActive targetLatency s, s)

def purgeEmptyPeers (s : Master Peer Store Worker) : Master Peer Store Worker :=
  { s with peerTasks := s.peerTasks.filter fun _ p => 0 < p.taskQueueLen ∨ 0 < p.activeCount }

def calculateTotalMaxActive (s : Master Peer Store Worker) : Int := s.peerTasks.sum (·.maxActive)

def calculateTargets (peers : List Peer) (performances : Peer → Performance) : ℚ × ℚ :=
  if peers = [] then (0, 0)
  else ((peers.map fun peer => (performances peer).averageLatency).sum / peers.length,
    (peers.map fun peer => (performances peer).currentRating).sum)

def rebalancePeers (performances : Peer → Performance) (totalMaxActive : Int) (targetLatency totalThroughput : ℚ)
    (peers : List Peer) (s : Master Peer Store Worker) : Option (Master Peer Store Worker) :=
  peers.foldlM (fun s peer => (s.peerTasks.lookup peer).bind fun p =>
    (rebalancePeer p (performances peer) totalMaxActive targetLatency totalThroughput s).map fun (p, s) =>
      setPeerTasks p s) s

/-- `complete_sync_range`, less the rating of the peer. -/
def completeSyncRange (p : PeerTasks Peer Store) : PeerTasks Peer Store := { p with activeCount := p.activeCount - 1 }

/-- The messages that the master handles. A completed job is reported as the worker has it at the end, and
`performances` is the answer of `ar_peers`. -/
inductive Cast (Peer Store Worker : Type) where
  | submit (task : Task Peer Store)
  | processMainQueue
  | taskCompleted (worker : Worker) (job reported : Job Peer Store)
  | rebalancePeers (performances : Peer → Performance)

def handleCast [DecidableEq Store] (fuel : Nat) (s : Master Peer Store Worker) : Cast Peer Store Worker → Option (Master Peer Store Worker)
  | .submit task => some (if s.workerCount = 0 then s else enqueueMainTask task s false)
  | .processMainQueue => if s.taskQueueLen = 0 then some s else processMainQueue fuel s
  | .taskCompleted worker job reported =>
    let s := updateScheduledTaskCount worker (-1) { s with casts := s.casts.erase (worker, job) }
    match reported with
    | .readRange _ => some s
    | .syncRange args _ =>
      (processPeerQueue fuel (completeSyncRange (getPeerTasks args.peer s)) s).map fun (p, s) => setPeerTasks p s
  | .rebalancePeers performances =>
    let s := purgeEmptyPeers s
    let peers := s.peerTasks.entries.map (·.1)
    let (targetLatency, totalThroughput) := calculateTargets peers performances
    rebalancePeers performances (calculateTotalMaxActive s) targetLatency totalThroughput peers s

end Code

section Parts

variable {Peer Store : Type}

/-- The parts that a range is read in. -/
def parts (start stop : Nat) : List (Nat × Nat) :=
  if start + readRangeSize < stop then (start, start + readRangeSize) :: parts (start + readRangeSize) stop
  else [(start, stop)]
termination_by stop - start
decreasing_by
  have hsize : 0 < readRangeSize := by decide
  omega

lemma parts_ne_nil (start stop : Nat) : parts start stop ≠ [] := by
  rw [parts]
  split_ifs <;> exact List.cons_ne_nil _ _

lemma parts_cover (start stop : Nat) :
    (parts start stop).IsChain (fun a b => a.2 = b.1) ∧ (parts start stop).head?.map Prod.fst = some start ∧
      (parts start stop).getLast?.map Prod.snd = some stop ∧
      ∀ a ∈ parts start stop, a.2 ≤ a.1 + readRangeSize := by
  fun_induction parts start stop with
  | case1 start hlt ih =>
    obtain ⟨hchain, hhead, hlast, hsize⟩ := ih
    obtain ⟨a, rest, hparts⟩ := List.exists_cons_of_ne_nil (parts_ne_nil (start + readRangeSize) stop)
    rw [hparts] at hchain hhead hlast hsize ⊢
    refine ⟨List.isChain_cons_cons.mpr ⟨(Option.some.inj hhead).symm, hchain⟩, rfl, ?_, ?_⟩
    · rw [List.getLast?_cons_cons]
      exact hlast
    · rw [List.forall_mem_cons]
      exact ⟨le_rfl, hsize⟩
  | case2 start hle =>
    refine ⟨List.isChain_singleton _, rfl, rfl, ?_⟩
    intro a ha
    rw [List.mem_singleton.mp ha]
    exact Nat.not_lt.mp hle

/-- The jobs that a task comes to. -/
def Task.jobs : Task Peer Store → List (Job Peer Store)
  | .readRange args => (parts args.start args.stop).map fun r => .readRange { args with start := r.1, stop := r.2 }
  | .syncRange args => [.syncRange args 3]

lemma jobs_readRange (args : ReadArgs Store) :
    (Task.readRange args : Task Peer Store).jobs =
      .readRange { args with stop := min (args.start + readRangeSize) args.stop } ::
        (if min (args.start + readRangeSize) args.stop = args.stop then []
          else (Task.readRange { args with start := min (args.start + readRangeSize) args.stop }).jobs) := by
  rw [Task.jobs, parts]
  obtain hlt | hle := Nat.lt_or_ge (args.start + readRangeSize) args.stop
  · rw [if_pos hlt, min_eq_left hlt.le, if_neg hlt.ne, List.map_cons, Task.jobs]
  · rw [if_neg hle.not_gt, min_eq_right hle, if_pos rfl, List.map_cons, List.map_nil]

end Parts

section Workers

variable {Peer Store Worker : Type} [LinearOrder Peer] [LinearOrder Worker] {s : Master Peer Store Worker} {averageLoad : ℚ}

lemma exists_load_le (busy : List Worker) {workers : List Worker} (hne : workers ≠ []) (hnodup : workers.Nodup)
    (hbusy : ∀ worker ∈ busy, worker ∈ workers) :
    ∃ worker ∈ workers, busy.count worker * workers.length ≤ busy.length := by
  have hsum : ∑ worker ∈ workers.toFinset, busy.count worker * workers.length = ∑ _worker ∈ workers.toFinset, busy.length := by
    rw [← Finset.sum_mul, Finset.sum_const, List.toFinset_card_of_nodup hnodup, nsmul_eq_mul, Nat.cast_id, Nat.mul_comm]
    congr 1
    have hcount := Multiset.sum_count_eq_card (m := ↑busy) fun worker hworker => List.mem_toFinset.mpr (hbusy worker hworker)
    simpa only [Multiset.coe_count, Multiset.coe_card] using hcount
  obtain ⟨worker, hworker, hle⟩ := Finset.exists_le_of_sum_le (List.toFinset_nonempty_iff _ |>.mpr hne) hsum.le
  exact ⟨worker, List.mem_toFinset.mp hworker, hle⟩

lemma cycleWorkers_returns {before after : List Worker} {worker : Worker} (hworkers : s.workers = before ++ worker :: after)
    (hload : (((s.workerLoads.lookup worker).getD 0 : Int) : ℚ) ≤ averageLoad) :
    ∃ worker' workers', Returns (fun fuel => cycleWorkers fuel averageLoad s) (worker', { s with workers := workers' }) ∧
      worker' ∈ s.workers ∧ workers'.Perm s.workers := by
  induction before generalizing s after with
  | nil =>
    refine ⟨worker, after ++ [worker], (returns_const fun fuel => ?_).of_succ, ?_, ?_⟩
    · simp only [cycleWorkers, hworkers, List.nil_append]
      rw [if_pos hload]
    · rw [hworkers]
      exact List.mem_cons_self
    · rw [hworkers]
      exact List.perm_append_singleton worker after
  | cons first before ih =>
    have hperm : (before ++ worker :: after ++ [first]).Perm s.workers := by
      rw [hworkers]
      exact List.perm_append_singleton first (before ++ worker :: after)
    by_cases hfirst : (((s.workerLoads.lookup first).getD 0 : Int) : ℚ) ≤ averageLoad
    · refine ⟨first, before ++ worker :: after ++ [first], (returns_const fun fuel => ?_).of_succ, ?_, hperm⟩
      · simp only [cycleWorkers, hworkers, List.cons_append]
        rw [if_pos hfirst]
      · rw [hworkers]
        exact List.mem_cons_self
    · obtain ⟨worker', workers', ⟨n, hn⟩, hmem, hperm'⟩ := ih
        (s := { s with workers := before ++ worker :: after ++ [first] })
        (List.append_assoc before (worker :: after) [first]) hload
      refine ⟨worker', workers', Returns.of_succ ⟨n, fun fuel hle => ?_⟩, hperm.mem_iff.mp hmem, hperm'.trans hperm⟩
      simp only [cycleWorkers, hworkers, List.cons_append]
      rw [if_neg hfirst]
      exact hn fuel hle

end Workers

section Counters

variable {Peer Store Worker : Type} [LinearOrder Peer] [LinearOrder Worker] {s s' : Master Peer Store Worker}
  {p : PeerTasks Peer Store} {job : Job Peer Store} {peer : Peer}

def Job.isSyncOf (peer : Peer) : Job Peer Store → Bool
  | .readRange _ => false
  | .syncRange args _ => args.peer = peer

/-- The number of jobs of a peer that the workers have. -/
def activeJobs (peer : Peer) (s : Master Peer Store Worker) : Nat := s.casts.countP fun c => c.2.isSyncOf peer

/-- The jobs that have been cast, and the loads of the workers. -/
structure Staffed (workers : List Worker) (workerCount : Int) (casts : List (Worker × Job Peer Store))
    (scheduledTaskCount : Int) (workerLoads : SortedMap Worker Int) : Prop where
  staffed : workers ≠ []
  distinct : workers.Nodup
  workerCount : workerCount = workers.length
  known : ∀ c ∈ casts, c.1 ∈ workers
  scheduled : scheduledTaskCount = casts.length
  loads : ∀ worker, (workerLoads.lookup worker).getD 0 = (casts.map (·.1)).count worker
  total : workerLoads.sum id = scheduledTaskCount

def Master.Staffed (s : Master Peer Store Worker) : Prop :=
  WorkerMaster.Staffed s.workers s.workerCount s.casts s.scheduledTaskCount s.workerLoads

structure PeerTasks.Sound (s : Master Peer Store Worker) (peer : Peer) (p : PeerTasks Peer Store) : Prop where
  name : p.peer = peer
  len : p.taskQueueLen = p.taskQueue.length
  own : ∀ args ∈ p.taskQueue, args.peer = peer
  active : p.activeCount = activeJobs peer s

/-- The counters agree with the queues and the jobs of the workers. -/
structure Master.Sound (s : Master Peer Store Worker) : Prop where
  staffed : s.Staffed
  len : s.taskQueueLen = s.taskQueue.length
  queued : s.queuedTaskCount = s.taskQueue.length + s.peerTasks.sum fun p => (p.taskQueue.length : Int)
  peers : ∀ peer, (getPeerTasks peer s).Sound s peer

lemma sound_init {workers : List Worker} (hne : workers ≠ []) (hnodup : workers.Nodup) :
    (init workers : Master Peer Store Worker).Sound :=
  ⟨⟨hne, hnodup, rfl, by simp [init], rfl, fun _ => rfl, rfl⟩, rfl, rfl,
    fun _ => ⟨rfl, rfl, by simp [getPeerTasks, init], rfl⟩⟩

@[simp] lemma getPeerTasks_setPeerTasks : getPeerTasks peer (setPeerTasks p s) = if peer = p.peer then p else getPeerTasks peer s := by
  rw [getPeerTasks, setPeerTasks, SortedMap.lookup_insert]
  split_ifs <;> rfl

lemma sum_setPeerTasks {M : Type} [AddCommMonoid M] (f : PeerTasks Peer Store → M) :
    (setPeerTasks p s).peerTasks.sum f = f p + (s.peerTasks.erase p.peer).sum f := SortedMap.sum_insert

lemma sum_getPeerTasks {M : Type} [AddCommMonoid M] (peer : Peer) (f : PeerTasks Peer Store → M) (h : f { peer := peer } = 0) :
    s.peerTasks.sum f = f (getPeerTasks peer s) + (s.peerTasks.erase peer).sum f := by
  rw [getPeerTasks]
  cases hlookup : s.peerTasks.lookup peer with
  | none => rw [Option.getD_none, h, zero_add, SortedMap.sum_erase_of_none hlookup]
  | some p => rw [Option.getD_some, SortedMap.sum_erase hlookup]

lemma sum_updateLoad (loads : SortedMap Worker Int) (worker : Worker) (n : Int) :
    (loads.insert worker ((loads.lookup worker).getD 0 + n)).sum id = loads.sum id + n := by
  rw [SortedMap.sum_insert]
  cases hlookup : loads.lookup worker with
  | none =>
    rw [SortedMap.sum_erase_of_none hlookup]
    simp only [Option.getD_none, id]
    omega
  | some load =>
    have hsum := SortedMap.sum_erase (f := id) hlookup
    simp only [Option.getD_some, id] at hsum ⊢
    omega

/-- A job is cast to some worker. -/
def IsScheduled (job : Job Peer Store) (s s' : Master Peer Store Worker) : Prop :=
  ∃ worker workers, worker ∈ s.workers ∧ workers.Perm s.workers ∧ s' = updateQueuedTaskCount (-1)
    (updateScheduledTaskCount worker 1 { s with workers := workers, casts := s.casts ++ [(worker, job)] })

lemma IsScheduled.staffed (h : IsScheduled job s s') (hs : s.Staffed) : s'.Staffed := by
  obtain ⟨worker, workers, hmem, hperm, rfl⟩ := h
  obtain ⟨hstaffed, hdistinct, hcount, hknown, hscheduled, hloads, htotal⟩ := hs
  refine ⟨?_, hperm.nodup_iff.mpr hdistinct, ?_, ?_, ?_, ?_, ?_⟩
  · exact fun hnil => hstaffed (hnil ▸ hperm : [].Perm s.workers).nil_eq.symm
  · simp only [updateQueuedTaskCount, updateScheduledTaskCount, hperm.length_eq]
    exact hcount
  · intro c hc
    apply hperm.mem_iff.mpr
    obtain hc | hc := List.mem_append.mp hc
    · exact hknown c hc
    · rw [List.mem_singleton.mp hc]
      exact hmem
  · simp only [updateQueuedTaskCount, updateScheduledTaskCount, List.length_append, List.length_singleton]
    omega
  · intro worker'
    simp only [updateQueuedTaskCount, updateScheduledTaskCount, SortedMap.lookup_insert, List.map_append, List.map_cons,
      List.map_nil, List.count_append, List.count_singleton]
    by_cases heq : worker' = worker
    · rw [if_pos heq, if_pos (by simp [heq]), Option.getD_some, hloads, heq]
      rfl
    · rw [if_neg heq, if_neg (by simpa using Ne.symm heq), hloads, Nat.add_zero]
  · simp only [updateQueuedTaskCount, updateScheduledTaskCount, sum_updateLoad]
    omega

lemma getWorker_returns (hs : s.Staffed) :
    ∃ worker workers, Returns (fun fuel => getWorker fuel s) (worker, { s with workers := workers }) ∧ worker ∈ s.workers ∧
      workers.Perm s.workers := by
  obtain ⟨hstaffed, hdistinct, hcount, hknown, hscheduled, hloads, -⟩ := hs
  obtain ⟨worker, hworker, hle⟩ := exists_load_le (s.casts.map (·.1)) hstaffed hdistinct fun worker hworker => by
    obtain ⟨c, hc, rfl⟩ := List.mem_map.mp hworker
    exact hknown c hc
  have haverage : (((s.workerLoads.lookup worker).getD 0 : Int) : ℚ) ≤ s.scheduledTaskCount / s.workerCount := by
    rw [List.length_map] at hle
    rw [hloads, hscheduled, hcount, le_div_iff₀ (by exact_mod_cast List.length_pos_iff.mpr hstaffed)]
    exact_mod_cast hle
  obtain ⟨before, after, hsplit⟩ := List.append_of_mem hworker
  exact cycleWorkers_returns hsplit haverage

lemma scheduleTask_returns (hs : s.Staffed) (job : Job Peer Store) :
    ∃ s', Returns (fun fuel => scheduleTask fuel job s) s' ∧ IsScheduled job s s' := by
  obtain ⟨worker, workers, hreturns, hmem, hperm⟩ := getWorker_returns hs
  exact ⟨_, hreturns.map _, worker, workers, hmem, hperm, rfl⟩

end Counters

end Arweave.DataSync.WorkerMaster

import Arweave.Intervals.Joins
import Arweave.Merkle.Path

/-!
# The sync queue

The ranges that are still to be fetched from peers are queued together with the set of the intervals that
they cover. A message with the intervals of several peers adds, for one peer after another, ranges of at
most 256 KiB for the bytes that are not queued yet, up to a number of ranges for each peer. The message
has the peers in a shuffled order.
-/

namespace Arweave.DataSync

open Lib Intervals Merkle

section Code

variable {Peer : Type}

/-- The elements `{Start, End, Peer}` of the queue. -/
abbrev QueuedRange (Peer : Type) := Int ×ₗ Int ×ₗ Peer

def QueuedRange.start (r : QueuedRange Peer) : Int := (ofLex r).1

def QueuedRange.stop (r : QueuedRange Peer) : Int := (ofLex (ofLex r).2).1

def QueuedRange.peer (r : QueuedRange Peer) : Peer := (ofLex (ofLex r).2).2

variable [LinearOrder Peer]

/-- `sync_intervals_queue` and `sync_intervals_queue_intervals`. -/
structure SyncQueue (Peer : Type) [LinearOrder Peer] where
  queue : OrdSet (QueuedRange Peer)
  intervals : IntervalSet
  deriving DecidableEq

def SyncQueue.new : SyncQueue Peer := ⟨OrdSet.empty, Intervals.new⟩

/-- `lists:seq/3` with a positive increment. -/
def seq (first last incr : Int) : Option (List Int) :=
  if first - incr ≤ last then
    some ((List.range ((last - first + incr) / incr).toNat).map fun i : Nat => first + i * incr)
  else none

def enqueuePeerRange (peer : Peer) (rangeStart rangeEnd : Int) (chunkOffsets : List Int) (s : SyncQueue Peer) :
    Option (SyncQueue Peer) := do
  let queue := chunkOffsets.foldl (fun queue chunkStart =>
    queue.add (toLex (chunkStart, toLex (min (chunkStart + dataChunkSize) rangeEnd, peer)))) s.queue
  let intervals ← Intervals.add s.intervals rangeEnd rangeStart
  some ⟨queue, intervals⟩

/-- One interval of the outer join, with the number of ranges that may still be added. -/
def enqueueInterval (peer : Peer) (acc : Int × SyncQueue Peer) (interval : Int ×ₗ Int) : Option (Int × SyncQueue Peer) :=
  if acc.1 = 0 then some acc
  else do
    let (stop, start) := ofLex interval
    let rangeEnd := min stop (start + acc.1 * dataChunkSize)
    let chunkOffsets ← seq start (rangeEnd - 1) dataChunkSize
    let s ← enqueuePeerRange peer start rangeEnd chunkOffsets acc.2
    some (acc.1 - chunkOffsets.length, s)

def enqueuePeerIntervals (peer : Peer) (intervals : IntervalSet) (chunksToEnqueue : Int) (s : SyncQueue Peer) :
    Option (SyncQueue Peer) := do
  let outerJoin := outerjoin s.intervals intervals
  let (_, s) ← outerJoin.elems.foldlM (enqueueInterval peer) (chunksToEnqueue, s)
  some s

def enqueueIntervals (chunksToEnqueue : Int) (intervals : List (Peer × IntervalSet)) (s : SyncQueue Peer) :
    Option (SyncQueue Peer) :=
  intervals.foldlM (fun s e => enqueuePeerIntervals e.1 e.2 chunksToEnqueue s) s

/-- Half as many again as the fair share of the peers, rounded down. -/
def chunksPerPeer (numPeers : Nat) : Nat :=
  (defaultSyncBucketSize / dataChunkSize + numPeers - 1) / numPeers * 3 / 2

/-- What `sync_intervals` finds out before it takes a range. -/
structure SyncConditions where
  isDiskSpaceSufficient : Bool
  isChunkCacheFull : Bool
  readyForWork : Bool

inductive SyncOp (Peer : Type) [LinearOrder Peer] where
  | enqueueIntervals (shuffled : List (Peer × IntervalSet))
  | syncIntervals (conditions : SyncConditions)

/-- The state and the range that is requested. -/
def SyncQueue.handle (s : SyncQueue Peer) : SyncOp Peer → Option (SyncQueue Peer × Option (QueuedRange Peer))
  | .enqueueIntervals [] => some (s, none)
  | .enqueueIntervals intervals => do
    let s ← DataSync.enqueueIntervals (chunksPerPeer intervals.length) intervals s
    some (s, none)
  | .syncIntervals conditions =>
    match s.queue.smallest with
    | none => some (s, none)
    | some range =>
      if conditions.isDiskSpaceSufficient ∧ ¬ conditions.isChunkCacheFull ∧ conditions.readyForWork then do
        let intervals ← Intervals.delete s.intervals range.stop range.start
        some (⟨s.queue.erase range, intervals⟩, some range)
      else some (s, none)

def SyncQueue.run (s : SyncQueue Peer) (ops : List (SyncOp Peer)) : Option (SyncQueue Peer) :=
  ops.foldlM (fun s op => (s.handle op).map Prod.fst) s

end Code

section Sequences

variable {first stop incr : Int}

lemma seq_spec (hlt : first < stop) (hincr : 0 < incr) :
    ∃ l, seq first (stop - 1) incr = some l ∧ (l.length : Int) = (stop - 1 - first) / incr + 1 ∧ l.Nodup ∧
      ∀ x, x ∈ l ↔ ∃ i : Nat, x = first + i * incr ∧ x < stop := by
  have hdiv : (stop - 1 - first + incr) / incr = (stop - 1 - first) / incr + 1 := by
    rw [Int.add_ediv_of_dvd_right ⟨1, by ring⟩, Int.ediv_self hincr.ne']
  have hnonneg : 0 ≤ (stop - 1 - first) / incr := Int.ediv_nonneg (by omega) hincr.le
  refine ⟨_, if_pos (by omega), ?_, ?_, fun x => ?_⟩
  · rw [List.length_map, List.length_range, Int.toNat_of_nonneg (by omega), hdiv]
  · refine List.nodup_range.map fun i j hij => ?_
    have hmul : (i : Int) * incr = j * incr := by simpa using hij
    exact_mod_cast mul_right_cancel₀ hincr.ne' hmul
  · rw [List.mem_map]
    constructor
    · rintro ⟨i, hi, rfl⟩
      rw [List.mem_range, Int.lt_toNat, hdiv, Int.lt_add_one_iff, Int.le_ediv_iff_mul_le hincr] at hi
      exact ⟨i, rfl, by omega⟩
    · rintro ⟨i, rfl, hlt'⟩
      refine ⟨i, ?_, rfl⟩
      rw [List.mem_range, Int.lt_toNat, hdiv, Int.lt_add_one_iff, Int.le_ediv_iff_mul_le hincr]
      omega

end Sequences

section Invariant

variable {Peer : Type} {peer p : Peer} {start stop : Int} {offsets : List Int}

/-- The bytes of a queued range. -/
def QueuedRange.bytes (r : QueuedRange Peer) : Set Int := Set.Ioc r.start r.stop

/-- The range of the chunk that starts at an offset. -/
def chunkRange (peer : Peer) (stop chunkStart : Int) : QueuedRange Peer :=
  toLex (chunkStart, toLex (min (chunkStart + dataChunkSize) stop, peer))

@[simp] lemma start_chunkRange : (chunkRange peer stop start).start = start := rfl

@[simp] lemma stop_chunkRange : (chunkRange peer stop start).stop = min (start + dataChunkSize) stop := rfl

@[simp] lemma peer_chunkRange : (chunkRange peer stop start).peer = peer := rfl

lemma chunkRanges_spec (h : seq start (stop - 1) dataChunkSize = some offsets) (hlt : start < stop) :
    (∀ x ∈ offsets, start ≤ x ∧ x < stop) ∧
      (∀ x ∈ offsets, ∀ y ∈ offsets, x < y → x + dataChunkSize ≤ y) ∧
      ∀ b, start < b → b ≤ stop → ∃ x ∈ offsets, x < b ∧ b ≤ x + dataChunkSize := by
  have hS : (0 : Int) < dataChunkSize := by decide
  obtain ⟨l, hl, -, -, hmem⟩ := seq_spec hlt hS
  cases hl.symm.trans h
  refine ⟨fun x hx => ?_, fun x hx y hy hxy => ?_, fun b hb hbs => ?_⟩
  · obtain ⟨i, rfl, hi⟩ := (hmem x).mp hx
    have := mul_nonneg (Int.natCast_nonneg i) hS.le
    exact ⟨by omega, hi⟩
  · obtain ⟨i, rfl, -⟩ := (hmem x).mp hx
    obtain ⟨j, rfl, -⟩ := (hmem y).mp hy
    have hij : (i : Int) + 1 ≤ j := by
      by_contra hji
      have := mul_le_mul_of_nonneg_right (show (j : Int) ≤ i by omega) hS.le
      omega
    have := mul_le_mul_of_nonneg_right hij hS.le
    rw [add_mul, one_mul] at this
    omega
  · -- the chunk with the byte starts at the quotient
    have hq := Int.mul_ediv_add_emod (b - 1 - start) dataChunkSize
    have hr0 := Int.emod_nonneg (b - 1 - start) hS.ne'
    have hr1 := Int.emod_lt_of_pos (b - 1 - start) hS
    have hq0 := Int.ediv_nonneg (show 0 ≤ b - 1 - start by omega) hS.le
    rw [mul_comm] at hq
    refine ⟨start + (b - 1 - start) / dataChunkSize * dataChunkSize, (hmem _).mpr ⟨((b - 1 - start) / dataChunkSize).toNat, ?_, ?_⟩, ?_, ?_⟩
    · rw [Int.toNat_of_nonneg hq0]
    · omega
    · omega
    · omega

section Chunks

variable {x y : Int}

lemma bytes_chunkRange_subset (h : seq start (stop - 1) dataChunkSize = some offsets) (hlt : start < stop) (hx : x ∈ offsets) :
    (chunkRange peer stop x).bytes ⊆ Set.Ioc start stop := by
  intro b hb
  have := (chunkRanges_spec h hlt).1 x hx
  simp only [QueuedRange.bytes, start_chunkRange, stop_chunkRange, Set.mem_Ioc] at hb ⊢
  omega

lemma succ_mem_chunkRange (h : seq start (stop - 1) dataChunkSize = some offsets) (hlt : start < stop) (hx : x ∈ offsets) :
    x + 1 ∈ (chunkRange peer stop x).bytes := by
  have hS : (0 : Int) < dataChunkSize := by decide
  have := (chunkRanges_spec h hlt).1 x hx
  simp only [QueuedRange.bytes, start_chunkRange, stop_chunkRange, Set.mem_Ioc]
  omega

lemma disjoint_chunkRange (h : seq start (stop - 1) dataChunkSize = some offsets) (hlt : start < stop) (hx : x ∈ offsets)
    (hy : y ∈ offsets) (hne : x ≠ y) : Disjoint (chunkRange peer stop x).bytes (chunkRange peer stop y).bytes := by
  have hapart := (chunkRanges_spec h hlt).2.1
  rw [Set.disjoint_left]
  intro b hb hb'
  simp only [QueuedRange.bytes, start_chunkRange, stop_chunkRange, Set.mem_Ioc] at hb hb'
  obtain hxy | hyx := lt_or_gt_of_ne hne
  · have := hapart x hx y hy hxy
    omega
  · have := hapart y hy x hx hyx
    omega

lemma exists_chunkRange (peer : Peer) (h : seq start (stop - 1) dataChunkSize = some offsets) (hlt : start < stop)
    (hy : y ∈ Set.Ioc start stop) : ∃ x ∈ offsets, y ∈ (chunkRange peer stop x).bytes := by
  obtain ⟨x, hx, hxy, hyx⟩ := (chunkRanges_spec h hlt).2.2 y hy.1 hy.2
  refine ⟨x, hx, hxy, ?_⟩
  rw [stop_chunkRange]
  exact le_min hyx hy.2

end Chunks

variable [LinearOrder Peer]

/-- The bytes that are queued. -/
def SyncQueue.bytes (s : SyncQueue Peer) : Set Int := points (family s.intervals)

/-- The number of ranges queued for a peer. -/
def SyncQueue.ranges (s : SyncQueue Peer) (peer : Peer) : Nat := s.queue.elems.countP fun r => r.peer = peer

/-- The queued ranges are small and do not overlap, and together they are the intervals. -/
structure SyncQueue.Consistent (s : SyncQueue Peer) : Prop where
  canonical : Canonical s.intervals
  nonempty : ∀ r ∈ s.queue, r.start < r.stop
  size_le : ∀ r ∈ s.queue, r.stop ≤ r.start + dataChunkSize
  disjoint : ∀ r ∈ s.queue, ∀ r' ∈ s.queue, r ≠ r' → Disjoint r.bytes r'.bytes
  bytes_eq : s.bytes = {x | ∃ r ∈ s.queue, x ∈ r.bytes}

variable {s s' : SyncQueue Peer} {r : QueuedRange Peer} {interval : Int ×ₗ Int} {n : Nat}

lemma mem_bytes_of_mem (hc : s.Consistent) (hr : r ∈ s.queue) {x : Int} (hx : x ∈ r.bytes) : x ∈ s.bytes := by
  rw [hc.bytes_eq]
  exact ⟨r, hr, hx⟩

/-- A range of bytes that are not queued is added as its chunks. -/
lemma enqueuePeerRange_spec (peer : Peer) (hc : s.Consistent) (hlt : start < stop) (hnew : Disjoint (Set.Ioc start stop) s.bytes)
    (hseq : seq start (stop - 1) dataChunkSize = some offsets) :
    ∃ s', enqueuePeerRange peer start stop offsets s = some s' ∧ s'.Consistent ∧ s'.bytes = s.bytes ∪ Set.Ioc start stop ∧
      ∀ p, s'.ranges p = s.ranges p + if p = peer then offsets.length else 0 := by
  have hS : (0 : Int) < dataChunkSize := by decide
  obtain ⟨intervals, hadd, hcanonical, hpoints⟩ := add_spec hc.canonical hlt
  have hnodup : offsets.Nodup := by
    obtain ⟨l, hl, -, hnodup, -⟩ := seq_spec hlt hS
    cases hl.symm.trans hseq
    exact hnodup
  have hqueue : offsets.foldl (fun queue chunkStart => queue.add (chunkRange peer stop chunkStart)) s.queue =
      (offsets.map (chunkRange peer stop)).foldl (fun queue r => queue.add r) s.queue := by
    rw [List.foldl_map]
  have hmem : ∀ r, r ∈ (offsets.map (chunkRange peer stop)).foldl (fun queue r => queue.add r) s.queue ↔
      (∃ x ∈ offsets, chunkRange peer stop x = r) ∨ r ∈ s.queue := by
    intro r
    rw [OrdSet.mem_foldl_add, List.mem_map]
  have hfresh : ∀ r ∈ offsets.map (chunkRange peer stop), r ∉ s.queue := by
    intro r hr hmem
    obtain ⟨x, hx, rfl⟩ := List.mem_map.mp hr
    have hfirst : x + 1 ∈ (chunkRange peer stop x).bytes := succ_mem_chunkRange hseq hlt hx
    exact Set.disjoint_left.mp hnew (bytes_chunkRange_subset hseq hlt hx hfirst) (mem_bytes_of_mem hc hmem hfirst)
  have hold : ∀ x ∈ offsets, ∀ r ∈ s.queue, Disjoint (chunkRange peer stop x).bytes r.bytes := by
    intro x hx r hr
    exact hnew.mono (bytes_chunkRange_subset hseq hlt hx) fun b hb => mem_bytes_of_mem hc hr hb
  have hinj : Function.Injective (chunkRange peer stop) := fun x y hxy => congrArg QueuedRange.start hxy
  refine ⟨⟨(offsets.map (chunkRange peer stop)).foldl (fun queue r => queue.add r) s.queue, intervals⟩, ?_,
    ⟨hcanonical, ?_, ?_, ?_, ?_⟩, hpoints, ?_⟩
  · rw [enqueuePeerRange, hadd]
    exact congrArg (fun queue => some (SyncQueue.mk queue intervals)) hqueue
  · intro r hr
    obtain ⟨x, hx, rfl⟩ | hr := (hmem r).mp hr
    · exact lt_min (lt_add_of_pos_right x hS) ((chunkRanges_spec hseq hlt).1 x hx).2
    · exact hc.nonempty r hr
  · intro r hr
    obtain ⟨x, hx, rfl⟩ | hr := (hmem r).mp hr
    · exact min_le_left _ _
    · exact hc.size_le r hr
  · intro r hr r' hr' hne
    obtain ⟨x, hx, rfl⟩ | hr := (hmem r).mp hr
    · obtain ⟨y, hy, rfl⟩ | hr' := (hmem r').mp hr'
      · exact disjoint_chunkRange hseq hlt hx hy fun hxy => hne (hxy ▸ rfl)
      · exact hold x hx r' hr'
    · obtain ⟨y, hy, rfl⟩ | hr' := (hmem r').mp hr'
      · exact (hold y hy r hr).symm
      · exact hc.disjoint r hr r' hr' hne
  · refine hpoints.trans ?_
    ext b
    constructor
    · rintro (hb | hb)
      · rw [← SyncQueue.bytes, hc.bytes_eq] at hb
        obtain ⟨r, hr, hb⟩ := hb
        exact ⟨r, (hmem r).mpr (Or.inr hr), hb⟩
      · obtain ⟨x, hx, hb⟩ := exists_chunkRange peer hseq hlt hb
        exact ⟨chunkRange peer stop x, (hmem _).mpr (Or.inl ⟨x, hx, rfl⟩), hb⟩
    · rintro ⟨r, hr, hb⟩
      obtain ⟨x, hx, rfl⟩ | hr := (hmem r).mp hr
      · exact Or.inr (bytes_chunkRange_subset hseq hlt hx hb)
      · exact Or.inl (mem_bytes_of_mem hc hr hb)
  · intro p
    rw [SyncQueue.ranges, OrdSet.countP_foldl_add _ (hnodup.map hinj) hfresh,
      SyncQueue.ranges, List.countP_map]
    congr 1
    split_ifs with hp
    · rw [List.countP_eq_length]
      intro x hx
      simp [hp]
    · rw [List.countP_eq_zero]
      intro x hx
      rw [Function.comp_apply, decide_eq_true_eq]
      exact Ne.symm hp

/-- What adding ranges for a peer from a set of bytes may do, with up to `n` more ranges. -/
structure Enqueues (s : SyncQueue Peer) (peer : Peer) (n : Int) (B : Set Int) (s' : SyncQueue Peer) (m : Int) : Prop where
  consistent : s'.Consistent
  bytes_sub : s.bytes ⊆ s'.bytes
  sub_bytes : s'.bytes ⊆ s.bytes ∪ B
  remaining : 0 ≤ m
  remaining_le : m ≤ n
  ranges_eq : ∀ p, (s'.ranges p : Int) = s.ranges p + if p = peer then n - m else 0
  /-- The number is used up or everything is queued. -/
  done : m = 0 ∨ B ⊆ s'.bytes

lemma enqueueInterval_spec (peer : Peer) (hc : s.Consistent) {n : Int} (hn : 0 ≤ n) (hlt : (ofLex interval).2 < (ofLex interval).1)
    (hnew : Disjoint (Set.Ioc (ofLex interval).2 (ofLex interval).1) s.bytes) :
    ∃ m s', enqueueInterval peer (n, s) interval = some (m, s') ∧
      Enqueues s peer n (Set.Ioc (ofLex interval).2 (ofLex interval).1) s' m := by
  have hS : (0 : Int) < dataChunkSize := by decide
  rw [enqueueInterval]
  split_ifs with hzero
  · replace hzero : n = 0 := hzero
    subst hzero
    refine ⟨0, s, rfl, hc, Set.Subset.rfl, Set.subset_union_left, le_rfl, le_rfl, fun p => ?_, Or.inl rfl⟩
    simp
  · replace hzero : n ≠ 0 := hzero
    generalize hstop : (ofLex interval).1 = stop at *
    generalize hstart : (ofLex interval).2 = start at *
    have hn1 : 1 ≤ n := by omega
    have hmul := mul_le_mul_of_nonneg_right hn1 hS.le
    rw [one_mul] at hmul
    have hlt' : start < min stop (start + n * dataChunkSize) := by omega
    obtain ⟨offsets, hseq, hlength, -, -⟩ := seq_spec hlt' hS
    have hsub : Set.Ioc start (min stop (start + n * dataChunkSize)) ⊆ Set.Ioc start stop :=
      Set.Ioc_subset_Ioc_right (min_le_left _ _)
    obtain ⟨s', henqueue, hc', hbytes, hranges⟩ := enqueuePeerRange_spec peer hc hlt' (hnew.mono_left hsub) hseq
    have hquotient : (min stop (start + n * dataChunkSize) - 1 - start) / dataChunkSize < n := by
      rw [Int.ediv_lt_iff_lt_mul hS]
      omega
    refine ⟨n - offsets.length, s', ?_, hc', ?_, ?_, ?_, by omega, fun p => ?_, ?_⟩
    · dsimp only
      rw [show ofLex interval = (stop, start) from Prod.ext hstop hstart]
      dsimp only
      rw [hseq, Option.bind_eq_bind, Option.bind_some, henqueue]
      rfl
    · rw [hbytes]
      exact Set.subset_union_left
    · rw [hbytes]
      exact Set.union_subset_union_right _ hsub
    · omega
    · rw [hranges]
      split_ifs
      · push_cast
        omega
      · simp
    · by_cases hall : stop ≤ start + n * dataChunkSize
      · right
        rw [hbytes, min_eq_left hall]
        exact Set.subset_union_right
      · left
        rw [min_eq_right (not_le.mp hall).le] at hlength
        have hq : (start + n * dataChunkSize - 1 - start) / dataChunkSize = n - 1 := by
          rw [show start + n * dataChunkSize - 1 - start = dataChunkSize - 1 + (n - 1) * dataChunkSize by ring,
            Int.add_mul_ediv_right _ _ hS.ne', Int.ediv_eq_zero_of_lt (by omega) (by omega), zero_add]
        omega

lemma Enqueues.trans {s1 s2 : SyncQueue Peer} {n m1 m2 : Int} {B1 B2 : Set Int} (h1 : Enqueues s peer n B1 s1 m1)
    (h2 : Enqueues s1 peer m1 B2 s2 m2) : Enqueues s peer n (B1 ∪ B2) s2 m2 where
  consistent := h2.consistent
  bytes_sub := h1.bytes_sub.trans h2.bytes_sub
  sub_bytes := by
    rw [← Set.union_assoc]
    exact h2.sub_bytes.trans (Set.union_subset_union_left _ h1.sub_bytes)
  remaining := h2.remaining
  remaining_le := h2.remaining_le.trans h1.remaining_le
  ranges_eq p := by
    have e1 := h1.ranges_eq p
    have e2 := h2.ranges_eq p
    split_ifs at e1 e2 ⊢
    · omega
    · omega
  done := by
    have hle := h2.remaining_le
    have hge := h2.remaining
    obtain hm | hB1 := h1.done
    · exact Or.inl (by omega)
    · exact h2.done.imp_right fun hB2 => Set.union_subset (hB1.trans h2.bytes_sub) hB2

lemma foldlM_enqueueInterval {l : List (Int ×ₗ Int)} (peer : Peer) (hc : s.Consistent) {n : Int} (hn : 0 ≤ n) (hl : Rising l)
    (hnew : Disjoint (points {p | toLex p ∈ l}) s.bytes) :
    ∃ m s', l.foldlM (enqueueInterval peer) (n, s) = some (m, s') ∧ Enqueues s peer n (points {p | toLex p ∈ l}) s' m := by
  induction l generalizing n s with
  | nil =>
    refine ⟨n, s, rfl, hc, Set.Subset.rfl, Set.subset_union_left, hn, le_rfl, fun p => by simp, Or.inr ?_⟩
    simp
  | cons p l ih =>
    rw [setOf_mem_cons, points_insert] at hnew ⊢
    obtain ⟨hnewp, hnewl⟩ := Set.disjoint_union_left.mp hnew
    obtain ⟨m1, s1, hstep, h1⟩ := enqueueInterval_spec peer hc hn (hl.lt p List.mem_cons_self) hnewp
    have habove := (List.pairwise_cons.mp hl.above).1
    have hnew1 : Disjoint (points {p | toLex p ∈ l}) s1.bytes := by
      rw [Set.disjoint_left]
      rintro x ⟨q, hq, hqx, hxq⟩ hx
      obtain hx | hx := h1.sub_bytes hx
      · exact Set.disjoint_left.mp hnewl ⟨q, hq, hqx, hxq⟩ hx
      · exact ((habove _ hq).trans hqx).not_ge hx.2
    obtain ⟨m, s', hrest, h2⟩ := ih h1.consistent h1.remaining hl.tail hnew1
    refine ⟨m, s', ?_, h1.trans h2⟩
    rw [List.foldlM_cons, hstep]
    exact hrest

lemma enqueuePeerIntervals_spec {I : IntervalSet} (peer : Peer) (hc : s.Consistent) {n : Int} (hn : 0 ≤ n) (hI : Canonical I)
    (hpos : ∀ p ∈ family I, 0 ≤ p.2) :
    ∃ m s', enqueuePeerIntervals peer I n s = some s' ∧ Enqueues s peer n (points (family I)) s' m := by
  obtain ⟨hjoin, hpoints⟩ := outerjoin_spec hc.canonical hI hpos
  have hnew : Disjoint (points {p | toLex p ∈ (outerjoin s.intervals I).elems}) s.bytes := by
    change Disjoint (points (family (outerjoin s.intervals I))) s.bytes
    rw [hpoints]
    exact Set.disjoint_sdiff_left
  obtain ⟨m, s', hfold, h⟩ := foldlM_enqueueInterval peer hc hn (rising_elems hjoin) hnew
  change Enqueues s peer n (points (family (outerjoin s.intervals I))) s' m at h
  rw [hpoints] at h
  refine ⟨m, s', ?_, h.consistent, h.bytes_sub, ?_, h.remaining, h.remaining_le, h.ranges_eq, ?_⟩
  · rw [enqueuePeerIntervals, hfold]
    rfl
  · exact h.sub_bytes.trans (Set.union_subset_union_right _ Set.sdiff_subset)
  · refine h.done.imp_right fun hdone x hx => ?_
    by_cases hs : x ∈ s.bytes
    · exact h.bytes_sub hs
    · exact hdone ⟨hx, hs⟩

/-- The sets of intervals that peers send. -/
def WellFormed (peers : List (Peer × IntervalSet)) : Prop :=
  ∀ e ∈ peers, Canonical e.2 ∧ ∀ p ∈ family e.2, 0 ≤ p.2

/-- What a message with the intervals of peers may do. -/
structure EnqueuesAll (s : SyncQueue Peer) (peers : List (Peer × IntervalSet)) (cap : Nat) (s' : SyncQueue Peer) : Prop where
  consistent : s'.Consistent
  bytes_sub : s.bytes ⊆ s'.bytes
  sub_bytes : ∀ x ∈ s'.bytes, x ∈ s.bytes ∨ ∃ e ∈ peers, x ∈ points (family e.2)
  ranges_ge : ∀ p, s.ranges p ≤ s'.ranges p
  ranges_le : ∀ p, s'.ranges p ≤ s.ranges p + cap * peers.countP fun e => e.1 = p
  /-- A peer has its number of ranges or all of its bytes are queued. -/
  done : ∀ e ∈ peers, s.ranges e.1 + cap ≤ s'.ranges e.1 ∨ points (family e.2) ⊆ s'.bytes

lemma enqueueIntervals_spec {peers : List (Peer × IntervalSet)} (cap : Nat) (hc : s.Consistent) (hpeers : WellFormed peers) :
    ∃ s', enqueueIntervals cap peers s = some s' ∧ EnqueuesAll s peers cap s' := by
  induction peers generalizing s with
  | nil =>
    exact ⟨s, rfl, hc, Set.Subset.rfl, fun x hx => Or.inl hx, fun _ => le_rfl, fun _ => by simp, by simp⟩
  | cons e peers ih =>
    obtain ⟨⟨hI, hpos⟩, hrest⟩ := List.forall_mem_cons.mp hpeers
    obtain ⟨m, s1, hfirst, h1⟩ := enqueuePeerIntervals_spec e.1 hc (Int.natCast_nonneg cap) hI hpos
    obtain ⟨s', hall, h2⟩ := ih h1.consistent hrest
    have hranges : ∀ p, s.ranges p ≤ s1.ranges p := by
      intro p
      have := h1.ranges_eq p
      have := h1.remaining_le
      split_ifs at * <;> omega
    refine ⟨s', ?_, h2.consistent, h1.bytes_sub.trans h2.bytes_sub, fun x hx => ?_, fun p => ?_, fun p => ?_, ?_⟩
    · rw [enqueueIntervals, List.foldlM_cons, hfirst]
      exact hall
    · obtain hx | ⟨e', he', hx⟩ := h2.sub_bytes x hx
      · exact (h1.sub_bytes hx).imp_right fun hx => ⟨e, List.mem_cons_self, hx⟩
      · exact Or.inr ⟨e', List.mem_cons_of_mem _ he', hx⟩
    · exact (hranges p).trans (h2.ranges_ge p)
    · have heq := h1.ranges_eq p
      have hge := h1.remaining
      have hle := h2.ranges_le p
      rw [List.countP_cons, Nat.mul_add]
      by_cases hp : p = e.1
      · rw [if_pos hp] at heq
        simp only [hp, decide_true, if_true, mul_one] at heq hle ⊢
        omega
      · rw [if_neg hp] at heq
        simp only [Ne.symm hp, decide_false, Bool.false_eq_true, if_false, mul_zero]
        omega
    · rw [List.forall_mem_cons]
      constructor
      · have heq := h1.ranges_eq e.1
        have hge := h2.ranges_ge e.1
        rw [if_pos rfl] at heq
        obtain hm | hdone := h1.done
        · left
          omega
        · exact Or.inr (hdone.trans h2.bytes_sub)
      · intro e' he'
        refine (h2.done e' he').imp_left fun h => ?_
        have := hranges e'.1
        omega

end Invariant

section Runs

variable {Peer : Type} [LinearOrder Peer] {s s' : SyncQueue Peer} {r : QueuedRange Peer} {op : SyncOp Peer}
  {ops : List (SyncOp Peer)}

def SyncOp.WellFormed : SyncOp Peer → Prop
  | .enqueueIntervals shuffled => DataSync.WellFormed shuffled
  | .syncIntervals _ => True

/-- What taking a range off the queue does. -/
structure Takes (s : SyncQueue Peer) (r : QueuedRange Peer) (s' : SyncQueue Peer) : Prop where
  consistent : s'.Consistent
  mem : r ∈ s.queue
  queue_eq : s'.queue = s.queue.erase r
  bytes_eq : s'.bytes = s.bytes \ r.bytes

lemma consistent_new : (SyncQueue.new : SyncQueue Peer).Consistent := by
  have hfamily : family (SyncQueue.new : SyncQueue Peer).intervals = ∅ := family_new
  refine ⟨?_, fun r hr => absurd hr OrdSet.not_mem_empty, fun r hr => absurd hr OrdSet.not_mem_empty,
    fun r hr => absurd hr OrdSet.not_mem_empty, ?_⟩
  · rw [Canonical, hfamily]
    exact Separated.empty
  · ext x
    rw [SyncQueue.bytes, hfamily, points_empty]
    constructor
    · exact fun hx => hx.elim
    · rintro ⟨r, hr, -⟩
      exact absurd hr OrdSet.not_mem_empty

lemma takes_of_mem (hc : s.Consistent) (hr : r ∈ s.queue) :
    ∃ intervals, Intervals.delete s.intervals r.stop r.start = some intervals ∧
      Takes s r ⟨s.queue.erase r, intervals⟩ := by
  obtain ⟨intervals, hdelete, hcanonical, hpoints⟩ := delete_spec hc.canonical (hc.nonempty r hr)
  have hsub : ∀ r', r' ∈ s.queue.erase r → r' ∈ s.queue ∧ r' ≠ r := fun r' hr' => (OrdSet.mem_erase.mp hr').symm
  refine ⟨intervals, hdelete, ⟨hcanonical, fun r' hr' => hc.nonempty r' (hsub r' hr').1,
    fun r' hr' => hc.size_le r' (hsub r' hr').1, fun r1 h1 r2 h2 => hc.disjoint r1 (hsub r1 h1).1 r2 (hsub r2 h2).1, ?_⟩,
    hr, rfl, hpoints⟩
  refine hpoints.trans ?_
  ext x
  constructor
  · rintro ⟨hx, hxr⟩
    rw [← SyncQueue.bytes, hc.bytes_eq] at hx
    obtain ⟨r', hr', hxr'⟩ := hx
    have hne : r' ≠ r := by
      rintro rfl
      exact hxr hxr'
    exact ⟨r', OrdSet.mem_erase.mpr ⟨hne, hr'⟩, hxr'⟩
  · rintro ⟨r', hr', hx⟩
    obtain ⟨hmem, hne⟩ := hsub r' hr'
    exact ⟨mem_bytes_of_mem hc hmem hx, Set.disjoint_left.mp (hc.disjoint r' hmem r hr hne) hx⟩

lemma handle_enqueueIntervals {shuffled : List (Peer × IntervalSet)} (hc : s.Consistent) (hshuffled : WellFormed shuffled) :
    ∃ s', s.handle (.enqueueIntervals shuffled) = some (s', none) ∧
      EnqueuesAll s shuffled (chunksPerPeer shuffled.length) s' := by
  obtain ⟨s', henqueue, h⟩ := enqueueIntervals_spec (chunksPerPeer shuffled.length) hc hshuffled
  refine ⟨s', ?_, h⟩
  cases shuffled with
  | nil =>
    cases henqueue
    rfl
  | cons e peers =>
    rw [SyncQueue.handle, henqueue]
    · rfl
    · simp

lemma handle_syncIntervals (hc : s.Consistent) (conditions : SyncConditions) :
    ∃ s' requested, s.handle (.syncIntervals conditions) = some (s', requested) ∧ s'.Consistent ∧
      ∀ r, requested = some r → Takes s r s' := by
  cases hsmallest : s.queue.smallest with
  | none =>
    refine ⟨s, none, ?_, hc, by simp⟩
    rw [SyncQueue.handle, hsmallest]
  | some range =>
    obtain ⟨intervals, hdelete, htakes⟩ := takes_of_mem hc (OrdSet.smallest_mem hsmallest)
    by_cases hready : conditions.isDiskSpaceSufficient ∧ ¬ conditions.isChunkCacheFull ∧ conditions.readyForWork
    · refine ⟨⟨s.queue.erase range, intervals⟩, some range, ?_, htakes.consistent, ?_⟩
      · rw [SyncQueue.handle, hsmallest]
        dsimp only
        rw [if_pos hready, hdelete]
        rfl
      · rintro r ⟨⟩
        exact htakes
    · refine ⟨s, none, ?_, hc, by simp⟩
      rw [SyncQueue.handle, hsmallest]
      exact if_neg hready

lemma handle_consistent (hc : s.Consistent) (hop : op.WellFormed) :
    ∃ s' requested, s.handle op = some (s', requested) ∧ s'.Consistent := by
  cases op with
  | enqueueIntervals shuffled =>
    obtain ⟨s', hhandle, h⟩ := handle_enqueueIntervals hc hop
    exact ⟨s', none, hhandle, h.consistent⟩
  | syncIntervals conditions =>
    obtain ⟨s', requested, hhandle, hc', -⟩ := handle_syncIntervals hc conditions
    exact ⟨s', requested, hhandle, hc'⟩

lemma run_spec (hc : s.Consistent) (hops : ∀ op ∈ ops, op.WellFormed) : ∃ s', s.run ops = some s' ∧ s'.Consistent := by
  induction ops generalizing s with
  | nil => exact ⟨s, rfl, hc⟩
  | cons op ops ih =>
    obtain ⟨hop, hrest⟩ := List.forall_mem_cons.mp hops
    obtain ⟨s1, requested, hhandle, hc1⟩ := handle_consistent hc hop
    obtain ⟨s', hrun, hc'⟩ := ih hc1 hrest
    refine ⟨s', ?_, hc'⟩
    rw [SyncQueue.run, List.foldlM_cons, hhandle]
    exact hrun

/-- After any run the queue and its intervals agree, and the next message keeps to the number of ranges for
each peer. A byte of a requested range is not queued any more, so it can be queued again. -/
theorem sync_queue_consistent (Peer : Type) [LinearOrder Peer] (ops : List (SyncOp Peer))
    (hops : ∀ op ∈ ops, op.WellFormed) :
    ∃ s : SyncQueue Peer, SyncQueue.new.run ops = some s ∧
      (∀ r ∈ s.queue, r.start < r.stop ∧ r.stop ≤ r.start + dataChunkSize) ∧
      (∀ r ∈ s.queue, ∀ r' ∈ s.queue, r ≠ r' → Disjoint r.bytes r'.bytes) ∧
      (∀ x, x ∈ points (family s.intervals) ↔ ∃ r ∈ s.queue, x ∈ r.bytes) ∧
      (∀ shuffled, WellFormed shuffled → ∃ s', s.handle (.enqueueIntervals shuffled) = some (s', none) ∧
        (∀ p, s.ranges p ≤ s'.ranges p ∧
          s'.ranges p ≤ s.ranges p + chunksPerPeer shuffled.length * shuffled.countP fun e => e.1 = p) ∧
        ∀ e ∈ shuffled, s.ranges e.1 + chunksPerPeer shuffled.length ≤ s'.ranges e.1 ∨
          points (family e.2) ⊆ points (family s'.intervals)) ∧
      ∀ conditions s' r, s.handle (.syncIntervals conditions) = some (s', some r) →
        r ∈ s.queue ∧ Disjoint r.bytes (points (family s'.intervals)) := by
  obtain ⟨s, hrun, hc⟩ := run_spec consistent_new hops
  refine ⟨s, hrun, fun r hr => ⟨hc.nonempty r hr, hc.size_le r hr⟩, hc.disjoint, fun x => ?_, fun shuffled hshuffled => ?_,
    fun conditions s' r hhandle => ?_⟩
  · exact Set.ext_iff.mp hc.bytes_eq x
  · obtain ⟨s', hhandle, h⟩ := handle_enqueueIntervals hc hshuffled
    exact ⟨s', hhandle, fun p => ⟨h.ranges_ge p, h.ranges_le p⟩, h.done⟩
  · obtain ⟨s1, requested, hhandle', -, htakes⟩ := handle_syncIntervals hc conditions
    cases hhandle.symm.trans hhandle'
    have h := htakes r rfl
    refine ⟨h.mem, ?_⟩
    change Disjoint r.bytes s'.bytes
    rw [h.bytes_eq]
    exact Set.disjoint_sdiff_right

/-- Two peers have overlapping intervals, and a range is requested. -/
def sampleSyncOps : List (SyncOp Nat) :=
  [.enqueueIntervals [(2, ⟨[toLex (300000, 0)], by simp⟩), (1, ⟨[toLex (400000, 200000)], by simp⟩)],
    .syncIntervals ⟨true, false, true⟩]

theorem sync_queue_consistent_sample :
    ∃ s, SyncQueue.new.run sampleSyncOps = some s ∧
      s.queue.elems = [toLex (262144, toLex (300000, 2)), toLex (300000, toLex (400000, 1))] ∧
      (∀ r ∈ s.queue, ∀ r' ∈ s.queue, r ≠ r' → Disjoint r.bytes r'.bytes) := by
  have hops : ∀ op ∈ sampleSyncOps, op.WellFormed := by
    intro op hop
    obtain rfl | rfl : op = sampleSyncOps[0] ∨ op = sampleSyncOps[1] := by simpa [sampleSyncOps] using hop
    · have hsingle : ∀ e s : Int, 0 ≤ s → s < e → Canonical ⟨[toLex (e, s)], by simp⟩ ∧
          ∀ p ∈ family ⟨[toLex (e, s)], by simp⟩, 0 ≤ p.2 := by
        intro e s hs hlt
        refine ⟨canonical_iff.mpr ⟨?_, List.pairwise_singleton _ _⟩, fun p hp => ?_⟩
        · intro p hp
          cases List.mem_singleton.mp hp
          exact hlt
        · cases toLex_inj.mp (List.mem_singleton.mp hp)
          exact hs
      exact List.forall_mem_cons.mpr ⟨hsingle _ _ (by decide) (by decide),
        List.forall_mem_cons.mpr ⟨hsingle _ _ (by decide) (by decide), by simp⟩⟩
    · trivial
  obtain ⟨s, hrun, -, hdisjoint, -⟩ := sync_queue_consistent Nat sampleSyncOps hops
  have hqueue : (SyncQueue.new.run sampleSyncOps).map (fun s => s.queue.elems) =
      some [toLex (262144, toLex (300000, 2)), toLex (300000, toLex (400000, 1))] := by decide +kernel
  rw [hrun] at hqueue
  exact ⟨s, hrun, Option.some.inj hqueue, hdisjoint⟩

end Runs

end Arweave.DataSync

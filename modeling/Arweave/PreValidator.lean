import Mathlib.Algebra.Order.BigOperators.Group.List
import Mathlib.Algebra.Ring.Int.Defs
import Mathlib.Data.Prod.Lex
import Arweave.Lib.Runs
import Arweave.Lib.Table

/-!
# The pre-validation queue

Blocks from the network wait in a set ordered by priority until the server takes them for the next stage of
validation. A counter holds the bytes of the waiting blocks. When they are too many, the blocks of the lowest
priority are dropped.
-/

namespace Arweave.PreValidator

open Lib

/-- What the server reads in a block. `byteSize` is the length of its term in the external format. -/
structure Terms (Block Peer Hash Ip : Type) where
  height : Block → Int
  indepHash : Block → Hash
  hash : Block → Hash
  byteSize : Block → Nat
  byteSize_pos : ∀ b, 0 < byteSize b
  getIp : Peer → Ip

section Code

variable (Block Peer Hash Ip : Type) [LinearOrder Block] [LinearOrder Peer] [LinearOrder Hash] [LinearOrder Ip]

/-- The block, the previous block, whether the solution is resigned, and the peer. -/
abbrev Request := Block ×ₗ Block ×ₗ Bool ×ₗ Peer

/-- The height and the score of the peer. -/
abbrev Priority := Int ×ₗ Int

abbrev Queue := OrdSet (Priority ×ₗ Request Block Peer)

structure State where
  pqueue : Queue Block Peer := OrdSet.empty
  size : Int := 0
  ipTimestamps : SortedMap Ip Int := SortedMap.empty
  throttleByIpInterval : Int
  hashTimestamps : SortedMap Hash Int := SortedMap.empty
  throttleBySolutionInterval : Int

/-- The messages, with the answers of other servers and the clock. -/
inductive Message where
  | preValidate (permanentMember : Hash → Bool) (now now2 : Int)
  | enqueue (request : Request Block Peer) (peers : List Peer) (random : Int)
  | mayBeRemoveIpTimestamp (ip : Ip) (now : Int)
  | mayBeRemoveHashTimestamp (hash : Hash) (now : Int)

variable {Block Peer Hash Ip}

def Request.block (request : Request Block Peer) : Block := (ofLex request).1

def Request.peer (request : Request Block Peer) : Peer := (ofLex (ofLex (ofLex request).2).2).2

/-- An unknown peer comes behind all known ones, at a random place. -/
def getPeerScore (peer : Peer) (random : Int) : List Peer → Int → Int
  | [], n => n - random
  | peer2 :: peers, n => if peer2 = peer then n else getPeerScore peer random peers (n - 1)

def priority (t : Terms Block Peer Hash Ip) (request : Request Block Peer) (peers : List Peer) (random : Int) : Priority :=
  toLex (t.height request.block, getPeerScore request.peer random peers 0)

/-- `?MAX_PRE_VALIDATION_QUEUE_SIZE` -/
def maxPreValidationQueueSize : Int := 200 * 1024 * 1024

/-- The bytes of the block of an entry. -/
def entrySize (t : Terms Block Peer Hash Ip) (x : Priority ×ₗ Request Block Peer) : Int :=
  t.byteSize (Request.block (ofLex x).2)

lemma length_erase_lt {q : Queue Block Peer} {x : Priority ×ₗ Request Block Peer} (h : q.smallest = some x) :
    (q.erase x).elems.length < q.elems.length := by
  have := OrdSet.length_erase_add_one (OrdSet.smallest_mem h)
  omega

/-- None when the set runs out of elements. The size is not returned. -/
def dropTail (t : Terms Block Peer Hash Ip) (q : Queue Block Peer) (size : Int) : Option (Queue Block Peer × Int) :=
  if size ≤ maxPreValidationQueueSize then some (q, 0)
  else
    match h : q.smallest with
    | none => none
    | some x =>
      have _ := length_erase_lt h
      dropTail t (q.erase x) (size - entrySize t x)
termination_by q.elems.length

def enqueue (t : Terms Block Peer Hash Ip) (s : State Block Peer Hash Ip) (request : Request Block Peer)
    (peers : List Peer) (random : Int) : Option (State Block Peer Hash Ip) :=
  let x := toLex (priority t request peers random, request)
  let size2 := s.size + entrySize t x
  let q2 := s.pqueue.add x
  if size2 > maxPreValidationQueueSize then
    (dropTail t q2 size2).map fun (q3, size3) => { s with pqueue := q3, size := size3 }
  else some { s with pqueue := q2, size := size2 }

/-- The timestamps with the new one, or none when the last one is too recent. -/
def throttle {K : Type} [LinearOrder K] (key : K) (timestamps : SortedMap K Int) (throttleInterval now : Int) :
    Option (SortedMap K Int) :=
  match timestamps.lookup key with
  | none => some (timestamps.insert key now)
  | some timestamp => if timestamp < now - throttleInterval then some (timestamps.insert key now) else none

def throttleByIp (t : Terms Block Peer Hash Ip) (peer : Peer) (timestamps : SortedMap Ip Int) (throttleInterval now : Int) :
    Option (SortedMap Ip Int) :=
  throttle (t.getIp peer) timestamps throttleInterval now

def throttleBySolutionHash (hash : Hash) (timestamps : SortedMap Hash Int) (throttleInterval now : Int) :
    Option (SortedMap Hash Int) :=
  throttle hash timestamps throttleInterval now

/-- Takes the request of the highest priority. The second component goes on to the next stage. -/
def preValidate (t : Terms Block Peer Hash Ip) (s : State Block Peer Hash Ip) (permanentMember : Hash → Bool)
    (now now2 : Int) : State Block Peer Hash Ip × Option (Request Block Peer) :=
  match s.pqueue.last with
  | none => (s, none)
  | some x =>
    let request : Request Block Peer := (ofLex x).2
    let s2 := { s with pqueue := s.pqueue.erase x, size := s.size - entrySize t x }
    if permanentMember (t.indepHash request.block) then (s2, none)
    else
      match throttleByIp t request.peer s.ipTimestamps s.throttleByIpInterval now with
      | none => (s2, none)
      | some ipTimestamps2 =>
        match throttleBySolutionHash (t.hash request.block) s.hashTimestamps s.throttleBySolutionInterval now2 with
        | some hashTimestamps2 =>
          ({ s2 with ipTimestamps := ipTimestamps2, hashTimestamps := hashTimestamps2 }, some request)
        | none => ({ s2 with ipTimestamps := ipTimestamps2 }, none)

def mayBeRemove {K : Type} [LinearOrder K] (key : K) (timestamps : SortedMap K Int) (throttleInterval now : Int) :
    SortedMap K Int :=
  match timestamps.lookup key with
  | none => timestamps
  | some timestamp => if timestamp < now - throttleInterval then timestamps.erase key else timestamps

def handleCast (t : Terms Block Peer Hash Ip) (s : State Block Peer Hash Ip) :
    Message Block Peer Hash Ip → Option (State Block Peer Hash Ip)
  | .preValidate permanentMember now now2 => some (preValidate t s permanentMember now now2).1
  | .enqueue request peers random => enqueue t s request peers random
  | .mayBeRemoveIpTimestamp ip now =>
    some { s with ipTimestamps := mayBeRemove ip s.ipTimestamps s.throttleByIpInterval now }
  | .mayBeRemoveHashTimestamp hash now =>
    some { s with hashTimestamps := mayBeRemove hash s.hashTimestamps s.throttleBySolutionInterval now }

end Code

section Sizes

variable {Block Peer Hash Ip : Type} [LinearOrder Block] [LinearOrder Peer]
  {t : Terms Block Peer Hash Ip} {q q' : Queue Block Peer}
  {x y : Priority ×ₗ Request Block Peer} {size size' extra : Int}

/-- The bytes of the blocks in the queue. -/
def total (t : Terms Block Peer Hash Ip) (q : Queue Block Peer) : Int := (q.elems.map (entrySize t)).sum

omit [LinearOrder Block] [LinearOrder Peer] in
lemma entrySize_pos : 0 < entrySize t x := Int.natCast_pos.mpr (t.byteSize_pos _)

lemma total_nonneg : 0 ≤ total t q := by
  refine List.sum_nonneg fun n hn => ?_
  obtain ⟨x, -, rfl⟩ := List.mem_map.mp hn
  exact entrySize_pos.le

lemma total_add_of_notMem (h : x ∉ q) : total t (q.add x) = total t q + entrySize t x := by
  rw [total, ((OrdSet.perm_add h).map _).sum_eq, List.map_cons, List.sum_cons, add_comm, total]

lemma total_add_of_mem (h : x ∈ q) : total t (q.add x) = total t q := by rw [OrdSet.add_of_mem h]

lemma total_erase (h : x ∈ q) : total t q = total t (q.erase x) + entrySize t x := by
  have hnot : x ∉ q.erase x := by simp
  rw [← total_add_of_notMem hnot]
  congr 1
  apply OrdSet.ext_mem
  intro y
  by_cases hy : y = x
  · simp [hy, h]
  · simp [hy]

lemma total_eq_zero_iff : total t q = 0 ↔ q.elems = [] := by
  constructor
  · intro h
    by_contra hne
    obtain ⟨x, hx⟩ := List.exists_mem_of_ne_nil q.elems hne
    have hsplit := total_erase (t := t) hx
    have hrest : 0 ≤ total t (q.erase x) := total_nonneg
    have hpos : 0 < entrySize t x := entrySize_pos
    omega
  · intro h
    rw [total, h]
    rfl

lemma dropTail_spec (h : dropTail t q size = some (q', size')) :
    size' = 0 ∧ (∀ x ∈ q', x ∈ q) ∧ ∀ x ∈ q, x ∉ q' → ∀ y ∈ q', x < y := by
  fun_induction dropTail t q size with
  | case1 q size hle =>
    cases h
    exact ⟨rfl, fun x hx => hx, fun x hx hnot => absurd hx hnot⟩
  | case2 q size hgt hnone => cases h
  | case3 q size hgt x hx _ ih =>
    obtain ⟨hzero, hsub, hlow⟩ := ih h
    refine ⟨hzero, fun y hy => (OrdSet.mem_erase.mp (hsub y hy)).2, fun y hy hnot z hz => ?_⟩
    obtain rfl | hne := eq_or_ne y x
    · have hz := OrdSet.mem_erase.mp (hsub z hz)
      exact lt_of_le_of_ne (OrdSet.smallest_le hx hz.2) hz.1.symm
    · exact hlow y (OrdSet.mem_erase.mpr ⟨hne, hy⟩) hnot z hz

/-- Everything is dropped: the size that the entries do not account for is within the limit, and the last entry alone
is still too much. -/
def Emptied (t : Terms Block Peer Hash Ip) (q : Queue Block Peer) (extra : Int) : Prop :=
  extra ≤ maxPreValidationQueueSize ∧ ∀ y, q.last = some y → maxPreValidationQueueSize < extra + entrySize t y

lemma last_erase_smallest (hx : q.smallest = some x) (hne : (q.erase x).elems ≠ []) : (q.erase x).last = q.last := by
  rw [OrdSet.last, OrdSet.last, OrdSet.elems_erase_smallest hx, List.getLast?_cons_of_ne_nil hne]

lemma dropTail_empties_iff (hsize : size = extra + total t q) :
    (∃ q' size', dropTail t q size = some (q', size') ∧ total t q' = 0) ↔ Emptied t q extra := by
  have htotal : 0 ≤ total t q := total_nonneg
  fun_induction dropTail t q size with
  | case1 q size hle =>
    constructor
    · rintro ⟨q', size', heq, hzero⟩
      cases heq
      refine ⟨by omega, fun y hy => ?_⟩
      rw [OrdSet.last, total_eq_zero_iff.mp hzero] at hy
      cases hy
    · rintro ⟨-, hlast⟩
      refine ⟨q, 0, rfl, total_eq_zero_iff.mpr ?_⟩
      by_contra hne
      have hmem : q.elems.getLast hne ∈ q := List.getLast_mem hne
      have hbig := hlast _ (List.getLast?_eq_some_getLast hne)
      have hsplit := total_erase (t := t) hmem
      have hrest : 0 ≤ total t (q.erase (q.elems.getLast hne)) := total_nonneg
      omega
  | case2 q size hgt hnone =>
    have hnil : q.elems = [] := List.head?_eq_none_iff.mp hnone
    have hzero : total t q = 0 := total_eq_zero_iff.mpr hnil
    constructor
    · rintro ⟨q', size', heq, -⟩
      cases heq
    · rintro ⟨hle, -⟩
      omega
  | case3 q size hgt x hx _ ih =>
    have hsplit := total_erase (t := t) (OrdSet.smallest_mem hx)
    refine (ih (by omega) total_nonneg).trans (and_congr_right fun hle => ?_)
    by_cases hne : (q.erase x).elems = []
    · have hlast : q.last = some x := by rw [OrdSet.last, OrdSet.elems_erase_smallest hx, hne]; rfl
      have hzero : total t (q.erase x) = 0 := total_eq_zero_iff.mpr hne
      constructor
      · intro _ y hy
        cases hlast.symm.trans hy
        omega
      · intro _ y hy
        rw [OrdSet.last, hne] at hy
        cases hy
    · rw [last_erase_smallest hx hne]

end Sizes

section Runs

variable {Block Peer Hash Ip : Type} [LinearOrder Block] [LinearOrder Peer] [LinearOrder Hash] [LinearOrder Ip]
  {t : Terms Block Peer Hash Ip} {s : State Block Peer Hash Ip}

/-- The size is the sum of the sizes of the queued blocks, and within the limit. -/
structure Exact (t : Terms Block Peer Hash Ip) (s : State Block Peer Hash Ip) : Prop where
  size_eq : s.size = total t s.pqueue
  size_le : s.size ≤ maxPreValidationQueueSize

/-- A new entry fits in the queue. When an entry does not fit, or is there already and counted once more, the size stays
exact only if all entries are dropped. -/
def Kept (t : Terms Block Peer Hash Ip) (s : State Block Peer Hash Ip) : Message Block Peer Hash Ip → Prop
  | .enqueue request peers random =>
    let x := toLex (priority t request peers random, request)
    (x ∉ s.pqueue ∧ s.size + entrySize t x ≤ maxPreValidationQueueSize) ∨
      (maxPreValidationQueueSize < s.size + entrySize t x ∧
        Emptied t (s.pqueue.add x) (if x ∈ s.pqueue then entrySize t x else 0))
  | _ => True

lemma enqueue_exact_iff {request : Request Block Peer} {peers : List Peer} {random : Int} (h : Exact t s) :
    (∃ s', enqueue t s request peers random = some s' ∧ Exact t s') ↔ Kept t s (.enqueue request peers random) := by
  rw [enqueue, Kept]
  generalize toLex (priority t request peers random, request) = x
  have hpos : 0 < entrySize t x := entrySize_pos
  have htotal : s.size + entrySize t x = (if x ∈ s.pqueue then entrySize t x else 0) + total t (s.pqueue.add x) := by
    split
    · next hmem => rw [total_add_of_mem hmem, h.size_eq, add_comm]
    · next hmem => rw [total_add_of_notMem hmem, h.size_eq, zero_add]
  dsimp only
  by_cases hbig : maxPreValidationQueueSize < s.size + entrySize t x
  · rw [if_pos hbig, ← dropTail_empties_iff htotal]
    constructor
    · rintro ⟨s', hs', hexact⟩
      obtain ⟨⟨q3, size3⟩, hdrop, rfl⟩ := Option.map_eq_some_iff.mp hs'
      refine .inr ⟨hbig, q3, size3, hdrop, ?_⟩
      have hsize := hexact.size_eq
      have hzero := (dropTail_spec hdrop).1
      dsimp only at hsize
      omega
    · rintro (⟨-, hle⟩ | ⟨-, q3, size3, hdrop, hzero⟩)
      · omega
      · obtain rfl : size3 = 0 := (dropTail_spec hdrop).1
        exact ⟨_, Option.map_eq_some_iff.mpr ⟨(q3, 0), hdrop, rfl⟩, ⟨hzero.symm, (by decide : (0 : Int) ≤ _)⟩⟩
  · rw [if_neg hbig]
    constructor
    · rintro ⟨s', hs', hexact⟩
      cases hs'
      have hsize := hexact.size_eq
      dsimp only at hsize
      refine .inl ⟨fun hmem => ?_, not_lt.mp hbig⟩
      rw [if_pos hmem] at htotal
      omega
    · rintro (⟨hnot, hle⟩ | ⟨hlt, -⟩)
      · rw [if_neg hnot, zero_add] at htotal
        exact ⟨_, rfl, ⟨htotal, hle⟩⟩
      · exact absurd hlt hbig

lemma preValidate_exact {permanentMember : Hash → Bool} {now now2 : Int} (h : Exact t s) :
    Exact t (preValidate t s permanentMember now now2).1 := by
  rw [preValidate]
  split
  · exact h
  · next x hx =>
    have hsplit := total_erase (t := t) (List.mem_of_getLast? hx : x ∈ s.pqueue)
    have hpos : 0 < entrySize t x := entrySize_pos
    have hexact : s.size - entrySize t x = total t (s.pqueue.erase x) ∧
        s.size - entrySize t x ≤ maxPreValidationQueueSize := by
      have := h.size_eq
      have := h.size_le
      omega
    -- all branches take the same entry from the queue
    dsimp only
    split
    · exact ⟨hexact.1, hexact.2⟩
    · split
      · exact ⟨hexact.1, hexact.2⟩
      · split
        · exact ⟨hexact.1, hexact.2⟩
        · exact ⟨hexact.1, hexact.2⟩

lemma handleCast_exact_iff (m : Message Block Peer Hash Ip) (h : Exact t s) :
    (∃ s', handleCast t s m = some s' ∧ Exact t s') ↔ Kept t s m := by
  cases m with
  | preValidate permanentMember now now2 => exact iff_of_true ⟨_, rfl, preValidate_exact h⟩ trivial
  | enqueue request peers random => exact enqueue_exact_iff h
  | mayBeRemoveIpTimestamp ip now => exact iff_of_true ⟨_, rfl, h.size_eq, h.size_le⟩ trivial
  | mayBeRemoveHashTimestamp hash now => exact iff_of_true ⟨_, rfl, h.size_eq, h.size_le⟩ trivial

/-- Over a run the server stays up with an exact size exactly when every enqueued entry is new and fits, or all entries
are dropped. The dropped entries have the lowest priorities. -/
theorem queue_size_exact_iff (t : Terms Block Peer Hash Ip) (ipInterval solutionInterval : Int)
    (messages : List (Message Block Peer Hash Ip)) :
    ((∀ before after, messages = before ++ after → ∃ s,
        before.foldlM (handleCast t) { throttleByIpInterval := ipInterval, throttleBySolutionInterval := solutionInterval } =
          some s ∧ Exact t s) ↔
      Along (handleCast t) (Kept t)
        { throttleByIpInterval := ipInterval, throttleBySolutionInterval := solutionInterval } messages) ∧
    ∀ q size q' size', dropTail t q size = some (q', size') →
      (∀ x ∈ q', x ∈ q) ∧ ∀ x ∈ q, x ∉ q' → ∀ y ∈ q', x < y := by
  refine ⟨forall_runs_iff_along ⟨rfl, (by decide : (0 : Int) ≤ _)⟩ fun s m h => handleCast_exact_iff m h, ?_⟩
  exact fun q size q' size' h => (dropTail_spec h).2

/-- Blocks of 20 MiB that are known by their heights. -/
def sampleTerms : Terms Nat Nat Nat Nat where
  height b := b
  indepHash b := b
  hash b := b
  byteSize _ := 20 * 1024 * 1024
  byteSize_pos _ := by decide
  getIp peer := peer

def sampleState : State Nat Nat Nat Nat where
  throttleByIpInterval := 1000
  throttleBySolutionInterval := 2000

def sampleEnqueue (height : Nat) : Message Nat Nat Nat Nat :=
  .enqueue (toLex (height + 1, toLex (height, toLex (false, 7)))) [5, 7] 0

/-- Eleven blocks are over the limit: ten stay, and the size is zero. A block that comes twice in the same entry is
counted twice. -/
theorem size_not_exact :
    (∃ s, ((List.range 11).map sampleEnqueue).foldlM (handleCast sampleTerms) sampleState = some s ∧
      s.size = 0 ∧ total sampleTerms s.pqueue = 200 * 1024 * 1024 ∧ ¬ Exact sampleTerms s) ∧
    ∃ s, [sampleEnqueue 4, sampleEnqueue 4].foldlM (handleCast sampleTerms) sampleState = some s ∧
      s.size = 2 * total sampleTerms s.pqueue ∧ ¬ Exact sampleTerms s := by
  constructor
  · have hsize : (((List.range 11).map sampleEnqueue).foldlM (handleCast sampleTerms) sampleState).map
        (fun s => (s.size, total sampleTerms s.pqueue)) = some (0, 200 * 1024 * 1024) := by decide +kernel
    obtain ⟨s, hs, heq⟩ := Option.map_eq_some_iff.mp hsize
    obtain ⟨hzero, htotal⟩ := Prod.mk.inj heq
    refine ⟨s, hs, hzero, htotal, fun h => ?_⟩
    have := h.size_eq
    omega
  · have hsize : ([sampleEnqueue 4, sampleEnqueue 4].foldlM (handleCast sampleTerms) sampleState).map
        (fun s => (s.size, total sampleTerms s.pqueue)) = some (41943040, 20971520) := by decide
    obtain ⟨s, hs, heq⟩ := Option.map_eq_some_iff.mp hsize
    obtain ⟨hzero, htotal⟩ := Prod.mk.inj heq
    refine ⟨s, hs, by omega, fun h => ?_⟩
    have := h.size_eq
    omega

end Runs

end Arweave.PreValidator

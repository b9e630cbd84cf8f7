import Mathlib.Order.Interval.Set.Disjoint
import Arweave.Intervals.EtsQueries
import Arweave.Intervals.Joins

/-!
# What is to be synced next

A storage module looks for the bytes of a range that it does not have. It asks the network for those that
are not blacklisted, and another storage module of the node for those that the other one has. Both walk
over the tables from one interval to the next.
-/

namespace Arweave.DataSync

open Lib Intervals EtsIntervals

variable {t synced blacklisted target other : Table} {start stop offset n : Int} {I : IntervalSet}

/-- A store without a record is one with an empty table. -/
def getNextSyncedInterval (t : Table) (offset rightBound : Int) : Option (Int × Int) := getNextInterval t offset rightBound

lemma getNextSyncedInterval_bounds {e s rightBound : Int} (h : getNextSyncedInterval t offset rightBound = some (e, s)) :
    offset < e ∧ e ≤ rightBound ∧ s < rightBound := by
  rw [getNextSyncedInterval, getNextInterval] at h
  split_ifs at h with hge
  cases hnext : t.next offset with
  | none =>
    rw [hnext] at h
    cases h
  | some q =>
    rw [hnext] at h
    dsimp only at h
    split_ifs at h
    cases h
    have := SortedMap.lt_of_next hnext
    omega

lemma lt_of_getNextSyncedInterval {e s rightBound : Int} (h : getNextSyncedInterval t offset rightBound = some (e, s)) :
    offset < e ∧ e ≤ rightBound :=
  ⟨(getNextSyncedInterval_bounds h).1, (getNextSyncedInterval_bounds h).2.1⟩

/-- `ar_tx_blacklist:get_next_not_blacklisted_byte/1` -/
def getNextNotBlacklistedByte (t : Table) (offset : Int) : Int :=
  match t.next (offset - 1) with
  | none => offset
  | some (nextOffset, start) => if start ≥ offset then offset else nextOffset + 1

/-- `ar_tx_blacklist:get_blacklisted_intervals/3` -/
def getBlacklistedIntervals (t : Table) (start stop : Int) (I : IntervalSet) : Option IntervalSet :=
  match h : t.next start with
  | none => some I
  | some (offset, start2) =>
    have _ := above_next h
    if start2 ≥ stop then some I
    else if offset ≥ stop then Intervals.add I stop (max start2 start)
    else (Intervals.add I offset (max start2 start)).bind (getBlacklistedIntervals t offset stop)
termination_by t.above start

/-- The intervals of the range without those that are synced. -/
def getUnsyncedIntervalsFrom (t : Table) (start stop : Int) (I : IntervalSet) : Option IntervalSet :=
  if start ≥ stop then some I
  else
    match h : getNextSyncedInterval t start stop with
    | none => Intervals.add I stop start
    | some (end2, start2) =>
      have _ := lt_of_getNextSyncedInterval h
      if start2 > start then (Intervals.add I (min start2 stop) start).bind (getUnsyncedIntervalsFrom t end2 stop)
      else getUnsyncedIntervalsFrom t end2 stop I
termination_by (stop - start).toNat

def getUnsyncedIntervals (synced blacklisted : Table) (start stop : Int) : Option IntervalSet := do
  let unsyncedIntervals ← getUnsyncedIntervalsFrom synced start stop Intervals.new
  let blacklistedIntervals ← getBlacklistedIntervals blacklisted start stop Intervals.new
  some (outerjoin blacklistedIntervals unsyncedIntervals)

inductive NextMissing where
  | skip (stop : Int)
  | request (cursor rightBound : Int)

/-- The next bytes that the target does not have. -/
def findNextMissing (target : Table) (rangeStart rangeEnd : Int) : NextMissing :=
  match getNextSyncedInterval target rangeStart rangeEnd with
  | none => .request rangeStart rangeEnd
  | some (stop, start) => if start ≤ rangeStart then .skip stop else .request rangeStart start

lemma findNextMissing_bounds (target : Table) (hlt : start < stop) :
    match findNextMissing target start stop with
    | .skip end2 => start < end2
    | .request cursor rightBound => cursor = start ∧ start < rightBound := by
  rw [findNextMissing]
  cases h : getNextSyncedInterval target start stop with
  | none => exact ⟨rfl, hlt⟩
  | some p =>
    have hbounds := lt_of_getNextSyncedInterval h
    dsimp only
    split_ifs with hle
    · exact hbounds.1
    · exact ⟨rfl, not_le.mp hle⟩

lemma rightBound_le {cursor rightBound : Int} (h : findNextMissing target start stop = .request cursor rightBound) :
    rightBound ≤ stop := by
  rw [findNextMissing] at h
  cases hnext : getNextSyncedInterval target start stop with
  | none =>
    rw [hnext] at h
    cases h
    exact le_rfl
  | some p =>
    rw [hnext] at h
    dsimp only at h
    split_ifs at h
    cases h
    exact (getNextSyncedInterval_bounds hnext).2.2.le

/-- The intervals of the other store, newest first, as their starts and ends. -/
def getUnsyncedIntervalsFromOtherStorageModules (target other : Table) (rangeStart rangeEnd : Int)
    (intervals : List (Int × Int)) : List (Int × Int) :=
  if _ : rangeStart ≥ rangeEnd then intervals
  else
    match _ : findNextMissing target rangeStart rangeEnd with
    | .skip end2 => getUnsyncedIntervalsFromOtherStorageModules target other end2 rangeEnd intervals
    | .request cursor rightBound =>
      match _ : getNextSyncedInterval other cursor rightBound with
      | none => getUnsyncedIntervalsFromOtherStorageModules target other rightBound rangeEnd intervals
      | some (end2, start2) =>
        getUnsyncedIntervalsFromOtherStorageModules target other end2 rangeEnd ((start2, end2) :: intervals)
termination_by (rangeEnd - rangeStart).toNat
decreasing_by
  · rename_i hge hmissing
    have hbounds := findNextMissing_bounds target (not_le.mp hge)
    rw [hmissing] at hbounds
    omega
  · rename_i hge hmissing _
    have hbounds := findNextMissing_bounds target (not_le.mp hge)
    rw [hmissing] at hbounds
    omega
  · rename_i hge hmissing hnext
    have hbounds := findNextMissing_bounds target (not_le.mp hge)
    rw [hmissing] at hbounds
    have := lt_of_getNextSyncedInterval hnext
    omega

lemma mem_points_of_getNextSyncedInterval {e s bound x : Int} (ht : Separated (family t))
    (h : getNextSyncedInterval t offset bound = some (e, s)) (hx : offset < x) (hxe : x ≤ e) :
    x ∈ points (family t) ↔ s < x := by
  obtain ⟨hlt, hle⟩ := lt_of_getNextSyncedInterval h
  obtain ⟨e', hmem, he', hfirst, hs, rfl⟩ := (getNextInterval_some ht (hlt.trans_le hle)).mp h
  constructor
  · rintro ⟨q, hq, hqx, hxq⟩
    obtain heq | hlt' := (hfirst q hq (hx.trans_le hxq)).eq_or_lt
    · rwa [← congrArg Prod.snd (ht.eq_of_fst_eq hmem hq heq)] at hqx
    · exact (ht.lt _ hmem).trans ((ht.fst_lt_snd hmem hq hlt').trans hqx)
  · exact fun hsx => ⟨(e', s), hmem, hsx, hxe.trans (min_le_left _ _)⟩

lemma start_lt_of_getNextSyncedInterval {e s bound : Int} (ht : Separated (family t))
    (h : getNextSyncedInterval t offset bound = some (e, s)) : s < e := by
  obtain ⟨hlt, hle⟩ := lt_of_getNextSyncedInterval h
  obtain ⟨e', hmem, -, -, hs, rfl⟩ := (getNextInterval_some ht (hlt.trans_le hle)).mp h
  exact lt_min (ht.lt _ hmem) hs

lemma notMem_points_of_getNextSyncedInterval {bound x : Int} (ht : Separated (family t))
    (h : getNextSyncedInterval t offset bound = none) (hx : offset < x) (hxb : x ≤ bound) : x ∉ points (family t) :=
  (getNextInterval_none ht (hx.trans_le hxb)).mp h x ⟨hx, hxb⟩

lemma getNextNotBlacklistedByte_isLeast (ht : Separated (family t)) (offset : Int) :
    IsLeast {n | offset ≤ n ∧ n ∉ points (family t)} (getNextNotBlacklistedByte t offset) := by
  rw [getNextNotBlacklistedByte]
  cases hnext : t.next (offset - 1) with
  | none =>
    have habove : offset - 1 < offset := by omega
    exact ⟨⟨le_rfl, notMem_points_of_next_eq_none hnext habove⟩, fun n hn => hn.1⟩
  | some q =>
    obtain ⟨nextOffset, start⟩ := q
    have hmem : ∀ n, offset ≤ n → n ≤ nextOffset → (n ∈ points (family t) ↔ start < n) := fun n hn hle =>
      mem_points_of_next ht hnext (by omega) hle
    have hlt : offset - 1 < nextOffset := SortedMap.lt_of_next hnext
    dsimp only
    split_ifs with hge
    · exact ⟨⟨le_rfl, fun h => absurd ((hmem offset le_rfl (by omega)).mp h) (not_lt.mpr hge)⟩, fun n hn => hn.1⟩
    · -- all bytes up to the end of the interval are blacklisted
      refine ⟨⟨by omega, succ_notMem_points ht (SortedMap.mem_of_next hnext)⟩, ?_⟩
      rintro n ⟨hn, hnot⟩
      by_contra hlow
      exact hnot ((hmem n hn (by omega)).mpr (by omega))

lemma getBlacklistedIntervals_spec (ht : Separated (family t)) (hI : Canonical I) (hlt : start < stop) :
    ∃ J, getBlacklistedIntervals t start stop I = some J ∧ Canonical J ∧
      points (family J) = points (family I) ∪ (points (family t) ∩ Set.Ioc start stop) := by
  fun_induction getBlacklistedIntervals t start stop I with
  | case1 start I hnext =>
    refine ⟨I, rfl, hI, ?_⟩
    rw [eq_comm, Set.union_eq_left]
    rintro x ⟨hx, hxs, -⟩
    exact absurd hx (notMem_points_of_next_eq_none hnext hxs)
  | case2 start I offset start2 hnext _ hge =>
    refine ⟨I, rfl, hI, ?_⟩
    rw [eq_comm, Set.union_eq_left]
    rintro x ⟨hx, hxs, hxe⟩
    have hlt2 := ht.lt _ (SortedMap.mem_of_next hnext)
    have := (mem_points_of_next ht hnext hxs (by dsimp only at hlt2; omega)).mp hx
    omega
  | case3 start I offset start2 hnext _ hge hstop =>
    obtain ⟨J, hadd, hJ, hpts⟩ := Intervals.add_spec hI (show max start2 start < stop by omega)
    refine ⟨J, hadd, hJ, ?_⟩
    rw [hpts]
    congr 1
    ext x
    simp only [Set.mem_Ioc, Set.mem_inter_iff, max_lt_iff]
    constructor
    · rintro ⟨⟨hx2, hx⟩, hxe⟩
      exact ⟨(mem_points_of_next ht hnext hx (by omega)).mpr hx2, hx, hxe⟩
    · rintro ⟨hmem, hx, hxe⟩
      exact ⟨⟨(mem_points_of_next ht hnext hx (by omega)).mp hmem, hx⟩, hxe⟩
  | case4 start I offset start2 hnext _ hge hstop ih =>
    have hlow := SortedMap.lt_of_next hnext
    have hlt2 := ht.lt _ (SortedMap.mem_of_next hnext)
    dsimp only at hlow hlt2
    obtain ⟨J, hadd, hJ, hpts⟩ := Intervals.add_spec hI (show max start2 start < offset by omega)
    obtain ⟨K, hrest, hK, hptsK⟩ := ih J hJ (by omega)
    refine ⟨K, by rw [hadd]; exact hrest, hK, ?_⟩
    rw [hptsK, hpts, Set.union_assoc]
    congr 1
    ext x
    simp only [Set.mem_Ioc, Set.mem_inter_iff, Set.mem_union, max_lt_iff]
    constructor
    · rintro (⟨⟨hx2, hx⟩, hxe⟩ | ⟨hmem, hx, hxe⟩)
      · exact ⟨(mem_points_of_next ht hnext hx hxe).mpr hx2, hx, by omega⟩
      · exact ⟨hmem, by omega, hxe⟩
    · rintro ⟨hmem, hx, hxe⟩
      by_cases hle : x ≤ offset
      · exact .inl ⟨⟨(mem_points_of_next ht hnext hx hle).mp hmem, hx⟩, hle⟩
      · exact .inr ⟨hmem, by omega, hxe⟩

lemma getUnsyncedIntervalsFrom_spec (start stop : Int) (ht : Separated (family t)) (hI : Canonical I) :
    ∃ J, getUnsyncedIntervalsFrom t start stop I = some J ∧ Canonical J ∧
      points (family J) = points (family I) ∪ (Set.Ioc start stop \ points (family t)) := by
  fun_induction getUnsyncedIntervalsFrom t start stop I with
  | case1 start I hge => exact ⟨I, rfl, hI, by rw [Set.Ioc_eq_empty (not_lt.mpr hge), Set.empty_sdiff, Set.union_empty]⟩
  | case2 start I hge hnext =>
    obtain ⟨J, hadd, hJ, hpts⟩ := Intervals.add_spec hI (not_le.mp hge)
    have hmissing : Disjoint (Set.Ioc start stop) (points (family t)) :=
      Set.disjoint_left.mpr fun x hx => notMem_points_of_getNextSyncedInterval ht hnext hx.1 hx.2
    exact ⟨J, hadd, hJ, by rw [hpts, hmissing.sdiff_eq_left]⟩
  | case3 start I hge end2 start2 hnext hbounds hgt ih =>
    obtain ⟨J, hadd, hJ, hpts⟩ := Intervals.add_spec hI (show start < min start2 stop by omega)
    obtain ⟨K, hrest, hK, hptsK⟩ := ih J hJ
    refine ⟨K, by rw [hadd]; exact hrest, hK, ?_⟩
    rw [hptsK, hpts, Set.union_assoc]
    congr 1
    ext x
    have hmem : start < x → x ≤ end2 → (x ∈ points (family t) ↔ start2 < x) :=
      mem_points_of_getNextSyncedInterval ht hnext
    simp only [Set.mem_Ioc, Set.mem_union, Set.mem_sdiff, le_min_iff]
    by_cases hle : x ≤ end2
    · constructor
      · rintro (⟨hx, hx2, hxe⟩ | ⟨⟨hx, hxe⟩, hnot⟩)
        · exact ⟨⟨hx, hxe⟩, fun h => absurd ((hmem hx hle).mp h) (not_lt.mpr hx2)⟩
        · omega
      · rintro ⟨⟨hx, hxe⟩, hnot⟩
        exact .inl ⟨hx, not_lt.mp fun h => hnot ((hmem hx hle).mpr h), hxe⟩
    · constructor
      · rintro (⟨hx, hx2, hxe⟩ | ⟨⟨hx, hxe⟩, hnot⟩)
        · have hse := start_lt_of_getNextSyncedInterval ht hnext
          omega
        · exact ⟨⟨by omega, hxe⟩, hnot⟩
      · rintro ⟨⟨hx, hxe⟩, hnot⟩
        exact .inr ⟨⟨by omega, hxe⟩, hnot⟩
  | case4 start I hge end2 start2 hnext hbounds hle ih =>
    obtain ⟨K, hrest, hK, hptsK⟩ := ih hI
    refine ⟨K, hrest, hK, ?_⟩
    rw [hptsK]
    congr 1
    ext x
    simp only [Set.mem_Ioc, Set.mem_sdiff]
    constructor
    · rintro ⟨⟨hx, hxe⟩, hnot⟩
      exact ⟨⟨by omega, hxe⟩, hnot⟩
    · rintro ⟨⟨hx, hxe⟩, hnot⟩
      refine ⟨⟨?_, hxe⟩, hnot⟩
      by_contra hlow
      exact hnot ((mem_points_of_getNextSyncedInterval ht hnext hx (not_lt.mp hlow)).mpr (by omega))

/-- What is requested from the network are the bytes of the range that are neither synced nor blacklisted. -/
theorem getUnsyncedIntervals_exact (synced blacklisted : Table) (hsynced : Separated (family synced))
    (hblacklisted : Separated (family blacklisted)) (start stop : Nat) (hlt : start < stop) :
    (∃ I, getUnsyncedIntervals synced blacklisted start stop = some I ∧ Canonical I ∧
        points (Intervals.family I) = Set.Ioc (start : Int) stop \ (points (family synced) ∪ points (family blacklisted))) ∧
      (∃ J, getBlacklistedIntervals blacklisted start stop Intervals.new = some J ∧ Canonical J ∧
        points (Intervals.family J) = points (family blacklisted) ∩ Set.Ioc (start : Int) stop) ∧
      ∀ offset, IsLeast {n | offset ≤ n ∧ n ∉ points (family blacklisted)}
        (getNextNotBlacklistedByte blacklisted offset) := by
  have hnew : Canonical Intervals.new := by
    rw [Canonical, family_new]
    exact Separated.empty
  obtain ⟨U, hU, hUcan, hUpts⟩ := getUnsyncedIntervalsFrom_spec (start : Int) (stop : Int) hsynced hnew
  obtain ⟨B, hB, hBcan, hBpts⟩ := getBlacklistedIntervals_spec hblacklisted hnew (by exact_mod_cast hlt : (start : Int) < stop)
  rw [family_new, points_empty, Set.empty_union] at hUpts hBpts
  -- an unsynced interval starts at the start of the range or above it
  have hpos : ∀ p ∈ Intervals.family U, 0 ≤ p.2 := by
    intro p hp
    have hfirst : p.2 + 1 ∈ points (Intervals.family U) := ⟨p, hp, by omega, Int.add_one_le_of_lt (hUcan.lt p hp)⟩
    rw [hUpts] at hfirst
    have := hfirst.1.1
    omega
  refine ⟨⟨outerjoin B U, ?_, (joins_divide B U hBcan hUcan hpos).2.1, ?_⟩, ⟨B, hB, hBcan, hBpts⟩,
    getNextNotBlacklistedByte_isLeast hblacklisted⟩
  · rw [getUnsyncedIntervals, hU, hB]
    rfl
  · rw [(joins_divide B U hBcan hUcan hpos).2.2.2.1, hUpts, hBpts]
    ext x
    simp only [Set.mem_sdiff, Set.mem_inter_iff, Set.mem_union]
    tauto

section OtherModules

/-- The bytes of the range that only the other store has. -/
def wanted (target other : Table) (start stop : Int) : Set Int :=
  (points (family other) \ points (family target)) ∩ Set.Ioc start stop

/-- The intervals do not meet and have exactly the bytes that only the other store has. -/
def CopiesWanted (target other : Table) (start stop : Int) (intervals : List (Int × Int)) : Prop :=
  intervals.Pairwise (fun p q => Disjoint (Set.Ioc p.1 p.2) (Set.Ioc q.1 q.2)) ∧
    {x | ∃ p ∈ intervals, x ∈ Set.Ioc p.1 p.2} = wanted target other start stop

/-- The byte before a wanted one is wanted as well when the other store has it. -/
def StartsWithWanted (target other : Table) (start stop : Int) : Prop :=
  ∀ x ∈ wanted target other start stop, x - 1 ∈ points (family other) → x - 1 ∈ wanted target other start stop

variable {acc : List (Int × Int)} {c : Int}

lemma start_of_mem_result (ht : Separated (family other)) {p : Int × Int}
    (hp : p ∈ getUnsyncedIntervalsFromOtherStorageModules target other start stop acc) :
    p ∈ acc ∨ ∃ e, (e, p.1) ∈ family other ∧ p.2 ≤ e := by
  fun_induction getUnsyncedIntervalsFromOtherStorageModules target other start stop acc with
  | case1 start acc hge => exact .inl hp
  | case2 start acc hge end2 hmissing ih => exact ih hp
  | case3 start acc hge cursor rightBound hmissing hnext ih => exact ih hp
  | case4 start acc hge cursor rightBound hmissing end2 start2 hnext ih =>
    obtain hp | hp := ih hp
    · obtain rfl | hp := List.mem_cons.mp hp
      · obtain ⟨hlt, hle⟩ := lt_of_getNextSyncedInterval hnext
        obtain ⟨e, hmem, -, -, -, heq⟩ := (getNextInterval_some ht (hlt.trans_le hle)).mp hnext
        exact .inr ⟨e, hmem, heq.le.trans (min_le_left _ _)⟩
      · exact .inl hp
    · exact .inr hp

lemma findNextMissing_skip {end2 : Int} (ht : Separated (family target)) (h : findNextMissing target c stop = .skip end2) :
    c < end2 ∧ ∀ x, c < x → x ≤ end2 → x ∈ points (family target) := by
  rw [findNextMissing] at h
  cases hnext : getNextSyncedInterval target c stop with
  | none =>
    rw [hnext] at h
    cases h
  | some p =>
    obtain ⟨e, s⟩ := p
    rw [hnext] at h
    dsimp only at h
    split_ifs at h with hle
    cases h
    exact ⟨(lt_of_getNextSyncedInterval hnext).1, fun x hx hxe =>
      (mem_points_of_getNextSyncedInterval ht hnext hx hxe).mpr (hle.trans_lt hx)⟩

lemma findNextMissing_request (start : Int) {cursor rightBound : Int} (ht : Separated (family target))
    (h : findNextMissing target c stop = .request cursor rightBound) :
    cursor = c ∧ (∀ x, c < x → x ≤ rightBound → x ∉ points (family target)) ∧
      (rightBound + 1 ∈ Set.Ioc start stop → rightBound + 1 ∈ points (family target)) := by
  rw [findNextMissing] at h
  cases hnext : getNextSyncedInterval target c stop with
  | none =>
    rw [hnext] at h
    cases h
    refine ⟨rfl, fun x hx hxb => notMem_points_of_getNextSyncedInterval ht hnext hx hxb, fun hmem => ?_⟩
    have := hmem.2
    omega
  | some p =>
    obtain ⟨e, s⟩ := p
    have hse := start_lt_of_getNextSyncedInterval ht hnext
    have hmem : ∀ x, c < x → x ≤ e → (x ∈ points (family target) ↔ s < x) := fun x hx hxe =>
      mem_points_of_getNextSyncedInterval ht hnext hx hxe
    rw [hnext] at h
    dsimp only at h
    split_ifs at h with hle
    cases h
    refine ⟨rfl, fun x hx hxb hx' => ?_, fun _ => ?_⟩
    · have := (hmem x hx (by omega)).mp hx'
      omega
    · exact (hmem (rightBound + 1) (by omega) (by omega)).mpr (by omega)

lemma wanted_above {d x : Int} (hle : c ≤ d) (hnone : ∀ x ∈ wanted target other start stop, c < x → d < x) :
    x ∈ wanted target other start stop ∧ d < x ↔ x ∈ wanted target other start stop ∧ c < x :=
  and_congr_right fun hx => ⟨fun hlow => hle.trans_lt hlow, hnone x hx⟩

lemma copied_append {l : List (Int × Int)} {a b : Int} (hstart : c ≤ a) (hlt : c < b)
    (hmem : ∀ x, c < x → x ≤ b → (x ∈ wanted target other start stop ↔ a < x))
    (hdisjoint : l.Pairwise fun p q => Disjoint (Set.Ioc p.1 p.2) (Set.Ioc q.1 q.2))
    (hrest : ∀ x, (∃ p ∈ l, x ∈ Set.Ioc p.1 p.2) ↔ x ∈ wanted target other start stop ∧ b < x) :
    (l ++ [(a, b)]).Pairwise (fun p q => Disjoint (Set.Ioc p.1 p.2) (Set.Ioc q.1 q.2)) ∧
      ∀ x, (∃ p ∈ l ++ [(a, b)], x ∈ Set.Ioc p.1 p.2) ↔ x ∈ wanted target other start stop ∧ c < x := by
  refine ⟨List.pairwise_append.mpr ⟨hdisjoint, List.pairwise_singleton _ _, fun p hp q hq => ?_⟩, fun x => ?_⟩
  · rw [List.mem_singleton.mp hq]
    refine Set.disjoint_left.mpr fun x hx hx2 => ?_
    exact absurd ((hrest x).mp ⟨p, hp, hx⟩).2 (not_lt.mpr hx2.2)
  · constructor
    · rintro ⟨p, hp, hx⟩
      obtain hp | hp := List.mem_append.mp hp
      · obtain ⟨hwanted, hlow⟩ := (hrest x).mp ⟨p, hp, hx⟩
        exact ⟨hwanted, hlt.trans hlow⟩
      · rw [List.mem_singleton.mp hp] at hx
        have hcx := hstart.trans_lt hx.1
        exact ⟨(hmem x hcx hx.2).mpr hx.1, hcx⟩
    · rintro ⟨hwanted, hcx⟩
      by_cases hxb : x ≤ b
      · exact ⟨_, List.mem_append_right _ (List.mem_singleton_self _), (hmem x hcx hxb).mp hwanted, hxb⟩
      · obtain ⟨p, hp, hx⟩ := (hrest x).mpr ⟨hwanted, not_le.mp hxb⟩
        exact ⟨p, List.mem_append_left _ hp, hx⟩

/-- The walk does not stop inside of a run of wanted bytes, so that every interval it finds starts at the
cursor or above it. -/
lemma exists_copied (acc : List (Int × Int)) (htarget : Separated (family target)) (hother : Separated (family other))
    (hstarts : StartsWithWanted target other start stop) (hc : start ≤ c)
    (hcursor : c ∈ wanted target other start stop → c + 1 ∉ wanted target other start stop) :
    ∃ l, getUnsyncedIntervalsFromOtherStorageModules target other c stop acc = l ++ acc ∧
      l.Pairwise (fun p q => Disjoint (Set.Ioc p.1 p.2) (Set.Ioc q.1 q.2)) ∧
      ∀ x, (∃ p ∈ l, x ∈ Set.Ioc p.1 p.2) ↔ x ∈ wanted target other start stop ∧ c < x := by
  fun_induction getUnsyncedIntervalsFromOtherStorageModules target other c stop acc with
  | case1 c acc hge =>
    refine ⟨[], rfl, List.Pairwise.nil, fun x => ?_⟩
    constructor
    · rintro ⟨p, hp, -⟩
      cases hp
    · rintro ⟨⟨-, -, hx⟩, hcx⟩
      omega
  | case2 c acc hge end2 hmissing ih =>
    obtain ⟨hlt, hsynced⟩ := findNextMissing_skip htarget hmissing
    obtain ⟨l, heq, hdisjoint, hmem⟩ := ih (by omega) fun h => absurd (hsynced end2 hlt le_rfl) h.1.2
    refine ⟨l, heq, hdisjoint, fun x => (hmem x).trans (wanted_above hlt.le fun y hy hcy => ?_)⟩
    by_contra hlow
    exact hy.1.2 (hsynced y hcy (not_lt.mp hlow))
  | case3 c acc hge cursor rightBound hmissing hnext ih =>
    obtain ⟨rfl, -, -⟩ := findNextMissing_request start htarget hmissing
    have hbounds := findNextMissing_bounds target (not_le.mp hge)
    rw [hmissing] at hbounds
    have hnone : ∀ x, cursor < x → x ≤ rightBound → x ∉ points (family other) := fun x hx hxb =>
      notMem_points_of_getNextSyncedInterval hother hnext hx hxb
    obtain ⟨l, heq, hdisjoint, hmem⟩ := ih (by omega) fun h => absurd h.1.1 (hnone rightBound hbounds.2 le_rfl)
    refine ⟨l, heq, hdisjoint, fun x => (hmem x).trans (wanted_above hbounds.2.le fun y hy hcy => ?_)⟩
    by_contra hlow
    exact hnone y hcy (not_lt.mp hlow) hy.1.1
  | case4 c acc hge cursor rightBound hmissing end2 start2 hnext ih =>
    obtain ⟨rfl, hunsynced, hafter⟩ := findNextMissing_request start htarget hmissing
    obtain ⟨hlt, hle⟩ := lt_of_getNextSyncedInterval hnext
    have hstop := rightBound_le hmissing
    have hmem : ∀ x, cursor < x → x ≤ end2 → (x ∈ wanted target other start stop ↔ start2 < x) := by
      intro x hx hxe
      rw [← mem_points_of_getNextSyncedInterval hother hnext hx hxe]
      exact ⟨fun h => h.1.1, fun h => ⟨⟨h, hunsynced x hx (hxe.trans hle)⟩, by omega, by omega⟩⟩
    obtain ⟨e, hfamily, -, -, -, heq2⟩ := (getNextInterval_some hother (hlt.trans_le hle)).mp hnext
    dsimp only at hfamily heq2
    have hstart : cursor ≤ start2 := by
      by_contra hlow
      have hnextWanted := (hmem (cursor + 1) (by omega) (by omega)).mpr (by omega)
      refine hcursor ?_ hnextWanted
      have hbefore := hstarts _ hnextWanted
      rw [add_sub_cancel_right] at hbefore
      exact hbefore ⟨_, hfamily, not_le.mp hlow, by dsimp only; omega⟩
    obtain ⟨l, heq, hdisjoint, hrest⟩ := ih (by omega) fun _ hend => by
      -- the interval has ended, or the target has the byte after the right bound
      by_cases hfull : end2 = e
      · exact succ_notMem_points hother hfamily (hfull ▸ hend.1.1)
      · have hbound : end2 = rightBound := by omega
        exact hend.1.2 (hbound ▸ hafter (hbound ▸ hend.2))
    exact ⟨l ++ [(start2, end2)], by rw [heq, List.append_assoc, List.singleton_append],
      copied_append hstart hlt hmem hdisjoint hrest⟩

/-- The intervals from another store are those of the wanted bytes if and only if no wanted byte follows a byte of
the other store that is not wanted. -/
theorem copiesWanted_iff (target other : Table) (htarget : Separated (family target)) (hother : Separated (family other))
    (start stop : Int) :
    CopiesWanted target other start stop (getUnsyncedIntervalsFromOtherStorageModules target other start stop []) ↔
      StartsWithWanted target other start stop := by
  constructor
  · rintro ⟨-, hcopied⟩ x hx hbefore
    -- an interval with the byte has the byte before it too
    obtain ⟨p, hp, hpx⟩ : ∃ p ∈ getUnsyncedIntervalsFromOtherStorageModules target other start stop [], x ∈ Set.Ioc p.1 p.2 := by
      rw [← hcopied] at hx
      exact hx
    obtain hp' | ⟨e, hmem, hle⟩ := start_of_mem_result hother hp
    · cases hp'
    · obtain ⟨q, hq, hqx⟩ := hbefore
      have hne : p.1 ≠ x - 1 := fun heq => hother.snd_notMem_points hmem (heq ▸ ⟨q, hq, hqx⟩)
      rw [← hcopied]
      exact ⟨p, hp, by have := hpx.1; omega, by have := hpx.2; omega⟩
  · intro hstarts
    have hcursor : start ∈ wanted target other start stop → start + 1 ∉ wanted target other start stop := by
      rintro ⟨-, hlow, -⟩
      exact absurd hlow (lt_irrefl _)
    obtain ⟨l, heq, hdisjoint, hmem⟩ := exists_copied [] htarget hother hstarts le_rfl hcursor
    rw [heq, List.append_nil]
    refine ⟨hdisjoint, Set.ext fun x => (hmem x).trans ?_⟩
    exact and_iff_left_of_imp fun hx => hx.2.1

end OtherModules

lemma separated_of_sorted (hlt : ∀ p ∈ t.entries, p.2 < p.1) (hsorted : t.entries.Pairwise fun p q => p.1 < q.2) :
    Separated (family t) := by
  refine ⟨hlt, fun p hp q hq hne => ?_⟩
  have hapart : t.entries.Pairwise fun p q => p.1 < q.2 ∨ q.1 < p.2 := hsorted.imp Or.inl
  have hsymm : Std.Symm fun p q : Int × Int => p.1 < q.2 ∨ q.1 < p.2 := ⟨fun _ _ => Or.symm⟩
  exact hapart.forall hp hq hne

/-- The ends and starts of the synced and of the blacklisted intervals. -/
def sampleSynced : Table := (SortedMap.empty.insert 5 0).insert 20 12

def sampleBlacklisted : Table := (SortedMap.empty.insert 8 4).insert 30 28

lemma separated_sampleSynced : Separated (family sampleSynced) := separated_of_sorted (by decide) (by decide)

lemma separated_sampleBlacklisted : Separated (family sampleBlacklisted) := separated_of_sorted (by decide) (by decide)

/-- A range that starts in a synced interval and ends in a blacklisted one. -/
theorem getUnsyncedIntervals_exact_sample :
    (getUnsyncedIntervals sampleSynced sampleBlacklisted 3 29).map OrdSet.elems = some [toLex (12, 8), toLex (28, 20)] ∧
      ∃ I, getUnsyncedIntervals sampleSynced sampleBlacklisted (3 : Nat) (29 : Nat) = some I ∧ Canonical I ∧
        points (Intervals.family I) =
          Set.Ioc ((3 : Nat) : Int) (29 : Nat) \ (points (family sampleSynced) ∪ points (family sampleBlacklisted)) :=
  ⟨by decide +kernel, (getUnsyncedIntervals_exact sampleSynced sampleBlacklisted separated_sampleSynced
    separated_sampleBlacklisted 3 29 (by decide)).1⟩

lemma fromOtherStorageModules_sampleSynced :
    getUnsyncedIntervalsFromOtherStorageModules sampleSynced ((SortedMap.empty.insert 12 5).insert 28 20) 5 30 [] =
        [(20, 28), (5, 12)] ∧
      getUnsyncedIntervalsFromOtherStorageModules sampleSynced (SortedMap.empty.insert 10 0) 0 10 [] = [(0, 10)] := by
  decide +kernel

/-- The other store has two intervals, and the target has the bytes between them. -/
theorem copiesWanted_iff_sample :
    let other : Table := (SortedMap.empty.insert 12 5).insert 28 20
    getUnsyncedIntervalsFromOtherStorageModules sampleSynced other 5 30 [] = [(20, 28), (5, 12)] ∧
      (CopiesWanted sampleSynced other 5 30 (getUnsyncedIntervalsFromOtherStorageModules sampleSynced other 5 30 []) ↔
        StartsWithWanted sampleSynced other 5 30) := by
  intro other
  exact ⟨fromOtherStorageModules_sampleSynced.1, copiesWanted_iff sampleSynced other separated_sampleSynced
    (separated_of_sorted (by decide) (by decide)) 5 30⟩

/-- An interval of the other store that starts in an interval of the target is returned with the bytes that the
target has. -/
theorem synced_bytes_are_copied :
    let other : Table := SortedMap.empty.insert 10 0
    Separated (family sampleSynced) ∧ Separated (family other) ∧
      getUnsyncedIntervalsFromOtherStorageModules sampleSynced other 0 10 [] = [(0, 10)] ∧
      ¬ CopiesWanted sampleSynced other 0 10 (getUnsyncedIntervalsFromOtherStorageModules sampleSynced other 0 10 []) := by
  intro other
  have hresult := fromOtherStorageModules_sampleSynced.2
  refine ⟨separated_sampleSynced, separated_of_sorted (by decide) (by decide), hresult, ?_⟩
  rw [hresult]
  rintro ⟨-, hcopied⟩
  have hone : (1 : Int) ∈ wanted sampleSynced other 0 10 := by
    rw [← hcopied]
    exact ⟨_, List.mem_singleton_self _, by decide, by decide⟩
  have hmem : ((5, 0) : Int × Int) ∈ sampleSynced.entries := by decide
  exact hone.1.2 ⟨(5, 0), hmem, by decide, by decide⟩

end Arweave.DataSync

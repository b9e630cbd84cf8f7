import Mathlib.Data.Set.Card
import Arweave.Intervals.EtsTable

/-!
# Queries of the tables

The walks over a table that only read it: the size of the recorded part of a range, the lowest gap
in a range, and the first interval above an offset. What is to be synced next is chosen by them. All
of them follow from what the next key says about the bytes up to it.
-/

namespace Arweave.EtsIntervals

open Lib

variable {t t' : Table} {e s e2 s2 offset limit x : Int} {p q : Int × Int}

lemma above_next (h : t.next offset = some (e2, s2)) : t.above e2 < t.above offset := by
  have hlt := SortedMap.lt_of_next h
  exact SortedMap.above_lt_above (fun b hb hk => ⟨hb, hlt.trans hk⟩) (SortedMap.mem_of_next h) hlt fun _ => lt_irrefl e2

/-- The interval is its end and its start. -/
def getNextIntervalOutside (t : Table) (offset rightBound : Int) : Option (Int × Int) :=
  if offset ≥ rightBound then none
  else
    match h : t.next offset with
    | none => some (rightBound, offset)
    | some (nextOffset, start) =>
      have _ := above_next h
      if start > offset then some (min rightBound start, offset)
      else getNextIntervalOutside t nextOffset rightBound
termination_by t.above offset

def getNextInterval (t : Table) (offset rightBound : Int) : Option (Int × Int) :=
  if offset ≥ rightBound then none
  else
    match t.next offset with
    | none => none
    | some (nextOffset, start) => if start ≥ rightBound then none else some (min nextOffset rightBound, start)

/-- There is no clause for a range without bytes. -/
def getIntersectionSize (t : Table) (e s : Int) : Option Int :=
  if e > s then
    match h : t.next s with
    | none => some 0
    | some (offset, s2) =>
      have _ := above_next h
      if offset ≥ e then
        if s2 ≥ e then some 0 else some (e - max s s2)
      else (getIntersectionSize t e offset).map fun size => offset - max s s2 + size
  else none
termination_by t.above s

/-- The caller that records what it was told is missing, until nothing is. -/
def recordOutside (offset limit : Int) : Nat → Table → Option Table
  | 0, _ => none
  | rounds + 1, t =>
    match getNextIntervalOutside t offset limit with
    | none => some t
    | some (e, s) => (add t e s).bind (recordOutside offset limit rounds)

lemma mem_points_of_next (ht : Separated (family t)) (hnext : t.next s = some (e2, s2)) (hx : s < x) (hxe : x ≤ e2) :
    x ∈ points (family t) ↔ s2 < x := by
  constructor
  · rintro ⟨p, hp, hpx, hxp⟩
    exact (snd_le_of_next ht hnext hp (hx.trans_le hxp)).trans_lt hpx
  · exact fun h => ⟨(e2, s2), SortedMap.mem_of_next hnext, h, hxe⟩

lemma notMem_points_of_next_eq_none (hnext : t.next s = none) (hx : s < x) : x ∉ points (family t) := by
  rintro ⟨p, hp, -, hxp⟩
  exact (hx.trans_le hxp).not_ge (SortedMap.le_of_next_eq_none hnext hp)

lemma succ_notMem_points (ht : Separated (family t)) (hp : (e2, s2) ∈ family t) : e2 + 1 ∉ points (family t) := by
  rintro ⟨q, hq, hqlt, hqle⟩
  have := ht.fst_lt_snd hp hq (by dsimp only; omega)
  dsimp only at *
  omega

lemma getIntersectionSize_eq (ht : Separated (family t)) (hse : s < e) {S : Finset Int}
    (hS : ∀ n, n ∈ S ↔ n ∈ points (family t) ∧ n ∈ Set.Ioc s e) : getIntersectionSize t e s = some (S.card : Int) := by
  fun_induction getIntersectionSize t e s generalizing S with
  | case1 s hgt hnext =>
    have hempty : S = ∅ := by
      ext n
      simp only [hS, Set.mem_Ioc, Finset.notMem_empty, iff_false, not_and]
      exact fun hn hns => absurd hn (notMem_points_of_next_eq_none hnext hns)
    rw [hempty, Finset.card_empty, Nat.cast_zero]
  | case2 s hgt offset s2 hnext _ hge hs2 =>
    have hempty : S = ∅ := by
      ext n
      simp only [hS, Set.mem_Ioc, Finset.notMem_empty, iff_false, not_and]
      intro hn hns hne
      have := (mem_points_of_next ht hnext hns (by omega)).mp hn
      omega
    rw [hempty, Finset.card_empty, Nat.cast_zero]
  | case3 s hgt offset s2 hnext _ hge hs2 =>
    have hIoc : S = Finset.Ioc (max s s2) e := by
      ext n
      rw [hS, Set.mem_Ioc, Finset.mem_Ioc, max_lt_iff]
      constructor
      · rintro ⟨hn, hns, hne⟩
        exact ⟨⟨hns, (mem_points_of_next ht hnext hns (by omega)).mp hn⟩, hne⟩
      · rintro ⟨⟨hns, hns2⟩, hne⟩
        exact ⟨(mem_points_of_next ht hnext hns (by omega)).mpr hns2, hns, hne⟩
    rw [hIoc, Int.card_Ioc, Int.toNat_of_nonneg (by omega)]
  | case4 s hgt offset s2 hnext _ hlt ih =>
    have hoffset : s < offset := SortedMap.lt_of_next hnext
    -- the part up to the next key and the rest
    have hsplit : S = Finset.Ioc (max s s2) offset ∪ S.filter (offset < ·) := by
      ext n
      rw [Finset.mem_union, Finset.mem_Ioc, Finset.mem_filter, hS, Set.mem_Ioc, max_lt_iff]
      constructor
      · rintro ⟨hn, hns, hne⟩
        by_cases hno : offset < n
        · exact Or.inr ⟨⟨hn, hns, hne⟩, hno⟩
        · exact Or.inl ⟨⟨hns, (mem_points_of_next ht hnext hns (by omega)).mp hn⟩, by omega⟩
      · rintro (⟨⟨hns, hns2⟩, hno⟩ | ⟨hn, -⟩)
        · exact ⟨(mem_points_of_next ht hnext hns hno).mpr hns2, hns, by omega⟩
        · exact hn
    have hdisjoint : Disjoint (Finset.Ioc (max s s2) offset) (S.filter (offset < ·)) := by
      rw [Finset.disjoint_left]
      intro n hn hn'
      exact (Finset.mem_filter.mp hn').2.not_ge (Finset.mem_Ioc.mp hn).2
    have hrest := ih (by omega) (S := S.filter (offset < ·)) fun n => by
      rw [Finset.mem_filter, hS, Set.mem_Ioc, Set.mem_Ioc]
      constructor
      · rintro ⟨⟨hn, -, hne⟩, hno⟩
        exact ⟨hn, hno, hne⟩
      · rintro ⟨hn, hno, hne⟩
        exact ⟨⟨hn, by omega, hne⟩, hno⟩
    have hs2 : s2 < offset := ht.lt _ (SortedMap.mem_of_next hnext)
    rw [hrest, Option.map_some, hsplit, Finset.card_union_of_disjoint hdisjoint, Nat.cast_add, ← hsplit, Int.card_Ioc,
      Int.toNat_of_nonneg (by omega)]
  | case5 s hgt => exact absurd hse hgt

/-- The lowest run of missing bytes above the offset, cut off at the limit. -/
structure LowestGap (t : Table) (offset limit : Int) (e s : Int) : Prop where
  le : offset ≤ s
  lt : s < e
  le_limit : e ≤ limit
  missing : ∀ n ∈ Set.Ioc s e, n ∉ points (family t)
  below : ∀ n ∈ Set.Ioc offset s, n ∈ points (family t)
  above : e < limit → e + 1 ∈ points (family t)

lemma getNextIntervalOutside_some (ht : Separated (family t)) (h : getNextIntervalOutside t offset limit = some (e, s)) :
    LowestGap t offset limit e s := by
  fun_induction getNextIntervalOutside t offset limit with
  | case1 => cases h
  | case2 offset hlt hnext =>
    cases h
    exact ⟨le_rfl, not_le.mp hlt, le_rfl, fun n hn => notMem_points_of_next_eq_none hnext hn.1,
      fun n hn => absurd hn.2 hn.1.not_ge, fun h => absurd h (lt_irrefl _)⟩
  | case3 offset hlt nextOffset start hnext _ hgt =>
    simp only [Option.some.injEq, Prod.mk.injEq] at h
    obtain ⟨rfl, rfl⟩ := h
    have hstart : start < nextOffset := ht.lt _ (SortedMap.mem_of_next hnext)
    have hmem : ∀ n, offset < n → n ≤ nextOffset → (n ∈ points (family t) ↔ start < n) := fun n =>
      mem_points_of_next ht hnext
    refine ⟨le_rfl, by omega, min_le_left _ _, fun n hn hmiss => ?_, fun n hn => absurd hn.2 hn.1.not_ge, fun h => ?_⟩
    · obtain ⟨hno, hns⟩ := hn
      have := (hmem n hno (by omega)).mp hmiss
      omega
    · exact (hmem _ (by omega) (by omega)).mpr (by omega)
  | case4 offset hlt nextOffset start hnext _ hle ih =>
    have hgap := ih h
    have hoffset : offset < nextOffset := SortedMap.lt_of_next hnext
    have hle' := hgap.le
    refine ⟨by omega, hgap.lt, hgap.le_limit, hgap.missing, fun n hn => ?_, hgap.above⟩
    obtain ⟨hn, hns⟩ := hn
    by_cases hno : n ≤ nextOffset
    · exact (mem_points_of_next ht hnext hn hno).mpr (by omega)
    · exact hgap.below n ⟨by omega, hns⟩

lemma getNextIntervalOutside_none (ht : Separated (family t)) :
    getNextIntervalOutside t offset limit = none ↔ ∀ n ∈ Set.Ioc offset limit, n ∈ points (family t) := by
  constructor
  · intro h
    fun_induction getNextIntervalOutside t offset limit with
    | case1 offset hge => exact fun n hn => absurd (hn.1.trans_le hn.2) (not_lt.mpr hge)
    | case2 => cases h
    | case3 => cases h
    | case4 offset hlt nextOffset start hnext _ hle ih =>
      rintro n ⟨hn, hnl⟩
      by_cases hno : n ≤ nextOffset
      · exact (mem_points_of_next ht hnext hn hno).mpr (by omega)
      · exact ih h n ⟨by omega, hnl⟩
  · intro h
    cases hgap : getNextIntervalOutside t offset limit with
    | none => rfl
    | some p =>
      have hlow := getNextIntervalOutside_some ht (e := p.1) (s := p.2) hgap
      have := hlow.le
      have := hlow.lt
      have := hlow.le_limit
      exact absurd (h p.1 ⟨by omega, by omega⟩) (hlow.missing p.1 ⟨by omega, le_rfl⟩)

lemma recordOutside_spec (ht : Separated (family t)) {rounds : Nat} {S : Finset Int}
    (hS : ∀ n, n ∈ S ↔ n ∈ Set.Ioc offset limit ∧ n ∉ points (family t)) (hrounds : S.card < rounds) :
    ∃ t', recordOutside offset limit rounds t = some t' ∧ Separated (family t') ∧
      getNextIntervalOutside t' offset limit = none ∧
      points (family t') = points (family t) ∪ Set.Ioc offset limit := by
  induction rounds generalizing t S with
  | zero => omega
  | succ rounds ih =>
    rw [recordOutside]
    cases hgap : getNextIntervalOutside t offset limit with
    | none =>
      exact ⟨t, rfl, ht, hgap, (Set.union_eq_self_of_subset_right ((getNextIntervalOutside_none ht).mp hgap)).symm⟩
    | some p =>
      have hlow := getNextIntervalOutside_some ht (e := p.1) (s := p.2) hgap
      have hle := hlow.le
      have hlt := hlow.lt
      have hlimit := hlow.le_limit
      obtain ⟨t1, hadd, ht1, hpts1⟩ := add_spec ht hlow.lt
      have hless : (S.filter (· ∉ Finset.Ioc p.2 p.1)).card < S.card := by
        apply Finset.card_lt_card
        refine (Finset.filter_subset _ S).ssubset_of_ne fun heq => ?_
        have hmem : p.1 ∈ S := (hS p.1).mpr ⟨⟨by omega, hlimit⟩, hlow.missing p.1 ⟨hlt, le_rfl⟩⟩
        rw [← heq, Finset.mem_filter, Finset.mem_Ioc] at hmem
        exact hmem.2 ⟨hlt, le_rfl⟩
      obtain ⟨t', hrecord, ht', hnone, hpts⟩ := ih ht1 (S := S.filter (· ∉ Finset.Ioc p.2 p.1)) (fun n => by
        rw [Finset.mem_filter, hS, hpts1, Finset.mem_Ioc, Set.mem_union, not_or, and_assoc]
        rfl) (by omega)
      refine ⟨t', ?_, ht', hnone, ?_⟩
      · dsimp only
        rw [hadd]
        exact hrecord
      · have hsubset : Set.Ioc p.2 p.1 ⊆ Set.Ioc offset limit := Set.Ioc_subset_Ioc hle hlimit
        rw [hpts, hpts1, Set.union_assoc, Set.union_eq_self_of_subset_left hsubset]

lemma getNextInterval_some (ht : Separated (family t)) (hlt : offset < limit) :
    getNextInterval t offset limit = some p ↔ ∃ e, (e, p.2) ∈ family t ∧ offset < e ∧
      (∀ q ∈ family t, offset < q.1 → e ≤ q.1) ∧ p.2 < limit ∧ p.1 = min e limit := by
  rw [getNextInterval, if_neg (not_le.mpr hlt)]
  constructor
  · intro h
    cases hnext : t.next offset with
    | none =>
      rw [hnext] at h
      cases h
    | some q =>
      rw [hnext] at h
      dsimp only at h
      split_ifs at h with hge
      cases h
      exact ⟨q.1, SortedMap.mem_of_next hnext, SortedMap.lt_of_next hnext, fun r hr => SortedMap.le_of_next hnext hr,
        not_le.mp hge, rfl⟩
  · rintro ⟨e, hmem, hoffset, hfirst, hlimit, hp⟩
    cases hnext : t.next offset with
    | none => exact absurd hoffset (SortedMap.le_of_next_eq_none hnext hmem).not_gt
    | some q =>
      have hq : q ∈ family t := SortedMap.mem_of_next hnext
      have heq : q = (e, p.2) := ht.eq_of_fst_eq hq hmem
        (le_antisymm (SortedMap.le_of_next hnext hmem hoffset) (hfirst q hq (SortedMap.lt_of_next hnext)))
      subst heq
      dsimp only
      rw [if_neg (not_le.mpr hlimit), ← hp]

lemma getNextInterval_none (ht : Separated (family t)) (hlt : offset < limit) :
    getNextInterval t offset limit = none ↔ ∀ n ∈ Set.Ioc offset limit, n ∉ points (family t) := by
  rw [getNextInterval, if_neg (not_le.mpr hlt)]
  cases hnext : t.next offset with
  | none => simpa using fun n hn _ => notMem_points_of_next_eq_none hnext hn
  | some q =>
    have hoffset : offset < q.1 := SortedMap.lt_of_next hnext
    have hq : q.2 < q.1 := ht.lt q (SortedMap.mem_of_next hnext)
    dsimp only
    split_ifs with hge
    · simp only [true_iff]
      intro n hn hmem
      obtain ⟨hno, hnl⟩ := hn
      have := (mem_points_of_next ht hnext hno (by omega)).mp hmem
      omega
    · simp only [false_iff, not_forall]
      refine ⟨max offset q.2 + 1, ⟨by omega, by omega⟩, ?_⟩
      rw [not_not]
      exact (mem_points_of_next ht hnext (by omega) (by omega)).mpr (by omega)

/-- The queries of a range of a canonical table: the number of its recorded bytes, its lowest gap, and
the part below the limit of the interval with the smallest end above the offset. Recording one gap after
another ends with the whole range recorded and nothing else. -/
theorem queries_exact (t : Table) (ht : Separated (family t)) (offset limit : Int) (hlt : offset < limit) :
    getIntersectionSize t limit offset = some ((points (family t) ∩ Set.Ioc offset limit).ncard : Int) ∧
      (∀ e s, getNextIntervalOutside t offset limit = some (e, s) → LowestGap t offset limit e s) ∧
      (getNextIntervalOutside t offset limit = none ↔ ∀ n ∈ Set.Ioc offset limit, n ∈ points (family t)) ∧
      (∀ p, getNextInterval t offset limit = some p ↔ ∃ e, (e, p.2) ∈ family t ∧ offset < e ∧
        (∀ q ∈ family t, offset < q.1 → e ≤ q.1) ∧ p.2 < limit ∧ p.1 = min e limit) ∧
      (getNextInterval t offset limit = none ↔ ∀ n ∈ Set.Ioc offset limit, n ∉ points (family t)) ∧
      ∃ rounds t', recordOutside offset limit rounds t = some t' ∧ Separated (family t') ∧
        getNextIntervalOutside t' offset limit = none ∧
        points (family t') = points (family t) ∪ Set.Ioc offset limit := by
  have hfinite : (points (family t) ∩ Set.Ioc offset limit).Finite := (Set.finite_Ioc offset limit).inter_of_right _
  have hmissing : (Set.Ioc offset limit \ points (family t)).Finite := (Set.finite_Ioc offset limit).sdiff
  refine ⟨?_, fun e s => getNextIntervalOutside_some ht, getNextIntervalOutside_none ht,
    fun p => getNextInterval_some ht hlt, getNextInterval_none ht hlt, hmissing.toFinset.card + 1, ?_⟩
  · rw [getIntersectionSize_eq ht hlt (S := hfinite.toFinset) fun n => hfinite.mem_toFinset,
      Set.ncard_eq_toFinset_card _ hfinite]
  · exact recordOutside_spec ht (fun n => hmissing.mem_toFinset) (Nat.lt_succ_self _)

/-- Bounds that meet the ends of the recorded intervals. -/
theorem queries_exact_sample :
    let t : Table := ((SortedMap.empty.insert 5 3).insert 8 6).insert 16 10
    Separated (family t) ∧ getIntersectionSize t 10 3 = some 4 ∧
      getIntersectionSize t 10 3 = some ((points (family t) ∩ Set.Ioc 3 10).ncard : Int) ∧
      LowestGap t 3 10 6 5 ∧ getNextInterval t 8 10 = none ∧ ∀ n ∈ Set.Ioc (8 : Int) 10, n ∉ points (family t) := by
  intro t
  have ht : Separated (family t) := by
    have hentries : t.entries = [(5, 3), (8, 6), (16, 10)] := by decide
    have hmem : ∀ p, p ∈ family t ↔ p = (5, 3) ∨ p = (8, 6) ∨ p = (16, 10) := fun p => by
      rw [mem_family, hentries]
      simp
    constructor
    · intro p hp
      obtain rfl | rfl | rfl := (hmem p).mp hp <;> decide
    · intro p hp q hq hne
      obtain rfl | rfl | rfl := (hmem p).mp hp <;> obtain rfl | rfl | rfl := (hmem q).mp hq <;> revert hne <;> decide
  obtain ⟨hsize, hgap, -, -, -, -⟩ := queries_exact t ht 3 10 (by decide)
  obtain ⟨-, -, -, -, hnone, -⟩ := queries_exact t ht 8 10 (by decide)
  have hnext : getNextInterval t 8 10 = none := by decide
  have hlow : getNextIntervalOutside t 3 10 = some (6, 5) := by decide +kernel
  have hcount : getIntersectionSize t 10 3 = some 4 := by decide +kernel
  exact ⟨ht, hcount, hsize, hgap 6 5 hlow, hnext, hnone.mp hnext⟩

end Arweave.EtsIntervals

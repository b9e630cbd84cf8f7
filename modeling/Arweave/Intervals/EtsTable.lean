import Arweave.Intervals.Set

/-!
# Tables of intervals

The sync record of a running node is an ordered table with an entry for every interval, whose key
is the end of the interval. The table is changed one entry at a time, around the keys that
`ets:next` returns. It has the contents of the set of intervals on which the same operations are
performed.
-/

namespace Arweave.EtsIntervals

open Lib Intervals

/-- The starts of the intervals by their ends. -/
abbrev Table := SortedMap Int Int

variable {t t' : Table} {e s e2 s2 c : Int} {p q : Int × Int}

-- The entry of a key that `ets:next` has returned is found: only one process writes to a table.

lemma above_scanned {start : Int} (h : t.next (start - 1) = some (e2, s2)) :
    t.above e2 < t.above (start - 1) := by
  have hlt := SortedMap.lt_of_next h
  refine SortedMap.above_lt_above ?_ (SortedMap.mem_of_next h) hlt fun _ => lt_irrefl e2
  exact fun b hb hk => ⟨hb, hlt.trans hk⟩

def findLargestContinuousInterval (t : Table) (e start e2 s2 : Int) (innerEnds : List Int) : Int × Int × List Int :=
  match h : t.next (start - 1) with
  | none => (e2, s2, innerEnds)
  | some (e3, s3) =>
    have _ := above_scanned h
    if s3 > e then (e2, s2, innerEnds)
    else findLargestContinuousInterval t e (e3 + 1) (max e2 e3) (min s2 s3) (e3 :: innerEnds)
termination_by t.above (start - 1)

def removeInnerIntervals : Table → List Int → Int → Table
  | t, [], _ => t
  | t, innerEnd :: innerEnds, e =>
    if innerEnd = e then removeInnerIntervals t innerEnds e
    else removeInnerIntervals (t.erase innerEnd) innerEnds e

def add (t : Table) (e s : Int) : Option Table :=
  if e > s then
    let (e2, s2, innerEnds) := findLargestContinuousInterval t e s e s []
    some (removeInnerIntervals (t.insert e2 s2) innerEnds e2)
  else none

/-- The entries are inserted one after another. -/
def insertAll (t : Table) (entries : List (Int × Int)) : Table := entries.foldl (fun t p => t.insert p.1 p.2) t

def delete (t : Table) (e s : Int) : Option Table :=
  if e > s then
    match h : t.next s with
    | none => some t
    | some (e2, s2) =>
      have _ : s < e2 := SortedMap.lt_of_next h
      if s2 ≥ e then some t
      else
        let insert := if s2 < s then [(s, s2)] else []
        let insert2 := if e2 > e then (e2, e) :: insert else insert
        let t1 := insertAll t insert2
        if e2 > e then some t1
        else
          let t2 := t1.erase e2
          if e2 < e then delete t2 e e2 else some t2
  else none
termination_by (e - s).toNat

lemma above_erase (h : t.next c = some (e, s)) : (t.erase e).above c < t.above c := by
  refine SortedMap.above_lt_above ?_ (SortedMap.mem_of_next h) (SortedMap.lt_of_next h) ?_
  · exact fun b hb hk => ⟨(SortedMap.mem_erase.mp hb).2, hk⟩
  · exact fun hmem => absurd rfl (SortedMap.mem_erase.mp hmem).1

lemma above_insert_erase (h : t.next c = some (e, s)) : ((t.insert c s).erase e).above c < t.above c := by
  refine SortedMap.above_lt_above ?_ (SortedMap.mem_of_next h) (SortedMap.lt_of_next h) ?_
  · intro b hb hk
    rcases SortedMap.mem_insert.mp (SortedMap.mem_erase.mp hb).2 with rfl | hb
    · exact absurd hk (lt_irrefl c)
    · exact ⟨hb.2, hk⟩
  · exact fun hmem => absurd rfl (SortedMap.mem_erase.mp hmem).1

def cut (t : Table) (c : Int) : Table :=
  match h : t.next c with
  | none => t
  | some (e, s) =>
    have _ := above_erase h
    have _ := above_insert_erase h
    if s < c then cut ((t.insert c s).erase e) c
    else cut (t.erase e) c
termination_by t.above c

def isInside (t : Table) (offset : Int) : Bool :=
  match t.next (offset - 1) with
  | none => false
  | some (_, s) => offset > s

/-- The interval with the byte, when there is one. -/
def getIntervalWithByte (t : Table) (offset : Int) : Option (Int × Int) :=
  match t.next (offset - 1) with
  | none => none
  | some (nextOffset, start) => if offset > start then some (nextOffset, start) else none

def initFromGbSet (t : Table) (S : IntervalSet) : Option Table :=
  S.elems.foldlM (fun t p => add t (ofLex p).1 (ofLex p).2) t

/-- The intervals of the table. -/
def family (t : Table) : Set (Int × Int) := {p | p ∈ t.entries}

@[simp] lemma mem_family : p ∈ family t ↔ p ∈ t.entries := Iff.rfl

/-- The walk of `add` absorbs the intervals that touch the added one. The ones it has passed
and not absorbed end below, the ones above that start after the added interval start after the
grown one as well. -/
lemma findLargestContinuousInterval_spec {start : Int} {innerEnds : List Int} (ht : Separated (family t))
    (habs : Absorbs (family t) e s {p | p ∈ family t ∧ p.1 ∉ innerEnds} e2 s2) (hee : e ≤ e2) (hss : s2 ≤ start)
    (hinner : ∀ x ∈ innerEnds, x < start) (hpassed : ∀ p ∈ family t, p.1 ∉ innerEnds → p.1 < start → p.1 < s2)
    (habove : ∀ p ∈ family t, start ≤ p.1 → e < p.2 → e2 < p.2) :
    ∃ e' s' inner', findLargestContinuousInterval t e start e2 s2 innerEnds = (e', s', inner') ∧
      Absorbs (family t) e s {p | p ∈ family t ∧ p.1 ∉ inner'} e' s' ∧
      ∀ p ∈ family t, p.1 ∉ inner' → p.1 < s' ∨ e' < p.2 := by
  fun_induction findLargestContinuousInterval t e start e2 s2 innerEnds with
  | case1 start e2 s2 innerEnds hnone =>
    refine ⟨_, _, _, rfl, habs, fun p hp hnot => .inl (hpassed p hp hnot ?_)⟩
    have := SortedMap.le_of_next_eq_none hnone hp
    omega
  | case2 start e2 s2 innerEnds e3 s3 hnext _ hgt =>
    refine ⟨_, _, _, rfl, habs, fun p hp hnot => ?_⟩
    by_cases hlt : p.1 < start
    · exact .inl (hpassed p hp hnot hlt)
    · right
      apply habove p hp (not_lt.mp hlt)
      have hmem : (e3, s3) ∈ family t := SortedMap.mem_of_next hnext
      rcases (SortedMap.le_of_next hnext hp (by omega)).eq_or_lt with heq | hlt'
      · rw [← ht.eq_of_fst_eq hmem hp heq]
        exact hgt
      · have hbelow := ht.fst_lt_snd hmem hp hlt'
        have hself := ht.lt _ hmem
        dsimp only at hbelow hself
        omega
  | case3 start e2 s2 innerEnds e3 s3 hnext _ hle ih =>
    have hmem : (e3, s3) ∈ family t := SortedMap.mem_of_next hnext
    have hlt : start - 1 < e3 := SortedMap.lt_of_next hnext
    have hset : {p | p ∈ family t ∧ p.1 ∉ e3 :: innerEnds} = {p | p ∈ family t ∧ p.1 ∉ innerEnds} \ {(e3, s3)} := by
      ext p
      simp only [Set.mem_ofPred_eq, Set.mem_sdiff, Set.mem_singleton_iff, List.mem_cons, not_or]
      constructor
      · rintro ⟨hp, hne, hnot⟩
        exact ⟨⟨hp, hnot⟩, fun heq => hne (heq ▸ rfl)⟩
      · rintro ⟨⟨hp, hnot⟩, hne⟩
        exact ⟨hp, fun heq => hne (ht.eq_of_fst_eq hp hmem heq), hnot⟩
    apply ih
    · rw [hset]
      refine habs.step ⟨hmem, fun hin => ?_⟩ ((not_lt.mp hle).trans hee) (by dsimp only; omega)
      have := hinner _ hin
      dsimp only at this
      omega
    · exact hee.trans (le_max_left _ _)
    · exact (min_le_left _ _).trans (by omega)
    · intro x hx
      rcases List.mem_cons.mp hx with rfl | hx
      · omega
      · have := hinner x hx
        omega
    · intro p hp hnot hlt'
      rw [List.mem_cons, not_or] at hnot
      have hstart : p.1 < start := by
        by_contra hge
        have := SortedMap.le_of_next hnext hp (by omega)
        have := hnot.1
        dsimp only at *
        omega
      exact lt_min (hpassed p hp hnot.2 hstart) (ht.fst_lt_snd hp hmem (by dsimp only; omega))
    · intro p hp hge hlt'
      exact max_lt (habove p hp (by omega) hlt') (ht.fst_lt_snd hmem hp (by dsimp only; omega))

lemma family_removeInnerIntervals {innerEnds : List Int} :
    p ∈ family (removeInnerIntervals t innerEnds e) ↔ p ∈ family t ∧ (p.1 ∉ innerEnds ∨ p.1 = e) := by
  fun_induction removeInnerIntervals t innerEnds e with
  | case1 => simp
  | case2 t innerEnds e ih =>
    rw [ih, List.mem_cons]
    tauto
  | case3 t innerEnd innerEnds e hne ih =>
    rw [ih, List.mem_cons, mem_family, SortedMap.mem_erase, mem_family]
    constructor
    · rintro ⟨⟨hp, hmem⟩, h⟩
      exact ⟨hmem, by tauto⟩
    · rintro ⟨hmem, h | rfl⟩
      · exact ⟨⟨fun heq => h (.inl heq), hmem⟩, .inl fun hin => h (.inr hin)⟩
      · exact ⟨⟨fun heq => hne heq.symm, hmem⟩, .inr rfl⟩

lemma add_spec (ht : Separated (family t)) (hlt : s < e) :
    ∃ t', add t e s = some t' ∧ Separated (family t') ∧ points (family t') = points (family t) ∪ Set.Ioc s e := by
  have hall : {p | p ∈ family t ∧ p.1 ∉ ([] : List Int)} = family t := by
    ext p
    simp
  have hstart : Absorbs (family t) e s {p | p ∈ family t ∧ p.1 ∉ ([] : List Int)} e s := by
    rw [hall]
    exact Absorbs.refl hlt
  obtain ⟨e', s', inner, hfind, habs, haway⟩ := findLargestContinuousInterval_spec ht hstart le_rfl (le_refl s) (by simp)
    (fun p hp _ hlt => hlt) fun p hp _ hlt => hlt
  refine ⟨removeInnerIntervals (t.insert e' s') inner e', ?_, ?_⟩
  · rw [add, if_pos hlt, hfind]
  · have hfamily : family (removeInnerIntervals (t.insert e' s') inner e') =
        insert (e', s') {p | p ∈ family t ∧ p.1 ∉ inner} := by
      ext p
      rw [family_removeInnerIntervals, mem_family, SortedMap.mem_insert, Set.mem_insert_iff, Set.mem_ofPred_eq,
        mem_family]
      constructor
      · rintro ⟨rfl | ⟨hne, hp⟩, h | heq⟩
        · exact .inl rfl
        · exact .inl rfl
        · exact .inr ⟨hp, h⟩
        · exact absurd heq hne
      · rintro (rfl | ⟨hp, hnot⟩)
        · exact ⟨.inl rfl, .inr rfl⟩
        · refine ⟨.inr ⟨fun heq => ?_, hp⟩, .inl hnot⟩
          -- an interval with the end of the grown one would touch it
          have h1 := habs.lt
          have h2 := ht.lt p hp
          rcases haway p hp hnot with h | h <;> omega
    rw [hfamily]
    exact habs.insert ht fun p hp => haway p hp.1 hp.2

/-- The table after the first interval above `s` has been cut down to its parts outside. -/
lemma family_parts (ht : Separated (family t)) (hp : (e2, s2) ∈ family t) (hse : s < e2) :
    let t1 := insertAll t (if e2 > e then (e2, e) :: (if s2 < s then [(s, s2)] else []) else
      if s2 < s then [(s, s2)] else [])
    family (if e2 > e then t1 else t1.erase e2) = carve (family t) (e2, s2) e s := by
  have hne : ∀ q ∈ family t, q.1 ≠ e2 ↔ q ≠ (e2, s2) := fun q hq =>
    ⟨fun h heq => h (heq ▸ rfl), fun h heq => h (ht.eq_of_fst_eq hq hp heq)⟩
  have hns : s2 < s → ∀ q ∈ family t, q.1 ≠ s := by
    intro hlt q hq heq
    have hqp := ht.eq_of_mem_Ioc hq hp (x := s) ⟨heq ▸ ht.lt q hq, heq.ge⟩ ⟨hlt, hse.le⟩
    rw [hqp] at heq
    exact hse.ne' heq
  ext q
  simp only [carve, Set.mem_ofPred_eq]
  by_cases he : e2 > e <;> by_cases hs : s2 < s <;>
    simp only [he, hs, if_true, if_false, insertAll, List.foldl_cons, List.foldl_nil, mem_family, SortedMap.mem_insert,
      SortedMap.mem_erase, and_true, and_false, or_false, false_or]
  · constructor
    · rintro (rfl | ⟨-, rfl | ⟨h, hq⟩⟩)
      · exact .inr (.inr rfl)
      · exact .inr (.inl rfl)
      · exact .inl ⟨hq, (hne q hq).mp h⟩
    · rintro (⟨hq, h⟩ | rfl | rfl)
      · exact .inr ⟨hns hs q hq, .inr ⟨(hne q hq).mpr h, hq⟩⟩
      · exact .inr ⟨hse.ne', .inl rfl⟩
      · exact .inl rfl
  · constructor
    · rintro (rfl | ⟨h, hq⟩)
      · exact .inr rfl
      · exact .inl ⟨hq, (hne q hq).mp h⟩
    · rintro (⟨hq, h⟩ | rfl)
      · exact .inr ⟨(hne q hq).mpr h, hq⟩
      · exact .inl rfl
  · constructor
    · rintro ⟨h, rfl | ⟨-, hq⟩⟩
      · exact .inr rfl
      · exact .inl ⟨hq, (hne q hq).mp h⟩
    · rintro (⟨hq, h⟩ | rfl)
      · exact ⟨(hne q hq).mpr h, .inr ⟨hns hs q hq, hq⟩⟩
      · exact ⟨hse.ne, .inl rfl⟩
  · constructor
    · rintro ⟨h, hq⟩
      exact ⟨hq, (hne q hq).mp h⟩
    · rintro ⟨hq, h⟩
      exact ⟨(hne q hq).mpr h, hq⟩

lemma notMem_Ioc_of_mem_carve (ht : Separated (family t)) (hnext : t.next s = some (e2, s2))
    (hq : q ∈ carve (family t) (e2, s2) e s) {x : Int} (hx : x ∈ Set.Ioc q.2 q.1) (hxs : s < x) (hxe : x ≤ e) :
    e2 < x := by
  have hp : (e2, s2) ∈ family t := SortedMap.mem_of_next hnext
  rcases hq with ⟨hq, hqp⟩ | ⟨rfl, -⟩ | ⟨rfl, -⟩
  · have hle : e2 ≤ q.1 := SortedMap.le_of_next hnext hq (hxs.trans_le hx.2)
    have hlt : e2 < q.1 := lt_of_le_of_ne hle fun heq => hqp (ht.eq_of_fst_eq hq hp heq.symm)
    exact (ht.fst_lt_snd hp hq hlt).trans hx.1
  · exact absurd hx.1 hxe.not_gt
  · exact absurd hx.2 hxs.not_ge

lemma snd_le_of_next (ht : Separated (family t)) (hnext : t.next s = some (e2, s2)) (hp : p ∈ family t)
    (hlt : s < p.1) : s2 ≤ p.2 := by
  have hmem : (e2, s2) ∈ family t := SortedMap.mem_of_next hnext
  rcases (SortedMap.le_of_next hnext hp hlt).eq_or_lt with heq | hlt'
  · exact (congrArg Prod.snd (ht.eq_of_fst_eq hmem hp heq)).le
  · exact ((ht.lt _ hmem).trans (ht.fst_lt_snd hmem hp hlt')).le

lemma delete_step (ht : Separated (family t)) (hnext : t.next s = some (e2, s2)) (hse : s < e) (hs2 : s2 < e) :
    let t1 := insertAll t (if e2 > e then (e2, e) :: (if s2 < s then [(s, s2)] else []) else
      if s2 < s then [(s, s2)] else [])
    family (if e2 > e then t1 else t1.erase e2) = carve (family t) (e2, s2) e s ∧
      Removes (Set.Ioc s e) (family t) (family (if e2 > e then t1 else t1.erase e2)) := by
  have hp : (e2, s2) ∈ family t := SortedMap.mem_of_next hnext
  have hlt : s < e2 := SortedMap.lt_of_next hnext
  refine ⟨family_parts ht hp hlt, ?_⟩
  rw [family_parts ht hp hlt]
  exact (Removes.refl ht).carve hp hse hs2.le hlt.le le_rfl

lemma delete_spec (ht : Separated (family t)) (hse : s < e) :
    ∃ t', delete t e s = some t' ∧ Separated (family t') ∧ points (family t') = points (family t) \ Set.Ioc s e := by
  fun_induction delete t e s with
  | case1 t s hgt hnext =>
    refine ⟨t, rfl, ht, (Removes.refl ht).points_eq fun p hp x hx hxse => ?_⟩
    exact (hxse.1.trans_le hx.2).not_ge (SortedMap.le_of_next_eq_none hnext hp)
  | case2 t s hgt e2 s2 hnext hlt hge =>
    refine ⟨t, rfl, ht, (Removes.refl ht).points_eq fun p hp x hx hxse => ?_⟩
    have hle := snd_le_of_next ht hnext hp (hxse.1.trans_le hx.2)
    exact (hx.1.trans_le hxse.2).not_ge (hge.trans hle)
  | case3 t s hgt e2 s2 hnext hlt hge insert insert2 t1 he =>
    obtain ⟨hcarve, hrem⟩ := delete_step ht hnext hse (not_le.mp hge)
    rw [if_pos he] at hcarve hrem
    refine ⟨t1, rfl, hrem.separated, hrem.points_eq fun q hq x hx hxse => ?_⟩
    have hxe2 := notMem_Ioc_of_mem_carve ht hnext (hcarve ▸ hq) hx hxse.1 hxse.2
    exact (hxe2.trans_le hxse.2).not_gt he
  | case4 t s hgt e2 s2 hnext hlt hge insert insert2 t1 he t2 he' ih =>
    obtain ⟨hcarve, hrem⟩ := delete_step ht hnext hse (not_le.mp hge)
    rw [if_neg he] at hcarve hrem
    obtain ⟨t', hdelete, ht', hpts⟩ := ih hrem.separated he'
    refine ⟨t', hdelete, ht', ?_⟩
    -- the first interval has been removed up to its end, from where the rest is removed
    rw [hpts, ← hrem.points]
    ext x
    simp only [Set.mem_sdiff, Set.mem_Ioc, not_and, not_le]
    refine and_congr_right fun ⟨q, hq, hx⟩ => ⟨fun h hxs => ?_, fun h hxe2 => h (hlt.trans hxe2)⟩
    by_contra hxe
    rw [not_lt] at hxe
    exact (h (notMem_Ioc_of_mem_carve ht hnext (hcarve ▸ hq) hx hxs hxe)).not_ge hxe
  | case5 t s hgt e2 s2 hnext hlt hge insert insert2 t1 he t2 he' =>
    obtain ⟨hcarve, hrem⟩ := delete_step ht hnext hse (not_le.mp hge)
    rw [if_neg he] at hcarve hrem
    refine ⟨t2, rfl, hrem.separated, hrem.points_eq fun q hq x hx hxse => ?_⟩
    exact he' ((notMem_Ioc_of_mem_carve ht hnext (hcarve ▸ hq) hx hxse.1 hxse.2).trans_le hxse.2)
  | case6 t s hgt => exact absurd hse hgt

lemma cut_removes {t0 : Table} (hrem : Removes (Set.Ioi c) (family t0) (family t)) :
    Separated (family (cut t c)) ∧ points (family (cut t c)) = points (family t0) \ Set.Ioi c := by
  fun_induction cut t c with
  | case1 t hnone =>
    refine ⟨hrem.separated, hrem.points_eq fun p hp x hx hxc => ?_⟩
    exact (hxc.trans_le hx.2).not_ge (SortedMap.le_of_next_eq_none hnone hp)
  | case2 t e s hnext _ _ hlt ih =>
    have hp : (e, s) ∈ family t := SortedMap.mem_of_next hnext
    have hce : c < e := SortedMap.lt_of_next hnext
    have hparts := family_parts (e := e) hrem.separated hp hce
    simp only [gt_iff_lt, lt_irrefl, if_false, hlt, if_true] at hparts
    apply ih
    change Removes _ _ (family ((insertAll t [(c, s)]).erase e))
    rw [hparts]
    exact hrem.carve hp hce (hrem.separated.lt _ hp).le hce.le fun x hx => hx.1
  | case3 t e s hnext _ _ hge ih =>
    have hp : (e, s) ∈ family t := SortedMap.mem_of_next hnext
    have hce : c < e := SortedMap.lt_of_next hnext
    have hparts := family_parts (e := e) hrem.separated hp hce
    simp only [gt_iff_lt, lt_irrefl, if_false, hge] at hparts
    apply ih
    change Removes _ _ (family ((insertAll t []).erase e))
    rw [hparts]
    exact hrem.carve hp hce (hrem.separated.lt _ hp).le hce.le fun x hx => hx.1

lemma cut_spec (ht : Separated (family t)) :
    Separated (family (cut t c)) ∧ points (family (cut t c)) = points (family t) \ Set.Ioi c :=
  cut_removes (Removes.refl ht)

lemma isInside_iff (ht : Separated (family t)) {n : Int} : isInside t n = true ↔ n ∈ points (family t) := by
  unfold isInside
  split
  · rename_i hnone
    simp only [Bool.false_eq_true, false_iff]
    rintro ⟨p, hp, -, hle⟩
    have := SortedMap.le_of_next_eq_none hnone hp
    omega
  · rename_i e s hnext
    have hlt := SortedMap.lt_of_next hnext
    rw [decide_eq_true_eq]
    constructor
    · exact fun h => ⟨(e, s), SortedMap.mem_of_next hnext, h, by dsimp only at *; omega⟩
    · rintro ⟨p, hp, hpn, hle⟩
      exact (snd_le_of_next ht hnext hp (by omega)).trans_lt hpn

lemma getIntervalWithByte_eq_some (ht : Separated (family t)) {n : Int} :
    getIntervalWithByte t n = some p ↔ p ∈ family t ∧ n ∈ Set.Ioc p.2 p.1 := by
  rw [getIntervalWithByte]
  constructor
  · intro h
    cases hnext : t.next (n - 1) with
    | none => simp [hnext] at h
    | some q =>
      have hlt := SortedMap.lt_of_next hnext
      simp only [hnext, Option.ite_none_right_eq_some, Option.some.injEq] at h
      obtain ⟨hn, rfl⟩ := h
      exact ⟨SortedMap.mem_of_next hnext, hn, by omega⟩
  · rintro ⟨hp, hn⟩
    cases hnext : t.next (n - 1) with
    | none =>
      have := SortedMap.le_of_next_eq_none hnext hp
      have := hn.2
      omega
    | some q =>
      have hlt := SortedMap.lt_of_next hnext
      have hle := SortedMap.le_of_next hnext hp (by have := hn.2; omega)
      have hq : q ∈ family t := SortedMap.mem_of_next hnext
      -- the next end is that of the interval, since an interval before it would end below the byte
      have hqp : q = p := by
        obtain heq | hlt' := hle.eq_or_lt
        · exact ht.eq_of_fst_eq hq hp heq
        · have := ht.fst_lt_snd hq hp hlt'
          have := hn.1
          omega
      subst hqp
      simp [hn.1]

lemma getIntervalWithByte_eq_none (ht : Separated (family t)) {n : Int} :
    getIntervalWithByte t n = none ↔ n ∉ points (family t) := by
  rw [← not_iff_not, not_not, ← ne_eq, Option.ne_none_iff_exists']
  simp only [getIntervalWithByte_eq_some ht]
  rfl

section Refinement

/-- The table has the intervals of the set, which is canonical. -/
structure Agrees (t : Table) (I : IntervalSet) : Prop where
  canonical : Canonical I
  family_eq : family t = Intervals.family I

variable {I : IntervalSet}

lemma Agrees.separated (h : Agrees t I) : Separated (family t) := h.family_eq ▸ h.canonical

lemma agrees_of_points_eq {J : IntervalSet} (ht : Separated (family t')) (hJ : Canonical J)
    (hpts : points (family t') = points (Intervals.family J)) : Agrees t' J :=
  ⟨hJ, ht.eq_of_points_eq hJ hpts⟩

lemma Agrees.entries_eq (h : Agrees t I) : t.entries = I.elems.map ofLex := by
  have hanti : Std.Antisymm fun a b : Int × Int => a.1 < b.1 := ⟨fun _ _ h h' => absurd h h'.asymm⟩
  have hirrefl : Std.Irrefl fun a b : Int × Int => a.1 < b.1 := ⟨fun _ => lt_irrefl _⟩
  have hsorted : (I.elems.map ofLex).Pairwise fun a b => a.1 < b.1 := by
    obtain ⟨hlt, hapart⟩ := canonical_iff.mp h.canonical
    rw [List.pairwise_map]
    exact hapart.imp_of_mem fun _ hq h1 => h1.trans (hlt _ hq)
  refine t.sorted.eq_of_mem_iff hsorted fun p => ?_
  rw [← mem_family, h.family_eq, family_eq_setOf, List.mem_map]
  rfl

/-- An operation on both. -/
inductive Op
  | add (e s : Int) (hlt : s < e)
  | delete (e s : Int) (hlt : s < e)
  | cut (c : Int)

def Op.onTable (t : Table) : Op → Option Table
  | .add e s _ => EtsIntervals.add t e s
  | .delete e s _ => EtsIntervals.delete t e s
  | .cut c => some (EtsIntervals.cut t c)

def Op.onSet (I : IntervalSet) : Op → Option IntervalSet
  | .add e s _ => Intervals.add I e s
  | .delete e s _ => Intervals.delete I e s
  | .cut c => some (Intervals.cut I c)

lemma Agrees.step (h : Agrees t I) (op : Op) :
    ∃ t' I', op.onTable t = some t' ∧ op.onSet I = some I' ∧ Agrees t' I' := by
  cases op with
  | add e s hlt =>
    obtain ⟨t', hadd, ht', hpts⟩ := add_spec h.separated hlt
    obtain ⟨I', haddI, hI', hptsI⟩ := Intervals.add_spec h.canonical hlt
    exact ⟨t', I', hadd, haddI, agrees_of_points_eq ht' hI' (by rw [hpts, hptsI, h.family_eq])⟩
  | delete e s hlt =>
    obtain ⟨t', hdelete, ht', hpts⟩ := delete_spec h.separated hlt
    obtain ⟨I', hdeleteI, hI', hptsI⟩ := Intervals.delete_spec h.canonical hlt
    exact ⟨t', I', hdelete, hdeleteI, agrees_of_points_eq ht' hI' (by rw [hpts, hptsI, h.family_eq])⟩
  | cut c =>
    obtain ⟨ht', hpts⟩ := cut_spec (c := c) h.separated
    obtain ⟨hI', hptsI⟩ := Intervals.cut_spec (c := c) h.canonical
    exact ⟨_, _, rfl, rfl, agrees_of_points_eq ht' hI' (by rw [hpts, hptsI, h.family_eq])⟩

lemma Agrees.run (h : Agrees t I) (ops : List Op) :
    ∃ t' I', ops.foldlM Op.onTable t = some t' ∧ ops.foldlM Op.onSet I = some I' ∧ Agrees t' I' := by
  induction ops generalizing t I with
  | nil => exact ⟨t, I, rfl, rfl, h⟩
  | cons op ops ih =>
    obtain ⟨t1, I1, htable, hset, h1⟩ := h.step op
    obtain ⟨t', I', htable', hset', h'⟩ := ih h1
    refine ⟨t', I', ?_, ?_, h'⟩
    · rw [List.foldlM_cons, htable]
      exact htable'
    · rw [List.foldlM_cons, hset]
      exact hset'

lemma initFromGbSet_agrees (hI : Canonical I) : ∃ t, initFromGbSet SortedMap.empty I = some t ∧ Agrees t I := by
  have hempty : family SortedMap.empty = ∅ := by
    ext p
    simp [SortedMap.empty]
  obtain ⟨t, hfold, ht, hpts⟩ := foldlM_add_spec ofLex (fun t p => add_spec) I.elems
    (fun p hp => hI.lt (ofLex p) hp) (hempty ▸ Separated.empty)
  refine ⟨t, hfold, agrees_of_points_eq ht hI ?_⟩
  rw [hpts, hempty, points_empty, Set.empty_union, family_eq_setOf]

/-- The same operations on a table that is filled from a canonical set, which may be the empty
one, and on the set leave the same intervals in both, and the same offsets are inside. -/
theorem table_refines_set (I : IntervalSet) (hI : Canonical I) (ops : List Op) :
    ∃ t I', (initFromGbSet SortedMap.empty I).bind (fun t => ops.foldlM Op.onTable t) = some t ∧
      ops.foldlM Op.onSet I = some I' ∧ t.entries = I'.elems.map ofLex ∧
      ∀ n, isInside t n = Intervals.isInside I' n := by
  obtain ⟨t0, hinit, h0⟩ := initFromGbSet_agrees hI
  obtain ⟨t, I', htable, hset, h⟩ := h0.run ops
  refine ⟨t, I', ?_, hset, h.entries_eq, fun n => ?_⟩
  · rw [hinit]
    exact htable
  · rw [Bool.eq_iff_iff, isInside_iff h.separated, Intervals.isInside_iff h.canonical, h.family_eq]

/-- The set of the tests, with a deletion, an addition and a cut. -/
theorem table_refines_set_sample :
    let I := OrdSet.ofList [toLex (1, 0), toLex (5, 3), toLex (16, 10)]
    let ops := [Op.delete 12 4 (by decide), Op.add 20 14 (by decide), Op.cut 17]
    Canonical I ∧ ∃ t I', (initFromGbSet SortedMap.empty I).bind (fun t => ops.foldlM Op.onTable t) = some t ∧
      ops.foldlM Op.onSet I = some I' ∧ t.entries = I'.elems.map ofLex ∧
      ∀ n, isInside t n = Intervals.isInside I' n :=
  have hI : Canonical (OrdSet.ofList [toLex (1, 0), toLex (5, 3), toLex (16, 10)]) := canonical_iff.mpr (by decide)
  ⟨hI, table_refines_set _ hI _⟩

end Refinement

end Arweave.EtsIntervals

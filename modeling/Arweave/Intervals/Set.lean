import Mathlib.Data.Prod.Lex
import Arweave.Lib.Intervals
import Arweave.Lib.Table

/-!
# Sets of intervals

The sets of non-overlapping intervals of the sync record. The interval `(start, end]` is the pair
`(end, start)` of an ordered set, and an operation walks the pairs of the set it was given from a
point on while it changes the set. Whatever operations a set is built with, its intervals neither
meet nor touch, and they cover the bytes that the operations stand for.
-/

namespace Arweave.Intervals

open Lib

/-- A set of intervals, as ordered pairs of end and start. -/
abbrev IntervalSet := OrdSet (Int ×ₗ Int)

/-- The pairs of the set from the given one on, in their order. -/
def iteratorFrom (p : Int × Int) (I : IntervalSet) : List (Int ×ₗ Int) := I.elems.filter (toLex p ≤ ·)

def new : IntervalSet := OrdSet.empty

def add2 : List (Int ×ₗ Int) → IntervalSet → Int → Int → IntervalSet
  | [], I, e, s => I.add (toLex (e, s))
  | p :: iter, I, e, s =>
    let (e2, s2) := ofLex p
    if e ≥ s2 ∧ s ≤ e2 then add2 iter (I.erase p) (max e e2) (min s s2)
    else I.add (toLex (e, s))

/-- Adds the bytes `s + 1`, …, `e`. The call fails on an interval without bytes. -/
def add (I : IntervalSet) (e s : Int) : Option IntervalSet :=
  if e > s then some (add2 (iteratorFrom (s - 1, s - 1) I) I e s) else none

def delete2 : List (Int ×ₗ Int) → IntervalSet → Int → Int → Option IntervalSet
  | [], I, _, _ => some I
  | p :: iter, I, e, s =>
    let (e2, s2) := ofLex p
    if e ≥ s2 ∧ s ≤ e2 then do
      let I2 := I.erase p
      -- `gb_sets:insert` fails on a pair that is there already
      let I3 ← (if e2 > e then I2.insert (toLex (e2, e)) else some I2)
      let I4 ← (if s > s2 then I3.insert (toLex (s, s2)) else some I3)
      delete2 iter I4 e s
    else some I

/-- Removes the bytes `s + 1`, …, `e`. -/
def delete (I : IntervalSet) (e s : Int) : Option IntervalSet :=
  delete2 (iteratorFrom (s - 1, s - 1) I) I e s

lemma length_erase_lt {I : IntervalSet} {p : Int ×ₗ Int} (h : I.last = some p) :
    (I.erase p).elems.length < I.elems.length := by
  rw [OrdSet.elems_erase_last h, List.length_dropLast]
  have hpos := List.length_pos_of_mem (List.mem_of_getLast? h)
  omega

/-- Removes the bytes above the cut. -/
def cut (I : IntervalSet) (c : Int) : IntervalSet :=
  match h : I.last with
  | none => I
  | some p =>
    have _ := length_erase_lt h
    let (e, s) := ofLex p
    if s ≥ c then cut (I.erase p) c
    else if e > c then (I.erase p).add (toLex (c, s))
    else I
termination_by I.elems.length

def isInside (I : IntervalSet) (n : Int) : Bool :=
  match iteratorFrom (n - 1, n - 1) I with
  | [] => false
  | p :: _ =>
    let (e, s) := ofLex p
    if e = n then true
    else if n > s then true
    else false

/-- The sum of the lengths. -/
def sum (I : IntervalSet) : Int := I.elems.foldl (fun acc p => acc + (ofLex p).1 - (ofLex p).2) 0

/-- The pairs of the smaller set are added to the larger one. -/
def union (I1 I2 : IntervalSet) : Option IntervalSet :=
  let (longer, shorter) := if I1.elems.length > I2.elems.length then (I1, I2) else (I2, I1)
  shorter.elems.foldlM (fun acc p => add acc (ofLex p).1 (ofLex p).2) longer

/-- The intervals of the set, without their order. -/
def family (I : IntervalSet) : Set (Int × Int) := {p | toLex p ∈ I}

/-- The intervals have bytes, and no two of them meet or touch. -/
def Canonical (I : IntervalSet) : Prop := Separated (family I)

variable {I J : IntervalSet} {iter : List (Int ×ₗ Int)} {e s c n : Int} {p q : Int × Int}

@[simp] lemma mem_family : p ∈ family I ↔ toLex p ∈ I := Iff.rfl

@[simp] lemma family_new : family new = ∅ := by
  ext p
  simp [new]

@[simp] lemma family_add : family (I.add (toLex p)) = insert p (family I) := by
  ext q
  simp [family]

@[simp] lemma family_erase {p : Int ×ₗ Int} : family (I.erase p) = family I \ {ofLex p} := by
  ext q
  simp [family, and_comm, ← ofLex_inj]

lemma eq_of_family_eq (h : family I = family J) : I = J := by
  apply OrdSet.ext_mem
  intro p
  exact Set.ext_iff.mp h (ofLex p)

lemma family_eq_setOf : family I = {p | ∃ q ∈ I.elems, ofLex q = p} := by
  ext p
  constructor
  · exact fun hp => ⟨toLex p, hp, rfl⟩
  · rintro ⟨q, hq, rfl⟩
    exact hq

lemma mem_iteratorFrom (hI : Canonical I) : toLex p ∈ iteratorFrom (n - 1, n - 1) I ↔ p ∈ family I ∧ n ≤ p.1 := by
  rw [iteratorFrom, List.mem_filter, OrdSet.mem_elems, mem_family, decide_eq_true_eq]
  refine and_congr_right fun hp => ?_
  have hlt := hI.lt p hp
  rw [Prod.Lex.toLex_le_toLex]
  constructor
  · rintro (h | ⟨h, h'⟩)
    · omega
    · dsimp only at h h'
      omega
  · intro h
    left
    dsimp only
    omega

lemma iteratorFrom_sorted : (iteratorFrom p I).Pairwise (· < ·) := I.sorted.filter _

lemma Canonical.fst_lt_snd_of_lt (hI : Canonical I) (hp : p ∈ family I) (hq : q ∈ family I)
    (h : toLex p < toLex q) : p.1 < q.2 := by
  apply hI.fst_lt_snd hp hq
  rcases Prod.Lex.toLex_lt_toLex.mp h with hlt | ⟨heq, hlt⟩
  · exact hlt
  · exact absurd (congrArg Prod.snd (hI.eq_of_fst_eq hp hq heq)) hlt.ne

lemma canonical_iff :
    Canonical I ↔ (∀ p ∈ I.elems, (ofLex p).2 < (ofLex p).1) ∧
      I.elems.Pairwise fun p q => (ofLex p).1 < (ofLex q).2 := by
  constructor
  · intro hI
    refine ⟨fun p hp => hI.lt (ofLex p) hp, I.sorted.imp_of_mem fun {p q} hp hq hlt => ?_⟩
    exact hI.fst_lt_snd_of_lt (p := ofLex p) (q := ofLex q) hp hq hlt
  · rintro ⟨hlt, hsorted⟩
    refine ⟨fun p hp => hlt (toLex p) hp, fun p hp q hq hne => ?_⟩
    have hapart : I.elems.Pairwise fun p q => (ofLex p).1 < (ofLex q).2 ∨ (ofLex q).1 < (ofLex p).2 :=
      hsorted.imp Or.inl
    have hsymm : Std.Symm fun p q : Int ×ₗ Int => (ofLex p).1 < (ofLex q).2 ∨ (ofLex q).1 < (ofLex p).2 :=
      ⟨fun _ _ => Or.symm⟩
    exact hapart.forall hp hq fun heq => hne (toLex_inj.mp heq)

lemma add2_cons {e2 s2 : Int} : add2 (toLex (e2, s2) :: iter) I e s =
    if e ≥ s2 ∧ s ≤ e2 then add2 iter (I.erase (toLex (e2, s2))) (max e e2) (min s s2)
    else I.add (toLex (e, s)) := rfl

/-- The walk of `add` absorbs the intervals that touch the growing one. The intervals it has
passed are below the growing one, those it has not reached do not end below it. -/
lemma add2_spec {I0 : IntervalSet} {e0 s0 : Int} (hI0 : Canonical I0)
    (habs : Absorbs (family I0) e0 s0 (family I) e s) (hiter : ∀ p ∈ iter, p ∈ I) (hsorted : iter.Pairwise (· < ·))
    (habove : ∀ p ∈ iter, s ≤ (ofLex p).1) (hbelow : ∀ p ∈ family I, toLex p ∉ iter → p.1 < s) :
    Canonical (add2 iter I e s) ∧ points (family (add2 iter I e s)) = points (family I0) ∪ Set.Ioc s0 e0 := by
  induction iter generalizing I e s with
  | nil =>
    rw [add2, Canonical, family_add]
    exact habs.insert hI0 fun q hq => .inl (hbelow q hq (by simp))
  | cons p iter ih =>
    obtain ⟨⟨e2, s2⟩, rfl⟩ := toLex.surjective p
    have hI : Canonical I := hI0.mono habs.subset
    have hp : (e2, s2) ∈ family I := hiter _ (by simp)
    have hps : s ≤ e2 := habove (toLex (e2, s2)) (by simp)
    rw [List.pairwise_cons] at hsorted
    have herase : family (I.erase (toLex (e2, s2))) = family I \ {(e2, s2)} := family_erase
    rw [add2_cons]
    split_ifs with htouch
    · apply ih (herase ▸ habs.step hp htouch.1 hps) _ hsorted.2
      · exact fun q hq => (min_le_left _ _).trans (habove q (by simp [hq]))
      · intro q hq hnot
        obtain ⟨hqI, hqp⟩ : q ∈ family I ∧ q ≠ (e2, s2) := by simpa using hq
        have hqs : q.1 < s := hbelow q hqI (by simp [hqp, hnot])
        exact lt_min hqs (hI.fst_lt_snd hqI hp (hqs.trans_le hps))
      · intro q hq
        rw [OrdSet.mem_erase]
        exact ⟨(hsorted.1 q hq).ne', hiter q (by simp [hq])⟩
    · have hlt : e < s2 := by
        by_contra hle
        exact htouch ⟨not_lt.mp hle, hps⟩
      rw [Canonical, family_add]
      apply habs.insert hI0
      intro q hq
      by_cases hmem : toLex q ∈ toLex (e2, s2) :: iter
      · right
        rcases List.mem_cons.mp hmem with heq | hlater
        · rw [toLex_inj.mp heq]
          exact hlt
        · exact (hlt.trans (hI.lt _ hp)).trans (hI.fst_lt_snd_of_lt hp hq (hsorted.1 _ hlater))
      · exact .inl (hbelow q hq hmem)

lemma add_spec (hI : Canonical I) (hlt : s < e) :
    ∃ J, add I e s = some J ∧ Canonical J ∧ points (family J) = points (family I) ∪ Set.Ioc s e := by
  refine ⟨_, if_pos hlt, add2_spec hI (Absorbs.refl hlt) ?_ iteratorFrom_sorted ?_ ?_⟩
  · exact fun p hp => (List.mem_filter.mp hp).1
  · exact fun p hp => ((mem_iteratorFrom (p := ofLex p) hI).mp hp).2
  · intro p hp hnot
    rw [mem_iteratorFrom hI] at hnot
    exact not_le.mp fun hle => hnot ⟨hp, hle⟩

lemma delete2_cons {e2 s2 : Int} : delete2 (toLex (e2, s2) :: iter) I e s =
    if e ≥ s2 ∧ s ≤ e2 then
      (if e2 > e then (I.erase (toLex (e2, s2))).insert (toLex (e2, e)) else some (I.erase (toLex (e2, s2)))).bind
        fun I3 => (if s > s2 then I3.insert (toLex (s, s2)) else some I3).bind fun I4 => delete2 iter I4 e s
    else some I := rfl

/-- The parts of an interval that `delete` keeps are not in the set before. -/
lemma insert_parts {e2 s2 : Int} (hI : Canonical I) (hp : (e2, s2) ∈ family I) (hse : s < e) (hps : s ≤ e2) :
    ∃ I3 I4, (if e2 > e then (I.erase (toLex (e2, s2))).insert (toLex (e2, e))
        else some (I.erase (toLex (e2, s2)))) = some I3 ∧
      (if s > s2 then I3.insert (toLex (s, s2)) else some I3) = some I4 ∧
      family I4 = carve (family I) (e2, s2) e s := by
  have hup : toLex (e2, e) ∉ I.erase (toLex (e2, s2)) := by
    intro hmem
    rw [OrdSet.mem_erase] at hmem
    exact hmem.1 (congrArg toLex (hI.eq_of_fst_eq hmem.2 hp rfl))
  have hdown : s2 < s → toLex (s, s2) ∉ I.erase (toLex (e2, s2)) := by
    intro hlt hmem
    rw [OrdSet.mem_erase] at hmem
    exact hmem.1 (congrArg toLex (hI.eq_of_mem_Ioc hmem.2 hp ⟨hlt, le_rfl⟩ ⟨hlt, hps⟩))
  have hdown' : s2 < s → toLex (s, s2) ∉ (I.erase (toLex (e2, s2))).add (toLex (e2, e)) := by
    intro hlt hmem
    rcases OrdSet.mem_add.mp hmem with heq | hmem
    · have hs2 : s2 = e := congrArg Prod.snd (toLex_inj.mp heq)
      omega
    · exact hdown hlt hmem
  have hfamily : ∀ q, q ∈ family I \ {(e2, s2)} ↔ q ∈ family I ∧ q ≠ (e2, s2) := fun q => Iff.rfl
  by_cases he : e2 > e <;> by_cases hs : s > s2
  · refine ⟨_, _, (if_pos he).trans (OrdSet.insert_eq_some hup), (if_pos hs).trans (OrdSet.insert_eq_some (hdown' hs)), ?_⟩
    ext q
    simp only [family_add, family_erase, ofLex_toLex, Set.mem_insert_iff, hfamily, carve, Set.mem_ofPred_eq, he, hs,
      and_true]
    tauto
  · refine ⟨_, _, (if_pos he).trans (OrdSet.insert_eq_some hup), if_neg hs, ?_⟩
    ext q
    simp only [family_add, family_erase, ofLex_toLex, Set.mem_insert_iff, hfamily, carve, Set.mem_ofPred_eq, he, hs,
      and_true, and_false, or_false]
    tauto
  · refine ⟨_, _, if_neg he, (if_pos hs).trans (OrdSet.insert_eq_some (hdown hs)), ?_⟩
    ext q
    simp only [family_add, family_erase, ofLex_toLex, Set.mem_insert_iff, hfamily, carve, Set.mem_ofPred_eq, he, hs,
      and_true, and_false, false_or]
    tauto
  · refine ⟨_, _, if_neg he, if_neg hs, ?_⟩
    ext q
    simp only [family_erase, ofLex_toLex, hfamily, carve, Set.mem_ofPred_eq, he, hs, and_false, or_false]

/-- The walk of `delete` carves the interval out of those that touch it. The intervals that the
walk is past have no byte left to remove. -/
lemma delete2_spec {I0 : IntervalSet} (hse : s < e) (hrem : Removes (Set.Ioc s e) (family I0) (family I))
    (hiter : ∀ p ∈ iter, p ∈ I) (hsorted : iter.Pairwise (· < ·)) (habove : ∀ p ∈ iter, s ≤ (ofLex p).1)
    (hpast : ∀ p ∈ family I, toLex p ∉ iter → ∀ x ∈ Set.Ioc p.2 p.1, x ∉ Set.Ioc s e) :
    ∃ J, delete2 iter I e s = some J ∧ Canonical J ∧
      points (family J) = points (family I0) \ Set.Ioc s e := by
  induction iter generalizing I with
  | nil => exact ⟨I, rfl, hrem.separated, hrem.points_eq fun p hp => hpast p hp (by simp)⟩
  | cons p iter ih =>
    obtain ⟨⟨e2, s2⟩, rfl⟩ := toLex.surjective p
    have hI : Canonical I := hrem.separated
    have hp : (e2, s2) ∈ family I := hiter _ (by simp)
    have hps : s ≤ e2 := habove (toLex (e2, s2)) (by simp)
    rw [List.pairwise_cons] at hsorted
    rw [delete2_cons]
    by_cases htouch : e ≥ s2 ∧ s ≤ e2
    · obtain ⟨I3, I4, hI3, hI4, hcarve⟩ := insert_parts hI hp hse hps
      rw [if_pos htouch, hI3, Option.bind_some, hI4, Option.bind_some]
      refine ih (hcarve ▸ hrem.carve hp hse htouch.1 hps le_rfl) ?_ hsorted.2 (fun q hq => habove q (by simp [hq])) ?_
      · intro q hq
        change ofLex q ∈ family I4
        rw [hcarve]
        exact .inl ⟨hiter q (by simp [hq]), fun heq => (hsorted.1 q hq).ne' (congrArg toLex heq)⟩
      · intro q hq hnot x hx hxse
        rw [hcarve] at hq
        rcases hq with ⟨hqI, hqp⟩ | ⟨rfl, -⟩ | ⟨rfl, -⟩
        · exact hpast q hqI (by simp [hqp, hnot]) x hx hxse
        · exact (hx.1.trans_le hxse.2).false
        · exact (hxse.1.trans_le hx.2).false
    · have hlt : e < s2 := by
        by_contra hle
        exact htouch ⟨not_lt.mp hle, hps⟩
      refine ⟨I, if_neg htouch, hI, hrem.points_eq ?_⟩
      intro q hq x hx hxse
      by_cases hmem : toLex q ∈ toLex (e2, s2) :: iter
      · have hqe : e < q.2 := by
          rcases List.mem_cons.mp hmem with heq | hlater
          · rw [toLex_inj.mp heq]
            exact hlt
          · exact (hlt.trans (hI.lt _ hp)).trans (hI.fst_lt_snd_of_lt hp hq (hsorted.1 _ hlater))
        exact (hx.1.trans_le hxse.2).asymm hqe
      · exact hpast q hq hmem x hx hxse

lemma delete_spec (hI : Canonical I) (hse : s < e) :
    ∃ J, delete I e s = some J ∧ Canonical J ∧ points (family J) = points (family I) \ Set.Ioc s e := by
  refine delete2_spec hse (Removes.refl hI) ?_ iteratorFrom_sorted ?_ ?_
  · exact fun p hp => (List.mem_filter.mp hp).1
  · exact fun p hp => ((mem_iteratorFrom (p := ofLex p) hI).mp hp).2
  · intro p hp hnot x hx hxse
    rw [mem_iteratorFrom hI] at hnot
    exact hnot ⟨hp, (hxse.1.trans_le hx.2).le⟩

lemma family_eq_empty (h : I.last = none) : family I = ∅ := by
  ext p
  rw [mem_family, ← OrdSet.mem_elems, List.getLast?_eq_none_iff.mp h]
  simp

/-- `cut` carves the bytes above the cut out of the last intervals. -/
lemma cut_removes {I0 : IntervalSet} (hrem : Removes (Set.Ioi c) (family I0) (family I)) :
    Canonical (cut I c) ∧ points (family (cut I c)) = points (family I0) \ Set.Ioi c := by
  fun_induction cut I c with
  | case1 I hlast =>
    refine ⟨hrem.separated, hrem.points_eq fun p hp => ?_⟩
    rw [family_eq_empty hlast] at hp
    exact hp.elim
  | case2 I p hlast _ e s heq hge ih =>
    have hp : (e, s) ∈ family I := heq ▸ List.mem_of_getLast? hlast
    have hlt : s < e := hrem.separated.lt _ hp
    apply ih
    have hcarve : carve (family I) (e, s) e c = family (I.erase p) := by
      ext q
      rw [family_erase, heq]
      simp [carve, not_lt.mpr hge]
    rw [← hcarve]
    exact hrem.carve hp (by omega) hlt.le (by omega) fun x hx => hx.1
  | case3 I p hlast _ e s heq hge hgt =>
    have hp : (e, s) ∈ family I := heq ▸ List.mem_of_getLast? hlast
    have hcarve : family ((I.erase p).add (toLex (c, s))) = carve (family I) (e, s) e c := by
      ext q
      rw [family_add, family_erase, heq]
      simp [carve, not_le.mp hge, or_comm]
    have hrem' := hrem.carve hp hgt (hrem.separated.lt _ hp).le hgt.le fun x hx => hx.1
    rw [← hcarve] at hrem'
    refine ⟨hrem'.separated, hrem'.points_eq ?_⟩
    intro q hq x hx hxc
    rw [hcarve] at hq
    rcases hq with ⟨hq, hqp⟩ | ⟨-, hlt⟩ | ⟨rfl, -⟩
    · have hqs : q.1 < s := by
        refine Canonical.fst_lt_snd_of_lt hrem.separated hq hp (lt_of_le_of_ne ?_ fun h => hqp (toLex_inj.mp h))
        rw [← heq]
        exact OrdSet.le_last hlast hq
      exact hge (hxc.le.trans (hx.2.trans hqs.le))
    · exact hlt.false
    · exact hx.2.not_gt hxc
  | case4 I p hlast _ e s heq hge hgt =>
    refine ⟨hrem.separated, hrem.points_eq ?_⟩
    intro q hq x hx hxc
    have hqe : q.1 ≤ e := by
      have hle : toLex q ≤ toLex (e, s) := heq ▸ OrdSet.le_last hlast hq
      rcases Prod.Lex.toLex_le_toLex.mp hle with hlt | ⟨heq, -⟩
      · exact hlt.le
      · exact heq.le
    exact hgt (hxc.trans_le (hx.2.trans hqe))

lemma cut_spec (hI : Canonical I) :
    Canonical (cut I c) ∧ points (family (cut I c)) = points (family I) \ Set.Ioi c :=
  cut_removes (Removes.refl hI)

lemma isInside_iff (hI : Canonical I) : isInside I n = true ↔ n ∈ points (family I) := by
  have hmem : ∀ q, toLex q ∈ iteratorFrom (n - 1, n - 1) I ↔ q ∈ family I ∧ n ≤ q.1 := fun q => mem_iteratorFrom hI
  unfold isInside
  cases hiter : iteratorFrom (n - 1, n - 1) I with
  | nil =>
    rw [hiter] at hmem
    simp only [Bool.false_eq_true, false_iff]
    rintro ⟨q, hq, -, hle⟩
    exact absurd ((hmem q).mpr ⟨hq, hle⟩) (by simp)
  | cons p iter =>
    obtain ⟨⟨e, s⟩, rfl⟩ := toLex.surjective p
    rw [hiter] at hmem
    obtain ⟨hp, hle⟩ := (hmem (e, s)).mp (by simp)
    have hlt := hI.lt _ hp
    have hinside : n ∈ points (family I) ↔ s < n := by
      constructor
      · rintro ⟨q, hq, hqlt, hqle⟩
        -- an interval after the first one starts above its end
        rcases List.mem_cons.mp ((hmem q).mpr ⟨hq, hqle⟩) with heq | hlater
        · rw [toLex_inj.mp heq] at hqlt
          exact hqlt
        · have hsorted := iteratorFrom_sorted (I := I) (p := (n - 1, n - 1))
          rw [hiter, List.pairwise_cons] at hsorted
          have := hI.fst_lt_snd_of_lt hp hq (hsorted.1 _ hlater)
          dsimp only at hle this
          omega
      · exact fun h => ⟨_, hp, h, hle⟩
    change (if e = n then true else if n > s then true else false) = true ↔ _
    rw [hinside]
    dsimp only at hlt
    split_ifs with h1 h2
    · simp only [true_iff]
      omega
    · simpa using h2
    · simpa using h2

lemma sum_eq : sum I = (I.elems.map fun p => (ofLex p).1 - (ofLex p).2).sum := by
  have hgen : ∀ (l : List (Int ×ₗ Int)) (acc : Int), l.foldl (fun acc p => acc + (ofLex p).1 - (ofLex p).2) acc =
      acc + (l.map fun p => (ofLex p).1 - (ofLex p).2).sum := by
    intro l
    induction l with
    | nil => simp
    | cons p l ih =>
      intro acc
      rw [List.foldl_cons, ih, List.map_cons, List.sum_cons]
      omega
  rw [sum, hgen, zero_add]

lemma sum_eq_card (hI : Canonical I) {S : Finset Int} (hS : ∀ n, n ∈ S ↔ n ∈ points (family I)) :
    sum I = S.card := by
  have hfamily : {p | p ∈ I.elems.map ofLex} = family I := by
    rw [family_eq_setOf]
    ext p
    exact List.mem_map
  rw [card_eq_sum (l := I.elems.map ofLex) (by rwa [hfamily]) (I.nodup.map ofLex.injective) (by rwa [hfamily]),
    sum_eq, List.map_map]
  rfl

lemma union_spec (hI : Canonical I) (hJ : Canonical J) :
    ∃ U, union I J = some U ∧ Canonical U ∧ points (family U) = points (family I) ∪ points (family J) := by
  have hadd : ∀ (I : IntervalSet) (p : Int ×ₗ Int), Separated (family I) → (ofLex p).2 < (ofLex p).1 → _ :=
    fun I p => add_spec
  unfold union
  split_ifs
  · rw [family_eq_setOf (I := J)]
    exact foldlM_add_spec ofLex hadd J.elems (fun p hp => hJ.lt (ofLex p) hp) hI
  · rw [family_eq_setOf (I := I), Set.union_comm]
    exact foldlM_add_spec ofLex hadd I.elems (fun p hp => hI.lt (ofLex p) hp) hJ

/-- How a set of intervals is built. -/
inductive History
  | new
  | add (h : History) (e s : Int) (hlt : s < e)
  | delete (h : History) (e s : Int) (hlt : s < e)
  | cut (h : History) (c : Int)
  | union (h1 h2 : History)

/-- The set that the operations return. -/
def History.eval : History → Option IntervalSet
  | .new => some Intervals.new
  | .add h e s _ => do Intervals.add (← h.eval) e s
  | .delete h e s _ => do Intervals.delete (← h.eval) e s
  | .cut h c => do pure (Intervals.cut (← h.eval) c)
  | .union h1 h2 => do Intervals.union (← h1.eval) (← h2.eval)

/-- The bytes of the interval `(s, e]`. -/
abbrev intervalBytes (s e : Int) : Finset Int := @Finset.Ioc Int Int.instLinearOrder.toPreorder _ s e

/-- The bytes that the operations stand for. -/
def History.bytes : History → Finset Int
  | .new => ∅
  | .add h e s _ => h.bytes ∪ intervalBytes s e
  | .delete h e s _ => h.bytes \ intervalBytes s e
  | .cut h c => h.bytes.filter (· ≤ c)
  | .union h1 h2 => h1.bytes ∪ h2.bytes

lemma History.eval_spec (h : History) :
    ∃ I, h.eval = some I ∧ Canonical I ∧ points (family I) = h.bytes := by
  induction h with
  | new => exact ⟨Intervals.new, rfl, by rw [Canonical, family_new]; exact Separated.empty, by simp [bytes]⟩
  | add h e s hlt ih =>
    obtain ⟨I, heval, hI, hpts⟩ := ih
    obtain ⟨J, hadd, hJ, hptsJ⟩ := add_spec hI hlt
    exact ⟨J, by rw [eval, heval]; exact hadd, hJ, by simp [hptsJ, hpts, bytes]⟩
  | delete h e s hlt ih =>
    obtain ⟨I, heval, hI, hpts⟩ := ih
    obtain ⟨J, hdelete, hJ, hptsJ⟩ := delete_spec hI hlt
    exact ⟨J, by rw [eval, heval]; exact hdelete, hJ, by simp [hptsJ, hpts, bytes]⟩
  | cut h c ih =>
    obtain ⟨I, heval, hI, hpts⟩ := ih
    obtain ⟨hJ, hptsJ⟩ := cut_spec (c := c) hI
    refine ⟨Intervals.cut I c, by rw [eval, heval]; rfl, hJ, ?_⟩
    ext n
    simp [hptsJ, hpts, bytes]
  | union h1 h2 ih1 ih2 =>
    obtain ⟨I, heval1, hI, hpts1⟩ := ih1
    obtain ⟨J, heval2, hJ, hpts2⟩ := ih2
    obtain ⟨U, hunion, hU, hptsU⟩ := union_spec hI hJ
    exact ⟨U, by rw [eval, heval1, heval2]; exact hunion, hU, by simp [hptsU, hpts1, hpts2, bytes]⟩

/-- Whatever operations a set is built with, none of them fails, its pairs are sorted intervals
that neither meet nor touch, they cover exactly the bytes that the operations stand for, and the
queries answer for these bytes. -/
theorem intervals_denote (h : History) :
    ∃ I, h.eval = some I ∧
      (∀ p ∈ I, (ofLex p).2 < (ofLex p).1) ∧
      I.elems.Pairwise (fun p q => (ofLex p).1 < (ofLex q).2) ∧
      (∀ n, n ∈ h.bytes ↔ ∃ p ∈ I, (ofLex p).2 < n ∧ n ≤ (ofLex p).1) ∧
      (∀ n, isInside I n = true ↔ n ∈ h.bytes) ∧
      sum I = h.bytes.card := by
  obtain ⟨I, heval, hI, hpts⟩ := h.eval_spec
  have hbytes : ∀ n, n ∈ h.bytes ↔ n ∈ points (family I) := fun n => by rw [hpts, Finset.mem_coe]
  obtain ⟨hlt, hapart⟩ := canonical_iff.mp hI
  refine ⟨I, heval, hlt, hapart, hbytes, fun n => ?_, sum_eq_card hI hbytes⟩
  rw [isInside_iff hI, hbytes]

end Arweave.Intervals

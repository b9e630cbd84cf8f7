import Mathlib.Data.Int.ConditionallyCompleteOrder
import Mathlib.Data.Int.Interval
import Mathlib.Order.CompletePartialOrder
import Mathlib.Order.ConditionallyCompleteLattice.Basic
import Mathlib.Algebra.BigOperators.Ring.Finset

/-!
# Families of intervals

An interval `(lo, hi]` of a linear order is the pair `(hi, lo)`. In a separated family the
intervals are not empty and no two of them meet or touch, so the family is determined by the
points it covers. An interval is added by absorbing, one after another, the members that touch
it, and points are removed by carving them out of one member after another. The common points of
two families are those of the common parts of their intervals.
-/

namespace Arweave.Lib

open Set

variable {α : Type*} [LinearOrder α]

structure Separated (I : Set (α × α)) : Prop where
  lt : ∀ p ∈ I, p.2 < p.1
  apart : ∀ p ∈ I, ∀ q ∈ I, p ≠ q → p.1 < q.2 ∨ q.1 < p.2

/-- The points in some interval of the family. -/
def points (I : Set (α × α)) : Set α := {x | ∃ p ∈ I, x ∈ Ioc p.2 p.1}

variable {I J : Set (α × α)} {K : Set α} {p q : α × α} {e s e' s' x : α}

lemma mem_points : x ∈ points I ↔ ∃ p ∈ I, p.2 < x ∧ x ≤ p.1 := Iff.rfl

@[simp] lemma points_empty : points (∅ : Set (α × α)) = ∅ := by
  ext x
  simp [mem_points]

@[simp] lemma points_insert : points (insert p I) = Ioc p.2 p.1 ∪ points I := by
  ext x
  simp [mem_points]

lemma points_eq_of_mem (hp : p ∈ I) : points I = Ioc p.2 p.1 ∪ points (I \ {p}) := by
  rw [← points_insert, insert_sdiff_singleton, insert_eq_of_mem hp]

namespace Separated

lemma empty : Separated (∅ : Set (α × α)) := ⟨fun _ h => h.elim, fun _ h => h.elim⟩

lemma mono (hI : Separated I) (h : J ⊆ I) : Separated J :=
  ⟨fun p hp => hI.lt p (h hp), fun p hp q hq => hI.apart p (h hp) q (h hq)⟩

lemma insert (hI : Separated I) (hlt : p.2 < p.1) (haway : ∀ q ∈ I, q.1 < p.2 ∨ p.1 < q.2) :
    Separated (insert p I) := by
  constructor
  · rintro q (rfl | hq)
    · exact hlt
    · exact hI.lt q hq
  · rintro q (rfl | hq) r (rfl | hr) hne
    · exact absurd rfl hne
    · exact (haway r hr).symm
    · exact haway q hq
    · exact hI.apart q hq r hr hne

lemma eq_of_mem_Ioc (hI : Separated I) (hp : p ∈ I) (hq : q ∈ I) (hxp : x ∈ Ioc p.2 p.1)
    (hxq : x ∈ Ioc q.2 q.1) : p = q := by
  by_contra hne
  rcases hI.apart p hp q hq hne with h | h
  · exact (hxp.2.trans_lt (h.trans hxq.1)).false
  · exact (hxq.2.trans_lt (h.trans hxp.1)).false

lemma eq_of_fst_eq (hI : Separated I) (hp : p ∈ I) (hq : q ∈ I) (h : p.1 = q.1) : p = q :=
  hI.eq_of_mem_Ioc hp hq ⟨hI.lt p hp, le_rfl⟩ ⟨h ▸ hI.lt q hq, h.le⟩

lemma fst_lt_snd (hI : Separated I) (hp : p ∈ I) (hq : q ∈ I) (h : p.1 < q.1) : p.1 < q.2 := by
  rcases hI.apart p hp q hq (fun heq => h.ne (heq ▸ rfl)) with hlt | hlt
  · exact hlt
  · exact absurd (hlt.trans (hI.lt p hp)) h.asymm

lemma snd_notMem_points (hI : Separated I) (hp : p ∈ I) : p.2 ∉ points I := by
  rintro ⟨q, hq, hlt, hle⟩
  by_cases hqp : q = p
  · exact (hqp ▸ hlt).false
  · rcases hI.apart q hq p hp hqp with h | h
    · exact (hle.trans_lt h).false
    · exact (hlt.trans (hI.lt p hp)).asymm h

lemma fst_le_of_points_eq (hI : Separated I) (hJ : Separated J) (hpts : points I = points J) (hp : p ∈ I)
    (hq : q ∈ J) (hlt : q.2 < p.1) : q.1 ≤ p.1 := by
  by_contra hnot
  have hgt : p.1 < q.1 := not_le.mp hnot
  obtain ⟨r, hr, hrlt, hrle⟩ : q.1 ∈ points I := hpts ▸ ⟨q, hq, hJ.lt q hq, le_rfl⟩
  have hpr : p.1 < r.2 := hI.fst_lt_snd hp hr (hgt.trans_le hrle)
  apply hI.snd_notMem_points hr
  rw [hpts]
  exact ⟨q, hq, hlt.trans hpr, hrlt.le⟩

lemma snd_le_of_points_eq (hJ : Separated J) (hpts : points I = points J) (hp : p ∈ I)
    (hq : q ∈ J) (h : p.1 = q.1) : q.2 ≤ p.2 := by
  by_contra hnot
  apply hJ.snd_notMem_points hq
  rw [← hpts]
  exact ⟨p, hp, not_le.mp hnot, h ▸ (hJ.lt q hq).le⟩

lemma mem_of_points_eq (hI : Separated I) (hJ : Separated J) (hpts : points I = points J) (hp : p ∈ I) : p ∈ J := by
  obtain ⟨q, hq, hlt, hle⟩ : p.1 ∈ points J := hpts ▸ ⟨p, hp, hI.lt p hp, le_rfl⟩
  have hend : p.1 = q.1 := hle.antisymm (hI.fst_le_of_points_eq hJ hpts hp hq hlt)
  have hstart : p.2 = q.2 := (hI.snd_le_of_points_eq hpts.symm hq hp hend.symm).antisymm
    (hJ.snd_le_of_points_eq hpts hp hq hend)
  rwa [show p = q from Prod.ext hend hstart]

lemma eq_of_points_eq (hI : Separated I) (hJ : Separated J) (hpts : points I = points J) : I = J :=
  Subset.antisymm (fun _ => hI.mem_of_points_eq hJ hpts) fun _ => hJ.mem_of_points_eq hI hpts.symm

end Separated

/-- What is left of the family `I` and the interval `(s', e']`, into which the interval `(s, e]`
has grown, cover together what `I` and `(s, e]` do. -/
structure Absorbs (I : Set (α × α)) (e s : α) (J : Set (α × α)) (e' s' : α) : Prop where
  subset : J ⊆ I
  lt : s' < e'
  points : Lib.points J ∪ Ioc s' e' = Lib.points I ∪ Ioc s e

lemma Absorbs.refl (h : s < e) : Absorbs I e s I e s := ⟨Subset.rfl, h, rfl⟩

lemma Absorbs.step (h : Absorbs I e s J e' s') (hp : p ∈ J) (hpe : p.2 ≤ e') (hps : s' ≤ p.1) :
    Absorbs I e s (J \ {p}) (max e' p.1) (min s' p.2) := by
  refine ⟨sdiff_subset.trans h.subset, ?_, ?_⟩
  · exact (min_le_left _ _).trans_lt (h.lt.trans_le (le_max_left _ _))
  · rw [← h.points, points_eq_of_mem hp, ← Ioc_union_Ioc' hpe hps, union_comm (Ioc s' e'), ← union_assoc,
      union_comm (Lib.points _)]

lemma Absorbs.insert (h : Absorbs I e s J e' s') (hI : Separated I) (haway : ∀ q ∈ J, q.1 < s' ∨ e' < q.2) :
    Separated (insert (e', s') J) ∧ Lib.points (insert (e', s') J) = Lib.points I ∪ Ioc s e := by
  refine ⟨(hI.mono h.subset).insert h.lt haway, ?_⟩
  rw [points_insert, union_comm]
  exact h.points

section Adding

variable {σ ι : Type*} {add : σ → ι → Option σ} {family : σ → Set (α × α)} {interval : ι → α × α} {t : σ}

variable (interval) in
lemma foldlM_add_spec
    (hadd : ∀ t i, Separated (family t) → (interval i).2 < (interval i).1 →
      ∃ t', add t i = some t' ∧ Separated (family t') ∧
        points (family t') = points (family t) ∪ Ioc (interval i).2 (interval i).1)
    (l : List ι) (hl : ∀ i ∈ l, (interval i).2 < (interval i).1) (ht : Separated (family t)) :
    ∃ t', l.foldlM add t = some t' ∧ Separated (family t') ∧
      points (family t') = points (family t) ∪ points {p | ∃ i ∈ l, interval i = p} := by
  induction l generalizing t with
  | nil => exact ⟨t, rfl, ht, by simp [points]⟩
  | cons i l ih =>
    obtain ⟨t1, hadd1, ht1, hpts1⟩ := hadd t i ht (hl i (by simp))
    obtain ⟨t', hfold, ht', hpts⟩ := ih (fun j hj => hl j (by simp [hj])) ht1
    refine ⟨t', ?_, ht', ?_⟩
    · rw [List.foldlM_cons, hadd1]
      exact hfold
    · have hcons : {p | ∃ j ∈ i :: l, interval j = p} = insert (interval i) {p | ∃ j ∈ l, interval j = p} := by
        ext p
        simp [eq_comm]
      rw [hpts, hpts1, hcons, points_insert, union_assoc]

end Adding

/-- The family without the points of `(s, e]` in its interval `p`. -/
def carve (J : Set (α × α)) (p : α × α) (e s : α) : Set (α × α) :=
  {q | q ∈ J ∧ q ≠ p ∨ q = (p.1, e) ∧ e < p.1 ∨ q = (s, p.2) ∧ p.2 < s}

/-- The family `J` covers what `I` does outside `K`. -/
structure Removes (K : Set α) (I J : Set (α × α)) : Prop where
  separated : Separated J
  points : Lib.points J \ K = Lib.points I \ K

lemma Removes.refl (hI : Separated I) : Removes K I I := ⟨hI, rfl⟩

lemma carve_lt (hJ : Separated J) : ∀ q ∈ carve J p e s, q.2 < q.1 := by
  rintro q (⟨hq, -⟩ | ⟨rfl, hlt⟩ | ⟨rfl, hlt⟩)
  · exact hJ.lt q hq
  · exact hlt
  · exact hlt

lemma carve_apart (hJ : Separated J) (hp : p ∈ J) (hse : s < e) (hpe : p.2 ≤ e) (hps : s ≤ p.1) :
    ∀ q ∈ carve J p e s, ∀ r ∈ carve J p e s, q ≠ r → q.1 < r.2 ∨ r.1 < q.2 := by
  have haway : ∀ q ∈ J, q ≠ p → q.1 < p.2 ∨ p.1 < q.2 := fun q hq hne => hJ.apart q hq p hp hne
  rintro q (⟨hq, hqp⟩ | ⟨rfl, hqe⟩ | ⟨rfl, hqs⟩) r (⟨hr, hrp⟩ | ⟨rfl, hre⟩ | ⟨rfl, hrs⟩) hne
  · exact hJ.apart q hq r hr hne
  · exact (haway q hq hqp).imp_left fun h => h.trans_le hpe
  · exact (haway q hq hqp).imp_right fun h => hps.trans_lt h
  · exact ((haway r hr hrp).imp_left fun h => h.trans_le hpe).symm
  · exact absurd rfl hne
  · exact .inr hse
  · exact ((haway r hr hrp).imp_right fun h => hps.trans_lt h).symm
  · exact .inl hse
  · exact absurd rfl hne

lemma Separated.carve (hJ : Separated J) (hp : p ∈ J) (hse : s < e) (hpe : p.2 ≤ e) (hps : s ≤ p.1) :
    Separated (carve J p e s) :=
  ⟨carve_lt hJ, carve_apart hJ hp hse hpe hps⟩

lemma points_carve_subset (hp : p ∈ J) (hpe : p.2 ≤ e) (hps : s ≤ p.1) : points (carve J p e s) ⊆ points J := by
  rintro x ⟨q, ⟨hq, -⟩ | ⟨rfl, hqe⟩ | ⟨rfl, hqs⟩, hlt, hle⟩
  · exact ⟨q, hq, hlt, hle⟩
  · exact ⟨p, hp, hpe.trans_lt hlt, hle⟩
  · exact ⟨p, hp, hlt, hle.trans hps⟩

lemma mem_points_carve (hx : x ∈ points J) (hout : x ∉ Ioc s e) : x ∈ points (carve J p e s) := by
  obtain ⟨q, hq, hlt, hle⟩ := hx
  by_cases hqp : q = p
  · subst hqp
    rcases not_and_or.mp hout with hs | he
    · exact ⟨(s, q.2), .inr (.inr ⟨rfl, hlt.trans_le (not_lt.mp hs)⟩), hlt, not_lt.mp hs⟩
    · exact ⟨(q.1, e), .inr (.inl ⟨rfl, (not_le.mp he).trans_le hle⟩), not_le.mp he, hle⟩
  · exact ⟨q, .inl ⟨hq, hqp⟩, hlt, hle⟩

lemma Removes.carve (h : Removes K I J) (hp : p ∈ J) (hse : s < e) (hpe : p.2 ≤ e) (hps : s ≤ p.1)
    (hK : Ioc s e ⊆ K) : Removes K I (carve J p e s) := by
  refine ⟨h.separated.carve hp hse hpe hps, ?_⟩
  rw [← h.points]
  apply Subset.antisymm
  · exact sdiff_subset_sdiff_left (points_carve_subset hp hpe hps)
  · rintro x ⟨hx, hxK⟩
    exact ⟨mem_points_carve hx fun hse => hxK (hK hse), hxK⟩

lemma Removes.points_eq (h : Removes K I J) (hdone : ∀ p ∈ J, ∀ x ∈ Ioc p.2 p.1, x ∉ K) :
    Lib.points J = Lib.points I \ K := by
  rw [← h.points, eq_comm, sdiff_eq_left, disjoint_left]
  rintro x ⟨p, hp, hx⟩
  exact hdone p hp x hx

/-- The common parts of the intervals of two families. -/
def meets (I J : Set (α × α)) : Set (α × α) :=
  {r | ∃ p ∈ I, ∃ q ∈ J, r = (min p.1 q.1, max p.2 q.2) ∧ r.2 < r.1}

lemma meets_comm : meets I J = meets J I := by
  ext r
  constructor
  · rintro ⟨p, hp, q, hq, rfl, hlt⟩
    exact ⟨q, hq, p, hp, by rw [min_comm, max_comm], hlt⟩
  · rintro ⟨p, hp, q, hq, rfl, hlt⟩
    exact ⟨q, hq, p, hp, by rw [min_comm, max_comm], hlt⟩

lemma meets_insert_of_le (h : ∀ q ∈ J, p.1 ≤ q.2) : meets (insert p I) J = meets I J := by
  ext r
  constructor
  · rintro ⟨p', rfl | hp, q, hq, rfl, hlt⟩
    · exact absurd hlt ((min_le_left _ _).trans ((h q hq).trans (le_max_right _ _))).not_gt
    · exact ⟨p', hp, q, hq, rfl, hlt⟩
  · rintro ⟨p', hp, hr⟩
    exact ⟨p', Or.inr hp, hr⟩

lemma meets_insert_insert (hle : p.1 ≤ q.1) (hlt : max p.2 q.2 < p.1) (h : ∀ q' ∈ J, p.1 ≤ q'.2) :
    meets (insert p I) (insert q J) = insert (p.1, max p.2 q.2) (meets I (insert q J)) := by
  ext r
  constructor
  · rintro ⟨p', rfl | hp, q', rfl | hq, rfl, hlt'⟩
    · exact Or.inl (by rw [min_eq_left hle])
    · exact absurd hlt' ((min_le_left _ _).trans ((h q' hq).trans (le_max_right _ _))).not_gt
    · exact Or.inr ⟨p', hp, q', Or.inl rfl, rfl, hlt'⟩
    · exact Or.inr ⟨p', hp, q', Or.inr hq, rfl, hlt'⟩
  · rintro (rfl | ⟨p', hp, hr⟩)
    · exact ⟨p, Or.inl rfl, q, Or.inl rfl, by rw [min_eq_left hle], hlt⟩
    · exact ⟨p', Or.inr hp, hr⟩

lemma points_meets : points (meets I J) = points I ∩ points J := by
  ext x
  constructor
  · rintro ⟨r, ⟨p, hp, q, hq, rfl, -⟩, hlt, hle⟩
    exact ⟨⟨p, hp, (le_max_left _ _).trans_lt hlt, hle.trans (min_le_left _ _)⟩,
      q, hq, (le_max_right _ _).trans_lt hlt, hle.trans (min_le_right _ _)⟩
  · rintro ⟨⟨p, hp, hlt, hle⟩, q, hq, hlt', hle'⟩
    have hstart : max p.2 q.2 < x := max_lt hlt hlt'
    have hend : x ≤ min p.1 q.1 := le_min hle hle'
    exact ⟨_, ⟨p, hp, q, hq, rfl, hstart.trans_le hend⟩, hstart, hend⟩

lemma Separated.meets (hI : Separated I) (hJ : Separated J) : Separated (meets I J) := by
  constructor
  · rintro r ⟨p, hp, q, hq, -, hlt⟩
    exact hlt
  · rintro r ⟨p, hp, q, hq, rfl, -⟩ r' ⟨p', hp', q', hq', rfl, -⟩ hne
    by_cases heq : p = p'
    · have hqq : q ≠ q' := by
        rintro rfl
        exact hne (by rw [heq])
      exact (hJ.apart q hq q' hq' hqq).imp (fun h => (min_le_right _ _).trans_lt (h.trans_le (le_max_right _ _)))
        fun h => (min_le_right _ _).trans_lt (h.trans_le (le_max_right _ _))
    · exact (hI.apart p hp p' hp' heq).imp (fun h => (min_le_left _ _).trans_lt (h.trans_le (le_max_left _ _)))
        fun h => (min_le_left _ _).trans_lt (h.trans_le (le_max_left _ _))

lemma gap_insert (hle : s ≤ p.2) (hlt : p.2 < p.1) (habove : ∀ q ∈ I, p.1 < q.2) :
    Ioi s \ points (insert p I) = Ioc s p.2 ∪ (Ioi p.1 \ points I) := by
  ext x
  simp only [points_insert, mem_sdiff, mem_union, mem_Ioi, mem_Ioc, not_or, not_and, not_le]
  constructor
  · rintro ⟨hx, hout, hI⟩
    by_cases hxp : x ≤ p.2
    · exact Or.inl ⟨hx, hxp⟩
    · exact Or.inr ⟨hout (not_le.mp hxp), hI⟩
  · rintro (⟨hx, hxp⟩ | ⟨hx, hI⟩)
    · refine ⟨hx, fun h => absurd h hxp.not_gt, ?_⟩
      rintro ⟨q, hq, hqx, -⟩
      exact ((habove q hq).trans hqx).not_ge (hxp.trans hlt.le)
    · exact ⟨hle.trans_lt (hlt.trans hx), fun _ => hx, hI⟩

section Tiling

variable {ends : Set ℤ} {size n : ℤ} {T : Set (ℤ × ℤ)} {a : ℤ × ℤ}

/-- The points of the intervals are those of pieces of one size that do not overlap. -/
structure Tiled (ends : Set ℤ) (size : ℤ) (T : Set (ℤ × ℤ)) : Prop where
  apart : ∀ n ∈ ends, ∀ m ∈ ends, n < m → n + size ≤ m
  points_eq : points T = {x | ∃ n ∈ ends, x ∈ Ioc (n - size) n}

lemma Tiled.snd_le (h : Tiled ends size T) (hT : Separated T) (ha : a ∈ T) (hn : n ∈ ends) (hlt : a.2 < n) :
    a.2 + size ≤ n := by
  by_contra hshort
  refine hT.snd_notMem_points ha ?_
  rw [h.points_eq]
  exact ⟨n, hn, by omega, hlt.le⟩

lemma Tiled.le_fst {x : ℤ} (h : Tiled ends size T) (hT : Separated T) (ha : a ∈ T) (hn : n ∈ ends)
    (hx : x ∈ Ioc (n - size) n) (hxa : x ∈ Ioc a.2 a.1) : n ≤ a.1 := by
  by_contra hlong
  have hnext : a.1 + 1 ∈ points T := by
    rw [h.points_eq]
    exact ⟨n, hn, by have := hx.1; have := hxa.2; omega, by omega⟩
  obtain ⟨b, hb, hlo, hhi⟩ := hnext
  have := hT.fst_lt_snd ha hb (by omega)
  omega

lemma Tiled.dvd_sub (h : Tiled ends size T) (hT : Separated T) (hsize : 0 < size) (ha : a ∈ T) (hn : n ∈ ends)
    (hlt : a.2 < n) (hle : n ≤ a.1) : size ∣ n - a.2 := by
  induction hlen : (n - a.2).toNat using Nat.strong_induction_on generalizing n with
  | _ len ih =>
    have hstart := h.snd_le hT ha hn hlt
    obtain hfirst | hlater := hstart.eq_or_lt
    · exact ⟨1, by omega⟩
    · -- the point before the piece belongs to the piece before it
      have hbefore : n - size ∈ points T := ⟨a, ha, by omega, by omega⟩
      rw [h.points_eq] at hbefore
      obtain ⟨m, hm, hmn, hnm⟩ := hbefore
      have hapart := h.apart m hm n hn (by omega)
      have hadjacent : m = n - size := by omega
      obtain ⟨k, hk⟩ := ih (m - a.2).toNat (by omega) hm (by omega) (by omega) rfl
      exact ⟨k + 1, by rw [mul_add, ← hk]; omega⟩

end Tiling

lemma card_eq_sum {l : List (ℤ × ℤ)} (hsep : Separated {p | p ∈ l}) (hnodup : l.Nodup) {S : Finset ℤ}
    (hS : ∀ n, n ∈ S ↔ n ∈ points {p | p ∈ l}) : (S.card : ℤ) = (l.map fun p => p.1 - p.2).sum := by
  have hunion : S = l.toFinset.biUnion fun p => Finset.Ioc p.2 p.1 := by
    ext n
    simp [hS, mem_points]
  have hdisj : (l.toFinset : Set (ℤ × ℤ)).PairwiseDisjoint fun p => Finset.Ioc p.2 p.1 := by
    intro p hp q hq hne
    rw [Function.onFun, Finset.disjoint_left]
    intro n hnp hnq
    exact hne (hsep.eq_of_mem_Ioc (by simpa using hp) (by simpa using hq) (by simpa using hnp) (by simpa using hnq))
  rw [hunion, Finset.card_biUnion hdisj, Nat.cast_sum, ← List.sum_toFinset _ hnodup]
  apply Finset.sum_congr rfl
  intro p hp
  have hlt := hsep.lt p (by simpa using hp)
  rw [Int.card_Ioc, Int.toNat_of_nonneg (by omega)]

end Arweave.Lib

import Arweave.Intervals.Set

/-!
# Joins of sets of intervals

The intersection of two sets walks the intervals of both from below. The inverse of a set ends in an
interval without end, so the ends are ordered terms: numbers and an atom above them all. The outer join
is made of the two.
-/

namespace Arweave.Intervals

open Lib

section Code

variable {α : Type*} [LinearOrder α]

def intersectionFrom : List (α ×ₗ α) → List (α ×ₗ α) → OrdSet (α ×ₗ α) → OrdSet (α ×ₗ α)
  | [], _, G => G
  | _, [], G => G
  | p :: iter1, q :: iter2, G =>
    let (e1, s1) := ofLex p
    let (e2, s2) := ofLex q
    if s2 ≥ e1 then intersectionFrom iter1 (q :: iter2) G
    else if s1 ≥ e2 then intersectionFrom (p :: iter1) iter2 G
    else if e2 ≥ e1 then intersectionFrom iter1 (q :: iter2) (G.add (toLex (e1, max s1 s2)))
    else intersectionFrom (p :: iter1) iter2 (G.add (toLex (e2, max s1 s2)))
termination_by l1 l2 => l1.length + l2.length

/-- The iterators start at the smaller of the two first starts, after all intervals that end there. -/
def intersection (I1 I2 : OrdSet (α ×ₗ α)) : OrdSet (α ×ₗ α) :=
  match I1.smallest, I2.smallest with
  | some p, some q =>
    let start := min (ofLex p).2 (ofLex q).2
    intersectionFrom (I1.elems.filter fun p => start < (ofLex p).1) (I2.elems.filter fun p => start < (ofLex p).1) OrdSet.empty
  | _, _ => OrdSet.empty

def inverseFrom [OrderTop α] : List (α ×ₗ α) → α → OrdSet (α ×ₗ α) → OrdSet (α ×ₗ α)
  | [], l, G => G.add (toLex (⊤, l))
  | [p], l, G =>
    let (e1, s1) := ofLex p
    let G2 := if s1 > l then G.add (toLex (s1, l)) else G
    G2.add (toLex (⊤, e1))
  | p :: q :: iter, l, G =>
    let (e1, s1) := ofLex p
    let (e2, s2) := ofLex q
    let G2 := if s1 > l then G.add (toLex (s1, l)) else G
    inverseFrom iter e2 (G2.add (toLex (s2, e1)))

/-- The points from zero on outside the set. -/
def inverse [OrderTop α] (zero : α) (I : OrdSet (α ×ₗ α)) : OrdSet (α ×ₗ α) := inverseFrom I.elems zero OrdSet.empty

/-- A number or the atom `infinity`. -/
abbrev Term := WithTop Int

def terms (I : IntervalSet) : OrdSet (Term ×ₗ Term) :=
  OrdSet.ofList (I.elems.map fun p => toLex (((ofLex p).1 : Term), ((ofLex p).2 : Term)))

/-- The intervals between numbers. -/
def offsets (I : OrdSet (Term ×ₗ Term)) : IntervalSet :=
  OrdSet.ofList (I.elems.filterMap fun p =>
    match (ofLex p).1, (ofLex p).2 with
    | some e, some s => some (toLex (e, s))
    | _, _ => none)

/-- The points of the second set that are not in the first. -/
def outerjoin (I1 I2 : IntervalSet) : IntervalSet :=
  offsets (intersection (inverse (0 : Int) (intersection (terms I1) (terms I2))) (terms I2))

end Code

section Families

variable {α : Type*} [LinearOrder α] {I J G : OrdSet (α ×ₗ α)} {l l1 l2 : List (α ×ₗ α)} {p q r : α × α} {a : α}

/-- The intervals of a set, without their order. -/
def pairs (I : OrdSet (α ×ₗ α)) : Set (α × α) := {p | toLex p ∈ I}

/-- Intervals one above the other. -/
structure Rising (l : List (α ×ₗ α)) : Prop where
  lt : ∀ p ∈ l, (ofLex p).2 < (ofLex p).1
  above : l.Pairwise fun p q => (ofLex p).1 < (ofLex q).2

@[simp] lemma mem_pairs : p ∈ pairs I ↔ toLex p ∈ I := Iff.rfl

@[simp] lemma pairs_add : pairs (I.add (toLex p)) = insert p (pairs I) := by
  ext q
  simp [pairs]

@[simp] lemma pairs_empty : pairs (OrdSet.empty : OrdSet (α ×ₗ α)) = ∅ := by
  ext p
  simp

lemma Rising.tail {p : α ×ₗ α} (h : Rising (p :: l)) : Rising l :=
  ⟨fun q hq => h.lt q (List.mem_cons_of_mem _ hq), (List.pairwise_cons.mp h.above).2⟩

lemma Rising.le_of_mem {p q : α ×ₗ α} (h : Rising (p :: l)) (hq : q ∈ p :: l) : (ofLex p).2 ≤ (ofLex q).2 := by
  obtain rfl | hq := List.mem_cons.mp hq
  · exact le_rfl
  · exact (h.lt p List.mem_cons_self).le.trans ((List.pairwise_cons.mp h.above).1 q hq).le

lemma rising_elems (h : Separated (pairs I)) : Rising I.elems := by
  refine ⟨fun p hp => h.lt (ofLex p) hp, I.sorted.imp_of_mem fun {p q} hp hq hlt => ?_⟩
  refine h.fst_lt_snd hp hq ?_
  obtain hlt' | ⟨heq, hlt'⟩ := Prod.Lex.lt_iff.mp hlt
  · exact hlt'
  · exact absurd (congrArg Prod.snd (h.eq_of_fst_eq (p := ofLex p) (q := ofLex q) hp hq heq)) hlt'.ne

end Families

section Intersection

variable {α : Type*} [LinearOrder α] {I J G : OrdSet (α ×ₗ α)} {l l1 l2 : List (α ×ₗ α)} {p q r : α × α}

omit [LinearOrder α] in
lemma setOf_mem_cons {p : α ×ₗ α} : {r : α × α | toLex r ∈ p :: l} = insert (ofLex p) {r | toLex r ∈ l} := by
  ext r
  change toLex r ∈ p :: l ↔ r = ofLex p ∨ toLex r ∈ l
  rw [List.mem_cons]
  rfl

/-- The walk adds the common parts of the intervals that it has before it. -/
lemma pairs_intersectionFrom (h1 : Rising l1) (h2 : Rising l2) :
    pairs (intersectionFrom l1 l2 G) = pairs G ∪ meets {p | toLex p ∈ l1} {q | toLex q ∈ l2} := by
  fun_induction intersectionFrom l1 l2 G with
  | case1 l2 G => simp [meets]
  | case2 l1 G hne => simp [meets]
  | case3 p iter1 q iter2 G e1 s1 hp e2 s2 hq hge ih =>
    rw [ih h1.tail h2, setOf_mem_cons (l := iter1), meets_insert_of_le]
    intro r hr
    have hle := h2.le_of_mem hr
    rw [hq] at hle
    rw [hp]
    exact hge.le.trans hle
  | case4 p iter1 q iter2 G e1 s1 hp e2 s2 hq hlt hge ih =>
    rw [ih h1 h2.tail, setOf_mem_cons (l := iter2), meets_comm, meets_comm (J := insert _ _), meets_insert_of_le]
    intro r hr
    have hle := h1.le_of_mem hr
    rw [hp] at hle
    rw [hq]
    exact hge.le.trans hle
  | case5 p iter1 q iter2 G e1 s1 hp e2 s2 hq hlt hlt' hge ih =>
    have habove := (List.pairwise_cons.mp h2.above).1
    rw [ih h1.tail h2, pairs_add, setOf_mem_cons (l := iter1), setOf_mem_cons (l := iter2), meets_insert_insert, hp, hq]
    · rw [Set.insert_union, Set.union_insert]
    · rw [hp, hq]
      exact hge
    · have := h1.lt p List.mem_cons_self
      rw [hp] at this
      rw [hp, hq]
      exact max_lt this (not_le.mp hlt)
    · intro r hr
      have := habove (toLex r) hr
      rw [hq] at this
      rw [hp]
      exact (hge.le.trans_lt this).le
  | case6 p iter1 q iter2 G e1 s1 hp e2 s2 hq hlt hlt' hlt'' ih =>
    have habove := (List.pairwise_cons.mp h1.above).1
    have hge := not_le.mp hlt''
    rw [ih h1 h2.tail, pairs_add, setOf_mem_cons (l := iter1), setOf_mem_cons (l := iter2), meets_comm,
      meets_comm (J := insert (ofLex q) _), meets_insert_insert, hp, hq, max_comm]
    · rw [Set.insert_union, Set.union_insert]
    · rw [hp, hq]
      exact hge.le
    · have := h2.lt q List.mem_cons_self
      rw [hq] at this
      rw [hp, hq]
      exact max_lt this (not_le.mp hlt')
    · intro r hr
      have := habove (toLex r) hr
      rw [hp] at this
      rw [hq]
      exact (hge.trans this).le

lemma pairs_eq_setOf : pairs I = {p | toLex p ∈ I.elems} := rfl

lemma elems_eq_nil (h : I.smallest = none) : pairs I = ∅ := by
  rw [pairs_eq_setOf, List.head?_eq_none_iff.mp h]
  simp

lemma filter_elems {first : α ×ₗ α} (hI : Separated (pairs I)) (hfirst : I.smallest = some first)
    (ha : a ≤ (ofLex first).2) : I.elems.filter (fun p => a < (ofLex p).1) = I.elems := by
  rw [List.filter_eq_self]
  intro p hp
  obtain ⟨rest, hrest⟩ := List.head?_eq_some_iff.mp hfirst
  have hrising := rising_elems hI
  have hlt := hrising.lt p hp
  rw [hrest] at hrising hp
  rw [decide_eq_true_eq]
  exact (ha.trans (hrising.le_of_mem hp)).trans_lt hlt

lemma pairs_intersection (hI : Separated (pairs I)) (hJ : Separated (pairs J)) :
    pairs (intersection I J) = meets (pairs I) (pairs J) := by
  rw [intersection]
  split
  · next p q hp hq =>
    dsimp only
    rw [filter_elems hI hp (min_le_left _ _), filter_elems hJ hq (min_le_right _ _),
      pairs_intersectionFrom (rising_elems hI) (rising_elems hJ), pairs_empty, Set.empty_union]
    rfl
  · next hnone =>
    rw [pairs_empty]
    cases hp : I.smallest with
    | none => simp [elems_eq_nil hp, meets]
    | some p =>
      cases hq : J.smallest with
      | none => simp [elems_eq_nil hq, meets]
      | some q => exact absurd hq (hnone p q hp)

lemma intersection_spec (hI : Separated (pairs I)) (hJ : Separated (pairs J)) :
    Separated (pairs (intersection I J)) ∧ points (pairs (intersection I J)) = points (pairs I) ∩ points (pairs J) := by
  rw [pairs_intersection hI hJ]
  exact ⟨hI.meets hJ, points_meets⟩

end Intersection

section Inverse

variable {α : Type*} [LinearOrder α] [OrderTop α] {I G : OrdSet (α ×ₗ α)} {l : List (α ×ₗ α)} {a : α}

omit [OrderTop α] in
lemma add_gap {p : α ×ₗ α} (hG : Separated (pairs G)) (hbelow : ∀ q ∈ pairs G, q.1 < a) (hle : a ≤ (ofLex p).2)
    (hlt : (ofLex p).2 < (ofLex p).1) :
    let G2 := if (ofLex p).2 > a then G.add (toLex ((ofLex p).2, a)) else G
    Separated (pairs G2) ∧ (∀ q ∈ pairs G2, q.1 < (ofLex p).1) ∧
      points (pairs G2) = points (pairs G) ∪ Set.Ioc a (ofLex p).2 := by
  dsimp only
  split_ifs with hgap
  · rw [pairs_add]
    refine ⟨hG.insert hgap fun q hq => Or.inl (hbelow q hq), ?_, ?_⟩
    · rintro q (rfl | hq)
      · exact hlt
      · exact (hbelow q hq).trans_le (hle.trans hlt.le)
    · rw [points_insert, Set.union_comm]
  · refine ⟨hG, fun q hq => (hbelow q hq).trans_le (hle.trans hlt.le), ?_⟩
    rw [Set.Ioc_eq_empty hgap, Set.union_empty]

/-- The walk adds the gaps above a point between the intervals before it. The gaps found so far end below
the point. -/
lemma inverseFrom_spec (hl : Rising l) (hle : ∀ p ∈ l, a ≤ (ofLex p).2) (htop : ∀ p ∈ l, (ofLex p).1 < ⊤) (ha : a < ⊤)
    (hG : Separated (pairs G)) (hbelow : ∀ q ∈ pairs G, q.1 < a) :
    Separated (pairs (inverseFrom l a G)) ∧
      points (pairs (inverseFrom l a G)) = points (pairs G) ∪ (Set.Ioi a \ points {p | toLex p ∈ l}) := by
  fun_induction inverseFrom l a G with
  | case1 a G =>
    rw [pairs_add]
    refine ⟨hG.insert ha fun q hq => Or.inl (hbelow q hq), ?_⟩
    rw [points_insert, Set.union_comm]
    simp
  | case2 p a G e1 s1 hp G2 =>
    obtain ⟨hG2, hbelow2, hpts2⟩ := add_gap hG hbelow (hle p List.mem_cons_self) (hl.lt p List.mem_cons_self)
    have htop1 := htop p List.mem_cons_self
    have hgap := gap_insert (I := ∅) (hle p List.mem_cons_self) (hl.lt p List.mem_cons_self) (by simp)
    have hnil : {r : α × α | toLex r ∈ ([] : List (α ×ₗ α))} = ∅ := by simp
    rw [setOf_mem_cons, hnil, hgap]
    rw [hp] at hG2 hbelow2 hpts2 htop1 ⊢
    rw [pairs_add]
    refine ⟨hG2.insert htop1 fun q hq => Or.inl (hbelow2 q hq), ?_⟩
    rw [points_insert, hpts2, Set.union_comm, Set.union_assoc, points_empty, Set.sdiff_empty]
    change _ ∪ (_ ∪ Set.Ioc e1 ⊤) = _
    rw [Set.Ioc_top]
  | case3 p q iter a G e1 s1 hp e2 s2 hq G2 ih =>
    have hlp := hl.lt p List.mem_cons_self
    have hlq := hl.lt q (List.mem_cons_of_mem _ List.mem_cons_self)
    have habovep := (List.pairwise_cons.mp hl.above).1
    have haboveq := (List.pairwise_cons.mp hl.tail.above).1
    have hpq := habovep q List.mem_cons_self
    obtain ⟨hG2, hbelow2, hpts2⟩ := add_gap hG hbelow (hle p List.mem_cons_self) hlp
    have hgapp := gap_insert (I := {r | toLex r ∈ q :: iter}) (hle p List.mem_cons_self) hlp fun r hr => habovep _ hr
    have hgapq := gap_insert (I := {r | toLex r ∈ iter}) hpq.le hlq fun r hr => haboveq _ hr
    rw [setOf_mem_cons, hgapp, setOf_mem_cons, hgapq]
    have htopq := htop q (List.mem_cons_of_mem _ List.mem_cons_self)
    rw [hq] at htopq hlq haboveq hpq ⊢
    rw [hp] at hG2 hbelow2 hpts2 hpq ⊢
    obtain ⟨hsep, hpts⟩ := ih hl.tail.tail (fun r hr => (haboveq r hr).le)
      (fun r hr => htop r (List.mem_cons_of_mem _ (List.mem_cons_of_mem _ hr))) htopq
      (by
        rw [pairs_add]
        exact hG2.insert hpq fun r hr => Or.inl (hbelow2 r hr))
      (by
        rw [pairs_add]
        rintro r (rfl | hr)
        · exact hlq
        · exact (hbelow2 r hr).trans (hpq.trans hlq))
    refine ⟨hsep, ?_⟩
    rw [hpts, pairs_add, points_insert, hpts2, Set.union_comm (Set.Ioc e1 s2), Set.union_assoc, Set.union_assoc]

lemma inverse_spec {zero : α} (hI : Separated (pairs I)) (hzero : ∀ p ∈ pairs I, zero ≤ p.2) (htop : ∀ p ∈ pairs I, p.1 < ⊤)
    (hpos : zero < ⊤) :
    Separated (pairs (inverse zero I)) ∧ points (pairs (inverse zero I)) = Set.Ioi zero \ points (pairs I) := by
  have h := inverseFrom_spec (rising_elems hI) (fun p hp => hzero (ofLex p) hp) (fun p hp => htop (ofLex p) hp) hpos
    (G := OrdSet.empty) (by rw [pairs_empty]; exact Separated.empty) (by simp)
  rw [pairs_empty, points_empty, Set.empty_union] at h
  exact h

end Inverse

section Terms

variable {I I1 I2 : IntervalSet} {J : OrdSet (Term ×ₗ Term)} {p : Int × Int} {q : Term × Term} {n : Int}

lemma mem_terms : q ∈ pairs (terms I) ↔ ∃ p ∈ family I, q = (↑p.1, ↑p.2) := by
  rw [mem_pairs, terms, OrdSet.mem_ofList, List.mem_map]
  constructor
  · rintro ⟨p, hp, heq⟩
    exact ⟨ofLex p, hp, (toLex_inj.mp heq).symm⟩
  · rintro ⟨p, hp, rfl⟩
    exact ⟨toLex p, hp, rfl⟩

lemma mem_offsets : p ∈ family (offsets J) ↔ ((p.1 : Term), (p.2 : Term)) ∈ pairs J := by
  rw [mem_family, offsets, OrdSet.mem_ofList, List.mem_filterMap]
  constructor
  · rintro ⟨q, hq, heq⟩
    split at heq
    · next e s he hs =>
      cases heq
      rw [mem_pairs, ← OrdSet.mem_elems]
      convert hq
      exact toLex_inj.mpr (Prod.ext he.symm hs.symm)
    · cases heq
  · intro hp
    exact ⟨_, hp, rfl⟩

lemma separated_terms (hI : Canonical I) : Separated (pairs (terms I)) := by
  constructor
  · intro q hq
    obtain ⟨p, hp, rfl⟩ := mem_terms.mp hq
    exact WithTop.coe_lt_coe.mpr (hI.lt p hp)
  · intro q hq q' hq' hne
    obtain ⟨p, hp, rfl⟩ := mem_terms.mp hq
    obtain ⟨p', hp', rfl⟩ := mem_terms.mp hq'
    have hpp : p ≠ p' := by
      rintro rfl
      exact hne rfl
    exact (hI.apart p hp p' hp' hpp).imp WithTop.coe_lt_coe.mpr WithTop.coe_lt_coe.mpr

lemma mem_points_terms : (n : Term) ∈ points (pairs (terms I)) ↔ n ∈ points (family I) := by
  constructor
  · rintro ⟨q, hq, hlt, hle⟩
    obtain ⟨p, hp, rfl⟩ := mem_terms.mp hq
    exact ⟨p, hp, WithTop.coe_lt_coe.mp hlt, WithTop.coe_le_coe.mp hle⟩
  · rintro ⟨p, hp, hlt, hle⟩
    exact ⟨_, mem_terms.mpr ⟨p, hp, rfl⟩, WithTop.coe_lt_coe.mpr hlt, WithTop.coe_le_coe.mpr hle⟩

lemma offsets_spec (hJ : Separated (pairs J)) (hfin : ∀ q ∈ pairs J, q.1 < ⊤) :
    Canonical (offsets J) ∧ ∀ n : Int, n ∈ points (family (offsets J)) ↔ (n : Term) ∈ points (pairs J) := by
  refine ⟨⟨fun p hp => WithTop.coe_lt_coe.mp (hJ.lt _ (mem_offsets.mp hp)), ?_⟩, fun n => ⟨?_, ?_⟩⟩
  · intro p hp p' hp' hne
    have hne' : ((p.1 : Term), (p.2 : Term)) ≠ (↑p'.1, ↑p'.2) := by
      intro heq
      obtain ⟨he, hs⟩ := Prod.mk.inj heq
      exact hne (Prod.ext (WithTop.coe_inj.mp he) (WithTop.coe_inj.mp hs))
    exact (hJ.apart _ (mem_offsets.mp hp) _ (mem_offsets.mp hp') hne').imp WithTop.coe_lt_coe.mp WithTop.coe_lt_coe.mp
  · rintro ⟨p, hp, hlt, hle⟩
    exact ⟨_, mem_offsets.mp hp, WithTop.coe_lt_coe.mpr hlt, WithTop.coe_le_coe.mpr hle⟩
  · rintro ⟨⟨e, s⟩, hq, hlt, hle⟩
    have he : e ≠ ⊤ := (hfin _ hq).ne
    have hs : s ≠ ⊤ := ((hJ.lt _ hq).trans (hfin _ hq)).ne
    lift e to Int using he
    lift s to Int using hs
    exact ⟨(e, s), mem_offsets.mpr hq, WithTop.coe_lt_coe.mp hlt, WithTop.coe_le_coe.mp hle⟩

lemma outerjoin_spec (h1 : Canonical I1) (h2 : Canonical I2) (hpos : ∀ p ∈ family I2, 0 ≤ p.2) :
    Canonical (outerjoin I1 I2) ∧ points (family (outerjoin I1 I2)) = points (family I2) \ points (family I1) := by
  have hs1 := separated_terms h1
  have hs2 := separated_terms h2
  obtain ⟨hcommon, hcommonpts⟩ := intersection_spec hs1 hs2
  have hbounds : ∀ r ∈ pairs (intersection (terms I1) (terms I2)), ((0 : Int) : Term) ≤ r.2 ∧ r.1 < ⊤ := by
    intro r hr
    rw [pairs_intersection hs1 hs2] at hr
    obtain ⟨q, -, q', hq', rfl, -⟩ := hr
    obtain ⟨p, hp, rfl⟩ := mem_terms.mp hq'
    exact ⟨(WithTop.coe_le_coe.mpr (hpos p hp)).trans (le_max_right _ _),
      (min_le_right _ _).trans_lt (WithTop.coe_lt_top _)⟩
  obtain ⟨hinv, hinvpts⟩ := inverse_spec hcommon (fun r hr => (hbounds r hr).1) (fun r hr => (hbounds r hr).2)
    (WithTop.coe_lt_top 0)
  obtain ⟨hsep, hpts⟩ := intersection_spec hinv hs2
  have hfin : ∀ r ∈ pairs (intersection (inverse ((0 : Int) : Term) (intersection (terms I1) (terms I2))) (terms I2)),
      r.1 < ⊤ := by
    intro r hr
    rw [pairs_intersection hinv hs2] at hr
    obtain ⟨q, -, q', hq', rfl, -⟩ := hr
    obtain ⟨p, -, rfl⟩ := mem_terms.mp hq'
    exact (min_le_right _ _).trans_lt (WithTop.coe_lt_top _)
  obtain ⟨hcan, hmem⟩ := offsets_spec hsep hfin
  refine ⟨hcan, ?_⟩
  ext n
  rw [outerjoin, hmem, hpts, hinvpts, hcommonpts, Set.mem_inter_iff, Set.mem_sdiff, Set.mem_inter_iff, mem_points_terms,
    mem_points_terms, Set.mem_sdiff]
  constructor
  · rintro ⟨⟨-, hn1⟩, hn2⟩
    exact ⟨hn2, fun h => hn1 ⟨h, hn2⟩⟩
  · rintro ⟨hn2, hn1⟩
    obtain ⟨p, hp, hlt, -⟩ := id hn2
    exact ⟨⟨WithTop.coe_lt_coe.mpr ((hpos p hp).trans_lt hlt), fun h => hn1 h.1⟩, hn2⟩

end Terms

/-- Of two canonical sets, the intersection and the outer join are canonical and divide the second set
into what the first one covers and what it does not. -/
theorem joins_divide (I1 I2 : IntervalSet) (h1 : Canonical I1) (h2 : Canonical I2) (hpos : ∀ p ∈ family I2, 0 ≤ p.2) :
    Canonical (intersection I1 I2) ∧ Canonical (outerjoin I1 I2) ∧
      points (family (intersection I1 I2)) = points (family I1) ∩ points (family I2) ∧
      points (family (outerjoin I1 I2)) = points (family I2) \ points (family I1) ∧
      intersection I1 I2 = intersection I2 I1 ∧
      points (family (intersection I1 I2)) ∪ points (family (outerjoin I1 I2)) = points (family I2) ∧
      Disjoint (points (family (intersection I1 I2))) (points (family (outerjoin I1 I2))) := by
  obtain ⟨hinter, hinterpts⟩ : Canonical (intersection I1 I2) ∧
      points (family (intersection I1 I2)) = points (family I1) ∩ points (family I2) := intersection_spec h1 h2
  obtain ⟨hinter', hinterpts'⟩ : Canonical (intersection I2 I1) ∧
      points (family (intersection I2 I1)) = points (family I2) ∩ points (family I1) := intersection_spec h2 h1
  obtain ⟨houter, houterpts⟩ := outerjoin_spec h1 h2 hpos
  refine ⟨hinter, houter, hinterpts, houterpts, ?_, ?_, ?_⟩
  · apply eq_of_family_eq
    apply hinter.eq_of_points_eq hinter'
    rw [hinterpts, hinterpts', Set.inter_comm]
  · rw [hinterpts, houterpts, Set.inter_comm, Set.inter_union_sdiff]
  · rw [hinterpts, houterpts]
    exact Set.disjoint_left.mpr fun n hn hn' => hn'.2 hn.1

/-- Intervals that touch those of the other set. -/
theorem joins_divide_touching :
    let I1 : IntervalSet := OrdSet.ofList [toLex (5, 2), toLex (9, 7)]
    let I2 : IntervalSet := OrdSet.ofList [toLex (2, 0), toLex (7, 3), toLex (20, 9)]
    (outerjoin I1 I2).elems = [toLex (2, 0), toLex (7, 5), toLex (20, 9)] ∧ Canonical (intersection I1 I2) ∧
      points (family (intersection I1 I2)) ∪ points (family (outerjoin I1 I2)) = points (family I2) := by
  intro I1 I2
  have h1 : Canonical I1 := canonical_iff.mpr (by decide)
  have h2 : Canonical I2 := canonical_iff.mpr (by decide)
  have hpos : ∀ p ∈ I2.elems, 0 ≤ (ofLex p).2 := by decide
  obtain ⟨hinter, -, -, -, -, hunion, -⟩ := joins_divide I1 I2 h1 h2 fun p hp => hpos (toLex p) hp
  exact ⟨by decide +kernel, hinter, hunion⟩

/-- Terms below infinity are left as they are. -/
example : (outerjoin ⟨[toLex (5, 2)], by simp⟩ ⟨[toLex (4, 0), toLex (9, 4)], by decide⟩).elems = [toLex (2, 0), toLex (9, 5)] := by
  decide +kernel

end Arweave.Intervals

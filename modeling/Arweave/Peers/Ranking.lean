import Arweave.Lib.Groups
import Arweave.Peers.Ratings

/-!
# The ranking of the peers

The peers are ranked by their scores, but so that the best peer of every subnet comes first, then the second best one
of every subnet, and so on. The scores are exact rationals.
-/

namespace Arweave.Peers

open Lib

abbrev Scored := Peer × ℚ

/-- The first two bytes of the address. -/
abbrev Subnet := Nat ×ₗ Nat

def subnet (p : Scored) : Subnet := toLex (p.1.1.1, p.1.1.2.1)

/-- `maps:fold` goes through a map in any order. -/
structure FoldOrder where
  order : List (Subnet × List Scored) → List (Subnet × List Scored)
  perm : ∀ l, (order l).Perm l

/-- `lists:sort/2` with the greater score first. Equal scores keep their order. -/
def sortByScore {S : Type} [LinearOrder S] (l : List (Peer × S)) : List (Peer × S) :=
  l.insertionSort fun x y => y.2 ≤ x.2

/-- A negated number comes before the score, so that the smaller numbers are sorted first. -/
def numberPeer : Nat × List (Peer × (ℤ ×ₗ ℚ)) → Scored → Nat × List (Peer × (ℤ ×ₗ ℚ))
  | (n, acc), (peer, score) => (n + 1, (peer, toLex (-(n : ℤ), score)) :: acc)

def numberSubnet (acc : List (Peer × (ℤ ×ₗ ℚ))) (subnetPeers : List Scored) : List (Peer × (ℤ ×ₗ ℚ)) :=
  (subnetPeers.foldl numberPeer (0, acc)).2

def rankPeers (fold : FoldOrder) (scoredPeers : List Scored) : List Peer :=
  let sortedReversed := (sortByScore scoredPeers).reverse
  let groupedBySubnet := SortedMap.groupBy subnet sortedReversed
  let scoredSubnetPeers := (fold.order groupedBySubnet.entries).foldl (fun acc e => numberSubnet acc e.2) []
  (sortByScore scoredSubnetPeers).map Prod.fst

section Sorting

variable {S : Type} [LinearOrder S] {l : List (Peer × S)}

lemma sortByScore_perm (l : List (Peer × S)) : (sortByScore l).Perm l := List.perm_insertionSort _ l

lemma sortByScore_descending (l : List (Peer × S)) : (sortByScore l).Pairwise fun x y => y.2 ≤ x.2 := by
  have : Std.Total fun x y : Peer × S => y.2 ≤ x.2 := ⟨fun x y => le_total y.2 x.2⟩
  have : IsTrans (Peer × S) fun x y => y.2 ≤ x.2 := ⟨fun x y z hxy hyz => hyz.trans hxy⟩
  exact List.pairwise_insertionSort _ l

end Sorting

section Numbers

variable {scored g : List Scored} {acc : List (Peer × (ℤ ×ₗ ℚ))} {num : Scored → Nat} {p : Scored} {s : Subnet}

/-- The peers of every subnet have the numbers from zero on, and a smaller number goes with a score that is not
smaller. -/
structure Numbering (scored : List Scored) (num : Scored → Nat) : Prop where
  consecutive : ∀ s, ((scored.filter (subnet · = s)).map num).Perm (List.range (scored.countP (subnet · = s)))
  descending : ∀ p ∈ scored, ∀ q ∈ scored, subnet p = subnet q → num p < num q → q.2 ≤ p.2

/-- What a peer is sorted by in the end. -/
def numbered (num : Scored → Nat) (p : Scored) : Peer × (ℤ ×ₗ ℚ) := (p.1, toLex (-(num p : ℤ), p.2))

/-- The place of a peer among the sorted peers of its subnet. -/
def rank (scored : List Scored) (p : Scored) : Nat :=
  ((sortByScore scored).filter (subnet · = subnet p)).idxOf p

lemma foldl_numberPeer (n : Nat) (hnodup : g.Nodup) (hnum : ∀ p ∈ g, num p = n + g.idxOf p) :
    (g.foldl numberPeer (n, acc)).2.Perm (g.map (numbered num) ++ acc) := by
  induction g generalizing n acc with
  | nil => exact .refl _
  | cons p g ih =>
    rw [List.nodup_cons] at hnodup
    obtain ⟨hnot, hnodup⟩ := hnodup
    have hrest : ∀ q ∈ g, num q = n + 1 + g.idxOf q := by
      intro q hq
      have hne : p ≠ q := fun h => hnot (h ▸ hq)
      rw [hnum q (List.mem_cons_of_mem p hq), List.idxOf_cons_ne g hne]
      omega
    have hp : numbered num p = (p.1, toLex (-(n : ℤ), p.2)) := by
      rw [numbered, hnum p List.mem_cons_self, List.idxOf_cons_self, Nat.add_zero]
    rw [List.map_cons, List.cons_append, hp]
    exact (ih (n + 1) hnodup hrest).trans List.perm_middle

lemma map_idxOf (hnodup : g.Nodup) : g.map g.idxOf = List.range g.length := by
  apply List.ext_getElem (by simp)
  intro i hi hi'
  rw [List.getElem_map, List.getElem_range, hnodup.idxOf_getElem]

lemma rank_numbering (hnodup : scored.Nodup) : Numbering scored (rank scored) := by
  have hsorted := sortByScore_perm scored
  have hgroup : ∀ s, ((sortByScore scored).filter (subnet · = s)).Nodup := fun s =>
    (hsorted.nodup_iff.mpr hnodup).filter _
  constructor
  · intro s
    have hrank : ((sortByScore scored).filter (subnet · = s)).map (rank scored) =
        List.range (scored.countP (subnet · = s)) := by
      rw [← (hsorted.countP_eq _), List.countP_eq_length_filter, ← map_idxOf (hgroup s)]
      apply List.map_congr_left
      intro p hp
      have hs : subnet p = s := by simpa using (List.mem_filter.mp hp).2
      rw [rank, hs]
    rw [← hrank]
    exact (hsorted.symm.filter _).map _
  · intro p hp q hq hs hlt
    have hmem : ∀ r ∈ scored, subnet r = subnet p → r ∈ (sortByScore scored).filter (subnet · = subnet p) :=
      fun r hr hrs => List.mem_filter.mpr ⟨hsorted.mem_iff.mpr hr, by simpa using hrs⟩
    have hpi := List.idxOf_lt_length_of_mem (hmem p hp rfl)
    have hqi := List.idxOf_lt_length_of_mem (hmem q hq hs.symm)
    rw [rank, rank, ← hs] at hlt
    have hpair := List.pairwise_iff_getElem.mp ((sortByScore_descending scored).filter (subnet · = subnet p)) _ _
      hpi hqi hlt
    rwa [List.getElem_idxOf, List.getElem_idxOf] at hpair

lemma foldl_numberSubnet (l : List (Subnet × List Scored)) (acc : List (Peer × (ℤ ×ₗ ℚ)))
    (hl : ∀ e ∈ l, e.2.Nodup ∧ ∀ p ∈ e.2, num p = e.2.idxOf p) :
    (l.foldl (fun acc e => numberSubnet acc e.2) acc).Perm ((l.flatMap Prod.snd).map (numbered num) ++ acc) := by
  induction l generalizing acc with
  | nil => exact .refl _
  | cons e l ih =>
    obtain ⟨⟨hnodup, hnum⟩, hl⟩ := List.forall_mem_cons.mp hl
    have hfirst : (numberSubnet acc e.2).Perm (e.2.map (numbered num) ++ acc) :=
      foldl_numberPeer 0 hnodup fun p hp => by rw [hnum p hp, Nat.zero_add]
    rw [List.foldl_cons, List.flatMap_cons, List.map_append, List.append_assoc]
    refine (ih _ hl).trans ((hfirst.append_left _).trans ?_)
    rw [← List.append_assoc, ← List.append_assoc]
    exact List.perm_append_comm.append_right acc

lemma eq_of_mem_groups {e : Subnet × List Scored}
    (he : e ∈ (SortedMap.groupBy subnet (sortByScore scored).reverse).entries) :
    e.2 = (sortByScore scored).filter (subnet · = e.1) := by
  rw [SortedMap.eq_of_mem_groupBy he, List.filter_reverse, List.reverse_reverse]

lemma scoredSubnetPeers_perm (fold : FoldOrder) (hnodup : scored.Nodup) :
    ((fold.order (SortedMap.groupBy subnet (sortByScore scored).reverse).entries).foldl
      (fun acc e => numberSubnet acc e.2) []).Perm (scored.map (numbered (rank scored))) := by
  have hgroups := fold.perm (SortedMap.groupBy subnet (sortByScore scored).reverse).entries
  have hnumbers : ∀ e ∈ fold.order (SortedMap.groupBy subnet (sortByScore scored).reverse).entries,
      e.2.Nodup ∧ ∀ p ∈ e.2, rank scored p = e.2.idxOf p := by
    intro e he
    rw [eq_of_mem_groups (hgroups.mem_iff.mp he)]
    refine ⟨((sortByScore_perm scored).nodup_iff.mpr hnodup).filter _, fun p hp => ?_⟩
    have hs : subnet p = e.1 := by simpa using (List.mem_filter.mp hp).2
    rw [rank, hs]
  have hflat : ((fold.order (SortedMap.groupBy subnet (sortByScore scored).reverse).entries).flatMap Prod.snd).Perm
      scored :=
    (hgroups.flatMap_right _).trans ((SortedMap.flatMap_groupBy_perm _ _).trans
      ((List.reverse_perm _).trans (sortByScore_perm scored)))
  have hfold := foldl_numberSubnet (fold.order (SortedMap.groupBy subnet (sortByScore scored).reverse).entries) [] hnumbers
  rw [List.append_nil] at hfold
  exact hfold.trans (hflat.map _)

lemma numbered_le {q : Scored} (h : (numbered num q).2 ≤ (numbered num p).2) :
    num p < num q ∨ (num p = num q ∧ q.2 ≤ p.2) := by
  rw [numbered, numbered, Prod.Lex.toLex_le_toLex] at h
  rcases h with hlt | ⟨hnum, hscore⟩
  · exact .inl (by omega)
  · exact .inr ⟨by omega, hscore⟩

end Numbers

/-- The ranking interleaves the subnets: the peers come by their numbers in their subnets, and those of one number by
their scores. -/
theorem rankPeers_spec (fold : FoldOrder) (scored : List Scored) (hdistinct : (scored.map Prod.fst).Nodup) :
    ∃ (ranked : List Scored) (num : Scored → Nat), rankPeers fold scored = ranked.map Prod.fst ∧
      ranked.Perm scored ∧ Numbering scored num ∧
      ranked.Pairwise fun p q => num p < num q ∨ (num p = num q ∧ q.2 ≤ p.2) := by
  have hnodup : scored.Nodup := hdistinct.of_map
  have hperm := (sortByScore_perm _).trans (scoredSubnetPeers_perm fold hnodup)
  obtain ⟨ranked, heq, hranked⟩ := (congrFun₂ (List.eq_map_comp_perm (numbered (rank scored))) _ _).mpr hperm
  refine ⟨ranked, rank scored, ?_, hranked, rank_numbering hnodup, ?_⟩
  · rw [rankPeers, heq, List.map_map]
    rfl
  · have hsorted := heq ▸ sortByScore_descending _
    exact (List.pairwise_map.mp hsorted).imp numbered_le

/-- A peer of the first four bytes of its address. -/
def peerAt (a b c d : Nat) : Peer := toLex (toLex (a, toLex (b, toLex (c, d))), ((1984 : Nat) : WithBot Nat))

def sampleScored : List Scored :=
  [(peerAt 1 1 0 1, 3), (peerAt 2 2 0 1, 5), (peerAt 1 1 0 2, 7), (peerAt 1 1 9 9, 3)]

/-- The best peers of two subnets, and then the two other peers of the first one. -/
theorem rankPeers_sampleScored :
    rankPeers ⟨List.reverse, List.reverse_perm⟩ sampleScored =
      [peerAt 1 1 0 2, peerAt 2 2 0 1, peerAt 1 1 0 1, peerAt 1 1 9 9] ∧
    ∃ (ranked : List Scored) (num : Scored → Nat),
      rankPeers ⟨List.reverse, List.reverse_perm⟩ sampleScored = ranked.map Prod.fst ∧
      ranked.Perm sampleScored ∧ Numbering sampleScored num ∧
      ranked.Pairwise fun p q => num p < num q ∨ (num p = num q ∧ q.2 ≤ p.2) :=
  ⟨by decide, rankPeers_spec ⟨List.reverse, List.reverse_perm⟩ sampleScored (by decide)⟩

end Arweave.Peers

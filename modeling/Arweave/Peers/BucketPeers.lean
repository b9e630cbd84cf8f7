import Mathlib.Algebra.Order.Field.Rat
import Mathlib.Data.Prod.Lex
import Arweave.Lib.Sorted
import Arweave.Lib.TopSets

/-!
# The peers of a bucket

The server picks peers to ask for the data of a bucket. Four fifths of them are to come from the fifth of the peers with
the biggest shares of the bucket, and the others from the rest. The table is in the order of the shares, but the peers
go through a set on their way, and a set has an order of its own.
-/

namespace Arweave.Peers.DataDiscovery

open Lib

section Code

variable {Peer : Type} [LinearOrder Peer]

/-- A bucket, the share of it, and the peer that has the share. -/
abbrev Key (Peer : Type) := Nat ×ₗ ℚ ×ₗ Peer

/-- `⊥` is `no_peer`, which comes before every peer. -/
abbrev Cursor (Peer : Type) := Nat ×ₗ ℚ ×ₗ WithBot Peer

def Key.bucket (key : Key Peer) : Nat := (ofLex key).1

def Key.share (key : Key Peer) : ℚ := (ofLex (ofLex key).2).1

def Key.peer (key : Key Peer) : Peer := (ofLex (ofLex key).2).2

def Key.cursor (key : Key Peer) : Cursor Peer := toLex (key.bucket, toLex (key.share, (key.peer : WithBot Peer)))

/-- The ordered table. The shares that `ar_sync_buckets:deserialize/1` lets through are positive. -/
structure Table (Peer : Type) [LinearOrder Peer] where
  keys : OrdSet (Key Peer)
  positive : ∀ k ∈ keys, 0 < k.share
  single : ∀ k ∈ keys, ∀ k' ∈ keys, k.bucket = k'.bucket → k.peer = k'.peer → k = k'

/-- `sets:to_list/1` lists a set in any order. -/
structure SetOrder (Peer : Type) [LinearOrder Peer] where
  toList : OrdSet Peer → List Peer
  perm : ∀ s, (toList s).Perm s.elems

/-- `?QUERY_BEST_PEERS_COUNT` -/
def queryBestPeersCount : Nat := 15

/-- `ets:next/2` -/
def Table.next (table : Table Peer) (cursor : Cursor Peer) : Option (Key Peer) :=
  table.keys.elems.find? fun key => cursor < key.cursor

/-- `pick_random/2`. The numbers are those that `rand:uniform/1` draws. -/
def pickRandom : (Nat → Nat) → List Peer → Nat → List Peer
  | _, _, 0 => []
  | _, [], _ => []
  | rand, peer :: peers, n + 1 =>
    let elem := (peer :: peers).get ⟨rand 0 % (peers.length + 1), Nat.mod_lt _ (Nat.succ_pos _)⟩
    elem :: pickRandom (fun i => rand (i + 1)) ((peer :: peers).erase elem) n

def pickPeers (rand : Nat → Nat) (peers : List Peer) (n : Nat) : List Peer :=
  if n ≥ peers.length then peers
  else if n = 0 then []
  else
    let best := peers.take (max (peers.length / 5) 1)
    let other := peers.drop (max (peers.length / 5) 1)
    let takeBest := max (8 * n / 10) 1
    let part1 := pickRandom rand best (min best.length takeBest)
    let takeOther := n - part1.length
    let part2 := pickRandom (fun i => rand (part1.length + i)) other (min other.length takeOther)
    part1 ++ part2

/-- `get_bucket_peers/3` up to the end of the bucket. -/
def Table.collect (table : Table Peer) (bucket : Nat) : Nat → Cursor Peer → List Peer → List Peer
  | 0, _, peers => peers
  | fuel + 1, cursor, peers =>
    match table.next cursor with
    | none => peers
    | some key => if key.bucket = bucket then table.collect bucket fuel key.cursor (key.peer :: peers) else peers

def getBucketPeers (sets : SetOrder Peer) (rand : Nat → Nat) (blockConnections : Bool) (table : Table Peer)
    (bucket : Nat) : List Peer :=
  if blockConnections then []
  else
    let peers := table.collect bucket (table.keys.elems.length + 1) (toLex (bucket, toLex (0, ⊥))) []
    let uniquePeers := sets.toList (.ofList peers)
    pickPeers rand uniquePeers queryBestPeersCount

end Code

section Collected

variable {Peer : Type} [LinearOrder Peer] {table : Table Peer} {bucket : Nat} {p : Peer} {k k' : Key Peer}
  {cursor : Cursor Peer} {passed left : List (Key Peer)}

/-- The peers with an entry for a bucket. -/
def Table.holders (table : Table Peer) (bucket : Nat) : Finset Peer :=
  ((table.keys.elems.filter (·.bucket = bucket)).map Key.peer).toFinset

def Table.share (table : Table Peer) (bucket : Nat) (p : Peer) : ℚ :=
  ((table.keys.elems.find? fun k => k.bucket = bucket ∧ k.peer = p).map Key.share).getD 0

lemma mem_holders : p ∈ table.holders bucket ↔ ∃ k ∈ table.keys, k.bucket = bucket ∧ k.peer = p := by
  simp only [Table.holders, List.mem_toFinset, List.mem_map, List.mem_filter, decide_eq_true_eq, and_assoc]
  rfl

lemma cursor_lt_cursor : k.cursor < k'.cursor ↔ k < k' := by
  simp only [Prod.Lex.lt_iff, Key.cursor, ofLex_toLex, WithBot.coe_lt_coe]
  rfl

lemma exists_split (cursor : Cursor Peer) : ∀ l : List (Key Peer), l.Pairwise (· < ·) → ∃ passed left,
    l = passed ++ left ∧ (∀ k ∈ passed, ¬ cursor < k.cursor) ∧ ∀ k ∈ left, cursor < k.cursor := by
  intro l hl
  induction l with
  | nil => exact ⟨[], [], rfl, by simp, by simp⟩
  | cons k l ih =>
    rw [List.pairwise_cons] at hl
    by_cases hk : cursor < k.cursor
    · refine ⟨[], k :: l, rfl, by simp, List.forall_mem_cons.mpr ⟨hk, fun k' hk' => ?_⟩⟩
      exact hk.trans (cursor_lt_cursor.mpr (hl.1 k' hk'))
    · obtain ⟨passed, left, rfl, hpassed, hleft⟩ := ih hl.2
      exact ⟨k :: passed, left, rfl, List.forall_mem_cons.mpr ⟨hk, hpassed⟩, hleft⟩

lemma next_eq (hkeys : table.keys.elems = passed ++ left) (hpassed : ∀ k ∈ passed, ¬ cursor < k.cursor)
    (hleft : ∀ k ∈ left, cursor < k.cursor) : table.next cursor = left.head? := by
  have hnone : passed.find? (fun key => cursor < key.cursor) = none :=
    List.find?_eq_none.mpr fun k hk => by simpa using hpassed k hk
  rw [Table.next, hkeys, List.find?_append, hnone, Option.none_or]
  cases left with
  | nil => rfl
  | cons k left =>
    rw [List.find?_cons_of_pos (by simpa using hleft k List.mem_cons_self)]
    rfl

lemma split_step (hkeys : table.keys.elems = passed ++ k :: left) : table.keys.elems = passed ++ [k] ++ left ∧
    (∀ k' ∈ passed ++ [k], ¬ k.cursor < k'.cursor) ∧ ∀ k' ∈ left, k.cursor < k'.cursor := by
  have hsorted := table.keys.sorted
  rw [hkeys, List.pairwise_append, List.pairwise_cons] at hsorted
  obtain ⟨-, ⟨hhead, -⟩, hacross⟩ := hsorted
  refine ⟨by rw [hkeys, List.append_assoc, List.singleton_append], fun k' hk' => ?_, fun k' hk' => ?_⟩
  · rw [cursor_lt_cursor, not_lt]
    rcases List.mem_append.mp hk' with hk' | hk'
    · exact (hacross k' hk' k List.mem_cons_self).le
    · exact (List.mem_singleton.mp hk').le
  · exact cursor_lt_cursor.mpr (hhead k' hk')

/-- The walk ends behind the last entry of the bucket. -/
lemma mem_collect (fuel : Nat) (peers : List Peer) (hkeys : table.keys.elems = passed ++ left)
    (hpassed : ∀ k ∈ passed, ¬ cursor < k.cursor) (hleft : ∀ k ∈ left, cursor < k.cursor)
    (hbucket : ∀ k ∈ left, bucket ≤ k.bucket) (hfuel : left.length < fuel) :
    p ∈ table.collect bucket fuel cursor peers ↔ p ∈ peers ∨ ∃ k ∈ left, k.bucket = bucket ∧ k.peer = p := by
  have hnext := next_eq hkeys hpassed hleft
  induction left generalizing passed cursor peers fuel with
  | nil =>
    obtain ⟨fuel, rfl⟩ : ∃ n, fuel = n + 1 := ⟨fuel - 1, by omega⟩
    rw [Table.collect, hnext]
    simp
  | cons k left ih =>
    obtain ⟨fuel, rfl⟩ : ∃ n, fuel = n + 1 := ⟨fuel - 1, by omega⟩
    obtain ⟨hkeys', hpassed', hleft'⟩ := split_step hkeys
    rw [Table.collect, hnext, List.head?_cons]
    by_cases hk : k.bucket = bucket
    · have hbucket' : ∀ k' ∈ left, bucket ≤ k'.bucket := fun k' hk' => hbucket k' (List.mem_cons_of_mem k hk')
      have hwalk := ih fuel (k.peer :: peers) hkeys' hpassed' hleft' hbucket' (by simpa using hfuel)
        (next_eq hkeys' hpassed' hleft')
      simp only [if_pos hk]
      refine hwalk.trans ?_
      rw [List.mem_cons]
      constructor
      · rintro ((rfl | hp) | ⟨k', hk', hsame⟩)
        · exact .inr ⟨k, List.mem_cons_self, hk, rfl⟩
        · exact .inl hp
        · exact .inr ⟨k', List.mem_cons_of_mem k hk', hsame⟩
      · rintro (hp | ⟨k', hk', hk1, hk2⟩)
        · exact .inl (.inr hp)
        · rcases List.mem_cons.mp hk' with rfl | hk'
          · exact .inl (.inl hk2.symm)
          · exact .inr ⟨k', hk', hk1, hk2⟩
    · simp only [if_neg hk]
      refine ⟨.inl, ?_⟩
      rintro (hp | ⟨k', hk', hk1, -⟩)
      · exact hp
      · have hle : k.bucket ≤ k'.bucket := by
          rcases List.mem_cons.mp hk' with rfl | hk'
          · exact le_rfl
          · exact Prod.Lex.monotone_fst _ _ (cursor_lt_cursor.mp (hleft' k' hk')).le
        have hlow := hbucket k List.mem_cons_self
        omega

lemma mem_collected : p ∈ table.collect bucket (table.keys.elems.length + 1) (toLex (bucket, toLex (0, ⊥))) [] ↔
    p ∈ table.holders bucket := by
  obtain ⟨passed, left, hkeys, hpassed, hleft⟩ := exists_split (toLex (bucket, toLex (0, ⊥))) _ table.keys.sorted
  have hbucket : ∀ k ∈ left, bucket ≤ k.bucket := fun k hk => Prod.Lex.monotone_fst _ _ (hleft k hk).le
  have hfuel : left.length < table.keys.elems.length + 1 := by
    rw [hkeys, List.length_append]
    omega
  rw [mem_collect _ [] hkeys hpassed hleft hbucket hfuel, mem_holders]
  constructor
  · rintro (hp | ⟨k, hk, hsame⟩)
    · cases hp
    · exact ⟨k, OrdSet.mem_elems.mp (hkeys ▸ List.mem_append_right _ hk), hsame⟩
  · rintro ⟨k, hk, hk1, hk2⟩
    have hpos := table.positive k hk
    have hbeyond : (toLex (bucket, toLex (0, ⊥)) : Cursor Peer) < k.cursor := by
      rw [Key.cursor, hk1]
      exact Prod.Lex.toLex_lt_toLex.mpr (.inr ⟨rfl, Prod.Lex.toLex_lt_toLex.mpr (.inl hpos)⟩)
    have hmem : k ∈ passed ++ left := hkeys ▸ hk
    exact .inr ⟨k, (List.mem_append.mp hmem).resolve_left fun h => hpassed k h hbeyond, hk1, hk2⟩

end Collected

section Picks

variable {Peer : Type} [LinearOrder Peer] {rand rand' : Nat → Nat} {l q : List Peer} {n : Nat}

lemma pickRandom_cons (p : Peer) (n : Nat) : ∃ x ∈ p :: l,
    pickRandom rand (p :: l) (n + 1) = x :: pickRandom (fun i => rand (i + 1)) ((p :: l).erase x) n :=
  ⟨_, List.get_mem _ _, rfl⟩

lemma pickRandom_spec (rand : Nat → Nat) (hl : l.Nodup) (hn : n ≤ l.length) :
    (pickRandom rand l n).length = n ∧ (pickRandom rand l n).Nodup ∧ pickRandom rand l n ⊆ l := by
  induction n generalizing l rand with
  | zero => simp [pickRandom]
  | succ n ih =>
    cases l with
    | nil => cases hn
    | cons p l =>
      obtain ⟨x, hx, heq⟩ := pickRandom_cons (l := l) p n
      rw [heq]
      have hlen := List.length_erase_of_mem hx
      obtain ⟨hlength, hnodup, hsub⟩ := ih (fun i => rand (i + 1)) (hl.erase x) (by rw [hlen]; simpa using hn)
      refine ⟨by rw [List.length_cons, hlength], List.nodup_cons.mpr ⟨fun hmem => ?_, hnodup⟩,
        List.cons_subset.mpr ⟨hx, fun y hy => List.mem_of_mem_erase (hsub hy)⟩⟩
      exact hl.not_mem_erase (hsub hmem)

lemma exists_pickRandom (hl : l.Nodup) (hq : q.Nodup) (hsub : q ⊆ l) : ∃ rand, pickRandom rand l q.length = q := by
  induction q generalizing l with
  | nil => exact ⟨fun _ => 0, by simp [pickRandom]⟩
  | cons x q ih =>
    rw [List.nodup_cons] at hq
    rw [List.cons_subset] at hsub
    have hrest : q ⊆ l.erase x := by
      intro y hy
      have hne : y ≠ x := fun h => hq.1 (h ▸ hy)
      exact (List.mem_erase_of_ne hne).mpr (hsub.2 hy)
    obtain ⟨rand, hrand⟩ := ih (hl.erase x) hq.2 hrest
    cases l with
    | nil => cases hsub.1
    | cons p l =>
      refine ⟨fun i => if i = 0 then (p :: l).idxOf x else rand (i - 1), ?_⟩
      have hidx : (p :: l).idxOf x < l.length + 1 := List.idxOf_lt_length_of_mem hsub.1
      simp only [pickRandom, List.length_cons, ↓reduceIte, Nat.mod_eq_of_lt hidx, Nat.add_eq_zero_iff, one_ne_zero,
        and_false, Nat.add_sub_cancel, List.get_eq_getElem, List.getElem_idxOf]
      rw [hrand]

lemma pickRandom_congr (h : ∀ i < n, rand i = rand' i) : pickRandom rand l n = pickRandom rand' l n := by
  induction n generalizing l rand rand' with
  | zero => simp [pickRandom]
  | succ n ih =>
    cases l with
    | nil => simp [pickRandom]
    | cons p l =>
      have hrest : ∀ i < n, rand (i + 1) = rand' (i + 1) := fun i hi => h (i + 1) (by omega)
      simp only [pickRandom, h 0 (Nat.succ_pos n), ih hrest]

/-- The number of the peers that count as the best ones. -/
def bestCount (m : Nat) : Nat := max (m / 5) 1

/-- The number of the best peers that are picked. -/
def takeBest (m n : Nat) : Nat := min (bestCount m) (max (8 * n / 10) 1)

omit [LinearOrder Peer] in
lemma length_take_bestCount (hl : 0 < l.length) : (l.take (bestCount l.length)).length = bestCount l.length := by
  rw [List.length_take, bestCount]
  omega

lemma takeBest_le {m : Nat} (hn : 0 < n) (hlt : n < m) : takeBest m n ≤ bestCount m ∧ takeBest m n ≤ n ∧
    n - takeBest m n ≤ m - bestCount m := by
  unfold takeBest bestCount
  omega

lemma pickPeers_eq (rand : Nat → Nat) (hl : l.Nodup) (hn : 0 < n) (hlt : n < l.length) :
    pickPeers rand l n = pickRandom rand (l.take (bestCount l.length)) (takeBest l.length n) ++
      pickRandom (fun i => rand (takeBest l.length n + i)) (l.drop (bestCount l.length)) (n - takeBest l.length n) := by
  obtain ⟨htake, hle, hother⟩ := takeBest_le hn hlt
  have hbest := length_take_bestCount (l := l) (by omega)
  have hpart := (pickRandom_spec (n := takeBest l.length n) rand (hl.sublist (List.take_sublist (bestCount l.length) l))
    (by rwa [hbest])).1
  have hb : max (l.length / 5) 1 = bestCount l.length := rfl
  have hmin : min (bestCount l.length) (max (8 * n / 10) 1) = takeBest l.length n := rfl
  rw [pickPeers, if_neg (by omega), if_neg (by omega)]
  simp only [hb, hbest, hmin, hpart, List.length_drop, min_eq_right hother]

lemma pickPeers_spec (rand : Nat → Nat) (n : Nat) (hl : l.Nodup) : (pickPeers rand l n).length = min n l.length ∧
    (pickPeers rand l n).Nodup ∧ pickPeers rand l n ⊆ l := by
  by_cases hall : n ≥ l.length
  · rw [pickPeers, if_pos hall, min_eq_right hall]
    exact ⟨rfl, hl, List.Subset.refl l⟩
  · have hlt : n < l.length := Nat.lt_of_not_le hall
    by_cases hn : n = 0
    · subst hn
      rw [pickPeers, if_neg hall, if_pos rfl]
      simp
    · have hpos : 0 < n := by omega
      obtain ⟨htake, hle, hother⟩ := takeBest_le hpos hlt
      obtain ⟨hlen1, hnodup1, hsub1⟩ := pickRandom_spec (n := takeBest l.length n) rand
        (hl.sublist (List.take_sublist (bestCount l.length) l)) (by rwa [length_take_bestCount (by omega)])
      obtain ⟨hlen2, hnodup2, hsub2⟩ := pickRandom_spec (n := n - takeBest l.length n)
        (fun i => rand (takeBest l.length n + i)) (hl.sublist (List.drop_sublist (bestCount l.length) l))
        (by rwa [List.length_drop])
      rw [pickPeers_eq rand hl hpos hlt]
      refine ⟨?_, List.nodup_append'.mpr ⟨hnodup1, hnodup2, ?_⟩, List.append_subset.mpr
        ⟨List.Subset.trans hsub1 (List.take_subset _ _), List.Subset.trans hsub2 (List.drop_subset _ _)⟩⟩
      · rw [List.length_append, hlen1, hlen2]
        omega
      · intro x hx1 hx2
        exact List.disjoint_take_drop hl le_rfl (hsub1 hx1) (hsub2 hx2)

lemma exists_arrangement {s p : Finset Peer} (hp : p ⊆ s) (hcard : p.card = n) (hn : 0 < n) (hlt : n < s.card) :
    ∃ p1 ⊆ p, ∃ best other, p1.card = takeBest s.card n ∧ best.length = bestCount s.card ∧ (best ++ other).Nodup ∧
      (best ++ other).toFinset = s ∧ p1.toList ⊆ best ∧ (p \ p1).toList ⊆ other := by
  obtain ⟨htake, hle, hother⟩ := takeBest_le hn hlt
  obtain ⟨p1, hp1, hcard1⟩ := Finset.exists_subset_card_eq (show takeBest s.card n ≤ p.card by omega)
  have hdiff := Finset.card_sdiff_of_subset hp
  have hdiff1 := Finset.card_sdiff_of_subset hp1
  obtain ⟨q, hq, hqcard⟩ := Finset.exists_subset_card_eq
    (show bestCount s.card - takeBest s.card n ≤ (s \ p).card by unfold takeBest bestCount at *; omega)
  have hbestlen : (p1.toList ++ q.toList).length = bestCount s.card := by
    rw [List.length_append, Finset.length_toList, Finset.length_toList]
    omega
  have hset : (p1.toList ++ q.toList ++ ((p \ p1).toList ++ ((s \ p) \ q).toList)).toFinset = s := by
    ext x
    simp only [List.mem_toFinset, List.mem_append, Finset.mem_toList, Finset.mem_sdiff]
    have h1 := @hp x
    have h2 := @hp1 x
    have h3 := @hq x
    rw [Finset.mem_sdiff] at h3
    tauto
  have hlen : (p1.toList ++ q.toList ++ ((p \ p1).toList ++ ((s \ p) \ q).toList)).length = s.card := by
    rw [List.length_append, hbestlen, List.length_append, Finset.length_toList, Finset.length_toList,
      Finset.card_sdiff_of_subset hq]
    have hple := Finset.card_le_card hp
    have hqle := Finset.card_le_card hq
    omega
  have hnodup := Multiset.coe_nodup.mp
    (Multiset.toFinset_card_eq_card_iff_nodup.mp ((congrArg Finset.card hset).trans hlen.symm))
  exact ⟨p1, hp1, _, _, hcard1, hbestlen, hnodup, hset, List.subset_append_left _ _, List.subset_append_left _ _⟩

lemma exists_pickPeers {s p : Finset Peer} (hp : p ⊆ s) (hcard : p.card = n) (hn : 0 < n) (hlt : n < s.card) :
    ∃ l rand, l.Nodup ∧ l.toFinset = s ∧ (pickPeers rand l n).toFinset = p := by
  obtain ⟨p1, hp1, best, other, hcard1, hbestlen, hnodup, hset, hsub1, hsub2⟩ := exists_arrangement hp hcard hn hlt
  have hlen : (best ++ other).length = s.card := by rw [← hset, List.toFinset_card_of_nodup hnodup]
  obtain ⟨hnodup1, hnodup2, -⟩ := List.nodup_append'.mp hnodup
  obtain ⟨rand1, hrand1⟩ := exists_pickRandom hnodup1 p1.nodup_toList hsub1
  obtain ⟨rand2, hrand2⟩ := exists_pickRandom hnodup2 (p \ p1).nodup_toList hsub2
  rw [Finset.length_toList, hcard1] at hrand1
  rw [Finset.length_toList, Finset.card_sdiff_of_subset hp1, hcard, hcard1] at hrand2
  let rand := fun i => if i < takeBest s.card n then rand1 i else rand2 (i - takeBest s.card n)
  have hpart1 : pickRandom rand best (takeBest s.card n) = p1.toList :=
    (pickRandom_congr fun i hi => if_pos hi).trans hrand1
  have hpart2 : pickRandom (fun i => rand (takeBest s.card n + i)) other (n - takeBest s.card n) = (p \ p1).toList := by
    refine (pickRandom_congr fun i _ => ?_).trans hrand2
    simp only [rand]
    rw [if_neg (by omega), Nat.add_sub_cancel_left]
  refine ⟨best ++ other, rand, hnodup, hset, ?_⟩
  rw [pickPeers_eq rand hnodup hn (hlen ▸ hlt), hlen, List.take_left' hbestlen, List.drop_left' hbestlen, hpart1, hpart2]
  rw [List.toFinset_append, Finset.toList_toFinset, Finset.toList_toFinset, Finset.union_sdiff_of_subset hp1]

end Picks

section Outcomes

variable {Peer : Type} [LinearOrder Peer] {table : Table Peer} {bucket : Nat} {p : Finset Peer}

/-- What the documentation says about the peers that are picked. Which ones have the biggest shares is a choice when
several have the same. -/
structure Favours (table : Table Peer) (bucket : Nat) (picked : List Peer) : Prop where
  length : picked.length = min queryBestPeersCount (table.holders bucket).card
  nodup : picked.Nodup
  entry : ∀ p ∈ picked, p ∈ table.holders bucket
  best : queryBestPeersCount < (table.holders bucket).card →
    ∃ top, IsTop (table.holders bucket) (table.share bucket) (bestCount (table.holders bucket).card) top ∧
      takeBest (table.holders bucket).card queryBestPeersCount ≤ (picked.toFinset ∩ top).card

lemma listed_holders (table : Table Peer) (bucket : Nat) : (OrdSet.ofList (table.collect bucket
    (table.keys.elems.length + 1) (toLex (bucket, toLex (0, ⊥))) [])).elems.toFinset = table.holders bucket := by
  ext p
  rw [List.mem_toFinset, OrdSet.mem_elems, OrdSet.mem_ofList, mem_collected]

lemma exists_listing (sets : SetOrder Peer) (rand : Nat → Nat) (table : Table Peer) (bucket : Nat) :
    ∃ l, l.Nodup ∧ l.toFinset = table.holders bucket ∧
      getBucketPeers sets rand false table bucket = pickPeers rand l queryBestPeersCount := by
  refine ⟨_, (sets.perm _).nodup_iff.mpr (OrdSet.nodup _), ?_, rfl⟩
  rw [← listed_holders]
  exact List.toFinset_eq_of_perm _ _ (sets.perm _)

lemma getBucketPeers_spec (sets : SetOrder Peer) (rand : Nat → Nat) (table : Table Peer) (bucket : Nat) :
    (getBucketPeers sets rand false table bucket).length = min queryBestPeersCount (table.holders bucket).card ∧
      (getBucketPeers sets rand false table bucket).Nodup ∧
      ∀ p ∈ getBucketPeers sets rand false table bucket, p ∈ table.holders bucket := by
  obtain ⟨l, hl, hset, heq⟩ := exists_listing sets rand table bucket
  obtain ⟨hlength, hnodup, hsub⟩ := pickPeers_spec rand queryBestPeersCount hl
  rw [heq, ← hset, List.toFinset_card_of_nodup hl]
  exact ⟨hlength, hnodup, fun p hp => List.mem_toFinset.mpr (hsub hp)⟩

lemma exists_getBucketPeers (hp : p ⊆ table.holders bucket) (hcard : p.card = queryBestPeersCount)
    (hlt : queryBestPeersCount < (table.holders bucket).card) :
    ∃ sets rand, (getBucketPeers sets rand false table bucket).toFinset = p := by
  obtain ⟨l, rand, hl, hset, hpick⟩ := exists_pickPeers hp hcard (by decide) hlt
  obtain ⟨u, hu⟩ : ∃ u, u = OrdSet.ofList (table.collect bucket (table.keys.elems.length + 1)
    (toLex (bucket, toLex (0, ⊥))) []) := ⟨_, rfl⟩
  have hperm : l.Perm u.elems := by
    apply List.perm_of_nodup_nodup_toFinset_eq hl u.nodup
    rw [hset, hu, listed_holders]
  let sets : SetOrder Peer := ⟨fun s => if s = u then l else s.elems, fun s => by
    split_ifs with hs
    · exact hs ▸ hperm
    · exact .refl _⟩
  have htoList : sets.toList u = l := if_pos rfl
  refine ⟨sets, rand, ?_⟩
  rw [hu] at htoList
  rw [← hpick, ← htoList]
  rfl

lemma Favours.open {blockConnections : Bool}
    (hall : ∀ sets rand, Favours table bucket (getBucketPeers sets rand blockConnections table bucket))
    (hblock : blockConnections = true) : table.holders bucket = ∅ := by
  have hcount : 0 < queryBestPeersCount := by decide
  have hlength := (hall ⟨OrdSet.elems, fun _ => .refl _⟩ fun _ => 0).length
  rw [getBucketPeers, if_pos hblock, List.length_nil] at hlength
  exact Finset.card_eq_zero.mp (by omega)

lemma bestCount_bounds {m n : Nat} (hlt : n < m) : 0 < bestCount m ∧ bestCount m ≤ m := by
  unfold bestCount
  omega

/-- The documentation is right about a bucket in every order of the set and for all draws exactly when there are no more
peers than are picked, or the peers with the share of the last one of the best peers are so many that no pick misses
too many of the best ones. -/
theorem favours_iff (table : Table Peer) (blockConnections : Bool) (bucket : Nat) :
    (∀ sets rand, Favours table bucket (getBucketPeers sets rand blockConnections table bucket)) ↔
      (blockConnections = true → table.holders bucket = ∅) ∧
      (queryBestPeersCount < (table.holders bucket).card →
        ∃ p ∈ table.holders bucket,
          IsThreshold (table.holders bucket) (table.share bucket) (bestCount (table.holders bucket).card)
            (table.share bucket p) ∧
          takeBest (table.holders bucket).card queryBestPeersCount ≤
            leastTop (table.holders bucket) (table.share bucket) (bestCount (table.holders bucket).card)
              queryBestPeersCount (table.share bucket p)) := by
  constructor
  · intro hall
    refine ⟨Favours.open hall, fun hlt => ?_⟩
    have hfalse : blockConnections = false := by
      refine Bool.eq_false_iff.mpr fun hblock => ?_
      rw [Favours.open hall hblock, Finset.card_empty] at hlt
      omega
    subst hfalse
    obtain ⟨hbest, hfew⟩ := bestCount_bounds hlt
    obtain ⟨p, hp, hthreshold⟩ := exists_threshold (f := table.share bucket) hbest hfew
    refine ⟨p, hp, hthreshold, (forall_isTop_iff hthreshold hlt.le).mp fun q hq hcard => ?_⟩
    obtain ⟨sets, rand, rfl⟩ := exists_getBucketPeers hq hcard hlt
    exact (hall sets rand).best hlt
  · rintro ⟨hopen, hmany⟩ sets rand
    cases hblock : blockConnections with
    | true =>
      have hempty := hopen hblock
      exact ⟨by simp [getBucketPeers, hempty], by simp [getBucketPeers], by simp [getBucketPeers], by simp [hempty]⟩
    | false =>
      obtain ⟨hlength, hnodup, hentry⟩ := getBucketPeers_spec sets rand table bucket
      refine ⟨hlength, hnodup, hentry, fun hlt => ?_⟩
      obtain ⟨p, -, hthreshold, hle⟩ := hmany hlt
      refine (forall_isTop_iff hthreshold hlt.le).mpr hle _ (fun q hq => hentry q (List.mem_toFinset.mp hq)) ?_
      rw [List.toFinset_card_of_nodup hnodup, hlength, min_eq_left hlt.le]

end Outcomes

/-- Twenty peers with different shares of a bucket, which grow with the numbers of the peers. -/
def rankedKeys : OrdSet (Key Nat) :=
  .ofList ((List.range 20).map fun i => toLex (0, toLex (((i + 1 : Nat) : ℚ) / 20, i)))

def rankedTable : Table Nat where
  keys := rankedKeys
  positive := by
    have hpos : ∀ k ∈ rankedKeys.elems, 0 < k.share := by decide +kernel
    exact hpos
  single := by
    have hsingle : ∀ k ∈ rankedKeys.elems, ∀ k' ∈ rankedKeys.elems, k.bucket = k'.bucket → k.peer = k'.peer → k = k' := by
      decide +kernel
    exact hsingle

/-- The four peers with the biggest shares are the last ones that the set lists, and none of them is picked. -/
theorem biggest_shares_missed :
    ¬ Favours rankedTable 0 (getBucketPeers ⟨OrdSet.elems, fun _ => .refl _⟩ (fun _ => 0) false rankedTable 0) := by
  intro h
  obtain ⟨top, htop, hle⟩ := h.best (by decide +kernel)
  have hthreshold : IsThreshold (rankedTable.holders 0) (rankedTable.share 0)
      (bestCount (rankedTable.holders 0).card) (17 / 20) := ⟨by decide +kernel, by decide +kernel⟩
  have hpart := (exists_isTop_iff hthreshold).mp ⟨top, htop, hle⟩
  revert hpart
  decide +kernel

end Arweave.Peers.DataDiscovery

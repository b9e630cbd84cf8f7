import Mathlib
import Arweave.Tx.ReplayPool

/-!
# The order of mining

The transactions that are picked for a block are sorted before. Those with a wallet anchor come first,
and those with a block anchor follow by their utility and then by the age of the anchor. Each
transaction has a rank in a linear order, and the comparison of two transactions compares their ranks.
-/

namespace Arweave.Tx
open Arweave.Lib OrderDual

variable {bhl : List Bytes} {anchor1 anchor2 : Bytes} {tx tx1 tx2 : TX} {txs txs1 txs2 : List TX}

/-- Wallet anchors come before block anchors and are not ranked among themselves. Block anchors are
ranked by utility and then by the place of the anchor, from the oldest one on. -/
def Precedes (bhl : List Bytes) (tx1 tx2 : TX) : Prop :=
  tx2.lastTx ∈ bhl ∧ (tx1.lastTx ∈ bhl → toLex (utility tx2) < toLex (utility tx1) ∨
    utility tx1 = utility tx2 ∧ bhl.idxOf tx2.lastTx < bhl.idxOf tx1.lastTx)

def rank (bhl : List Bytes) (tx : TX) : WithBot ((Nat ×ₗ Int)ᵒᵈ ×ₗ Natᵒᵈ) :=
  if tx.lastTx ∈ bhl then (toLex (toDual (toLex (utility tx)), toDual (bhl.idxOf tx.lastTx)) : (Nat ×ₗ Int)ᵒᵈ ×ₗ Natᵒᵈ)
  else ⊥

lemma precedes_iff_rank : Precedes bhl tx1 tx2 ↔ rank bhl tx1 < rank bhl tx2 := by
  unfold Precedes rank
  by_cases h2 : tx2.lastTx ∈ bhl
  · by_cases h1 : tx1.lastTx ∈ bhl
    · rw [if_pos h1, if_pos h2, WithBot.coe_lt_coe]
      refine Iff.trans ?_ Prod.Lex.toLex_lt_toLex.symm
      simp [h1, h2]
    · rw [if_neg h1, if_pos h2]
      simp [h1, h2, WithBot.bot_lt_coe]
  · rw [if_neg h2]
    simp [h2]

lemma compareAnchors_iff (h1 : anchor1 ∈ bhl) (h2 : anchor2 ∈ bhl) :
    compareAnchors anchor1 anchor2 bhl = true ↔ bhl.idxOf anchor2 ≤ bhl.idxOf anchor1 := by
  induction bhl with
  | nil => cases h1
  | cons anchor bhl ih =>
    unfold compareAnchors
    split_ifs with heq hnew hold
    · simp [heq]
    · have hne : anchor2 ≠ anchor := fun h => heq (hnew.trans h.symm)
      rw [hnew, List.idxOf_cons_self, List.idxOf_cons_ne _ hne.symm]
      simp
    · rw [hold, List.idxOf_cons_self]
      simp
    · have h1 := (List.mem_cons.mp h1).resolve_left hnew
      have h2 := (List.mem_cons.mp h2).resolve_left hold
      rw [List.idxOf_cons_ne _ (Ne.symm hnew), List.idxOf_cons_ne _ (Ne.symm hold), ih h1 h2, Nat.succ_le_succ_iff]

lemma compareTxsByUtility_iff (h1 : tx1.lastTx ∈ bhl) (h2 : tx2.lastTx ∈ bhl) :
    compareTxsByUtility tx1 tx2 bhl = true ↔ toLex (utility tx2) < toLex (utility tx1) ∨
      utility tx1 = utility tx2 ∧ bhl.idxOf tx2.lastTx ≤ bhl.idxOf tx1.lastTx := by
  unfold compareTxsByUtility
  dsimp only
  split_ifs with heq
  · rw [compareAnchors_iff h1 h2]
    simp [heq]
  · rw [Prod.Lex.toLex_lt_toLex]
    simp [heq]

lemma compareTxs_iff : compareTxs tx1 tx2 bhl = true ↔ rank bhl tx1 ≤ rank bhl tx2 := by
  unfold compareTxs rank
  by_cases h1 : tx1.lastTx ∈ bhl
  · by_cases h2 : tx2.lastTx ∈ bhl
    · rw [if_pos h1, if_pos h2, if_pos h1, if_pos h2, compareTxsByUtility_iff h1 h2, WithBot.coe_le_coe,
        Prod.Lex.toLex_le_toLex]
      simp
    · rw [if_pos h1, if_neg h2, if_pos h1, if_neg h2]
      simp
  · rw [if_neg h1, if_neg h1]
    simp

lemma rank_le_iff : rank bhl tx1 ≤ rank bhl tx2 ↔ ¬ Precedes bhl tx2 tx1 := by rw [precedes_iff_rank, not_lt]

lemma pairwise_sortTxsByUtilityAndAnchor :
    (sortTxsByUtilityAndAnchor txs bhl).Pairwise fun tx1 tx2 => rank bhl tx1 ≤ rank bhl tx2 := by
  have : Std.Total fun tx1 tx2 : TX => compareTxs tx1 tx2 bhl = true :=
    ⟨fun tx1 tx2 => by rw [compareTxs_iff, compareTxs_iff]; exact le_total _ _⟩
  have : IsTrans TX fun tx1 tx2 => compareTxs tx1 tx2 bhl = true :=
    ⟨fun tx1 tx2 tx3 h12 h23 => compareTxs_iff.mpr ((compareTxs_iff.mp h12).trans (compareTxs_iff.mp h23))⟩
  exact (List.pairwise_insertionSort _ txs).imp compareTxs_iff.mp

lemma map_rank_sort (hperm : txs1.Perm txs2) : (sortTxsByUtilityAndAnchor txs1 bhl).map (rank bhl) =
    (sortTxsByUtilityAndAnchor txs2 bhl).map (rank bhl) := by
  have hsorted : ∀ txs, ((sortTxsByUtilityAndAnchor txs bhl).map (rank bhl)).SortedLE := fun txs => by
    rw [List.sortedLE_iff_pairwise, List.pairwise_map]
    exact pairwise_sortTxsByUtilityAndAnchor
  have hsort : (sortTxsByUtilityAndAnchor txs1 bhl).Perm (sortTxsByUtilityAndAnchor txs2 bhl) :=
    (List.perm_insertionSort _ txs1).trans (hperm.trans (List.perm_insertionSort _ txs2).symm)
  exact (hsort.map (rank bhl)).eq_of_sortedLE (hsorted txs1) (hsorted txs2)

/-- The comparison of transactions is a total preorder. A transaction is not after another one exactly
when the other one does not precede it, and nothing is before a wallet anchor. The sorted list does not
depend on the order of the transactions, up to transactions that compare equal. -/
theorem compareTxs_orders (bhl : List Bytes) :
    (∀ tx, compareTxs tx tx bhl = true) ∧
    (∀ tx1 tx2 tx3, compareTxs tx1 tx2 bhl = true → compareTxs tx2 tx3 bhl = true → compareTxs tx1 tx3 bhl = true) ∧
    (∀ tx1 tx2, compareTxs tx1 tx2 bhl = true ∨ compareTxs tx2 tx1 bhl = true) ∧
    (∀ tx1 tx2, compareTxs tx1 tx2 bhl = true ↔ ¬ Precedes bhl tx2 tx1) ∧
    (∀ tx1 tx2, tx1.lastTx ∉ bhl → compareTxs tx1 tx2 bhl = true) ∧
    (∀ txs, (sortTxsByUtilityAndAnchor txs bhl).Perm txs ∧
      (sortTxsByUtilityAndAnchor txs bhl).Pairwise fun tx1 tx2 => compareTxs tx1 tx2 bhl = true) ∧
    ∀ txs1 txs2, txs1.Perm txs2 →
      List.Forall₂ (fun tx1 tx2 => compareTxs tx1 tx2 bhl = true ∧ compareTxs tx2 tx1 bhl = true)
        (sortTxsByUtilityAndAnchor txs1 bhl) (sortTxsByUtilityAndAnchor txs2 bhl) := by
  refine ⟨fun tx => compareTxs_iff.mpr le_rfl, fun tx1 tx2 tx3 h12 h23 => ?_, fun tx1 tx2 => ?_, fun tx1 tx2 => ?_,
    fun tx1 tx2 hwallet => ?_, fun txs => ⟨List.perm_insertionSort _ txs, ?_⟩, fun txs1 txs2 hperm => ?_⟩
  · exact compareTxs_iff.mpr ((compareTxs_iff.mp h12).trans (compareTxs_iff.mp h23))
  · rw [compareTxs_iff, compareTxs_iff]
    exact le_total _ _
  · rw [compareTxs_iff, rank_le_iff]
  · rw [compareTxs_iff, rank, if_neg hwallet]
    exact bot_le
  · exact pairwise_sortTxsByUtilityAndAnchor.imp compareTxs_iff.mpr
  · have hranks : (sortTxsByUtilityAndAnchor txs1 bhl).map (rank bhl) = _ := map_rank_sort hperm
    rw [← List.forall₂_eq_eq_eq, List.forall₂_map_left_iff, List.forall₂_map_right_iff] at hranks
    refine hranks.imp fun tx1 tx2 heq => ?_
    rw [compareTxs_iff, compareTxs_iff, heq]
    exact ⟨le_rfl, le_rfl⟩

end Arweave.Tx

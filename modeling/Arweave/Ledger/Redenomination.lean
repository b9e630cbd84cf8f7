import Arweave.Ledger.Blocks

/-!
# Redenomination

A redenomination is scheduled when the available supply is low, and the denomination changes in
the block after the scheduled height. Until then the schedule does not move, and transactions
without a denomination are rejected.
-/

namespace Arweave.Ledger
open Arweave.Lib Arweave.Tx

/-- The blocks of a chain up to a height, with the denominations that `ar_pricing` computes. -/
structure Redenominates (blocks : Nat → Block) (n : Nat) : Prop where
  height : ∀ i ≤ n, (blocks i).height = i
  denomination_zero : (blocks 0).denomination = 1
  redenominationHeight_zero : (blocks 0).redenominationHeight = 0
  step : ∀ i < n, mayBeRedenominate (blocks i) =
    some ((blocks (i + 1)).denomination, (blocks (i + 1)).redenominationHeight)

/-- The redenomination at the height is scheduled in the block after the given one. -/
structure ScheduledAfter (blocks : Nat → Block) (p height : Nat) : Prop where
  isV2 : isV2PricingHeight (p + 1) = true
  lt : (blocks p).redenominationHeight < p
  delay : p + redenominationDelayBlocks = height

variable {blocks : Nat → Block} {b : Block} {n i p denomination redenominationHeight : Nat} {tx : TX}

lemma mayBeRedenominate_cases (h : mayBeRedenominate b = some (denomination, redenominationHeight)) :
    (isV2PricingHeight (b.height + 1) = true ∧ b.height = b.redenominationHeight ∧ denomination = b.denomination + 1 ∧
        redenominationHeight = b.redenominationHeight) ∨
      (denomination = b.denomination ∧ redenominationHeight = b.redenominationHeight) ∨
      (isV2PricingHeight (b.height + 1) = true ∧ b.redenominationHeight < b.height ∧ denomination = b.denomination ∧
        redenominationHeight = b.height + redenominationDelayBlocks) := by
  unfold mayBeRedenominate at h
  split_ifs at h with hv2 heq hlt
  · cases h
    exact .inl ⟨hv2, heq, rfl, rfl⟩
  · cases h
    exact .inr (.inl ⟨rfl, rfl⟩)
  · simp only [bind, Option.bind_eq_some_iff] at h
    obtain ⟨supply, -, h⟩ := h
    split_ifs at h with hlow
    · cases h
      exact .inr (.inr ⟨hv2, by omega, rfl, rfl⟩)
    · cases h
      exact .inr (.inl ⟨rfl, rfl⟩)
  · cases h
    exact .inr (.inl ⟨rfl, rfl⟩)

lemma Redenominates.exists_scheduledAfter (h : Redenominates blocks n) (hi : i ≤ n) :
    (blocks i).redenominationHeight = 0 ∨
      ∃ p < i, ScheduledAfter blocks p (blocks i).redenominationHeight ∧
        ∀ j, p < j → j ≤ i → (blocks j).redenominationHeight = (blocks i).redenominationHeight := by
  induction i with
  | zero => exact .inl h.redenominationHeight_zero
  | succ i ih =>
    have hheight := h.height i (by omega)
    have hkeep : (blocks (i + 1)).redenominationHeight = (blocks i).redenominationHeight →
        (blocks (i + 1)).redenominationHeight = 0 ∨
          ∃ p < i + 1, ScheduledAfter blocks p (blocks (i + 1)).redenominationHeight ∧
            ∀ j, p < j → j ≤ i + 1 → (blocks j).redenominationHeight = (blocks (i + 1)).redenominationHeight := by
      intro hsame
      rw [hsame]
      rcases ih (by omega) with hzero | ⟨p, hp, hscheduled, hconst⟩
      · exact .inl hzero
      · refine .inr ⟨p, by omega, hscheduled, ?_⟩
        intro j hpj hj
        rcases hj.eq_or_lt with rfl | hlt
        · exact hsame
        · exact hconst j hpj (by omega)
    rcases mayBeRedenominate_cases (h.step i (by omega)) with ⟨-, -, -, hsame⟩ | ⟨-, hsame⟩ | ⟨hv2, hlt, -, hnew⟩
    · exact hkeep hsame
    · exact hkeep hsame
    · refine .inr ⟨i, by omega, ⟨?_, ?_, ?_⟩, ?_⟩
      · rw [← hheight]
        exact hv2
      · rw [hheight] at hlt
        exact hlt
      · rw [hnew, hheight]
      · intro j hj hj'
        rw [show j = i + 1 by omega]

lemma height_2_6_le_of_isV2 (h : isV2PricingHeight n = true) : Fork.height_2_6 ≤ n := by
  rw [isV2PricingHeight, decide_eq_true_eq] at h
  simp only [Fork.height_2_6, Fork.height_2_6_8] at *
  omega

lemma verifyDenomination_eq_false (htx : tx.denomination = 0) (hfork : Fork.height_2_6 ≤ i + 1) (hpos : 0 < i)
    (hle : i ≤ redenominationHeight) : verifyDenomination tx denomination i redenominationHeight = false := by
  rw [verifyDenomination, if_pos hfork, if_pos htx]
  simp only [Bool.or_eq_false_iff, decide_eq_false_iff_not]
  omega

lemma verifyDenomination_of_verifyBlockTxs {ctx : Context} {accounts : Accounts} {txs : List TX}
    (h : verifyBlockTxs ctx accounts txs = some .valid) (htx : tx ∈ txs) :
    verifyDenomination tx ctx.denomination ctx.height ctx.redenominationHeight = true := by
  obtain ⟨first, rest, hsplit⟩ := List.append_of_mem htx
  obtain ⟨pool, -, hvalid⟩ := exists_pool_of_verifyBlockTxsFrom Pool.After.init h hsplit
  exact (verified_of_verifyTx2 hvalid).1.denomination

/-- When the denomination of a block differs from the one before, it is larger by one and the block
before is at the scheduled height. The schedule was made at least the delay earlier and did not
move. From the block after it up to the redenomination, transactions without a denomination are
rejected and no valid block has one. -/
theorem redenomination_is_announced (h : Redenominates blocks n) (hi : i < n)
    (hchange : (blocks (i + 1)).denomination ≠ (blocks i).denomination) :
    (blocks (i + 1)).denomination = (blocks i).denomination + 1 ∧ (blocks i).redenominationHeight = i ∧
      ∃ p, p + 1 + redenominationDelayBlocks ≤ i + 1 ∧ (blocks p).redenominationHeight ≠ i ∧
        (∀ j, p + 1 ≤ j → j ≤ i + 1 → (blocks j).redenominationHeight = i) ∧
        (∀ j, p + 1 ≤ j → j ≤ i → ∀ tx : TX, tx.denomination = 0 →
          verifyDenomination tx (blocks j).denomination (blocks j).height (blocks j).redenominationHeight = false) ∧
        ∀ (received : Received) (accounts : Accounts), p + 1 < received.block.height → received.block.height ≤ i + 1 →
          verifyBlockTxs (received.context (blocks (received.block.height - 1))) accounts received.block.txs = some .valid →
          ∀ tx ∈ received.block.txs, tx.denomination ≠ 0 := by
  have hheight := h.height i hi.le
  rcases mayBeRedenominate_cases (h.step i hi) with ⟨hv2, hat, hnext, hsame⟩ | ⟨hnext, -⟩ | ⟨-, -, hnext, -⟩
  · rw [hheight] at hat hv2
    refine ⟨hnext, hat.symm, ?_⟩
    rcases h.exists_scheduledAfter hi.le with hzero | ⟨p, hp, hscheduled, hconst⟩
    · -- nothing is redenominated in the first block
      rw [hat, hzero] at hv2
      exact absurd hv2 (by decide)
    · rw [← hat] at hscheduled hconst
      have hreject : ∀ j, p + 1 ≤ j → j ≤ i → ∀ tx : TX, tx.denomination = 0 →
          verifyDenomination tx (blocks j).denomination j (blocks j).redenominationHeight = false := by
        intro j hpj hj tx htx
        have hfork := height_2_6_le_of_isV2 hscheduled.isV2
        apply verifyDenomination_eq_false htx (by omega) (by omega)
        rw [hconst j hpj hj]
        exact hj
      refine ⟨p, ?_, ?_, ?_, ?_, ?_⟩
      · have hdelay := hscheduled.delay
        omega
      · have hlt := hscheduled.lt
        omega
      · intro j hpj hj
        rcases hj.eq_or_lt with rfl | hlt
        · rw [hsame, ← hat]
        · exact hconst j hpj (by omega)
      · intro j hpj hj
        rw [h.height j (by omega)]
        exact hreject j hpj hj
      · intro received accounts hlt hle hvalid tx htx hzero
        have haccepted := verifyDenomination_of_verifyBlockTxs hvalid htx
        have hrejected := hreject (received.block.height - 1) (by omega) (by omega) tx hzero
        exact Bool.false_ne_true (hrejected.symm.trans haccepted)
  · exact absurd hnext hchange
  · exact absurd hnext hchange

/-- The last block before the pricing of version two. -/
def lastV1Height : Nat := Fork.height_2_6_8 + price_2_6_8_TransitionStart + price_2_6_8_TransitionBlocks - 1

/-- All the supply is in the endowment pool, so that the first block that can schedule does. -/
def poorBlock (height : Nat) : Block where
  height := height
  timestamp := 0
  diff := 0
  txs := []
  weaveSize := 0
  rewardAddr := none
  rewardKey := (.rsa, [])
  rewardPool := totalSupply
  reward := 0
  debtSupply := 0
  kryderPlusRateMultiplierLatch := 0
  kryderPlusRateMultiplier := 1
  pricePerGiBMinute := 0
  usdToArRate := (1, 1)
  denomination := if height ≤ lastV1Height + redenominationDelayBlocks then 1 else 2
  redenominationHeight := if height ≤ lastV1Height then 0 else lastV1Height + redenominationDelayBlocks
  walletList := []
  rewardHistory := []
  blockTimeHistory := []
  doubleSigningProof := none
  dataSize_nonneg := dataSize_nonneg_nil

lemma isV2PricingHeight_succ_iff : isV2PricingHeight (i + 1) = true ↔ lastV1Height ≤ i := by
  rw [isV2PricingHeight, decide_eq_true_eq, lastV1Height]
  simp only [Fork.height_2_6_8]
  omega

lemma poorBlock_denomination (hi : i ≤ lastV1Height + redenominationDelayBlocks) : (poorBlock i).denomination = 1 :=
  if_pos hi

lemma poorBlock_redenominationHeight (hi : lastV1Height < i) :
    (poorBlock i).redenominationHeight = lastV1Height + redenominationDelayBlocks := if_neg (not_le.mpr hi)

lemma redenominates_poorBlock : Redenominates poorBlock (lastV1Height + redenominationDelayBlocks + 1) := by
  refine ⟨fun _ _ => rfl, by decide, by decide, ?_⟩
  intro i hi
  have hheight : (poorBlock i).height = i := rfl
  have hdelay : redenominationDelayBlocks = 100 := rfl
  rcases Nat.lt_trichotomy i lastV1Height with hlt | rfl | hgt
  · have hv1 : ¬isV2PricingHeight ((poorBlock i).height + 1) = true := by
      rw [isV2PricingHeight_succ_iff, hheight]
      omega
    have hzero : (poorBlock i).redenominationHeight = 0 := if_pos hlt.le
    have hzero' : (poorBlock (i + 1)).redenominationHeight = 0 := if_pos hlt
    rw [mayBeRedenominate, if_neg hv1, hzero, hzero', poorBlock_denomination (by omega), poorBlock_denomination (by omega)]
  · decide
  · have hv2 : isV2PricingHeight ((poorBlock i).height + 1) = true := by
      rw [isV2PricingHeight_succ_iff, hheight]
      omega
    rw [mayBeRedenominate, if_pos hv2, poorBlock_redenominationHeight hgt, poorBlock_redenominationHeight (by omega),
      hheight, poorBlock_denomination (by omega)]
    by_cases hat : i = lastV1Height + redenominationDelayBlocks
    · have hnext : (poorBlock (i + 1)).denomination = 2 := if_neg (by omega)
      rw [if_pos hat, hnext]
    · rw [if_neg hat, if_pos (by omega), poorBlock_denomination (by omega)]

theorem redenomination_is_announced_poorBlock :
    Redenominates poorBlock (lastV1Height + redenominationDelayBlocks + 1) ∧
      (poorBlock (lastV1Height + redenominationDelayBlocks + 1)).denomination =
        (poorBlock (lastV1Height + redenominationDelayBlocks)).denomination + 1 :=
  ⟨redenominates_poorBlock,
    (redenomination_is_announced redenominates_poorBlock (Nat.lt_succ_self _) (by decide)).1⟩

end Arweave.Ledger

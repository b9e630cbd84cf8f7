import Arweave.Ledger.Rewards

/-!
# The price of storage

The price of a gibibyte minute, estimated by `ar_pricing` from the histories of hash rates, rewards
and block times. A division by zero is `none`, as is an amount that cannot be redenominated.
-/

namespace Arweave.Ledger
open Arweave.Lib Arweave.Tx

def recallRangeSize : Int := 104857600

def pricePerGiBMinutePreTransition : Int := 400

def priceAdjustmentFrequency : Nat := 50

/-- An element of the block time history. Blocks of one chunk are told from blocks of two. -/
structure BlockTime where
  blockInterval : Nat
  vdfInterval : Nat
  chunkCount : Nat
  blockInterval_pos : 0 < blockInterval

/-- The fields of a block that the prices depend on. -/
structure PricedBlock where
  height : Nat
  diff : Int
  rewardAddr : Option Bytes
  rewardHistory : List RewardEntry
  blockTimeHistory : List BlockTime
  denomination : Nat
  pricePerGiBMinute : Int
  scheduledPricePerGiBMinute : Int

def divide (dividend divisor : Int) : Option Int := if divisor = 0 then none else some (dividend.tdiv divisor)

/-- The total hash rate and reward of a history. -/
def rewardTotals (rewardHistory : List RewardEntry) (denomination2 : Nat) : Option (Int × Int) :=
  rewardHistory.foldlM (fun acc entry => do
    let reward2 ← redenominate entry.reward entry.denomination denomination2
    some (acc.1 + entry.hashRate, acc.2 + reward2)) (0, 0)

structure BlockTimeTotals where
  intervalTotal : Nat
  vdfIntervalTotal : Nat
  oneChunkCount : Nat
  twoChunkCount : Nat

def blockTimeTotals (blockTimeHistory : List BlockTime) : BlockTimeTotals :=
  blockTimeHistory.foldl (fun acc time =>
    { intervalTotal := acc.intervalTotal + time.blockInterval
      vdfIntervalTotal := acc.vdfIntervalTotal + time.vdfInterval
      oneChunkCount := if time.chunkCount = 1 then acc.oneChunkCount + 1 else acc.oneChunkCount
      twoChunkCount := if time.chunkCount = 1 then acc.twoChunkCount else acc.twoChunkCount + 1 }) ⟨0, 0, 0, 0⟩

def solutionsPerPartitionPerVDFStep (oneChunkCount twoChunkCount : Nat) : Int :=
  if oneChunkCount = 0 then (2 * recallRangeSize).tdiv dataChunkSize
  else
    (min (2 * recallRangeSize) (recallRangeSize + (recallRangeSize * twoChunkCount).tdiv oneChunkCount)).tdiv
      dataChunkSize

def getPricePerGiBMinute2 (height : Nat) (rewardHistory : List RewardEntry) (blockTimeHistory : List BlockTime)
    (denomination2 : Nat) : Option Int := do
  let (hashRateTotal, rewardTotal) ← rewardTotals rewardHistory denomination2
  if Fork.height_2_7 + blockTimeHistoryBlocks ≤ height then
    let totals := blockTimeTotals blockTimeHistory
    divide
      (solutionsPerPartitionPerVDFStep totals.oneChunkCount totals.twoChunkCount * totals.vdfIntervalTotal *
        max 1 rewardTotal * gib * 60)
      (totals.intervalTotal * max 1 hashRateTotal * partitionSize)
  else
    let solutionsPerPartitionPerSecond := (2 * recallRangeSize).tdiv dataChunkSize
    let solutionsPerPartitionPerMinute := solutionsPerPartitionPerSecond * 60
    let solutionsPerPartitionPerBlock := solutionsPerPartitionPerMinute * 2
    divide (max 1 rewardTotal * gib * solutionsPerPartitionPerBlock) (max 1 hashRateTotal * partitionSize * 2)

def getPricePerGiBMinute (height : Nat) (rewardHistory : List RewardEntry) (blockTimeHistory : List BlockTime)
    (denomination2 : Nat) : Option Int := do
  let priceTransitionStart := Fork.height_2_6_8 + price_2_6_8_TransitionStart
  let priceTransitionEnd := priceTransitionStart + price_2_6_8_TransitionBlocks
  let newPrice ← getPricePerGiBMinute2 height rewardHistory blockTimeHistory denomination2
  if height < Fork.height_2_7 then some newPrice
  else if height < priceTransitionStart then some pricePerGiBMinutePreTransition
  else if height < priceTransitionEnd then
    let interval1 : Int := height - priceTransitionStart
    let interval2 : Int := priceTransitionEnd - height
    divide (pricePerGiBMinutePreTransition * interval2 + newPrice * interval1) (interval1 + interval2)
  else some newPrice

def getInitialCurrentAndScheduledPricePerGiBMinute (b : PricedBlock) : Option (Int × Int) := do
  let reward ← calculateInflation b.height
  let price ← getPricePerGiBMinute b.height [⟨b.rewardAddr, getHashRate b.diff, reward, 1⟩] b.blockTimeHistory 1
  some (price, price)

def isPriceAdjustmentHeight (height : Nat) : Bool := height % priceAdjustmentFrequency = 0

/-- The price that the histories of a block give for the next one. -/
def targetPrice (b : PricedBlock) : Option Int :=
  getPricePerGiBMinute (b.height + 1) (b.rewardHistory.take rewardHistoryBlocks)
    (b.blockTimeHistory.take blockTimeHistoryBlocks) b.denomination

/-- The moving average of the scheduled and the target price, at most twice and at least half of the
scheduled price. -/
def nextScheduledPrice (scheduledPrice targetPrice : Int) : Int :=
  max (scheduledPrice.tdiv 2) (min (scheduledPrice * 2) ((9 * scheduledPrice + targetPrice).tdiv 10))

def recalculatePricePerGiBMinute2 (b : PricedBlock) : Option (Int × Int) :=
  let height := b.height + 1
  if height = Fork.height_2_7 then some (pricePerGiBMinutePreTransition, pricePerGiBMinutePreTransition)
  else if height < Fork.height_2_7_1 then
    if isPriceAdjustmentHeight height then do
      let target ← targetPrice b
      some (b.scheduledPricePerGiBMinute, max (b.pricePerGiBMinute.tdiv 2) (min (b.pricePerGiBMinute * 2) target))
    else some (b.pricePerGiBMinute, b.scheduledPricePerGiBMinute)
  else if isPriceAdjustmentHeight height then do
    let target ← targetPrice b
    some (b.scheduledPricePerGiBMinute, nextScheduledPrice b.scheduledPricePerGiBMinute target)
  else some (b.pricePerGiBMinute, b.scheduledPricePerGiBMinute)

/-- There are no such prices before the fork 2.6. -/
def recalculatePricePerGiBMinute (b : PricedBlock) : Option (Int × Int) :=
  if b.height + 1 < Fork.height_2_6 then none
  else if b.height + 1 = Fork.height_2_6 then getInitialCurrentAndScheduledPricePerGiBMinute b
  else recalculatePricePerGiBMinute2 b

section Totals

variable {rewardHistory : List RewardEntry} {blockTimeHistory : List BlockTime} {denomination : Nat}

def totalHashRate (rewardHistory : List RewardEntry) : Int := (rewardHistory.map (·.hashRate)).sum

/-- The total reward in the denomination. -/
def totalReward (denomination : Nat) (rewardHistory : List RewardEntry) : Int :=
  (rewardHistory.map (RewardEntry.value denomination)).sum

def totalInterval (blockTimeHistory : List BlockTime) : Nat := (blockTimeHistory.map (·.blockInterval)).sum

def totalVdfInterval (blockTimeHistory : List BlockTime) : Nat := (blockTimeHistory.map (·.vdfInterval)).sum

/-- The solutions that a partition has in a step, from the shares of blocks with one and two chunks. -/
def solutionsPerStep (blockTimeHistory : List BlockTime) : Int :=
  solutionsPerPartitionPerVDFStep (blockTimeHistory.countP (·.chunkCount = 1)) (blockTimeHistory.countP (·.chunkCount ≠ 1))

lemma rewardTotals_eq (h : ∀ entry ∈ rewardHistory, entry.denomination ≤ denomination) :
    rewardTotals rewardHistory denomination = some (totalHashRate rewardHistory, totalReward denomination rewardHistory) := by
  have hfold : ∀ a b : Int, rewardHistory.foldlM (fun acc entry => do
      let reward2 ← redenominate entry.reward entry.denomination denomination
      some (acc.1 + entry.hashRate, acc.2 + reward2)) (a, b) =
      some (a + totalHashRate rewardHistory, b + totalReward denomination rewardHistory) := by
    induction rewardHistory with
    | nil => simp [totalHashRate, totalReward]
    | cons entry rewardHistory ih =>
      intro a b
      rw [List.forall_mem_cons] at h
      have hvalue : redenominate entry.reward entry.denomination denomination = some (entry.value denomination) :=
        redenominate_eq_some.mpr ⟨h.1, rfl⟩
      rw [List.foldlM_cons]
      simp only [hvalue, bind, Option.bind_some]
      have hrest := ih h.2 (a + entry.hashRate) (b + entry.value denomination)
      simp only [bind] at hrest
      rw [hrest]
      simp only [totalHashRate, totalReward, List.map_cons, List.sum_cons, add_assoc]
  have hzero := hfold 0 0
  rw [zero_add, zero_add] at hzero
  exact hzero

lemma blockTimeTotals_eq : blockTimeTotals blockTimeHistory = ⟨totalInterval blockTimeHistory, totalVdfInterval blockTimeHistory,
    blockTimeHistory.countP (·.chunkCount = 1), blockTimeHistory.countP (·.chunkCount ≠ 1)⟩ := by
  have hfold : ∀ a b c d : Nat, blockTimeHistory.foldl (fun acc time =>
      BlockTimeTotals.mk (acc.intervalTotal + time.blockInterval) (acc.vdfIntervalTotal + time.vdfInterval)
        (if time.chunkCount = 1 then acc.oneChunkCount + 1 else acc.oneChunkCount)
        (if time.chunkCount = 1 then acc.twoChunkCount else acc.twoChunkCount + 1)) ⟨a, b, c, d⟩ =
      ⟨a + totalInterval blockTimeHistory, b + totalVdfInterval blockTimeHistory,
        c + blockTimeHistory.countP (·.chunkCount = 1), d + blockTimeHistory.countP (·.chunkCount ≠ 1)⟩ := by
    induction blockTimeHistory with
    | nil => simp [totalInterval, totalVdfInterval]
    | cons time blockTimeHistory ih =>
      intro a b c d
      rw [List.foldl_cons, ih, List.countP_cons, List.countP_cons]
      simp only [totalInterval, totalVdfInterval, List.map_cons, List.sum_cons, add_assoc]
      by_cases hone : time.chunkCount = 1
      · simp [hone]
        omega
      · simp [hone]
        omega
  have hzero := hfold 0 0 0 0
  simp only [zero_add] at hzero
  exact hzero

lemma solutionsPerStep_nonneg : 0 ≤ solutionsPerStep blockTimeHistory := by
  have hrange : 0 ≤ recallRangeSize := by decide
  have hchunk : (0 : Int) ≤ dataChunkSize := by decide
  unfold solutionsPerStep solutionsPerPartitionPerVDFStep
  split_ifs with hzero
  · exact Int.tdiv_nonneg (by omega) hchunk
  · apply Int.tdiv_nonneg _ hchunk
    have hratio := Int.tdiv_nonneg (mul_nonneg hrange (Int.natCast_nonneg (blockTimeHistory.countP (·.chunkCount ≠ 1))))
      (Int.natCast_nonneg (blockTimeHistory.countP (·.chunkCount = 1)))
    exact le_min (by omega) (by omega)

lemma totalInterval_pos (h : blockTimeHistory ≠ []) : 0 < totalInterval blockTimeHistory := by
  cases blockTimeHistory with
  | nil => exact absurd rfl h
  | cons time blockTimeHistory =>
    have hpos := time.blockInterval_pos
    rw [totalInterval, List.map_cons, List.sum_cons]
    omega

end Totals

section Positive

/-- The histories are there, and the rewards are in denominations up to that of the block. -/
structure PricedBlock.WellFormed (b : PricedBlock) : Prop where
  rewardHistory_ne : b.rewardHistory ≠ []
  blockTimeHistory_ne : b.blockTimeHistory ≠ []
  denomination_le : ∀ entry ∈ b.rewardHistory, entry.denomination ≤ b.denomination

/-- The rewards of the histories are not too small for the hash rates: the total interval times the
total hash rate and the partition size is at most the solutions in all steps times the total reward,
for a gibibyte and sixty seconds. -/
def PricedBlock.Sufficient (b : PricedBlock) : Prop :=
  let rewardHistory := b.rewardHistory.take rewardHistoryBlocks
  let blockTimeHistory := b.blockTimeHistory.take blockTimeHistoryBlocks
  totalInterval blockTimeHistory * max 1 (totalHashRate rewardHistory) * partitionSize ≤
    solutionsPerStep blockTimeHistory * totalVdfInterval blockTimeHistory * max 1 (totalReward b.denomination rewardHistory) *
      gib * 60

instance (b : PricedBlock) : Decidable b.Sufficient := inferInstanceAs (Decidable (_ ≤ _))

variable {b : PricedBlock} {a c s target : Int}

lemma one_le_tdiv_iff (ha : 0 ≤ a) (hc : 0 < c) : 1 ≤ a.tdiv c ↔ c ≤ a := by
  rw [Int.tdiv_eq_ediv_of_nonneg ha, Int.le_ediv_iff_mul_le hc, one_mul]

lemma exists_targetPrice (hb : b.WellFormed) (hv2 : isV2PricingHeight (b.height + 1) = true) :
    ∃ price, targetPrice b = some price ∧ 0 ≤ price ∧ (1 ≤ price ↔ b.Sufficient) := by
  rw [isV2PricingHeight, decide_eq_true_eq] at hv2
  have htake : b.blockTimeHistory.take blockTimeHistoryBlocks ≠ [] := by
    rw [ne_eq, List.take_eq_nil_iff, not_or]
    exact ⟨by decide, hb.blockTimeHistory_ne⟩
  have hden : ∀ entry ∈ b.rewardHistory.take rewardHistoryBlocks, entry.denomination ≤ b.denomination :=
    fun entry hentry => hb.denomination_le entry (List.mem_of_mem_take hentry)
  have hinterval := totalInterval_pos htake
  set rewardHistory := b.rewardHistory.take rewardHistoryBlocks with hreward
  set blockTimeHistory := b.blockTimeHistory.take blockTimeHistoryBlocks with htime
  have hdivisor : 0 < totalInterval blockTimeHistory * max 1 (totalHashRate rewardHistory) * partitionSize := by
    have hsize : (0 : Int) < partitionSize := by decide
    have hrate : 0 < max 1 (totalHashRate rewardHistory) := lt_max_of_lt_left Int.one_pos
    positivity
  have hdividend : 0 ≤ solutionsPerStep blockTimeHistory * totalVdfInterval blockTimeHistory *
      max 1 (totalReward b.denomination rewardHistory) * gib * 60 := by
    have hsolutions := @solutionsPerStep_nonneg blockTimeHistory
    have hgib : 0 ≤ gib := by decide
    have htotal : 0 ≤ max 1 (totalReward b.denomination rewardHistory) := le_max_of_le_left Int.one_nonneg
    positivity
  refine ⟨_, ?_, Int.tdiv_nonneg hdividend hdivisor.le, one_le_tdiv_iff hdividend hdivisor⟩
  rw [targetPrice, getPricePerGiBMinute, getPricePerGiBMinute2, rewardTotals_eq hden]
  simp only [bind, Option.bind_some, blockTimeTotals_eq]
  have hhistory : Fork.height_2_7 + blockTimeHistoryBlocks ≤ b.height + 1 := by
    simp only [Fork.height_2_7, Fork.height_2_6_8, blockTimeHistoryBlocks, price_2_6_8_TransitionStart,
      price_2_6_8_TransitionBlocks] at *
    omega
  rw [if_pos hhistory, ← solutionsPerStep, divide, if_neg hdivisor.ne', Option.bind_some]
  rw [if_neg (by omega), if_neg (by omega), if_neg (by omega)]

lemma one_le_nextScheduledPrice (hs : 1 ≤ s) (htarget : 1 ≤ target) : 1 ≤ nextScheduledPrice s target := by
  unfold nextScheduledPrice
  rw [Int.tdiv_eq_ediv_of_nonneg (by omega), Int.tdiv_eq_ediv_of_nonneg (by omega)]
  omega

lemma nextScheduledPrice_eq_zero_iff (hs : 1 ≤ s) (htarget : 0 ≤ target) :
    nextScheduledPrice s target = 0 ↔ s = 1 ∧ target = 0 := by
  unfold nextScheduledPrice
  rw [Int.tdiv_eq_ediv_of_nonneg (by omega), Int.tdiv_eq_ediv_of_nonneg (by omega)]
  omega

lemma nextScheduledPrice_zero (htarget : 0 ≤ target) : nextScheduledPrice 0 target = 0 := by
  unfold nextScheduledPrice
  rw [Int.tdiv_eq_ediv_of_nonneg (by omega), Int.tdiv_eq_ediv_of_nonneg (by omega)]
  omega

lemma recalculatePricePerGiBMinute_eq (hv2 : isV2PricingHeight (b.height + 1) = true) (htarget : targetPrice b = some target) :
    recalculatePricePerGiBMinute b =
      some (if isPriceAdjustmentHeight (b.height + 1) then
        (b.scheduledPricePerGiBMinute, nextScheduledPrice b.scheduledPricePerGiBMinute target)
      else (b.pricePerGiBMinute, b.scheduledPricePerGiBMinute)) := by
  rw [isV2PricingHeight, decide_eq_true_eq] at hv2
  have hlarge : Fork.height_2_6 < b.height + 1 ∧ Fork.height_2_7 < b.height + 1 ∧ Fork.height_2_7_1 ≤ b.height + 1 := by
    simp only [Fork.height_2_6, Fork.height_2_7, Fork.height_2_7_1, Fork.height_2_6_8, price_2_6_8_TransitionStart,
      price_2_6_8_TransitionBlocks] at *
    omega
  rw [recalculatePricePerGiBMinute, if_neg (by omega), if_neg (by omega), recalculatePricePerGiBMinute2]
  rw [if_neg (by omega), if_neg (by omega), htarget]
  split_ifs with hadjust
  · rfl
  · rfl

end Positive

section Run

/-- Blocks from the version two of the pricing on, with the prices that `ar_pricing` recalculates. -/
structure Recalculates (blocks : Nat → PricedBlock) (n : Nat) : Prop where
  isV2 : isV2PricingHeight ((blocks 0).height + 1) = true
  wellFormed : ∀ i ≤ n, (blocks i).WellFormed
  height : ∀ i < n, (blocks (i + 1)).height = (blocks i).height + 1
  recalculate : ∀ i < n, recalculatePricePerGiBMinute (blocks i) =
    some ((blocks (i + 1)).pricePerGiBMinute, (blocks (i + 1)).scheduledPricePerGiBMinute)

variable {blocks : Nat → PricedBlock} {n i : Nat}

lemma Recalculates.isV2_of_le (h : Recalculates blocks n) (hi : i ≤ n) :
    isV2PricingHeight ((blocks i).height + 1) = true := by
  induction i with
  | zero => exact h.isV2
  | succ i ih =>
    have hprev := ih (by omega)
    rw [isV2PricingHeight, decide_eq_true_eq] at hprev ⊢
    rw [h.height i (by omega)]
    omega

lemma Recalculates.scheduled_succ (h : Recalculates blocks n) (hi : i < n) :
    ∃ price, targetPrice (blocks i) = some price ∧ 0 ≤ price ∧ (1 ≤ price ↔ (blocks i).Sufficient) ∧
      (blocks (i + 1)).scheduledPricePerGiBMinute =
        if isPriceAdjustmentHeight ((blocks i).height + 1) then
          nextScheduledPrice (blocks i).scheduledPricePerGiBMinute price
        else (blocks i).scheduledPricePerGiBMinute := by
  have hv2 := h.isV2_of_le hi.le
  obtain ⟨price, htarget, hnonneg, hone⟩ := exists_targetPrice (h.wellFormed i hi.le) hv2
  refine ⟨price, htarget, hnonneg, hone, ?_⟩
  have hstep := h.recalculate i hi
  rw [recalculatePricePerGiBMinute_eq hv2 htarget, Option.some.injEq] at hstep
  split_ifs at hstep ⊢ with hadjust
  · exact (congrArg Prod.snd hstep).symm
  · exact (congrArg Prod.snd hstep).symm

end Run

/-- A block before an adjustment height, with a reward of one AR for the given hash rate. -/
def samplePricedBlock (hashRate : Int) : PricedBlock where
  height := 1799999
  diff := 0
  rewardAddr := none
  rewardHistory := [⟨none, hashRate, 10 ^ 12, 1⟩]
  blockTimeHistory := [⟨120, 120, 1, by decide⟩]
  denomination := 1
  pricePerGiBMinute := 1
  scheduledPricePerGiBMinute := 1

def pricedChain : Nat → PricedBlock
  | 0 => samplePricedBlock 1000
  | i + 1 => { samplePricedBlock 1000 with height := 1800000 + i, scheduledPricePerGiBMinute := 2 }

lemma recalculates_pricedChain : Recalculates pricedChain 1 := by
  refine ⟨by decide, ?_, ?_, ?_⟩
  · intro i hi
    obtain rfl | rfl : i = 0 ∨ i = 1 := by omega
    · exact ⟨List.cons_ne_nil _ _, List.cons_ne_nil _ _, by decide⟩
    · exact ⟨List.cons_ne_nil _ _, List.cons_ne_nil _ _, by decide⟩
  · intro i hi
    obtain rfl : i = 0 := by omega
    rfl
  · intro i hi
    obtain rfl : i = 0 := by omega
    decide

end Arweave.Ledger

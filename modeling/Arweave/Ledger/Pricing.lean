import Arweave.Ledger.Conservation

/-!
# Block rewards

The inflation schedule and the reward of a block, from `ar_inflation` and `ar_pricing`. A miner
gets the inflation and a share of the fees. When this does not pay for the storage of the
weave, the rest is taken from the endowment pool, and what the pool does not have is new debt.
-/

namespace Arweave.Ledger
open Arweave.Lib Arweave.Tx

-- `ar.hrl`, `ar_inflation.hrl` and `ar_pricing.hrl`

def genesisTokens : Int := 55000000

def winstonPerAr : Int := 1000000000000

def blocksPerYear : Nat := 30 * 24 * 365

def ln2 : Int × Int := (6931471805599453, 10000000000000000)

def inflationNaturalExponentDecimalFractionPrecision : Nat := 24

def post15Y1Extra : Int := 13275279633337

def fork15Height : Nat := 95000

def minerFeeShare : Int × Int := (1, 21)

def resetKryderPlusLatchThreshold : Int := 10000000000000000

def price_2_6_8_TransitionBlocks : Nat := 30 * 24 * 30 * 18

/-- `ar_pricing:is_v2_pricing_height/1` -/
def isV2PricingHeight (height : Nat) : Bool :=
  Fork.height_2_6_8 + price_2_6_8_TransitionStart + price_2_6_8_TransitionBlocks ≤ height

/-- `ar_fraction:natural_exponent_dividend/4`: the Taylor series, from its last term on. -/
def naturalExponentDividend (x : Int × Int) : Nat → Nat → Int → Int
  | 0, k, m => x.1 ^ 0 * x.2 ^ k * m
  | p + 1, k, m => x.1 ^ (p + 1) * x.2 ^ k * m + naturalExponentDividend x p (k + 1) (m * (p + 1))

/-- `ar_fraction:natural_exponent/2` -/
def naturalExponent (x : Int × Int) (p : Nat) : Int × Int :=
  if x.1 = 0 then (1, 1) else (naturalExponentDividend x p 0 1, x.2 ^ p * p.factorial)

/-- `ar_inflation:calculate_base/1` -/
def calculateBase (height : Nat) : Int :=
  let exponent := naturalExponent (height * ln2.1, blocksPerYear * ln2.2)
    inflationNaturalExponentDecimalFractionPrecision
  (genesisTokens * winstonPerAr * exponent.2 * 2 * ln2.1).tdiv (10 * blocksPerYear * ln2.2 * exponent.1)

/-- `ar_inflation:calculate/1`. In the first blocks and between the first year and the fork 2.5
the source computes in floating point, which is not modelled. -/
def calculateInflation (height : Nat) : Option Int :=
  if height ≤ fork15Height then none
  else if height ≤ blocksPerYear then some (calculateBase height + post15Y1Extra)
  else if Fork.height_2_5 ≤ height then some (calculateBase height)
  else none

/-- `distribute_transaction_fees2/4`: what the endowment pool and the miner get. -/
def distributeTransactionFees2From (denomination : Nat) : List TX → Int → Int → Option (Int × Int)
  | [], endowmentPoolTotal, minerTotal => some (endowmentPoolTotal, minerTotal)
  | tx :: txs, endowmentPoolTotal, minerTotal => do
    let txFee ← redenominate tx.reward tx.denomination denomination
    let minerFee := (txFee * minerFeeShare.1).tdiv minerFeeShare.2
    distributeTransactionFees2From denomination txs (endowmentPoolTotal + txFee - minerFee) (minerTotal + minerFee)

def distributeTransactionFees2 (txs : List TX) (denomination : Nat) : Option (Int × Int) :=
  distributeTransactionFees2From denomination txs 0 0

/-- What the reward of a block depends on. -/
structure PricingArgs where
  endowmentPool : Int
  debtSupply : Int
  txs : List TX
  weaveSize : Nat
  height : Nat
  gibMinutePrice : Nat
  kryderPlusRateMultiplierLatch : Nat
  kryderPlusRateMultiplier : Nat
  denomination : Nat
  blockInterval : Int

/-- The reward of a block, and the endowment pool, the debt and the multiplier after it. -/
structure RewardUpdate where
  minerReward : Int
  endowmentPool : Int
  debtSupply : Int
  kryderPlusRateMultiplierLatch : Nat
  kryderPlusRateMultiplier : Nat
  deriving DecidableEq, Repr

/-- The latch and the multiplier after a block that takes from the pool. The fees are doubled
when the pool gets empty, and not again before the pool has recovered. -/
def updateKryderPlusRateMultiplier (isShort : Bool) (latch multiplier : Nat) (endowmentPool3 : Int)
    (denomination : Nat) : Option (Nat × Nat) :=
  match isShort, latch with
  | true, 0 => some (1, multiplier * 2)
  | false, 1 => do
    let threshold ← redenominate resetKryderPlusLatchThreshold 1 denomination
    some (if threshold < endowmentPool3 then (0, multiplier) else (1, multiplier))
  | _, _ => some (latch, multiplier)

def getMinerRewardEndowmentPoolDebtSupply (args : PricingArgs) : Option RewardUpdate := do
  let inflation ← redenominate (← calculateInflation args.height) 1 args.denomination
  let expectedReward :=
    (nReplications args.height * args.weaveSize * args.gibMinutePrice * args.blockInterval).tdiv (60 * gib)
  let (endowmentPoolFeeShare, minerFeeShare) ← distributeTransactionFees2 args.txs args.denomination
  let baseReward := inflation + minerFeeShare
  let endowmentPool2 := args.endowmentPool + endowmentPoolFeeShare
  if expectedReward ≤ baseReward then
    some ⟨baseReward, endowmentPool2, args.debtSupply, args.kryderPlusRateMultiplierLatch,
      args.kryderPlusRateMultiplier⟩
  else
    let take := expectedReward - baseReward
    let (endowmentPool3, debtSupply2) :=
      if endowmentPool2 < take then (0, args.debtSupply + take - endowmentPool2)
      else (endowmentPool2 - take, args.debtSupply)
    let (latch2, multiplier2) ← updateKryderPlusRateMultiplier (endowmentPool2 < take)
      args.kryderPlusRateMultiplierLatch args.kryderPlusRateMultiplier endowmentPool3 args.denomination
    some ⟨baseReward + take, endowmentPool3, debtSupply2, latch2, multiplier2⟩

lemma naturalExponentDividend_nonneg {x : Int × Int} (hdividend : 0 ≤ x.1) (hdivisor : 0 ≤ x.2) (p k : Nat) {m : Int}
    (hm : 0 ≤ m) : 0 ≤ naturalExponentDividend x p k m := by
  induction p generalizing k m with
  | zero =>
    unfold naturalExponentDividend
    positivity
  | succ p ih =>
    unfold naturalExponentDividend
    have := ih (k + 1) (m := m * (p + 1)) (by positivity)
    positivity

lemma calculateBase_nonneg (height : Nat) : 0 ≤ calculateBase height := by
  have hexponent : ∀ x : Int × Int, 0 ≤ x.1 → 0 ≤ x.2 → ∀ p,
      0 ≤ (naturalExponent x p).1 ∧ 0 ≤ (naturalExponent x p).2 := by
    intro x hdividend hdivisor p
    unfold naturalExponent
    split_ifs
    · simp
    · exact ⟨naturalExponentDividend_nonneg hdividend hdivisor p 0 (by norm_num), by positivity⟩
  unfold calculateBase
  have h := hexponent (height * ln2.1, blocksPerYear * ln2.2) (by simp [ln2]) (by simp [ln2])
    inflationNaturalExponentDecimalFractionPrecision
  apply Int.tdiv_nonneg
  · have := h.2
    simp only [genesisTokens, winstonPerAr, ln2] at *
    positivity
  · have := h.1
    simp only [ln2] at *
    positivity

lemma calculateInflation_nonneg {height : Nat} {inflation : Int} (h : calculateInflation height = some inflation) :
    0 ≤ inflation := by
  have hbase := calculateBase_nonneg height
  unfold calculateInflation at h
  split_ifs at h
  · cases h
    unfold post15Y1Extra
    omega
  · cases h
    exact hbase

section Fees

variable {txs : List TX} {denomination : Nat} {pool miner pool2 miner2 : Int}

lemma distributeTransactionFees2From_eq_some
    (h : distributeTransactionFees2From denomination txs pool miner = some (pool2, miner2)) :
    ∃ rewards, totalRewards txs denomination = some rewards ∧ pool2 + miner2 = pool + miner + rewards ∧
      ((∀ tx ∈ txs, 0 ≤ tx.reward) → pool ≤ pool2 ∧ miner ≤ miner2) := by
  induction txs generalizing pool miner with
  | nil =>
    cases h
    exact ⟨0, rfl, by ring, fun _ => ⟨le_rfl, le_rfl⟩⟩
  | cons tx txs ih =>
    unfold distributeTransactionFees2From at h
    simp only [bind, Option.bind_eq_some_iff, redenominate_eq_some] at h
    obtain ⟨_, ⟨hle, rfl⟩, hrest⟩ := h
    obtain ⟨rewards, hrewards, hsum, hmono⟩ := ih hrest
    refine ⟨_, totalRewards_cons hrewards hle, by rw [hsum]; ring, ?_⟩
    intro hnonneg
    rw [List.forall_mem_cons] at hnonneg
    obtain ⟨hpool, hminer⟩ := hmono hnonneg.2
    have hfee : 0 ≤ tx.reward * scale tx.denomination denomination :=
      mul_nonneg hnonneg.1 (scale_pos _ _).le
    simp only [minerFeeShare] at hpool hminer
    have hshare := Int.tdiv_nonneg (b := 21) (show 0 ≤ tx.reward * scale tx.denomination denomination * 1 by omega)
      (by norm_num)
    have hpart := Int.tdiv_le_self 21 (show 0 ≤ tx.reward * scale tx.denomination denomination * 1 by omega)
    omega

end Fees

/-- The fees and the inflation are paid out, added to the pool or taken off the debt. -/
lemma getMinerRewardEndowmentPoolDebtSupply_conserves {args : PricingArgs} {update : RewardUpdate}
    (h : getMinerRewardEndowmentPoolDebtSupply args = some update) :
    ∃ baseInflation inflation rewards, calculateInflation args.height = some baseInflation ∧
      redenominate baseInflation 1 args.denomination = some inflation ∧
      totalRewards args.txs args.denomination = some rewards ∧
      update.minerReward + update.endowmentPool - update.debtSupply =
        args.endowmentPool - args.debtSupply + inflation + rewards ∧
      args.debtSupply ≤ update.debtSupply ∧
      (0 ≤ args.endowmentPool → (∀ tx ∈ args.txs, 0 ≤ tx.reward) →
        0 ≤ update.minerReward ∧ 0 ≤ update.endowmentPool) := by
  unfold getMinerRewardEndowmentPoolDebtSupply at h
  simp only [bind, Option.bind_eq_some_iff] at h
  obtain ⟨baseInflation, hbase, inflation, hinflation, ⟨poolShare, minerShare⟩, hshares, h⟩ := h
  obtain ⟨rewards, hrewards, hsum, hmono⟩ := distributeTransactionFees2From_eq_some hshares
  refine ⟨baseInflation, inflation, rewards, hbase, hinflation, hrewards, ?_⟩
  have hnonneg : 0 ≤ inflation := by
    obtain ⟨-, rfl⟩ := redenominate_eq_some.mp hinflation
    exact mul_nonneg (calculateInflation_nonneg hbase) (scale_pos _ _).le
  dsimp only at h
  -- the two cases are whether the inflation and the fees pay for the storage
  split_ifs at h with hpaid hshort
  · cases h
    refine ⟨by dsimp only; omega, le_rfl, fun hpool htxs => ?_⟩
    have := hmono htxs
    dsimp only
    omega
  · rw [Option.bind_eq_some_iff] at h
    obtain ⟨_, -, hupdate⟩ := h
    cases hupdate
    refine ⟨by dsimp only; omega, by dsimp only; omega, fun hpool htxs => ?_⟩
    have := hmono htxs
    dsimp only
    omega
  · rw [Option.bind_eq_some_iff] at h
    obtain ⟨_, -, hupdate⟩ := h
    cases hupdate
    refine ⟨by dsimp only; omega, le_rfl, fun hpool htxs => ?_⟩
    have := hmono htxs
    dsimp only
    omega

end Arweave.Ledger

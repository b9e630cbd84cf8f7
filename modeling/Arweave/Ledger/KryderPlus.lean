import Arweave.Ledger.Pricing

/-!
# The Kryder+ rate multiplier

The multiplier is doubled when the endowment pool cannot pay for the storage of the weave, and
the latch keeps it from being doubled again before the pool has recovered.
-/

namespace Arweave.Ledger
open Arweave.Lib Arweave.Tx

/-- The inflation, the fees and the endowment pool do not pay for the storage of the weave. -/
def isShort (args : PricingArgs) : Option Bool := do
  let inflation ← redenominate (← calculateInflation args.height) 1 args.denomination
  let expectedReward :=
    (nReplications args.height * args.weaveSize * args.gibMinutePrice * args.blockInterval).tdiv (60 * gib)
  let (endowmentPoolFeeShare, minerFeeShare) ← distributeTransactionFees2 args.txs args.denomination
  let baseReward := inflation + minerFeeShare
  some (baseReward < expectedReward && args.endowmentPool + endowmentPoolFeeShare < expectedReward - baseReward)

/-- The pool after a block is above the reset threshold in the denomination of the block. -/
def ExceedsThreshold (args : PricingArgs) (update : RewardUpdate) : Prop :=
  ∃ threshold, redenominate resetKryderPlusLatchThreshold 1 args.denomination = some threshold ∧
    threshold < update.endowmentPool

/-- What a block does to the pool, the debt, the latch and the multiplier when the pool is short. -/
structure ShortUpdate (args : PricingArgs) (update : RewardUpdate) : Prop where
  endowmentPool : update.endowmentPool = 0
  latch : args.kryderPlusRateMultiplierLatch = 0 ∧ update.kryderPlusRateMultiplierLatch = 1 ∧
      update.kryderPlusRateMultiplier = args.kryderPlusRateMultiplier * 2 ∨
    args.kryderPlusRateMultiplierLatch ≠ 0 ∧
      update.kryderPlusRateMultiplierLatch = args.kryderPlusRateMultiplierLatch ∧
      update.kryderPlusRateMultiplier = args.kryderPlusRateMultiplier

/-- What a block does to them when it is paid for. -/
structure PaidUpdate (args : PricingArgs) (update : RewardUpdate) : Prop where
  debtSupply : update.debtSupply = args.debtSupply
  multiplier : update.kryderPlusRateMultiplier = args.kryderPlusRateMultiplier
  latch : update.kryderPlusRateMultiplierLatch = args.kryderPlusRateMultiplierLatch ∨
    args.kryderPlusRateMultiplierLatch = 1 ∧ update.kryderPlusRateMultiplierLatch = 0 ∧ ExceedsThreshold args update

section Step

variable {args : PricingArgs} {update : RewardUpdate} {latch multiplier latch2 multiplier2 denomination : Nat} {pool : Int}

lemma updateKryderPlusRateMultiplier_true
    (h : updateKryderPlusRateMultiplier true latch multiplier pool denomination = some (latch2, multiplier2)) :
    latch = 0 ∧ latch2 = 1 ∧ multiplier2 = multiplier * 2 ∨ latch ≠ 0 ∧ latch2 = latch ∧ multiplier2 = multiplier := by
  cases latch with
  | zero =>
    cases h
    exact .inl ⟨rfl, rfl, rfl⟩
  | succ latch =>
    cases h
    exact .inr ⟨Nat.succ_ne_zero latch, rfl, rfl⟩

lemma updateKryderPlusRateMultiplier_false
    (h : updateKryderPlusRateMultiplier false latch multiplier pool denomination = some (latch2, multiplier2)) :
    multiplier2 = multiplier ∧ (latch2 = latch ∨ latch = 1 ∧ latch2 = 0 ∧
      ∃ threshold, redenominate resetKryderPlusLatchThreshold 1 denomination = some threshold ∧ threshold < pool) := by
  by_cases hone : latch = 1
  · subst hone
    simp only [updateKryderPlusRateMultiplier, bind, Option.bind_eq_some_iff, Option.some.injEq] at h
    obtain ⟨threshold, hthreshold, h⟩ := h
    split_ifs at h with hlt
    · cases h
      exact ⟨rfl, .inr ⟨rfl, rfl, threshold, hthreshold, hlt⟩⟩
    · cases h
      exact ⟨rfl, .inl rfl⟩
  · rw [updateKryderPlusRateMultiplier] at h
    · cases h
      exact ⟨rfl, .inl rfl⟩
    · rintro ⟨⟩
    · intro _ heq
      exact hone heq

lemma getMinerRewardEndowmentPoolDebtSupply_cases (h : getMinerRewardEndowmentPoolDebtSupply args = some update) :
    isShort args = some true ∧ ShortUpdate args update ∨ isShort args = some false ∧ PaidUpdate args update := by
  unfold getMinerRewardEndowmentPoolDebtSupply at h
  simp only [bind, Option.bind_eq_some_iff] at h
  obtain ⟨baseInflation, hbase, inflation, hinflation, ⟨poolShare, minerShare⟩, hshares, h⟩ := h
  unfold isShort
  simp only [bind, hbase, hinflation, hshares, Option.bind_some]
  generalize (nReplications args.height * args.weaveSize * args.gibMinutePrice * args.blockInterval).tdiv (60 * gib) =
    expectedReward at h ⊢
  split_ifs at h with hpaid hless
  · cases h
    refine .inr ⟨?_, rfl, rfl, .inl rfl⟩
    rw [decide_eq_false (not_lt.mpr hpaid), Bool.false_and]
  · rw [Option.bind_eq_some_iff] at h
    obtain ⟨⟨latch, multiplier⟩, hlatch, hupdate⟩ := h
    cases hupdate
    rw [decide_eq_true hless] at hlatch
    refine .inl ⟨?_, rfl, updateKryderPlusRateMultiplier_true hlatch⟩
    rw [decide_eq_true (not_le.mp hpaid), decide_eq_true hless, Bool.and_true]
  · rw [Option.bind_eq_some_iff] at h
    obtain ⟨⟨latch, multiplier⟩, hlatch, hupdate⟩ := h
    cases hupdate
    rw [decide_eq_false hless] at hlatch
    obtain ⟨hmultiplier, hlatch⟩ := updateKryderPlusRateMultiplier_false hlatch
    refine .inr ⟨?_, rfl, hmultiplier, hlatch⟩
    rw [decide_eq_false hless, Bool.and_false]

lemma multiplier_le (h : getMinerRewardEndowmentPoolDebtSupply args = some update) :
    args.kryderPlusRateMultiplier ≤ update.kryderPlusRateMultiplier := by
  rcases getMinerRewardEndowmentPoolDebtSupply_cases h with ⟨-, hshort⟩ | ⟨-, hpaid⟩
  · rcases hshort.latch with ⟨-, -, heq⟩ | ⟨-, -, heq⟩
    · omega
    · exact heq.ge
  · exact hpaid.multiplier.ge

lemma doubles_of_multiplier_ne (h : getMinerRewardEndowmentPoolDebtSupply args = some update)
    (hne : update.kryderPlusRateMultiplier ≠ args.kryderPlusRateMultiplier) :
    update.kryderPlusRateMultiplier = args.kryderPlusRateMultiplier * 2 ∧ isShort args = some true ∧
      args.kryderPlusRateMultiplierLatch = 0 ∧ update.kryderPlusRateMultiplierLatch = 1 := by
  rcases getMinerRewardEndowmentPoolDebtSupply_cases h with ⟨hisShort, hshort⟩ | ⟨-, hpaid⟩
  · rcases hshort.latch with ⟨hzero, hone, heq⟩ | ⟨-, -, heq⟩
    · exact ⟨heq, hisShort, hzero, hone⟩
    · exact absurd heq hne
  · exact absurd hpaid.multiplier hne

lemma latch_of_one (h : getMinerRewardEndowmentPoolDebtSupply args = some update)
    (hone : args.kryderPlusRateMultiplierLatch = 1) :
    update.kryderPlusRateMultiplierLatch = 1 ∨ update.kryderPlusRateMultiplierLatch = 0 ∧ ExceedsThreshold args update := by
  rcases getMinerRewardEndowmentPoolDebtSupply_cases h with ⟨-, hshort⟩ | ⟨-, hpaid⟩
  · rcases hshort.latch with ⟨hzero, -⟩ | ⟨-, heq, -⟩
    · omega
    · exact .inl (heq.trans hone)
  · rcases hpaid.latch with heq | ⟨-, hzero, hexceeds⟩
    · exact .inl (heq.trans hone)
    · exact .inr ⟨hzero, hexceeds⟩

lemma endowmentPool_of_debtSupply_lt (h : getMinerRewardEndowmentPoolDebtSupply args = some update)
    (hlt : args.debtSupply < update.debtSupply) : update.endowmentPool = 0 := by
  rcases getMinerRewardEndowmentPoolDebtSupply_cases h with ⟨-, hshort⟩ | ⟨-, hpaid⟩
  · exact hshort.endowmentPool
  · exact absurd hpaid.debtSupply hlt.ne'

end Step

section Run

/-- Blocks with arbitrary fees, sizes, prices and pools, where every block gets the latch and the
multiplier of the one before. -/
structure Threaded (args : Nat → PricingArgs) (updates : Nat → RewardUpdate) (n : Nat) : Prop where
  update : ∀ i < n, getMinerRewardEndowmentPoolDebtSupply (args i) = some (updates i)
  latch : ∀ i, i + 1 < n →
    (args (i + 1)).kryderPlusRateMultiplierLatch = (updates i).kryderPlusRateMultiplierLatch
  multiplier : ∀ i, i + 1 < n → (args (i + 1)).kryderPlusRateMultiplier = (updates i).kryderPlusRateMultiplier

variable {args : Nat → PricingArgs} {updates : Nat → RewardUpdate} {n i j : Nat}

lemma Threaded.multiplier_mono (h : Threaded args updates n) (hij : i ≤ j) (hj : j < n) :
    (args i).kryderPlusRateMultiplier ≤ (updates j).kryderPlusRateMultiplier := by
  induction j, hij using Nat.le_induction with
  | base => exact multiplier_le (h.update i hj)
  | succ j hij ih =>
    have hstep := multiplier_le (h.update (j + 1) hj)
    rw [h.multiplier j hj] at hstep
    exact (ih (by omega)).trans hstep

lemma Threaded.latch_or_exceeds (h : Threaded args updates n) (hij : i ≤ j) (hj : j < n)
    (hone : (updates i).kryderPlusRateMultiplierLatch = 1) :
    (updates j).kryderPlusRateMultiplierLatch = 1 ∨
      ∃ k, i < k ∧ k ≤ j ∧ (updates k).kryderPlusRateMultiplierLatch = 0 ∧ ExceedsThreshold (args k) (updates k) := by
  induction j, hij using Nat.le_induction with
  | base => exact .inl hone
  | succ j hij ih =>
    rcases ih (by omega) with hset | ⟨k, hik, hkj, hk⟩
    · have hset' : (args (j + 1)).kryderPlusRateMultiplierLatch = 1 := (h.latch j hj).trans hset
      rcases latch_of_one (h.update (j + 1) hj) hset' with hkept | hreset
      · exact .inl hkept
      · exact .inr ⟨j + 1, by omega, le_rfl, hreset⟩
    · exact .inr ⟨k, hik, by omega, hk⟩

/-- Along a run the multiplier never decreases, it changes only by doubling, in a block that is not
paid for and finds the latch at 0, and between two doublings the pool exceeds the threshold and the
latch returns to 0. The debt grows only in blocks that leave the pool empty. -/
theorem kryderPlusRateMultiplier_latched (h : Threaded args updates n) :
    (∀ i j, i ≤ j → j < n → (args i).kryderPlusRateMultiplier ≤ (updates j).kryderPlusRateMultiplier) ∧
      (∀ i < n, (updates i).kryderPlusRateMultiplier ≠ (args i).kryderPlusRateMultiplier →
        (updates i).kryderPlusRateMultiplier = (args i).kryderPlusRateMultiplier * 2 ∧ isShort (args i) = some true ∧
          (args i).kryderPlusRateMultiplierLatch = 0) ∧
      (∀ i j, i < j → j < n → (updates i).kryderPlusRateMultiplier ≠ (args i).kryderPlusRateMultiplier →
        (updates j).kryderPlusRateMultiplier ≠ (args j).kryderPlusRateMultiplier →
        ∃ k, i < k ∧ k < j ∧ (updates k).kryderPlusRateMultiplierLatch = 0 ∧ ExceedsThreshold (args k) (updates k)) ∧
      ∀ i < n, (args i).debtSupply < (updates i).debtSupply → (updates i).endowmentPool = 0 := by
  refine ⟨fun i j hij hj => h.multiplier_mono hij hj, ?_, ?_, ?_⟩
  · intro i hi hne
    obtain ⟨hdouble, hshort, hzero, -⟩ := doubles_of_multiplier_ne (h.update i hi) hne
    exact ⟨hdouble, hshort, hzero⟩
  · intro i j hij hj hnei hnej
    obtain ⟨-, -, -, hone⟩ := doubles_of_multiplier_ne (h.update i (by omega)) hnei
    obtain ⟨-, -, hzero, -⟩ := doubles_of_multiplier_ne (h.update j hj) hnej
    obtain ⟨j, rfl⟩ : ∃ j', j = j' + 1 := ⟨j - 1, by omega⟩
    rw [h.latch j hj] at hzero
    rcases h.latch_or_exceeds (show i ≤ j by omega) (by omega) hone with hset | ⟨k, hik, hkj, hk⟩
    · omega
    · exact ⟨k, hik, by omega, hk⟩
  · exact fun i hi hlt => endowmentPool_of_debtSupply_lt (h.update i hi) hlt

end Run

/-- A block whose storage costs more than the inflation, with the given pool, latch and multiplier. -/
def sampleArgs (endowmentPool : Int) (latch multiplier : Nat) : PricingArgs where
  endowmentPool := endowmentPool
  debtSupply := 0
  txs := []
  weaveSize := 2 ^ 40
  height := 2000000
  gibMinutePrice := 2 ^ 30
  kryderPlusRateMultiplierLatch := latch
  kryderPlusRateMultiplier := multiplier
  denomination := 1
  blockInterval := 120

/-- The pool is empty, then full, and then empty again. -/
def sampleRun : Nat → PricingArgs
  | 0 => sampleArgs 0 0 1
  | 1 => sampleArgs (10 ^ 20) 1 2
  | _ => sampleArgs 0 0 2

def sampleUpdates (i : Nat) : RewardUpdate :=
  (getMinerRewardEndowmentPoolDebtSupply (sampleRun i)).getD ⟨0, 0, 0, 0, 0⟩

lemma threaded_sampleRun : Threaded sampleRun sampleUpdates 3 := by
  refine ⟨?_, ?_, ?_⟩
  · decide
  · intro i hi
    obtain rfl | rfl : i = 0 ∨ i = 1 := by omega
    · decide
    · decide
  · intro i hi
    obtain rfl | rfl : i = 0 ∨ i = 1 := by omega
    · decide
    · decide

theorem kryderPlusRateMultiplier_latched_sampleRun :
    ∃ k, 0 < k ∧ k < 2 ∧ (sampleUpdates k).kryderPlusRateMultiplierLatch = 0 ∧
      ExceedsThreshold (sampleRun k) (sampleUpdates k) :=
  (kryderPlusRateMultiplier_latched threaded_sampleRun).2.2.1 0 2 (by decide) (by decide) (by decide)
    (by decide)

end Arweave.Ledger

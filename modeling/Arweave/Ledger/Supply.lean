import Arweave.Ledger.Rewards

/-!
# The supply

The balances of the accounts, the endowment pool and the reserved rewards, less the debt, are
the supply. Every block adds its inflation, and nothing else.
-/

namespace Arweave.Ledger
open Arweave.Lib Arweave.Lib.Sha2 Arweave.Tx

/-- The rewards in the window of the history that are not released yet. -/
def reservedRewards (accounts : Accounts) (rewardHistory : List RewardEntry) (denomination : Nat) : Option Int := do
  let rewards ← ((rewardHistory.take rewardHistoryBlocks).filter (isReserved accounts)).mapM fun entry =>
    redenominate entry.reward entry.denomination denomination
  some rewards.sum

/-- The supply, in the denomination of the last block. -/
def Chain.supply (s : Chain) : Option Int := do
  let balances ← totalBalance s.accounts s.block.denomination
  let reserved ← reservedRewards s.accounts s.block.rewardHistory s.block.denomination
  some (balances + s.block.rewardPool + reserved - s.block.debtSupply)

/-- The next block has the pricing of version two, all amounts are in denominations from the
first one to that of the block, and the pool is not overdrawn. -/
structure Chain.Sound (s : Chain) : Prop where
  height : isV2PricingHeight (s.block.height + 1) = true
  denomination : 1 ≤ s.block.denomination
  accounts : InDenominations s.block.denomination s.accounts
  rewards : ∀ entry ∈ s.block.rewardHistory.take rewardHistoryBlocks,
    1 ≤ entry.denomination ∧ entry.denomination ≤ s.block.denomination
  rewardPool : 0 ≤ s.block.rewardPool

/-- The keys of a block whose addresses are compared. -/
def Block.keys (b : Block) : List Bytes := b.rewardKey.2 :: (b.doubleSigningProof.map DoubleSigningProof.pub).toList

/-- The account that a block bans. -/
def Block.banned (b : Block) : Option Bytes := b.doubleSigningProof.map DoubleSigningProof.address

/-- The rewards that a block can release or confiscate. -/
def Block.window (b : Block) : List RewardEntry := b.rewardHistory.take rewardHistoryBlocks

/-- The reward of the prover, as `update_accounts5` computes it. -/
def proverReward (b prevB : Block) : Option Int := do
  let addr ← b.banned
  let (sum, sumDenomination) ← getRewardSum addr prevB.window
  let sum2 := (← redenominate sum sumDenomination prevB.denomination) - 1
  let (min?, minDenomination) ← getMinimalReward (prevB.window.take doubleSigningRewardSampleSize)
  let min2 ← redenominate (← min?) minDenomination prevB.denomination
  some (min ((min2 * doubleSigningProverRewardShare.1).tdiv doubleSigningProverRewardShare.2) sum2)

section Fees

variable {args : Args} {tx : TX} {txs : List TX} {accounts : Accounts} {ctx : Context} {pool : Pool}

lemma getTxFeeForSize_nonneg {dataSize : Int} (h : 0 ≤ dataSize) (price multiplier height : Nat) :
    0 ≤ getTxFeeForSize dataSize price multiplier height := by
  have hreplications : 0 ≤ nReplications height := by
    unfold nReplications
    split_ifs <;> norm_num
  have hyear : 0 ≤ dataSize * price * 60 * 24 * 365 := by positivity
  have hperpetual : -(dataSize * price * 60 * 24 * 365) * lnPriceDecayAnnual.2 * multiplier * nReplications height ≤ 0 := by
    have : 0 ≤ dataSize * price * 60 * 24 * 365 * lnPriceDecayAnnual.2 * multiplier * nReplications height := by
      unfold lnPriceDecayAnnual
      positivity
    linarith
  have hdivisor : lnPriceDecayAnnual.1 * gib ≤ 0 := by decide
  unfold getTxFeeForSize multiply add minerMinimumEndowmentContributionShare
  dsimp only
  apply Int.tdiv_nonneg
  · nlinarith [mul_nonneg_of_nonpos_of_nonpos hperpetual hdivisor]
  · nlinarith [mul_nonneg_of_nonpos_of_nonpos hdivisor hdivisor]

lemma getWeaveSizeIncrease_nonneg {dataSize : Int} (h : 0 ≤ dataSize) (height : Nat) :
    0 ≤ getWeaveSizeIncrease dataSize height := by
  unfold getWeaveSizeIncrease getPaddedOffset
  split_ifs with hzero hfork
  · exact le_rfl
  · have hchunks := Int.tdiv_nonneg (show 0 ≤ dataSize - 0 - 1 by omega) (show (0 : Int) ≤ dataChunkSize by decide)
    have hsize : (0 : Int) ≤ dataChunkSize := by decide
    positivity
  · exact h

lemma getTxFee_nonneg {dataSize minimum : Int} (h : 0 ≤ dataSize) {price multiplier height : Nat} {addr : Bytes}
    (hfee : getTxFee dataSize price multiplier addr accounts height = some minimum) : 0 ≤ minimum := by
  have hbase : (0 : Int) ≤ txSizeBase := by decide
  have hnew : (0 : Int) ≤ newAccountFeeDataSizeEquivalent := by decide
  have hstatic : 0 ≤ static_2_6_8_FeeWinston.tdiv gib := by decide
  unfold getTxFee at hfee
  split_ifs at hfee
  · cases hfee
    unfold getTxFee2 getNewAccountFee
    have hupload := getTxFeeForSize_nonneg (show 0 ≤ dataSize + txSizeBase by omega) price multiplier height
    have haccount := getTxFeeForSize_nonneg hnew price multiplier height
    dsimp only
    split_ifs <;> omega
  · cases hfee
    unfold getStatic_2_6_8_TxFee
    have hupload := mul_nonneg hstatic (show 0 ≤ dataSize + txSizeBase by omega)
    have haccount := mul_nonneg hstatic hnew
    dsimp only
    split_ifs <;> omega

lemma reward_nonneg_of_verified (h : Verified args tx accounts) (hdata : 0 ≤ tx.dataSize) : 0 ≤ tx.reward := by
  have hfee := h.fee
  unfold isTxFeeSufficient minimumRequiredFee at hfee
  simp only [bind, Option.bind_eq_some_iff, redenominate_eq_some, Option.some.injEq, decide_eq_true_eq] at hfee
  obtain ⟨minimum, hminimum, _, ⟨-, rfl⟩, hle⟩ := hfee
  have hnonneg := getTxFee_nonneg (getWeaveSizeIncrease_nonneg hdata _) hminimum
  exact nonneg_of_mul_nonneg_left (hnonneg.trans hle) (scale_pos _ _)

lemma rewards_nonneg_of_verifyBlockTxsFrom (h : verifyBlockTxsFrom ctx txs pool = some .valid)
    (hdata : ∀ tx ∈ txs, 0 ≤ tx.dataSize) : ∀ tx ∈ txs, 0 ≤ tx.reward := by
  induction txs generalizing pool with
  | nil => simp
  | cons tx txs ih =>
    rw [List.forall_mem_cons] at hdata ⊢
    obtain ⟨hverified, newPool, -, hrest⟩ := verified_of_verifyBlockTxsFrom_cons h
    exact ⟨reward_nonneg_of_verified hverified hdata.1, ih hrest hdata.2⟩

end Fees

section Update

variable {b prevB : Block} {accounts accounts2 : Accounts} {args args2 : RewardUpdate}
  {rewardHistory : List RewardEntry} {total : Int}

lemma updateAccounts6_eq_ok (h : updateAccounts6 b accounts args = some (.ok (args2, accounts2))) :
    args2 = args ∧ accounts2 = accounts := by
  unfold updateAccounts6 at h
  split_ifs at h
  · cases h
    exact ⟨rfl, rfl⟩
  · cases h

lemma updateAccounts5_eq_ok (h : updateAccounts5 b prevB accounts args prevB.window = some (.ok (args2, accounts2))) :
    b.doubleSigningProof = none ∧ args2 = args ∧ accounts2 = accounts ∨
      ∃ proof sum base reward, b.doubleSigningProof = some proof ∧
        getRewardSum proof.address prevB.window = some (sum, base) ∧ proverReward b prevB = some reward ∧
        reward ≤ sum * scale base prevB.denomination - 1 ∧
        args2 = { args with
          endowmentPool := args.endowmentPool + (sum * scale base prevB.denomination - 1) - reward } ∧
        applyMiningReward accounts b.rewardAddr reward prevB.denomination = some accounts2 := by
  unfold updateAccounts5 at h
  cases hproof : b.doubleSigningProof with
  | none =>
    rw [hproof] at h
    exact .inl ⟨rfl, updateAccounts6_eq_ok h⟩
  | some proof =>
    have hbanned : b.banned = some proof.address := by
      rw [Block.banned, hproof]
      rfl
    simp only [hproof, bind, Option.bind_eq_some_iff] at h
    obtain ⟨⟨sum, base⟩, hsum, sum2, hsum2, ⟨min1, minBase⟩, hmin, min2, hmin2, min3, hmin3, accounts3, happly, hrest⟩ := h
    obtain ⟨rfl, rfl⟩ := updateAccounts6_eq_ok hrest
    dsimp only at hsum2 hmin2 hmin3
    refine .inr ⟨proof, sum, base, _, rfl, hsum, ?_, ?_, ?_, happly⟩
    · unfold proverReward
      simp only [bind, hbanned, hsum, hsum2, hmin, hmin2, hmin3, Option.bind_some]
    · obtain ⟨-, rfl⟩ := redenominate_eq_some.mp hsum2
      exact min_le_right _ _
    · obtain ⟨-, rfl⟩ := redenominate_eq_some.mp hsum2
      rfl

lemma updateAccounts4_eq_ok (h : updateAccounts4 b prevB accounts args rewardHistory = some (.ok (args2, accounts2))) :
    ∃ accounts1, Releases rewardHistory prevB.denomination accounts accounts1 ∧
      updateAccounts5 b prevB accounts1 args rewardHistory = some (.ok (args2, accounts2)) := by
  unfold updateAccounts4 at h
  split_ifs at h with hfull
  · simp only [bind, Option.bind_eq_some_iff] at h
    obtain ⟨entry, hentry, h⟩ := h
    split_ifs at h with hbanned
    · exact ⟨accounts, .inr ⟨entry, hentry, .inl ⟨hbanned, rfl⟩⟩, h⟩
    · simp only [Option.bind_eq_some_iff, redenominate_eq_some] at h
      obtain ⟨_, ⟨-, rfl⟩, accounts1, happly, hrest⟩ := h
      exact ⟨accounts1, .inr ⟨entry, hentry, .inr ⟨by simpa using hbanned, happly⟩⟩, hrest⟩
  · exact ⟨accounts, .inl ⟨by omega, rfl⟩, h⟩

lemma mayBeApplyDoubleSigningProof_eq_ok {denomination : Nat}
    (h : mayBeApplyDoubleSigningProof b accounts denomination rewardHistory = some (.ok accounts2)) :
    b.doubleSigningProof = none ∧ accounts2 = accounts ∨
      ∃ proof, b.doubleSigningProof = some proof ∧ b.rewardKey ≠ (.rsa, proof.pub) ∧
        isAccountBanned (some proof.address) accounts = false ∧
        banAccount proof.address accounts denomination = some accounts2 := by
  unfold mayBeApplyDoubleSigningProof mayBeApplyDoubleSigningProof2 mayBeApplyDoubleSigningProof3 at h
  cases hproof : b.doubleSigningProof with
  | none =>
    simp only [hproof, Option.some.injEq, Except.ok.injEq] at h
    exact .inl ⟨rfl, h.symm⟩
  | some proof =>
    simp only [hproof] at h
    split_ifs at h with hsignature hcdiff hkey hbanned hhistory
    · cases h
    · cases h
    · cases h
    · simp only [bind, Option.bind_eq_some_iff] at h
      obtain ⟨valid1, -, h⟩ := h
      split_ifs at h
      · rw [Option.bind_eq_some_iff] at h
        obtain ⟨valid2, -, h⟩ := h
        split_ifs at h
        · rw [Option.bind_eq_some_iff] at h
          obtain ⟨_, hban, hok⟩ := h
          cases hok
          exact .inr ⟨proof, rfl, hkey, by simpa using hbanned, hban⟩
        · cases h
      · cases h
    · cases h
    · cases h

lemma updateAccounts2_eq_ok (h : updateAccounts2 b prevB accounts args = some (.ok (args2, accounts2))) :
    isAccountBanned b.rewardAddr accounts = false ∧
      (b.doubleSigningProof = none ∧ args2 = args ∧ Releases prevB.window prevB.denomination accounts accounts2 ∨
        ∃ proof accounts1 accounts3 sum base reward, b.doubleSigningProof = some proof ∧
          b.rewardKey ≠ (.rsa, proof.pub) ∧ isAccountBanned (some proof.address) accounts = false ∧
          banAccount proof.address accounts prevB.denomination = some accounts1 ∧
          Releases prevB.window prevB.denomination accounts1 accounts3 ∧
          getRewardSum proof.address prevB.window = some (sum, base) ∧ proverReward b prevB = some reward ∧
          reward ≤ sum * scale base prevB.denomination - 1 ∧
          args2 = { args with
            endowmentPool := args.endowmentPool + (sum * scale base prevB.denomination - 1) - reward } ∧
          applyMiningReward accounts3 b.rewardAddr reward prevB.denomination = some accounts2) := by
  unfold updateAccounts2 updateAccounts3 at h
  split_ifs at h with hminer
  · cases h
  refine ⟨Bool.not_eq_true _ ▸ hminer, ?_⟩
  simp only [bind, Option.bind_eq_some_iff] at h
  obtain ⟨result, hproof, h⟩ := h
  cases result with
  | error error => cases h
  | ok accounts1 =>
    obtain ⟨accounts3, hreleases, hupdate⟩ := updateAccounts4_eq_ok h
    rcases mayBeApplyDoubleSigningProof_eq_ok hproof with ⟨hnone, rfl⟩ | ⟨proof, hsome, hkey, hfree, hban⟩
    · rcases updateAccounts5_eq_ok hupdate with ⟨-, rfl, rfl⟩ | ⟨proof, _, _, _, hsome, -⟩
      · exact .inl ⟨hnone, rfl, hreleases⟩
      · rw [hnone] at hsome
        cases hsome
    · rcases updateAccounts5_eq_ok hupdate with ⟨hnone, -⟩ | ⟨proof2, sum, base, reward, hsome2, hrest⟩
      · rw [hsome] at hnone
        cases hnone
      · rw [hsome, Option.some.injEq] at hsome2
        subst hsome2
        exact .inr ⟨proof, accounts1, accounts3, sum, base, reward, hsome, hkey, hfree, hban, hreleases, hrest⟩

/-- The release and the ban move value between the accounts, the history and the pool. -/
lemma updateAccounts2_conserves (hdenomination : 1 ≤ prevB.denomination)
    (hin : InDenominations prevB.denomination accounts)
    (hrewards : ∀ entry ∈ prevB.window, 1 ≤ entry.denomination ∧ entry.denomination ≤ prevB.denomination)
    (htotal : totalBalance accounts prevB.denomination = some total) (hclaimed : b.rewardAddr.isSome = true)
    (h : updateAccounts2 b prevB accounts args = some (.ok (args2, accounts2))) :
    ∃ total2, totalBalance accounts2 prevB.denomination = some total2 ∧
      total2 + args2.endowmentPool +
          reservedSum accounts2 prevB.denomination (prevB.rewardHistory.take (rewardHistoryBlocks - 1)) =
        total + args.endowmentPool + reservedSum accounts prevB.denomination prevB.window ∧
      args.endowmentPool ≤ args2.endowmentPool ∧ args2.minerReward = args.minerReward ∧
      args2.debtSupply = args.debtSupply ∧ InDenominations prevB.denomination accounts2 ∧
      ((∀ proof, b.doubleSigningProof = some proof → b.rewardKey ≠ (.rsa, proof.pub) →
        b.rewardAddr ≠ some proof.address) → isAccountBanned b.rewardAddr accounts2 = false) := by
  have hwindow : prevB.window.length ≤ rewardHistoryBlocks := List.length_take_le _ _
  have htake : prevB.window.take (rewardHistoryBlocks - 1) = prevB.rewardHistory.take (rewardHistoryBlocks - 1) := by
    rw [Block.window, List.take_take, min_eq_left (by omega)]
  obtain ⟨hbanned, ⟨-, rfl, hreleases⟩ | ⟨proof, accounts1, accounts3, sum, base, reward, hsome, hkey, hfree, hban,
    hreleases, hsum, -, hle, rfl, happly⟩⟩ := updateAccounts2_eq_ok h
  · obtain ⟨total2, htotal2, hsum⟩ := hreleases.conserves hwindow htotal
    rw [htake] at hsum
    refine ⟨total2, htotal2, by omega, le_rfl, rfl, rfl,
      hreleases.rewrites.inDenominations hdenomination hin, fun _ => ?_⟩
    rw [hreleases.rewrites.isAccountBanned_eq, hbanned]
  · obtain ⟨total3, htotal3, hreleased⟩ := hreleases.conserves hwindow (totalBalance_banAccount htotal hban)
    have hrewrites := rewrites_applyMiningReward happly
    rw [htake] at hreleased
    rw [getRewardSum_eq_some hrewards hdenomination hsum] at *
    refine ⟨_, totalBalance_applyMiningReward htotal3 happly, ?_, by dsimp only; omega, rfl, rfl, ?_, ?_⟩
    · rw [hrewrites.reservedSum_eq, reservedSum_banAccount hban hfree, if_pos hclaimed]
      dsimp only
      omega
    · exact hrewrites.inDenominations hdenomination (hreleases.rewrites.inDenominations hdenomination
        (inDenominations_banAccount hdenomination hin hban))
    · intro hminer
      rw [hrewrites.isAccountBanned_eq, hreleases.rewrites.isAccountBanned_eq,
        isAccountBanned_banAccount hban, if_neg (hminer proof hsome hkey), hbanned]

end Update

section Measure

variable {accounts : Accounts} {denomination denomination2 : Nat} {total : Int} {rewardHistory : List RewardEntry}

lemma reservedRewards_eq (hrewards : ∀ entry ∈ rewardHistory.take rewardHistoryBlocks,
      1 ≤ entry.denomination ∧ entry.denomination ≤ denomination) :
    reservedRewards accounts rewardHistory denomination =
      some (reservedSum accounts denomination (rewardHistory.take rewardHistoryBlocks)) := by
  have hvalue (entry : RewardEntry) (x : Int) : redenominate entry.reward entry.denomination denomination = some x ↔
      entry.denomination ≤ denomination ∧ entry.value denomination = x := redenominate_eq_some
  unfold reservedRewards reservedSum
  rw [(mapM_eq_some_iff hvalue).mpr ⟨?_, rfl⟩]
  · rfl
  · intro entry hentry
    exact (hrewards entry (List.mem_of_mem_filter hentry)).2

lemma reservedSum_scale (hle : denomination ≤ denomination2)
    (hrewards : ∀ entry ∈ rewardHistory, 1 ≤ entry.denomination ∧ entry.denomination ≤ denomination) :
    reservedSum accounts denomination2 rewardHistory =
      reservedSum accounts denomination rewardHistory * scale denomination denomination2 := by
  induction rewardHistory with
  | nil => simp [reservedSum]
  | cons entry rewardHistory ih =>
    rw [List.forall_mem_cons] at hrewards
    rw [reservedSum_cons, reservedSum_cons, ih hrewards.2, RewardEntry.value, RewardEntry.value,
      ← scale_mul_scale hrewards.1.1 hrewards.1.2 hle]
    split_ifs <;> ring

lemma totalBalance_scale (hle : denomination ≤ denomination2) (hin : InDenominations denomination accounts)
    (htotal : totalBalance accounts denomination = some total) :
    totalBalance accounts denomination2 = some (total * scale denomination denomination2) := by
  rw [totalBalance_eq_some] at htotal ⊢
  obtain ⟨-, rfl⟩ := htotal
  constructor
  · intro addr account hlookup
    exact (hin addr account hlookup).2.trans hle
  · unfold SortedMap.sum
    rw [← List.sum_map_mul_right]
    congr 1
    apply List.map_congr_left
    intro entry hentry
    obtain ⟨hfirst, hlast⟩ := hin entry.1 entry.2 (SortedMap.lookup_eq_some.mpr hentry)
    rw [Account.value, Account.value, mul_assoc, scale_mul_scale hfirst hlast hle]

lemma Chain.Sound.exists_supply {s : Chain} (h : s.Sound) : ∃ total,
    totalBalance s.accounts s.block.denomination = some total ∧
    s.supply = some (total + s.block.rewardPool +
      reservedSum s.accounts s.block.denomination (s.block.rewardHistory.take rewardHistoryBlocks) -
        s.block.debtSupply) := by
  have htotal := totalBalance_eq_some.mpr
    ⟨fun addr account hlookup => (h.accounts addr account hlookup).2, rfl⟩
  refine ⟨_, htotal, ?_⟩
  unfold supply
  rw [htotal, reservedRewards_eq h.rewards]
  rfl

end Measure

section Steps

variable {pricingV1 : Block → Block → Option (Int × Int)} {s s' : Chain}
  {b prevB : Block} {accounts accounts2 : Accounts} {received : Received} {blocks : List Received}

/-- The fields of an applied block are those of the update, in its denomination. -/
structure Block.Agrees (b prevB : Block) (args : RewardUpdate) : Prop where
  denomination : prevB.denomination ≤ b.denomination
  rewardPool : b.rewardPool = args.endowmentPool * scale prevB.denomination b.denomination
  reward : b.reward = args.minerReward * scale prevB.denomination b.denomination
  debtSupply : b.debtSupply = args.debtSupply * scale prevB.denomination b.denomination

lemma checkBlockFields_eq_ok {args : RewardUpdate}
    (h : checkBlockFields b prevB args accounts = some (.ok accounts2)) :
    b.Agrees prevB args ∧ accounts2 = accounts := by
  unfold checkBlockFields at h
  simp only [bind, Option.bind_eq_some_iff, redenominate_eq_some] at h
  obtain ⟨_, ⟨hle, rfl⟩, _, ⟨-, rfl⟩, _, ⟨-, rfl⟩, h⟩ := h
  split_ifs at h with hpool hreward hdebt hlatch hmultiplier
  all_goals try cases h
  rw [Option.bind_eq_some_iff] at h
  obtain ⟨rootHash, -, h⟩ := h
  split_ifs at h
  all_goals cases h
  simp only [ne_eq, not_not] at hpool hreward hdebt
  exact ⟨⟨hle, hpool, hreward, hdebt⟩, rfl⟩

lemma applyBlock_eq_ok (h : applyBlock pricingV1 b prevB accounts = some (.ok accounts2)) :
    ∃ args, updateAccounts pricingV1 b prevB accounts = some (.ok (args, accounts2)) ∧ b.Agrees prevB args := by
  unfold applyBlock at h
  simp only [bind, Option.bind_eq_some_iff] at h
  obtain ⟨denominations, -, h⟩ := h
  split_ifs at h
  · rw [Option.bind_eq_some_iff] at h
    obtain ⟨result, hupdate, hfields⟩ := h
    cases result with
    | error error => cases hfields
    | ok updated =>
      obtain ⟨hagrees, rfl⟩ := checkBlockFields_eq_ok hfields
      exact ⟨updated.1, hupdate, hagrees⟩
  · cases h

lemma accept_eq_some (h : s.accept pricingV1 received = some s') :
    received.block.height = s.block.height + 1 ∧ verifyRewardAddr received.block = true ∧
      verifyBlockTxs (received.context s.block) s.accounts received.block.txs = some .valid ∧
      ∃ args accounts2,
        updateAccounts pricingV1 received.block s.block s.accounts = some (.ok (args, accounts2)) ∧
        received.block.Agrees s.block args ∧ s' = ⟨received.block.withHistories s.block, accounts2⟩ := by
  unfold Chain.accept at h
  dsimp only at h
  split_ifs at h with hchecks
  obtain ⟨hheight, haddr, htxs⟩ := hchecks
  refine ⟨hheight, haddr, htxs, ?_⟩
  split at h
  · cases h
    rename_i accounts2 happly
    obtain ⟨args, hupdate, hagrees⟩ := applyBlock_eq_ok happly
    exact ⟨args, accounts2, hupdate, hagrees, rfl⟩
  · cases h

lemma updateAccounts_eq_ok {args2 : RewardUpdate}
    (h : updateAccounts pricingV1 b prevB accounts = some (.ok (args2, accounts2))) :
    ∃ args accounts1, getMinerRewardAndEndowmentPool pricingV1 b prevB = some args ∧
      applyTxs accounts prevB.denomination b.txs = some accounts1 ∧
      updateAccounts2 b prevB accounts1 args = some (.ok (args2, accounts2)) := by
  unfold updateAccounts at h
  simp only [bind, Option.bind_eq_some_iff] at h
  obtain ⟨args, hargs, accounts1, htxs, h⟩ := h
  split_ifs at h
  exact ⟨args, accounts1, hargs, htxs, h⟩

lemma take_withHistories : (b.withHistories prevB).rewardHistory.take rewardHistoryBlocks =
    ⟨b.rewardAddr, getHashRate b.diff, b.reward, b.denomination⟩ ::
      prevB.rewardHistory.take (rewardHistoryBlocks - 1) := by
  unfold Block.withHistories
  dsimp only
  rw [List.take_take, min_eq_left (by omega)]
  exact List.take_succ_cons

lemma rewardAddr_ne_of_collisionFree (haddr : verifyRewardAddr b = true) (hkeys : sha256.CollisionFree b.keys)
    {proof : DoubleSigningProof} (hproof : b.doubleSigningProof = some proof)
    (hkey : b.rewardKey ≠ (.rsa, proof.pub)) : b.rewardAddr ≠ some proof.address := by
  unfold verifyRewardAddr at haddr
  simp only [Bool.and_eq_true, decide_eq_true_eq] at haddr
  obtain ⟨⟨htype, hlength⟩, haddr⟩ := haddr
  have hpub := proof.length_pub
  rw [haddr]
  intro heq
  simp only [DoubleSigningProof.address, toAddress, hlength, hpub, Option.some.injEq] at heq
  have hsame : b.rewardKey.2 = proof.pub := by
    apply hkeys _ _ _ _ heq
    · simp [Block.keys]
    · simp [Block.keys, hproof]
  exact hkey (Prod.ext htype hsame)

lemma Chain.Sound.window (hs : s.Sound) : ∀ entry ∈ s.block.rewardHistory.take (rewardHistoryBlocks - 1),
    1 ≤ entry.denomination ∧ entry.denomination ≤ s.block.denomination := by
  intro entry hentry
  exact hs.rewards entry (List.take_subset_take_left _ (Nat.sub_le _ _) hentry)

lemma Chain.Sound.rewards_withHistories (hs : s.Sound) (hle : s.block.denomination ≤ b.denomination) :
    ∀ entry ∈ (b.withHistories s.block).rewardHistory.take rewardHistoryBlocks,
      1 ≤ entry.denomination ∧ entry.denomination ≤ b.denomination := by
  rw [take_withHistories, List.forall_mem_cons]
  refine ⟨⟨hs.denomination.trans hle, le_rfl⟩, ?_⟩
  intro entry hentry
  obtain ⟨hfirst, hlast⟩ := hs.window entry hentry
  exact ⟨hfirst, hlast.trans hle⟩

lemma Chain.Sound.withHistories {args : RewardUpdate} (hs : s.Sound) (hheight : b.height = s.block.height + 1)
    (hagrees : b.Agrees s.block args) (hpool : 0 ≤ args.endowmentPool)
    (hin : InDenominations s.block.denomination accounts) : (Chain.mk (b.withHistories s.block) accounts).Sound where
  height := by
    have hv2 := hs.height
    unfold isV2PricingHeight at hv2 ⊢
    rw [decide_eq_true_eq] at hv2 ⊢
    change _ ≤ b.height + 1
    omega
  denomination := hs.denomination.trans hagrees.denomination
  accounts := by
    intro addr account hlookup
    obtain ⟨hfirst, hlast⟩ := hin addr account hlookup
    exact ⟨hfirst, hlast.trans hagrees.denomination⟩
  rewards := hs.rewards_withHistories hagrees.denomination
  rewardPool := by
    change 0 ≤ b.rewardPool
    rw [hagrees.rewardPool]
    exact mul_nonneg hpool (scale_pos _ _).le

lemma supply_withHistories {args : RewardUpdate} {total : Int} (hs : s.Sound) (hagrees : b.Agrees s.block args)
    (hin : InDenominations s.block.denomination accounts)
    (htotal : totalBalance accounts s.block.denomination = some total) (hclaimed : b.rewardAddr.isSome = true)
    (hfree : isAccountBanned b.rewardAddr accounts = false) :
    (Chain.mk (b.withHistories s.block) accounts).supply =
      some ((total + args.endowmentPool + args.minerReward +
        reservedSum accounts s.block.denomination (s.block.rewardHistory.take (rewardHistoryBlocks - 1)) -
          args.debtSupply) * scale s.block.denomination b.denomination) := by
  have hreserved : reservedRewards accounts (b.withHistories s.block).rewardHistory b.denomination =
      some (b.reward + reservedSum accounts s.block.denomination
        (s.block.rewardHistory.take (rewardHistoryBlocks - 1)) * scale s.block.denomination b.denomination) := by
    rw [reservedRewards_eq (hs.rewards_withHistories hagrees.denomination), take_withHistories, reservedSum_cons,
      if_pos (by simp [isReserved, hclaimed, hfree]), RewardEntry.value, scale_self, mul_one,
      reservedSum_scale hagrees.denomination hs.window]
  unfold Chain.supply
  change (do
    let balances ← totalBalance accounts b.denomination
    let reserved ← reservedRewards accounts (b.withHistories s.block).rewardHistory b.denomination
    some (balances + b.rewardPool + reserved - b.debtSupply)) = _
  rw [totalBalance_scale hagrees.denomination hin htotal, hreserved, hagrees.rewardPool, hagrees.reward,
    hagrees.debtSupply]
  simp only [bind, Option.bind_some, Option.some.injEq]
  ring

lemma totalBalance_of_verifyBlockTxs {total rewards : Int}
    (htotal : totalBalance s.accounts s.block.denomination = some total)
    (htxs : verifyBlockTxs (received.context s.block) s.accounts received.block.txs = some .valid)
    (happly : applyTxs s.accounts s.block.denomination received.block.txs = some accounts)
    (hrewards : totalRewards received.block.txs s.block.denomination = some rewards) :
    totalBalance accounts s.block.denomination = some (total - rewards) := by
  obtain ⟨accounts', rewards', happly', hrewards', htotal'⟩ := totalBalance_applyTxs htotal htxs
  have haccounts := Option.some.inj (happly.symm.trans happly')
  have hsum := Option.some.inj (hrewards.symm.trans hrewards')
  rw [haccounts, hsum]
  exact htotal'

lemma isSome_of_verifyRewardAddr (h : verifyRewardAddr b = true) : b.rewardAddr.isSome = true := by
  unfold verifyRewardAddr at h
  simp only [Bool.and_eq_true, decide_eq_true_eq] at h
  rw [h.2]
  rfl

/-- The pricing of an accepted block adds up, the chain stays sound, and the supply changes by
the inflation. -/
lemma Chain.Sound.accept (hs : s.Sound) (h : s.accept pricingV1 received = some s') :
    ∃ update baseInflation inflation rewards supply,
      getMinerRewardEndowmentPoolDebtSupply (pricingArgs received.block s.block) = some update ∧
      calculateInflation received.block.height = some baseInflation ∧
      redenominate baseInflation 1 s.block.denomination = some inflation ∧
      totalRewards received.block.txs s.block.denomination = some rewards ∧
      update.minerReward + update.endowmentPool - update.debtSupply =
        s.block.rewardPool - s.block.debtSupply + inflation + rewards ∧
      0 ≤ update.minerReward ∧ 0 ≤ update.endowmentPool ∧ s.block.debtSupply ≤ update.debtSupply ∧
      s.supply = some supply ∧ s'.Sound ∧
      (sha256.CollisionFree received.block.keys →
        s'.supply = redenominate (supply + inflation) s.block.denomination s'.block.denomination) := by
  obtain ⟨hheight, haddr, htxs, args2, accounts2, hupdate, hagrees, rfl⟩ := accept_eq_some h
  obtain ⟨args, accounts1, hargs, happly, hupdate2⟩ := updateAccounts_eq_ok hupdate
  rw [getMinerRewardAndEndowmentPool, if_pos (by rw [hheight]; exact hs.height)] at hargs
  obtain ⟨baseInflation, inflation, rewards, hbase, hinflation, hrewards, hpricing, hdebt, hsigns⟩ :=
    getMinerRewardEndowmentPoolDebtSupply_conserves hargs
  simp only [pricingArgs] at hbase hinflation hrewards hpricing hdebt hsigns
  obtain ⟨hminer, hpool⟩ := hsigns hs.rewardPool
    (rewards_nonneg_of_verifyBlockTxsFrom htxs received.block.dataSize_nonneg)
  obtain ⟨total, htotal, hsupply⟩ := hs.exists_supply
  have hclaimed := isSome_of_verifyRewardAddr haddr
  have hrewrites := rewrites_applyTxs happly
  obtain ⟨total2, htotal2, hsum, hle, hreward2, hdebt2, hin2, hfree⟩ :=
    updateAccounts2_conserves hs.denomination (hrewrites.inDenominations hs.denomination hs.accounts) hs.rewards
      (totalBalance_of_verifyBlockTxs htotal htxs happly hrewards) hclaimed hupdate2
  rw [hrewrites.reservedSum_eq, Block.window] at hsum
  refine ⟨args, baseInflation, inflation, rewards, _, hargs, hbase, hinflation, hrewards, hpricing, hminer, hpool,
    hdebt, hsupply, hs.withHistories hheight hagrees (hpool.trans hle) hin2, ?_⟩
  intro hkeys
  have hnew := hfree fun proof hproof hkey => rewardAddr_ne_of_collisionFree haddr hkeys hproof hkey
  rw [supply_withHistories hs hagrees hin2 htotal2 hclaimed hnew, redenominate_eq]
  change _ = if s.block.denomination ≤ received.block.denomination then some (_ * scale _ received.block.denomination)
    else none
  rw [if_pos hagrees.denomination]
  congr 2
  omega

end Steps

/-- From a sound chain on, the reward of every block, the endowment pool and the debt add up,
and the block changes the supply by its inflation. -/
theorem supply_conserved (pricingV1 : Block → Block → Option (Int × Int))
    (s0 s s' : Chain) (blocks : List Received) (received : Received) (hsound : s0.Sound)
    (hrun : s0.run pricingV1 blocks = some s)
    (haccept : s.accept pricingV1 received = some s')
    (hkeys : sha256.CollisionFree received.block.keys) :
    ∃ update baseInflation inflation rewards supply,
      getMinerRewardEndowmentPoolDebtSupply (pricingArgs received.block s.block) = some update ∧
      calculateInflation received.block.height = some baseInflation ∧
      redenominate baseInflation 1 s.block.denomination = some inflation ∧
      totalRewards received.block.txs s.block.denomination = some rewards ∧
      update.minerReward + update.endowmentPool - update.debtSupply =
        s.block.rewardPool - s.block.debtSupply + inflation + rewards ∧
      0 ≤ update.minerReward ∧ 0 ≤ update.endowmentPool ∧ s.block.debtSupply ≤ update.debtSupply ∧
      s.supply = some supply ∧
      s'.supply = redenominate (supply + inflation) s.block.denomination s'.block.denomination := by
  have hs : s.Sound := by
    unfold Chain.run at hrun
    apply foldlM_invariant (P := Chain.Sound) (C := fun _ _ => True) hsound _ (fun _ _ _ _ _ _ => trivial) hrun
    intro s received s' _ hs _ hstep
    obtain ⟨_, _, _, _, _, -, -, -, -, -, -, -, -, -, hsound', -⟩ := hs.accept hstep
    exact hsound'
  obtain ⟨update, baseInflation, inflation, rewards, supply, hupdate, hbase, hinflation, hrewards, hpricing, hminer,
    hpool, hdebt, hsupply, -, hsupply'⟩ := hs.accept haccept
  exact ⟨update, baseInflation, inflation, rewards, supply, hupdate, hbase, hinflation, hrewards, hpricing, hminer,
    hpool, hdebt, hsupply, hsupply' hkeys⟩

/-- A chain before the first block of version two, with two rewards that wait. -/
def sampleChain : Chain where
  block := {
    height := 1757864
    timestamp := 1750000000
    diff := 0
    txs := []
    weaveSize := 30000000000000000
    rewardAddr := some addressA
    rewardKey := (.rsa, ownerA)
    rewardPool := 5000000
    reward := 500
    debtSupply := 7
    kryderPlusRateMultiplierLatch := 0
    kryderPlusRateMultiplier := 1
    pricePerGiBMinute := 300
    usdToArRate := (1, 10)
    denomination := 1
    redenominationHeight := 0
    walletList := []
    rewardHistory := [⟨some addressA, 1, 500, 1⟩, ⟨some addressB, 1, 1000, 1⟩]
    blockTimeHistory := [2592000]
    doubleSigningProof := none
    dataSize_nonneg := dataSize_nonneg_nil }
  accounts := sampleWallets

/-- A block with transfers, whose reward takes all of the pool and new debt. -/
def sampleReceived : Received where
  block := {
    height := 1757865
    timestamp := 1750000120
    diff := 0
    txs := [transferAB, transferBA]
    weaveSize := 30000000000000000
    rewardAddr := some (Bytes.ofNat 32 0x6caf38d537984e261527b8caef5f990fb91415a1db917198821a79ed28997973)
    rewardKey := (.rsa, List.replicate 512 1)
    rewardPool := 0
    reward := 335276126861
    debtSupply := 54070763420
    kryderPlusRateMultiplierLatch := 1
    kryderPlusRateMultiplier := 2
    pricePerGiBMinute := 300
    usdToArRate := (1, 10)
    denomination := 1
    redenominationHeight := 0
    walletList := Bytes.ofNat 48 0xa83afb20452118be2bcb97d00cb3e790f91c5286640b957487aadfe671411b0369cb3a98825b521ca3fb1a0a52bcb72a
    rewardHistory := []
    blockTimeHistory := []
    doubleSigningProof := none
    dataSize_nonneg := by decide }
  blockAnchors := [List.replicate 48 7]
  recentTxs := OrdSet.empty

lemma sound_sampleChain : sampleChain.Sound where
  height := by decide
  denomination := by decide
  accounts := by
    have hentries : ∀ entry ∈ sampleWallets.entries, 1 ≤ entry.2.denomination ∧ entry.2.denomination ≤ 1 := by
      decide
    intro addr account hlookup
    exact hentries (addr, account) (SortedMap.lookup_eq_some.mp hlookup)
  rewards := by decide
  rewardPool := by decide

set_option maxRecDepth 10000 in
theorem supply_conserved_sampleChain : ∃ s', sampleChain.accept (fun _ _ => none) sampleReceived = some s' ∧
    ∃ update baseInflation inflation rewards supply,
      getMinerRewardEndowmentPoolDebtSupply (pricingArgs sampleReceived.block sampleChain.block) = some update ∧
      calculateInflation 1757865 = some baseInflation ∧ redenominate baseInflation 1 1 = some inflation ∧
      totalRewards [transferAB, transferBA] 1 = some rewards ∧
      update.minerReward + update.endowmentPool - update.debtSupply = 5000000 - 7 + inflation + rewards ∧
      0 ≤ update.minerReward ∧ 0 ≤ update.endowmentPool ∧ 7 ≤ update.debtSupply ∧
      sampleChain.supply = some supply ∧
      s'.supply = redenominate (supply + inflation) 1 s'.block.denomination := by
  have haccept : (sampleChain.accept (fun _ _ => none) sampleReceived).isSome = true := by decide +kernel
  obtain ⟨s', hs'⟩ := Option.isSome_iff_exists.mp haccept
  exact ⟨s', hs', supply_conserved (fun _ _ => none) sampleChain sampleChain s' [] sampleReceived sound_sampleChain
    rfl hs' (by decide)⟩

end Arweave.Ledger

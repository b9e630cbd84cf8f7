import Arweave.Ledger.Supply

/-!
# Settlement of the reserved rewards

A reserved reward is paid when it leaves the window of the reward history, or taken with the other
rewards of its account when the account is banned. What a block settles is stated here from the
chain before it, and the balances after it show that nothing else is paid.
-/

namespace Arweave.Ledger
open Arweave.Lib Arweave.Lib.Sha2 Arweave.Tx

/-- What is paid for the reward that leaves the window: the account and the amount. -/
def released (s : Chain) (b : Block) : Option (Bytes × Int) := do
  let entry ← s.block.window[rewardHistoryBlocks - 1]?
  let addr ← entry.addr
  if isAccountBanned (some addr) s.accounts ∨ b.banned = some addr then none
  else some (addr, entry.value s.block.denomination)

/-- The amount of a payment to the account. -/
def amountTo (addr : Bytes) (payment : Option (Bytes × Int)) : Int :=
  match payment with
  | none => 0
  | some (addr', amount) => if addr' = addr then amount else 0

/-- The rewards of an account in the window. -/
def confiscated (prevB : Block) (addr : Bytes) : Int := rewardsOf addr prevB.denomination prevB.window

/-- What the endowment pool gets of the confiscated rewards: all but the reward of the prover and one
unit, which is left to the banned account. -/
def endowmentContribution (b prevB : Block) : Int :=
  match b.banned with
  | none => 0
  | some addr => confiscated prevB addr - 1 - (proverReward b prevB).getD 0

/-- The rewards in the window are in denominations up to that of the block and never negative. -/
structure Chain.Denominated (s : Chain) : Prop where
  denomination : 1 ≤ s.block.denomination
  rewards : ∀ entry ∈ s.block.window, 1 ≤ entry.denomination ∧ entry.denomination ≤ s.block.denomination
  reward_nonneg : ∀ entry ∈ s.block.window, 0 ≤ entry.reward

section Balances

variable {accounts accounts2 : Accounts} {denomination : Nat} {addr addr' : Bytes} {amount : Int}

lemma balanceAt_insert {account : Account} :
    balanceAt (accounts.insert addr account) denomination addr' =
      if addr' = addr then account.value denomination else balanceAt accounts denomination addr' := by
  unfold balanceAt
  rw [SortedMap.lookup_insert]
  split_ifs with heq
  · rfl
  · rfl

lemma balanceAt_applyMiningReward {rewardAddr : Option Bytes}
    (h : applyMiningReward accounts rewardAddr amount denomination = some accounts2) :
    balanceAt accounts2 denomination addr =
      balanceAt accounts denomination addr + if rewardAddr = some addr then amount else 0 := by
  cases rewardAddr with
  | none =>
    cases h
    simp
  | some addr' =>
    rw [(addAmountToAccount_eq h).2, balanceAt_insert]
    by_cases heq : addr = addr'
    · subst heq
      rw [if_pos rfl, if_pos rfl, Account.value, Account.balance_of, Account.denomination_of, scale_self, mul_one]
    · rw [if_neg heq, if_neg fun hsome => heq (Option.some.inj hsome).symm, add_zero]

lemma balanceAt_banAccount (h : banAccount addr accounts denomination = some accounts2) :
    balanceAt accounts2 denomination addr' = balanceAt accounts denomination addr' + if addr = addr' then 1 else 0 := by
  rw [banAccount_eq h, balanceAt_insert]
  by_cases heq : addr' = addr
  · subst heq
    rw [if_pos rfl, if_pos rfl, Account.value, Account.balance, Account.denomination, scale_self, mul_one]
  · rw [if_neg heq, if_neg (Ne.symm heq), add_zero]

end Balances

section Confiscation

variable {b prevB : Block} {accounts accounts2 : Accounts} {args args2 : RewardUpdate} {rewardHistory : List RewardEntry}

lemma getMinimalRewardFrom_nonneg {min min2 : Option Int} {denomination denomination2 : Nat}
    (hrewards : ∀ entry ∈ rewardHistory, 0 ≤ entry.reward) (hmin : ∀ x ∈ min, 0 ≤ x)
    (h : getMinimalRewardFrom rewardHistory min denomination = some (min2, denomination2)) : ∀ x ∈ min2, 0 ≤ x := by
  induction rewardHistory generalizing min denomination with
  | nil =>
    cases h
    exact hmin
  | cons entry rewardHistory ih =>
    rw [List.forall_mem_cons] at hrewards
    have hentry : ∀ x ∈ some entry.reward, 0 ≤ x := by
      rintro x ⟨⟩
      exact hrewards.1
    cases min with
    | none => exact ih hrewards.2 hentry h
    | some min =>
      unfold getMinimalRewardFrom at h
      simp only [bind, Option.bind_eq_some_iff] at h
      obtain ⟨min3, -, h⟩ := h
      split_ifs at h with hlt
      · exact ih hrewards.2 hentry h
      · exact ih hrewards.2 hmin h

lemma proverReward_nonneg_iff {s : Chain} {addr : Bytes} {reward : Int} (hs : s.Denominated) (hbanned : b.banned = some addr)
    (h : proverReward b s.block = some reward) : 0 ≤ reward ↔ 1 ≤ confiscated s.block addr := by
  unfold proverReward at h
  simp only [bind, hbanned, Option.bind_some, Option.bind_eq_some_iff, Option.some.injEq] at h
  obtain ⟨⟨sum, base⟩, hsum, sum2, hsum2, ⟨min1, minBase⟩, hmin, min2, hmin2, min3, hmin3, rfl⟩ := h
  obtain ⟨-, rfl⟩ := redenominate_eq_some.mp hsum2
  obtain ⟨-, rfl⟩ := redenominate_eq_some.mp hmin3
  rw [getRewardSum_eq_some hs.rewards hs.denomination hsum]
  have hsample : ∀ entry ∈ (s.block.window.take doubleSigningRewardSampleSize).reverse, 0 ≤ entry.reward := by
    intro entry hentry
    exact hs.reward_nonneg entry (List.mem_of_mem_take (List.mem_reverse.mp hentry))
  have hmin2nonneg : 0 ≤ min2 := getMinimalRewardFrom_nonneg hsample (by simp) hmin min2 hmin2
  have hshare : 0 ≤ (min2 * scale minBase s.block.denomination * doubleSigningProverRewardShare.1).tdiv
      doubleSigningProverRewardShare.2 := by
    apply Int.tdiv_nonneg
    · have hscale := (scale_pos minBase s.block.denomination).le
      exact mul_nonneg (mul_nonneg hmin2nonneg hscale) (by decide)
    · decide
  rw [le_min_iff, and_iff_right hshare, confiscated]
  omega

end Confiscation

section Step

variable {pricingV1 : Block → Block → Option (Int × Int)} {s s' : Chain} {b : Block} {received : Received}
  {accounts accounts2 : Accounts} {args args2 : RewardUpdate}

/-- What a block pays, takes and bans. Apart from its transactions it changes the accounts by the
released reward, the reward of the prover and the unit that is left to the banned account. -/
structure Settles (pricingV1 : Block → Block → Option (Int × Int)) (s : Chain) (b : Block) (s' : Chain) : Prop where
  balances : ∃ accounts, applyTxs s.accounts s.block.denomination b.txs = some accounts ∧ ∀ addr,
    balanceAt s'.accounts s.block.denomination addr =
      balanceAt accounts s.block.denomination addr + amountTo addr (released s b) +
        (if b.banned = some addr then 1 else 0) + if b.rewardAddr = some addr then (proverReward b s.block).getD 0 else 0
  rewardPool : ∃ args, getMinerRewardAndEndowmentPool pricingV1 b s.block = some args ∧
    s'.block.rewardPool =
      (args.endowmentPool + endowmentContribution b s.block) * scale s.block.denomination s'.block.denomination
  proverReward : b.banned.isSome = true → (proverReward b s.block).isSome = true
  banned_iff : ∀ addr, isAccountBanned (some addr) s'.accounts = true ↔
    isAccountBanned (some addr) s.accounts = true ∨ b.banned = some addr
  banned_once : ∀ addr, b.banned = some addr → isAccountBanned (some addr) s.accounts = false
  released : ∀ addr amount, released s b = some (addr, amount) → isAccountBanned (some addr) s'.accounts = false

lemma Releases.balanceAt_eq {addr : Bytes}
    (hbanned : ∀ addr, isAccountBanned (some addr) accounts = true ↔
      isAccountBanned (some addr) s.accounts = true ∨ b.banned = some addr)
    (h : Releases s.block.window s.block.denomination accounts accounts2) :
    balanceAt accounts2 s.block.denomination addr =
      balanceAt accounts s.block.denomination addr + amountTo addr (Ledger.released s b) := by
  unfold Ledger.released
  rcases h with ⟨hshort, rfl⟩ | ⟨entry, hentry, hrelease⟩
  · have hnone : s.block.window[rewardHistoryBlocks - 1]? = none := List.getElem?_eq_none (by omega)
    simp [hnone, amountTo]
  · cases haddr : entry.addr with
    | none =>
      simp only [haddr] at hrelease
      rcases hrelease with ⟨-, rfl⟩ | ⟨-, happly⟩
      · simp [hentry, haddr, amountTo]
      · cases happly
        simp [hentry, haddr, amountTo]
    | some addr' =>
      simp only [hentry, haddr, bind, Option.bind_some, ← hbanned]
      rw [haddr] at hrelease
      rcases hrelease with ⟨hban, rfl⟩ | ⟨hfree, happly⟩
      · rw [if_pos hban, amountTo, add_zero]
      · rw [if_neg (by rw [hfree]; decide), balanceAt_applyMiningReward happly]
        by_cases heq : addr' = addr
        · simp [amountTo, heq]
        · simp [amountTo, heq]

lemma updateAccounts2_settles (hs : s.Denominated) (hrewrites : Rewrites s.block.denomination s.accounts accounts)
    (h : updateAccounts2 b s.block accounts args = some (.ok (args2, accounts2))) :
    (∀ addr, balanceAt accounts2 s.block.denomination addr =
      balanceAt accounts s.block.denomination addr + amountTo addr (released s b) +
        (if b.banned = some addr then 1 else 0) + if b.rewardAddr = some addr then (proverReward b s.block).getD 0 else 0) ∧
      args2.endowmentPool = args.endowmentPool + endowmentContribution b s.block ∧
      (b.banned.isSome = true → (proverReward b s.block).isSome = true) ∧
      (∀ addr, isAccountBanned (some addr) accounts2 = true ↔
        isAccountBanned (some addr) s.accounts = true ∨ b.banned = some addr) ∧
      (∀ addr, b.banned = some addr → isAccountBanned (some addr) s.accounts = false) ∧
      isAccountBanned b.rewardAddr s.accounts = false ∧
      (∀ proof, b.doubleSigningProof = some proof → b.rewardKey ≠ (.rsa, proof.pub)) := by
  obtain ⟨hminer, ⟨hnone, rfl, hreleases⟩ | ⟨proof, accounts1, accounts3, sum, base, reward, hsome, hkey, hfree, hban,
    hreleases, hsum, hreward, -, rfl, happly⟩⟩ := updateAccounts2_eq_ok h
  · have hbannedNone : b.banned = none := by rw [Block.banned, hnone]; rfl
    have hreward : proverReward b s.block = none := by rw [proverReward, hbannedNone]; rfl
    have hbanned : ∀ addr, isAccountBanned (some addr) accounts = true ↔
        isAccountBanned (some addr) s.accounts = true ∨ b.banned = some addr := by
      intro addr
      rw [hrewrites.isAccountBanned_eq, hbannedNone]
      simp
    rw [hrewrites.isAccountBanned_eq] at hminer
    refine ⟨?_, ?_, ?_, ?_, ?_, hminer, ?_⟩
    · intro addr
      rw [hreleases.balanceAt_eq hbanned, hreward, hbannedNone]
      simp
    · rw [endowmentContribution, hbannedNone, add_zero]
    · rw [hbannedNone]
      simp
    · intro addr
      rw [hreleases.rewrites.isAccountBanned_eq]
      exact hbanned addr
    · rw [hbannedNone]
      simp
    · rw [hnone]
      simp
  · have hbannedSome : b.banned = some proof.address := by rw [Block.banned, hsome]; rfl
    have hbanned : ∀ addr, isAccountBanned (some addr) accounts1 = true ↔
        isAccountBanned (some addr) s.accounts = true ∨ b.banned = some addr := by
      intro addr
      rw [isAccountBanned_banAccount hban, hrewrites.isAccountBanned_eq, hbannedSome]
      by_cases heq : addr = proof.address
      · simp [heq]
      · simp [heq, Ne.symm heq]
    rw [hrewrites.isAccountBanned_eq] at hminer hfree
    refine ⟨?_, ?_, ?_, ?_, ?_, hminer, ?_⟩
    · intro addr
      rw [balanceAt_applyMiningReward happly, hreleases.balanceAt_eq hbanned, balanceAt_banAccount hban, hreward,
        hbannedSome, Option.getD_some]
      by_cases heq : proof.address = addr
      · simp only [heq, if_true]
        ring
      · rw [if_neg heq, if_neg fun hsome => heq (Option.some.inj hsome), add_zero, add_zero]
    · simp only [endowmentContribution, hbannedSome, hreward, Option.getD_some, confiscated]
      rw [← getRewardSum_eq_some hs.rewards hs.denomination hsum]
      ring
    · rw [hreward]
      simp
    · intro addr
      rw [(rewrites_applyMiningReward happly).isAccountBanned_eq, hreleases.rewrites.isAccountBanned_eq]
      exact hbanned addr
    · intro addr haddr
      rw [hbannedSome, Option.some.injEq] at haddr
      subst haddr
      exact hfree
    · intro proof2 hproof2
      rw [hsome, Option.some.injEq] at hproof2
      subst hproof2
      exact hkey

/-- An accepted block settles, and its own reward waits for an account that is not banned. -/
lemma Chain.Denominated.accept (hs : s.Denominated) (h : s.accept pricingV1 received = some s') :
    Settles pricingV1 s received.block s' ∧ (0 ≤ received.block.reward → s'.Denominated) ∧
      s'.block.window =
        ⟨received.block.rewardAddr, getHashRate received.block.diff, received.block.reward, received.block.denomination⟩ ::
          s.block.window.take (rewardHistoryBlocks - 1) ∧
      (sha256.CollisionFree received.block.keys → ∃ addr, received.block.rewardAddr = some addr ∧
        isAccountBanned (some addr) s'.accounts = false) := by
  obtain ⟨-, haddr, -, args2, accounts2, hupdate, hagrees, rfl⟩ := accept_eq_some h
  obtain ⟨args, accounts1, hargs, happly, hupdate2⟩ := updateAccounts_eq_ok hupdate
  obtain ⟨hbalances, hpool, hprover, hbanned, honce, hminer, hkey⟩ :=
    updateAccounts2_settles hs (rewrites_applyTxs happly) hupdate2
  have hwindow : (received.block.withHistories s.block).window =
      ⟨received.block.rewardAddr, getHashRate received.block.diff, received.block.reward, received.block.denomination⟩ ::
        s.block.window.take (rewardHistoryBlocks - 1) := by
    rw [Block.window, Block.window, take_withHistories, List.take_take, min_eq_left (by omega)]
  refine ⟨⟨⟨accounts1, happly, hbalances⟩, ⟨args, hargs, ?_⟩, hprover, hbanned, honce, ?_⟩, ?_, hwindow, ?_⟩
  · change received.block.rewardPool = _
    rw [hagrees.rewardPool, hpool]
    rfl
  · intro addr amount hreleased
    unfold released at hreleased
    simp only [bind, Option.bind_eq_some_iff] at hreleased
    obtain ⟨entry, -, addr', -, hreleased⟩ := hreleased
    split_ifs at hreleased with hcases
    cases hreleased
    rw [← Bool.not_eq_true, hbanned]
    exact hcases
  · intro hreward
    have hle := hagrees.denomination
    refine ⟨hs.denomination.trans hle, ?_, ?_⟩
    · rw [hwindow, List.forall_mem_cons]
      refine ⟨⟨hs.denomination.trans hle, le_rfl⟩, ?_⟩
      intro entry hentry
      obtain ⟨hfirst, hlast⟩ := hs.rewards entry (List.mem_of_mem_take hentry)
      exact ⟨hfirst, hlast.trans hle⟩
    · rw [hwindow, List.forall_mem_cons]
      refine ⟨hreward, ?_⟩
      intro entry hentry
      exact hs.reward_nonneg entry (List.mem_of_mem_take hentry)
  · intro hkeys
    obtain ⟨addr, hclaimed⟩ := Option.isSome_iff_exists.mp (isSome_of_verifyRewardAddr haddr)
    refine ⟨addr, hclaimed, ?_⟩
    rw [← Bool.not_eq_true, hbanned]
    rintro (hbefore | hnow)
    · rw [hclaimed, hbefore] at hminer
      cases hminer
    · rw [Block.banned, Option.map_eq_some_iff] at hnow
      obtain ⟨proof, hproof, rfl⟩ := hnow
      exact rewardAddr_ne_of_collisionFree haddr hkeys hproof (hkey proof hproof) hclaimed

end Step

/-- The chain after every block. The rewards of received blocks are unsigned, and the keys of a
block have the same address only if they are the same. -/
structure IsRun (pricingV1 : Block → Block → Option (Int × Int)) (s : Nat → Chain) (received : Nat → Received)
    (n : Nat) : Prop where
  start : (s 0).Denominated
  accept : ∀ i < n, (s i).accept pricingV1 (received i) = some (s (i + 1))
  reward_nonneg : ∀ i < n, 0 ≤ (received i).block.reward
  collisionFree : ∀ i < n, sha256.CollisionFree (received i).block.keys

/-- The block pays the reward at the position of the window, which leaves it, to the account. -/
def Pays (s : Chain) (b : Block) (k : Nat) (addr : Bytes) : Prop :=
  k = rewardHistoryBlocks - 1 ∧ ∃ entry, s.block.window[k]? = some entry ∧ entry.addr = some addr ∧
    released s b = some (addr, entry.value s.block.denomination)

/-- The reward at the position of the window is one of those that the block takes from the account. -/
def Confiscates (s : Chain) (b : Block) (k : Nat) (addr : Bytes) : Prop :=
  b.banned = some addr ∧ ∃ entry, s.block.window[k]? = some entry ∧ entry.addr = some addr

/-- The reward at the position `k` of the window before the block `t` is paid to its account by the
block before which it is the last one of the window, if no block until then bans the account, and
taken by the block that bans it otherwise. No other block settles it. -/
structure SettledOnce (s : Nat → Chain) (received : Nat → Received) (n t k : Nat) (addr : Bytes) : Prop where
  paid : ∀ i < n, t ≤ i → k + (i - t) = rewardHistoryBlocks - 1 →
    (∀ j, t ≤ j → j ≤ i → (received j).block.banned ≠ some addr) → Pays (s i) (received i).block (k + (i - t)) addr
  confiscated : ∀ i < n, t ≤ i → k + (i - t) ≤ rewardHistoryBlocks - 1 → (received i).block.banned = some addr →
    Confiscates (s i) (received i).block (k + (i - t)) addr
  once : ∀ i < n, t ≤ i → ∀ j < n, t ≤ j →
    Pays (s i) (received i).block (k + (i - t)) addr ∨ Confiscates (s i) (received i).block (k + (i - t)) addr →
    Pays (s j) (received j).block (k + (j - t)) addr ∨ Confiscates (s j) (received j).block (k + (j - t)) addr → i = j
  not_both : ∀ i < n, t ≤ i → Pays (s i) (received i).block (k + (i - t)) addr →
    ¬ Confiscates (s i) (received i).block (k + (i - t)) addr

/-- Along the blocks every reward waits for an account that is not banned and is settled once, and no
prover has to pay. -/
structure RewardsSettled (pricingV1 : Block → Block → Option (Int × Int)) (s : Nat → Chain)
    (received : Nat → Received) (n : Nat) : Prop where
  settles : ∀ i < n, Settles pricingV1 (s i) (received i).block (s (i + 1))
  reserves : ∀ i < n, ∃ addr, isAccountBanned (some addr) (s (i + 1)).accounts = false ∧
    (s (i + 1)).block.window[0]? = some
      ⟨some addr, getHashRate (received i).block.diff, (received i).block.reward, (received i).block.denomination⟩
  settledOnce : ∀ t ≤ n, ∀ k entry addr, (s t).block.window[k]? = some entry → entry.addr = some addr →
    isAccountBanned (some addr) (s t).accounts = false → SettledOnce s received n t k addr
  prover_nonneg : ∀ i < n, ∀ reward, proverReward (received i).block (s i).block = some reward → 0 ≤ reward

section Runs

variable {pricingV1 : Block → Block → Option (Int × Int)} {s : Nat → Chain} {received : Nat → Received}
  {n t i k : Nat} {addr : Bytes} {entry : RewardEntry}

lemma IsRun.denominated (h : IsRun pricingV1 s received n) (hi : i ≤ n) : (s i).Denominated := by
  induction i with
  | zero => exact h.start
  | succ i ih =>
    obtain ⟨-, hnext, -⟩ := (ih (by omega)).accept (h.accept i (by omega))
    exact hnext (h.reward_nonneg i (by omega))

lemma IsRun.settles (h : IsRun pricingV1 s received n) (hi : i < n) :
    Settles pricingV1 (s i) (received i).block (s (i + 1)) :=
  ((h.denominated hi.le).accept (h.accept i hi)).1

lemma IsRun.getElem?_window (h : IsRun pricingV1 s received n) (ht : t ≤ i) (hi : i ≤ n)
    (hentry : (s t).block.window[k]? = some entry) (hk : k + (i - t) < rewardHistoryBlocks) :
    (s i).block.window[k + (i - t)]? = some entry := by
  induction i, ht using Nat.le_induction with
  | base =>
    rw [Nat.sub_self]
    exact hentry
  | succ i ht ih =>
    obtain ⟨-, -, hwindow, -⟩ := (h.denominated (by omega)).accept (h.accept i hi)
    have hnext : k + (i + 1 - t) = k + (i - t) + 1 := by omega
    rw [hwindow, hnext, List.getElem?_cons_succ, List.getElem?_take_of_lt (by omega)]
    exact ih (by omega) (by omega)

lemma IsRun.isAccountBanned_iff (h : IsRun pricingV1 s received n) (ht : t ≤ i) (hi : i ≤ n) :
    isAccountBanned (some addr) (s i).accounts = true ↔ isAccountBanned (some addr) (s t).accounts = true ∨
      ∃ j, t ≤ j ∧ j < i ∧ (received j).block.banned = some addr := by
  induction i, ht using Nat.le_induction with
  | base =>
    constructor
    · exact .inl
    · rintro (hbanned | ⟨j, hle, hlt, -⟩)
      · exact hbanned
      · omega
  | succ i ht ih =>
    rw [(h.settles hi).banned_iff, ih (by omega)]
    constructor
    · rintro ((hbanned | ⟨j, hle, hlt, hbanned⟩) | hbanned)
      · exact .inl hbanned
      · exact .inr ⟨j, hle, by omega, hbanned⟩
      · exact .inr ⟨i, ht, by omega, hbanned⟩
    · rintro (hbanned | ⟨j, hle, hlt, hbanned⟩)
      · exact .inl (.inl hbanned)
      · rcases Nat.lt_succ_iff_lt_or_eq.mp hlt with hearlier | rfl
        · exact .inl (.inr ⟨j, hle, hearlier, hbanned⟩)
        · exact .inr hbanned

lemma Block.lt_of_getElem?_window {b : Block} (h : b.window[k]? = some entry) : k < rewardHistoryBlocks := by
  have hlt := (List.getElem?_eq_some_iff.mp h).1
  unfold Block.window at hlt
  rw [List.length_take] at hlt
  omega

lemma Pays.not_banned {s : Chain} {b : Block} (h : Pays s b k addr) :
    isAccountBanned (some addr) s.accounts = false ∧ b.banned ≠ some addr := by
  obtain ⟨-, entry, -, -, hreleased⟩ := h
  unfold released at hreleased
  simp only [bind, Option.bind_eq_some_iff] at hreleased
  obtain ⟨_, -, addr', -, hreleased⟩ := hreleased
  split_ifs at hreleased with hcases
  obtain ⟨rfl, -⟩ := Prod.mk.inj (Option.some.inj hreleased)
  rw [not_or, Bool.not_eq_true] at hcases
  exact hcases

lemma IsRun.not_settled_later {j : Nat} (h : IsRun pricingV1 s received n) (ht : t ≤ i) (hij : i < j) (hj : j < n)
    (hi : Pays (s i) (received i).block (k + (i - t)) addr ∨ Confiscates (s i) (received i).block (k + (i - t)) addr) :
    ¬ (Pays (s j) (received j).block (k + (j - t)) addr ∨ Confiscates (s j) (received j).block (k + (j - t)) addr) := by
  rcases hi with ⟨hlast, -⟩ | ⟨hbanned, -⟩
  · -- it has left the window
    rintro (⟨hlast', -⟩ | ⟨-, entry, hentry, -⟩)
    · omega
    · have := Block.lt_of_getElem?_window hentry
      omega
  · have hban : isAccountBanned (some addr) (s j).accounts = true :=
      (h.isAccountBanned_iff hij.le hj.le).mpr (.inr ⟨i, le_rfl, hij, hbanned⟩)
    rintro (hpays | ⟨hagain, -⟩)
    · rw [hpays.not_banned.1] at hban
      cases hban
    · rw [(h.settles hj).banned_once addr hagain] at hban
      cases hban

lemma IsRun.settledOnce (h : IsRun pricingV1 s received n) (hentry : (s t).block.window[k]? = some entry)
    (haddr : entry.addr = some addr) (hfree : isAccountBanned (some addr) (s t).accounts = false) :
    SettledOnce s received n t k addr where
  paid := by
    intro i hi ht hk hnone
    have hpos : 0 < rewardHistoryBlocks := by decide
    have hwindow := h.getElem?_window ht hi.le hentry (by omega)
    refine ⟨hk, entry, hwindow, haddr, ?_⟩
    have hban : ¬ isAccountBanned (some addr) (s i).accounts = true := by
      rw [h.isAccountBanned_iff ht hi.le, hfree]
      rintro (hbefore | ⟨j, hle, hlt, hbanned⟩)
      · cases hbefore
      · exact hnone j hle hlt.le hbanned
    rw [hk] at hwindow
    unfold released
    simp only [hwindow, haddr, bind, Option.bind_some]
    rw [if_neg (not_or.mpr ⟨hban, hnone i ht le_rfl⟩)]
  confiscated := by
    intro i hi ht hk hbanned
    have hpos : 0 < rewardHistoryBlocks := by decide
    exact ⟨hbanned, entry, h.getElem?_window ht hi.le hentry (by omega), haddr⟩
  once := by
    intro i hi hti j hj htj hsettled hsettled'
    rcases Nat.lt_trichotomy i j with hlt | heq | hlt
    · exact absurd hsettled' (h.not_settled_later hti hlt hj hsettled)
    · exact heq
    · exact absurd hsettled (h.not_settled_later htj hlt hi hsettled')
  not_both := by
    intro i _ _ hpays hconfiscates
    exact hpays.not_banned.2 hconfiscates.1

end Runs

section Acceptance

variable {pricingV1 : Block → Block → Option (Int × Int)} {s : Chain} {received : Received}
  {accounts accounts2 accounts3 : Accounts} {args args2 : RewardUpdate} {b : Block} {proof : DoubleSigningProof}
  {denomination : Nat} {rewardHistory : List RewardEntry}

lemma accept_of_steps
    (hchecks : received.block.height = s.block.height + 1 ∧ verifyRewardAddr received.block = true ∧
      verifyBlockTxs (received.context s.block) s.accounts received.block.txs = some .valid)
    (hdenominations : mayBeRedenominate s.block = some (received.block.denomination, received.block.redenominationHeight))
    (hargs : getMinerRewardAndEndowmentPool pricingV1 received.block s.block = some args)
    (htxs : applyTxs s.accounts s.block.denomination received.block.txs = some accounts)
    (hfork : Fork.height_2_6 ≤ received.block.height) (hminer : isAccountBanned received.block.rewardAddr accounts = false)
    (hproof : mayBeApplyDoubleSigningProof received.block accounts s.block.denomination s.block.window =
      some (.ok accounts2))
    (hupdate : updateAccounts4 received.block s.block accounts2 args s.block.window = some (.ok (args2, accounts3)))
    (hfields : checkBlockFields received.block s.block args2 accounts3 = some (.ok accounts3)) :
    s.accept pricingV1 received = some ⟨received.block.withHistories s.block, accounts3⟩ := by
  have hupdate3 : updateAccounts3 received.block s.block accounts args = some (.ok (args2, accounts3)) := by
    unfold updateAccounts3
    change (mayBeApplyDoubleSigningProof _ _ _ s.block.window >>= _) = _
    rw [hproof]
    exact hupdate
  have happly : applyBlock pricingV1 received.block s.block s.accounts = some (.ok accounts3) := by
    unfold applyBlock updateAccounts updateAccounts2
    simp only [hdenominations, hargs, htxs, bind, Option.bind_some, if_pos, hfork, hminer, Bool.false_eq_true, if_false,
      hupdate3, hfields]
  unfold Chain.accept
  dsimp only
  rw [if_pos hchecks, happly]

lemma mayBeApplyDoubleSigningProof_of_verify (hproof : b.doubleSigningProof = some proof)
    (hsignature : proof.signature1 ≠ proof.signature2) (hcdiff : proof.cdiff1 = proof.cdiff2)
    (hkey : b.rewardKey ≠ (.rsa, proof.pub)) (hfree : isAccountBanned (some proof.address) accounts = false)
    (hhistory : isInRewardHistory proof.address rewardHistory = true)
    (hverify1 : RsaPss.verify (signaturePreimage proof.cdiff1 proof.prevCdiff1 proof.preimage1) proof.signature1
      proof.pub.toNat = some true)
    (hverify2 : RsaPss.verify (signaturePreimage proof.cdiff2 proof.prevCdiff2 proof.preimage2) proof.signature2
      proof.pub.toNat = some true)
    (hban : banAccount proof.address accounts denomination = some accounts2) :
    mayBeApplyDoubleSigningProof b accounts denomination rewardHistory = some (.ok accounts2) := by
  unfold mayBeApplyDoubleSigningProof mayBeApplyDoubleSigningProof2 mayBeApplyDoubleSigningProof3
  simp only [hproof, if_neg hsignature, if_pos (Or.inl hcdiff), if_neg hkey, hfree, hhistory, hverify1, hverify2, hban,
    bind, Option.bind_some, Bool.false_eq_true, if_false, if_true]

end Acceptance

/-- The rewards of every chain of blocks are settled exactly if the accounts that its blocks ban have
at least one unit of rewards in the window. -/
theorem rewardsSettled_iff (pricingV1 : Block → Block → Option (Int × Int)) (s : Nat → Chain)
    (received : Nat → Received) (n : Nat) (h : IsRun pricingV1 s received n) :
    RewardsSettled pricingV1 s received n ↔
      ∀ i < n, ∀ addr, (received i).block.banned = some addr → 1 ≤ confiscated (s i).block addr := by
  constructor
  · intro hsettled i hi addr hbanned
    have hprover := (h.settles hi).proverReward (by rw [hbanned]; rfl)
    obtain ⟨reward, hreward⟩ := Option.isSome_iff_exists.mp hprover
    exact (proverReward_nonneg_iff (h.denominated hi.le) hbanned hreward).mp (hsettled.prover_nonneg i hi reward hreward)
  · intro hrewards
    refine ⟨fun i hi => h.settles hi, ?_, ?_, ?_⟩
    · intro i hi
      obtain ⟨-, -, hwindow, hminer⟩ := (h.denominated hi.le).accept (h.accept i hi)
      obtain ⟨addr, haddr, hfree⟩ := hminer (h.collisionFree i hi)
      refine ⟨addr, hfree, ?_⟩
      rw [hwindow, haddr]
      rfl
    · intro t _ k entry addr hentry haddr hfree
      exact h.settledOnce hentry haddr hfree
    · intro i hi reward hreward
      cases hbanned : (received i).block.banned with
      | none =>
        rw [proverReward, hbanned] at hreward
        cases hreward
      | some addr =>
        exact (proverReward_nonneg_iff (h.denominated hi.le) hbanned hreward).mpr (hrewards i hi addr hbanned)

def ownerC : Bytes :=
  Bytes.ofNat 64 0xda62938c1f80f2325817d300abfec4f247d388b5a682281ffce03a597ce92cd42014c2dda752146a3ca70d82a20f38addccc29d918ae1921fe01111ba589b7d7 ++
  Bytes.ofNat 64 0x65015b77e94f3e16e3661ea9c5b7b611e61b2d83aba12971c9ca7bb042f2034a17f6001cdf283c41ed47ade5de1e5bdbb55a09a8767651efb205f2cc7585789c ++
  Bytes.ofNat 64 0x8bff087f0b0e303f431b7b71ff04db7f857c13c5f8d5732b686d8f384a15993c16a6b6edf21c66a90a1238250e6ac7140d126188e9065a5cb14cd97554c20861 ++
  Bytes.ofNat 64 0xfc18d8e1cdb246bb017b9f86bdb8e86d1b27a64323cce3e666af2732329c9c3ba02ae36e8ebbb19fae8578504848fc8a417786ed16c03bf8bb4da77e7859fecb ++
  Bytes.ofNat 64 0x5f57c3358bdf7aec855df606f53a332ac748feb96c8f85be69bfe32387fbf97fd0f58a04f2f7f4430ba494fa56fbde2d3749b9d93a4b6219890c44b3b5727ed6 ++
  Bytes.ofNat 64 0xd33c306715fed9f2b5ab17dac3341e584402ab4f26eef5132731113cdd89f163e70bd7e3edb04a89ecacfe839580e909d255873bd44d4b4c186d2fa2701890a0 ++
  Bytes.ofNat 64 0x316aad5987e994f886a28026602f998b1aefeb789f7c2f7f2750a610f24e827d2ec5085c77fd2881be51d0eded0423eda574253b40abd82501bf68fbec29cd97 ++
  Bytes.ofNat 64 0x9a71a0c8844610779ee08fc89f33cc4c28d4a28cd722e522cdf854aba4afcbecd97c31779a2cae0c5b15ca42877ce04be94e4261a361a7f93b43710810d6e265

def addressC : Bytes :=
  Bytes.ofNat 32 0xece3c028ea37e943224d747d8b65b5e246ace5d150ce12ea85ebe4b0649a5946

/-- Signatures of two blocks with the same cumulative difficulty. -/
def sampleProof : DoubleSigningProof where
  pub := ownerC
  signature1 :=
    Bytes.ofNat 64 0xad0aa9f723a6a79b57decc32e181f61f41349f0da75b2277acbf75782618f0b4fce03864303ad9e7bb69e9823d60265e4e04a731c6d652f5fd965b61846b30fb ++
    Bytes.ofNat 64 0x50654f59f755a0b93a2002866ac3754238e303131d5ca663cf6352a6148dcb27654e5739404638ece854d3be91913d60a411106377ff9d3bc64cec9dd2b58f1a ++
    Bytes.ofNat 64 0x1f5213e1dc0ff02835ba5b0eda7aa40e3a57ee5545f17bdd512a9108afd531790216eaccef6d2760f52d4993f7960e7d4cd8580b35094b0d7f6018c1df411f10 ++
    Bytes.ofNat 64 0x22e8952d98667bb51fd2b5b6e79f78a80f6e44b09ab3f6b221ffd762db925264deea510b5300d37457a17700c91a8f9ec2fbf8e0d812b496412c35f8622e6e4d ++
    Bytes.ofNat 64 0x7768236911ee65cf78cdb13a6d0fad2e6b690a5e7eb27030978dbc859f1a9ec84892d9832881fffeaf7fad344c885cc48f08a81e9a0f26094a14b6e2f379d81a ++
    Bytes.ofNat 64 0xe7f26fc2e88afdecfb07b2867ba289a219214108b76d259b700fc31cf80dc2ad3f7a037861772eb8747a593b66b7bbd6f57a0b535d392cd22629741c42bfa12f ++
    Bytes.ofNat 64 0x2402bdb1b2a4fc8c77ed775dbcf049e60dca618cdabf0eb3d61e1edd9757110d64cb3223982102b6aa8fc5ed0697dc55ec239fdf3db690c2063056c277ea3832 ++
    Bytes.ofNat 64 0xfc17fe786a4066422788f3dc4b8dd4d8e29da806cd5181162a542448fe009c76058260670478220237cd1c129eb6e4c88793c87e6f2a2583c44154c4098e9572
  cdiff1 := 900
  prevCdiff1 := 800
  preimage1 := List.replicate 64 1
  signature2 :=
    Bytes.ofNat 64 0x595f67e08332a6ed0c74a5e5d0bba6a25a4c0ec3b77211433382f84addb19749711d078db1244a5b82b0c9e1db2295b5381dc9032979bee40a856668b2c8adfe ++
    Bytes.ofNat 64 0x63190c24da735e2760b48a2244926c9a642f321285bc038c863246c367f2629d9b26fb4eee7e1aef57f289a79d110820251ca91fc1d957716afbae0f6d7b225b ++
    Bytes.ofNat 64 0x634faf580809d21052cb21b3794e949695fe5d08e97d260399f9e5e204a0d1613062f40e0a6edaad4ec6356c7471b48b01530f38031679b37e24d49b05f5dbb3 ++
    Bytes.ofNat 64 0xd29b7796e51f6161d0c832d7f318c4d8d80e9d950f261103e801a7e294cecde8e8cc7c6a93485553ced661d2debca0fddba4f7475adc6050866fa1c92ba90d63 ++
    Bytes.ofNat 64 0xf064e70b155d0ed8ee57eea62dae914f789ae675fc0785a02b71fc2fba12efaa59ec4f793a84d2ace240dae32a8a87dc436c42e5bbbd09d3044e8f40464caef0 ++
    Bytes.ofNat 64 0xeb1cebe9332d148c8ddef41657cf465b6a1c90ffb73f5d2ee31cc7635fb62f5a080f973b51943e4b955de22a5a70f6c838173b63faf293396aa2365ad526d7fa ++
    Bytes.ofNat 64 0xb98202bac01bbbe62f5b5454370e21b1eb5c1c12b7ff627221213c4d8fbd8139b7b34c27d23062709882bbea70cb0a37ade262e26eeafa850e0f97f7d67524d3 ++
    Bytes.ofNat 64 0x822957534da2fbdec7aef528fb277322e69cb99dea7e3549c086a2f81c8ab4a1a9b20ed90989cecda5b598f6040129cb22801102c7c272148e6fcc3ede98cbff
  cdiff2 := 900
  prevCdiff2 := 800
  preimage2 := List.replicate 64 2
  length_pub := by decide +kernel

/-- A block without transactions, on an empty weave and when there is no inflation any more. -/
def emptyBlock (height : Nat) : Block where
  height := height
  timestamp := 1750000000
  diff := 0
  txs := []
  weaveSize := 0
  rewardAddr := some addressC
  rewardKey := (.rsa, ownerC)
  rewardPool := 5000000
  reward := 0
  debtSupply := 0
  kryderPlusRateMultiplierLatch := 0
  kryderPlusRateMultiplier := 1
  pricePerGiBMinute := 300
  usdToArRate := (1, 10)
  denomination := 1
  redenominationHeight := 0
  walletList := Bytes.ofNat 48 0x3a821e3147e8953c63a895f2c8122ab6acbffe11f98c3f7e8cdc2cc67d124a390a3b7f5af4504371abba4211eda1ea1e
  rewardHistory := []
  blockTimeHistory := []
  doubleSigningProof := none
  dataSize_nonneg := dataSize_nonneg_nil

def proverAddress : Bytes :=
  Bytes.ofNat 32 0x6caf38d537984e261527b8caef5f990fb91415a1db917198821a79ed28997973

/-- The account of the prover is the only one. -/
def provingChain (rewardHistory : List RewardEntry) : Chain where
  block := { emptyBlock 19999999 with rewardHistory := rewardHistory, blockTimeHistory := [2592000] }
  accounts := SortedMap.empty.insert proverAddress (.pair 1 [])

def provingBlock (height : Nat) (rewardPool : Int) (walletList : Bytes) : Block :=
  { emptyBlock height with
    rewardAddr := some proverAddress
    rewardKey := (.rsa, List.replicate 512 1)
    rewardPool := rewardPool
    walletList := walletList
    doubleSigningProof := some sampleProof }

/-- The accounts after the proof. -/
def provenAccounts (balance : Int) : Accounts :=
  (SortedMap.empty.insert proverAddress (.pair balance [])).insert addressC (.quad 1 [] 1 false)

set_option maxRecDepth 10000 in
lemma address_sampleProof : sampleProof.address = addressC := by decide

set_option maxRecDepth 10000 in
lemma verify_sampleProof :
    RsaPss.verify (signaturePreimage sampleProof.cdiff1 sampleProof.prevCdiff1 sampleProof.preimage1)
        sampleProof.signature1 sampleProof.pub.toNat = some true ∧
      RsaPss.verify (signaturePreimage sampleProof.cdiff2 sampleProof.prevCdiff2 sampleProof.preimage2)
        sampleProof.signature2 sampleProof.pub.toNat = some true := by
  have hsize : RsaPss.intToByteSize sampleProof.pub.toNat = 16 * 32 := by decide
  constructor
  · rw [RsaPss.verify_eq_verifyEncoding (by decide) (by decide) hsize (by decide),
      RsaPss.modPow_publicExponent]
    decide +kernel
  · rw [RsaPss.verify_eq_verifyEncoding (by decide) (by decide) hsize (by decide),
      RsaPss.modPow_publicExponent]
    decide +kernel

lemma mayBeApplyDoubleSigningProof_sampleProof {rewardHistory : List RewardEntry} {height : Nat} {rewardPool : Int}
    {walletList : Bytes} (hhistory : isInRewardHistory addressC rewardHistory = true) :
    mayBeApplyDoubleSigningProof (provingBlock height rewardPool walletList) (provingChain []).accounts 1 rewardHistory =
      some (.ok (provenAccounts 1)) := by
  have hkey : ((.rsa, List.replicate 512 1) : SignatureType × Bytes) ≠ (.rsa, sampleProof.pub) := by decide
  apply mayBeApplyDoubleSigningProof_of_verify rfl (by decide) rfl hkey _ _ verify_sampleProof.1
    verify_sampleProof.2
  · rw [address_sampleProof]
    decide
  · rw [address_sampleProof]
    decide
  · rw [address_sampleProof]
    exact hhistory

/-- A block with a proof against the account of a reward that waits. -/
def paidReceived : Nat → Received
  | _ => ⟨provingBlock 20000000 5000249
      (Bytes.ofNat 48 0xdd59e0797ce8742d13e512ee7384e77826de59741695840c164ae371905504f2bed2cb9b6efa715dd9a279600af6e280), [], OrdSet.empty⟩

/-- A window with a reward of the account that is banned, after as many of another account as fill it. -/
def fullWindow : List RewardEntry :=
  ⟨some addressC, 1, 500, 1⟩ :: List.replicate (rewardHistoryBlocks - 1) ⟨some addressB, 1, 1000, 1⟩

/-- The accounts after the proof, the last reward of the window, and the one of the prover. -/
def paidAccounts : Accounts := (provenAccounts 251).insert addressB (.pair 1000 [])

def paidRun : Nat → Chain
  | 0 => provingChain fullWindow
  | i + 1 => ⟨(paidReceived i).block.withHistories (paidRun i).block, paidAccounts⟩

/-- A block that gets no reward, and one with a proof against its miner. -/
def unpaidReceived : Nat → Received
  | 0 => ⟨emptyBlock 20000000, [], OrdSet.empty⟩
  | _ => ⟨provingBlock 20000001 5000000
      (Bytes.ofNat 48 0x27c8d186eb7627cb407adbf9755a5b27f63436eb83608173e98ff94aa86a591fe26a0c509ed4a2e9aefd9e5595507577), [], OrdSet.empty⟩

def unpaidRun : Nat → Chain
  | 0 => provingChain [⟨some addressB, 1, 1000, 1⟩]
  | 1 => ⟨(unpaidReceived 0).block.withHistories (unpaidRun 0).block, (unpaidRun 0).accounts⟩
  | i + 2 => ⟨(unpaidReceived 1).block.withHistories (unpaidRun (i + 1)).block, provenAccounts 0⟩

lemma addressB_ne_addressC : addressB ≠ addressC := by decide

lemma length_fullWindow : fullWindow.length = rewardHistoryBlocks := by
  rw [fullWindow, List.length_cons, List.length_replicate]
  rfl

lemma mem_fullWindow {entry : RewardEntry} (h : entry ∈ fullWindow) :
    entry = ⟨some addressC, 1, 500, 1⟩ ∨ entry = ⟨some addressB, 1, 1000, 1⟩ :=
  (List.mem_cons.mp h).imp_right List.eq_of_mem_replicate

lemma window_paidRun : (paidRun 0).block.window = fullWindow := List.take_of_length_le length_fullWindow.le

lemma getElem?_fullWindow : fullWindow[rewardHistoryBlocks - 1]? = some ⟨some addressB, 1, 1000, 1⟩ := by
  have hlast : rewardHistoryBlocks - 1 = rewardHistoryBlocks - 2 + 1 := rfl
  rw [fullWindow, hlast, List.getElem?_cons_succ, List.getElem?_replicate, if_pos (Nat.lt_succ_self _)]

lemma getRewardSumFrom_replicate {addr : Bytes} {entry : RewardEntry} (hne : entry.addr ≠ some addr) (n : Nat)
    (rewardHistory : List RewardEntry) (sum : Int) (denomination : Nat) :
    getRewardSumFrom addr (List.replicate n entry ++ rewardHistory) sum denomination =
      getRewardSumFrom addr rewardHistory sum denomination := by
  induction n with
  | zero => rfl
  | succ n ih => rw [List.replicate_succ, List.cons_append, getRewardSumFrom, if_neg hne, ih]

lemma getRewardSum_fullWindow : getRewardSum addressC fullWindow = some (500, 1) := by
  have hne : (some addressB : Option Bytes) ≠ some addressC := fun h => addressB_ne_addressC (Option.some.inj h)
  rw [getRewardSum, fullWindow, List.reverse_cons, List.reverse_replicate, getRewardSumFrom_replicate hne]
  decide

lemma getMinimalReward_fullWindow :
    getMinimalReward (fullWindow.take doubleSigningRewardSampleSize) = some (some 500, 1) := by
  have hsize : doubleSigningRewardSampleSize = doubleSigningRewardSampleSize - 1 + 1 := rfl
  rw [fullWindow, hsize, List.take_succ_cons, List.take_replicate]
  decide

lemma rewardsOf_fullWindow : rewardsOf addressC 1 fullWindow = 500 := by
  have hne : (some addressB : Option Bytes) ≠ some addressC := fun h => addressB_ne_addressC (Option.some.inj h)
  rw [rewardsOf, fullWindow, List.filter_cons_of_pos (by simp), List.filter_replicate, if_neg (by simpa using hne)]
  decide

set_option maxRecDepth 10000 in
lemma updateAccounts4_paidRun :
    updateAccounts4 (paidReceived 0).block (paidRun 0).block (provenAccounts 1) ⟨0, 5000000, 0, 0, 1⟩ fullWindow =
      some (.ok (⟨0, 5000249, 0, 0, 1⟩, paidAccounts)) := by
  have hproof : (paidReceived 0).block.doubleSigningProof = some sampleProof := rfl
  unfold updateAccounts4 updateAccounts5
  rw [if_pos length_fullWindow.ge, getElem?_fullWindow]
  simp only [bind, Option.bind_some, hproof, address_sampleProof, getRewardSum_fullWindow, getMinimalReward_fullWindow]
  decide

lemma checkBlockFields_samples :
    checkBlockFields (paidReceived 0).block (paidRun 0).block ⟨0, 5000249, 0, 0, 1⟩ paidAccounts =
        some (.ok paidAccounts) ∧
      checkBlockFields (unpaidReceived 0).block (unpaidRun 0).block ⟨0, 5000000, 0, 0, 1⟩ (unpaidRun 0).accounts =
        some (.ok (unpaidRun 0).accounts) ∧
      checkBlockFields (unpaidReceived 1).block (unpaidRun 1).block ⟨0, 5000000, 0, 0, 1⟩ (provenAccounts 0) =
        some (.ok (provenAccounts 0)) := by
  refine ⟨?_, ?_, ?_⟩ <;> decide +kernel

set_option maxRecDepth 10000 in
lemma isRun_paidRun : IsRun (fun _ _ => none) paidRun paidReceived 1 where
  start := by
    refine ⟨le_rfl, ?_, ?_⟩
    all_goals
      intro entry hentry
      rw [window_paidRun] at hentry
      obtain rfl | rfl := mem_fullWindow hentry
    · exact ⟨le_rfl, le_rfl⟩
    · exact ⟨le_rfl, le_rfl⟩
    · exact Int.natCast_nonneg 500
    · exact Int.natCast_nonneg 1000
  accept := by
    intro i hi
    obtain rfl : i = 0 := by omega
    have hargs : getMinerRewardAndEndowmentPool (fun _ _ => none) (paidReceived 0).block (paidRun 0).block =
        some ⟨0, 5000000, 0, 0, 1⟩ := by decide
    have hhistory : isInRewardHistory addressC fullWindow = true := by
      rw [isInRewardHistory, fullWindow, List.any_cons, decide_eq_true rfl, Bool.true_or]
    refine accept_of_steps (by decide) (by decide) hargs rfl (by decide) (by decide)
      ?_ (by rw [window_paidRun]; exact updateAccounts4_paidRun) checkBlockFields_samples.1
    rw [window_paidRun]
    exact mayBeApplyDoubleSigningProof_sampleProof hhistory
  reward_nonneg := by decide
  collisionFree := by decide

lemma banned_paidReceived : (paidReceived 0).block.banned = some addressC := congrArg some address_sampleProof

lemma released_paidRun : released (paidRun 0) (paidReceived 0).block = some (addressB, 1000) := by
  have hne : (some addressC : Option Bytes) ≠ some addressB := fun h => addressB_ne_addressC (Option.some.inj h).symm
  rw [released, window_paidRun, getElem?_fullWindow]
  simp only [bind, Option.bind_some, banned_paidReceived, hne, or_false]
  decide

/-- The last reward of the window is paid, and the one of the banned account is confiscated. -/
theorem rewardsSettled_paidRun : IsRun (fun _ _ => none) paidRun paidReceived 1 ∧
    released (paidRun 0) (paidReceived 0).block = some (addressB, 1000) ∧
    RewardsSettled (fun _ _ => none) paidRun paidReceived 1 := by
  refine ⟨isRun_paidRun, released_paidRun, (rewardsSettled_iff _ _ _ _ isRun_paidRun).mpr ?_⟩
  intro i hi addr haddr
  obtain rfl : i = 0 := by omega
  rw [banned_paidReceived, Option.some.injEq] at haddr
  subst haddr
  rw [confiscated, window_paidRun]
  exact rewardsOf_fullWindow.ge.trans' (by decide)

set_option maxRecDepth 10000 in
lemma isRun_unpaidRun : IsRun (fun _ _ => none) unpaidRun unpaidReceived 2 where
  start := ⟨by decide, by decide, by decide⟩
  accept := by
    intro i hi
    obtain rfl | rfl : i = 0 ∨ i = 1 := by omega
    · have hargs : getMinerRewardAndEndowmentPool (fun _ _ => none) (unpaidReceived 0).block (unpaidRun 0).block =
          some ⟨0, 5000000, 0, 0, 1⟩ := by decide
      have hupdate : updateAccounts4 (unpaidReceived 0).block (unpaidRun 0).block (unpaidRun 0).accounts
          ⟨0, 5000000, 0, 0, 1⟩ (unpaidRun 0).block.window =
            some (.ok (⟨0, 5000000, 0, 0, 1⟩, (unpaidRun 0).accounts)) := by decide
      exact accept_of_steps (by decide) (by decide) hargs rfl (by decide) (by decide)
        rfl hupdate checkBlockFields_samples.2.1
    · have hargs : getMinerRewardAndEndowmentPool (fun _ _ => none) (unpaidReceived 1).block (unpaidRun 1).block =
          some ⟨0, 5000000, 0, 0, 1⟩ := by decide
      have hupdate : updateAccounts4 (unpaidReceived 1).block (unpaidRun 1).block (provenAccounts 1)
          ⟨0, 5000000, 0, 0, 1⟩ (unpaidRun 1).block.window =
            some (.ok (⟨0, 5000000, 0, 0, 1⟩, provenAccounts 0)) := by decide
      exact accept_of_steps (by decide) (by decide) hargs rfl (by decide) (by decide)
        (mayBeApplyDoubleSigningProof_sampleProof (by decide)) hupdate checkBlockFields_samples.2.2
  reward_nonneg := by decide
  collisionFree := by decide

set_option maxRecDepth 10000 in
/-- The prover pays one unit for the proof. -/
theorem not_rewardsSettled_unpaidRun : IsRun (fun _ _ => none) unpaidRun unpaidReceived 2 ∧
    proverReward (unpaidReceived 1).block (unpaidRun 1).block = some (-1) ∧
    ¬ RewardsSettled (fun _ _ => none) unpaidRun unpaidReceived 2 := by
  have hreward : proverReward (unpaidReceived 1).block (unpaidRun 1).block = some (-1) := by decide
  refine ⟨isRun_unpaidRun, hreward, ?_⟩
  intro hsettled
  have hnonneg := hsettled.prover_nonneg 1 (by omega) (-1) hreward
  omega

end Arweave.Ledger

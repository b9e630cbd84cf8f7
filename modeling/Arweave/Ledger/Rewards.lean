import Arweave.Ledger.Blocks

/-!
# Reserved rewards

The rewards in the window of the reward history wait for accounts that are claimed and not
banned. The release of a reward moves it to an account, and a ban takes all the rewards of an
account out of the window.
-/

namespace Arweave.Ledger
open Arweave.Lib Arweave.Tx

/-- The reward waits for an account that can get it. -/
def isReserved (accounts : Accounts) (entry : RewardEntry) : Bool :=
  entry.addr.isSome && !isAccountBanned entry.addr accounts

/-- The reward in a denomination that is not below its own. -/
def RewardEntry.value (denomination : Nat) (entry : RewardEntry) : Int :=
  entry.reward * scale entry.denomination denomination

/-- The sum of the rewards that wait. -/
def reservedSum (accounts : Accounts) (denomination : Nat) (rewardHistory : List RewardEntry) : Int :=
  ((rewardHistory.filter (isReserved accounts)).map (RewardEntry.value denomination)).sum

/-- The sum of the rewards of one account. -/
def rewardsOf (addr : Bytes) (denomination : Nat) (rewardHistory : List RewardEntry) : Int :=
  ((rewardHistory.filter fun entry => entry.addr = some addr).map (RewardEntry.value denomination)).sum

/-- Accounts are in a denomination from the first one to the given one. -/
def InDenominations (denomination : Nat) (accounts : Accounts) : Prop :=
  ∀ addr account, accounts.lookup addr = some account → 1 ≤ account.denomination ∧ account.denomination ≤ denomination

/-- Written accounts are in the denomination of the block, and none is banned or admitted. -/
structure Rewrites (denomination : Nat) (accounts accounts2 : Accounts) : Prop where
  account : ∀ addr account, accounts2.lookup addr = some account →
    accounts.lookup addr = some account ∨ account.denomination = denomination
  permission : ∀ addr, permissionAt accounts2 addr = permissionAt accounts addr

section Rewrites

variable {accounts accounts1 accounts2 : Accounts} {denomination : Nat} {addr : Bytes} {amount balance : Int}
  {lastTx : Bytes} {tx : TX} {txs : List TX}

lemma Rewrites.refl : Rewrites denomination accounts accounts := ⟨fun _ _ h => .inl h, fun _ => rfl⟩

lemma Rewrites.trans (h : Rewrites denomination accounts accounts1) (h' : Rewrites denomination accounts1 accounts2) :
    Rewrites denomination accounts accounts2 := by
  constructor
  · intro addr account hlookup
    rcases h'.account addr account hlookup with hsame | hwritten
    · exact h.account addr account hsame
    · exact .inr hwritten
  · intro addr
    rw [h'.permission, h.permission]

lemma rewrites_insert : Rewrites denomination accounts
    (accounts.insert addr (.of balance lastTx denomination (permissionAt accounts addr))) := by
  constructor
  · intro addr' account hlookup
    rw [SortedMap.lookup_insert] at hlookup
    split_ifs at hlookup
    · cases hlookup
      exact .inr Account.denomination_of
    · exact .inl hlookup
  · intro addr'
    unfold permissionAt
    rw [SortedMap.lookup_insert]
    split_ifs with heq
    · rw [Option.elim_some, Account.miningPermission_of, heq]
    · rfl

lemma rewrites_addAmountToAccount (h : addAmountToAccount accounts addr amount denomination = some accounts2) :
    Rewrites denomination accounts accounts2 := by
  rw [(addAmountToAccount_eq h).2]
  exact rewrites_insert

lemma rewrites_applyMiningReward {rewardAddr : Option Bytes}
    (h : applyMiningReward accounts rewardAddr amount denomination = some accounts2) :
    Rewrites denomination accounts accounts2 := by
  cases rewardAddr with
  | none =>
    cases h
    exact .refl
  | some addr => exact rewrites_addAmountToAccount h

lemma rewrites_applyTx (h : applyTx accounts denomination tx = some accounts2) :
    Rewrites denomination accounts accounts2 := by
  cases hlookup : accounts.lookup tx.address with
  | none =>
    rw [applyTx_of_unknown hlookup] at h
    cases h
    exact .refl
  | some account =>
    obtain ⟨-, -, accounts1, rfl, hrest⟩ := applyTx_eq h (by rw [hlookup]; rfl)
    rcases hrest with ⟨-, rfl⟩ | ⟨-, hadd⟩
    · exact rewrites_insert
    · exact rewrites_insert.trans (rewrites_addAmountToAccount hadd)

lemma rewrites_applyTxs (h : applyTxs accounts denomination txs = some accounts2) :
    Rewrites denomination accounts accounts2 := by
  unfold applyTxs at h
  apply foldlM_invariant (P := Rewrites denomination accounts) (C := fun _ _ => True) .refl _ _ h
  · intro accounts1 tx accounts2 _ hbefore _ happly
    exact hbefore.trans (rewrites_applyTx happly)
  · intro before tx after accounts1 _ _
    trivial

lemma isAccountBanned_eq : isAccountBanned (some addr) accounts = !permissionAt accounts addr := by
  unfold isAccountBanned permissionAt
  dsimp only
  cases accounts.lookup addr <;> rfl

lemma Rewrites.isAccountBanned_eq (h : Rewrites denomination accounts accounts2) (rewardAddr : Option Bytes) :
    isAccountBanned rewardAddr accounts2 = isAccountBanned rewardAddr accounts := by
  cases rewardAddr with
  | none => rfl
  | some addr => rw [Ledger.isAccountBanned_eq, Ledger.isAccountBanned_eq, h.permission]

lemma Rewrites.reservedSum_eq (h : Rewrites denomination accounts accounts2) {D : Nat}
    (rewardHistory : List RewardEntry) : reservedSum accounts2 D rewardHistory = reservedSum accounts D rewardHistory := by
  have hreserved : isReserved accounts2 = isReserved accounts := by
    funext entry
    unfold isReserved
    rw [h.isAccountBanned_eq]
  unfold reservedSum
  rw [hreserved]

lemma Rewrites.inDenominations (h : Rewrites denomination accounts accounts2) (hdenomination : 1 ≤ denomination)
    (hin : InDenominations denomination accounts) : InDenominations denomination accounts2 := by
  intro addr account hlookup
  rcases h.account addr account hlookup with hsame | hwritten
  · exact hin addr account hsame
  · rw [hwritten]
    exact ⟨hdenomination, le_rfl⟩

end Rewrites

section Sums

variable {accounts accounts2 : Accounts} {denomination : Nat} {entry : RewardEntry} {rewardHistory : List RewardEntry}

lemma reservedSum_cons : reservedSum accounts denomination (entry :: rewardHistory) =
    (if isReserved accounts entry = true then entry.value denomination else 0) +
      reservedSum accounts denomination rewardHistory := by
  unfold reservedSum
  rw [List.filter_cons]
  split_ifs <;> simp

lemma reservedSum_append {l : List RewardEntry} : reservedSum accounts denomination (rewardHistory ++ l) =
    reservedSum accounts denomination rewardHistory + reservedSum accounts denomination l := by
  unfold reservedSum
  rw [List.filter_append, List.map_append, List.sum_append]

lemma rewardsOf_cons {addr : Bytes} : rewardsOf addr denomination (entry :: rewardHistory) =
    (if entry.addr = some addr then entry.value denomination else 0) + rewardsOf addr denomination rewardHistory := by
  unfold rewardsOf
  rw [List.filter_cons]
  split_ifs <;> simp_all

lemma scale_mul_scale {base mid : Nat} (hbase : 1 ≤ base) (hmid : base ≤ mid) (hle : mid ≤ denomination) :
    scale base mid * scale mid denomination = scale base denomination := by
  unfold scale
  rw [if_neg (by omega), if_neg (by omega), if_neg (by omega), ← pow_add]
  congr 1
  omega

lemma getRewardSumFrom_eq_some {addr : Bytes} {sum sum2 : Int} {base base2 : Nat}
    (hdenominations : ∀ entry ∈ rewardHistory, 1 ≤ entry.denomination ∧ entry.denomination ≤ denomination)
    (hbase : 1 ≤ base ∧ base ≤ denomination)
    (h : getRewardSumFrom addr rewardHistory sum base = some (sum2, base2)) :
    sum2 * scale base2 denomination = sum * scale base denomination + rewardsOf addr denomination rewardHistory := by
  induction rewardHistory generalizing sum base with
  | nil =>
    cases h
    simp [rewardsOf]
  | cons entry rewardHistory ih =>
    rw [List.forall_mem_cons] at hdenominations
    unfold getRewardSumFrom at h
    rw [rewardsOf_cons]
    split_ifs at h ⊢ with haddr
    · simp only [bind, Option.bind_eq_some_iff, redenominate_eq_some] at h
      obtain ⟨_, ⟨hle, rfl⟩, hrest⟩ := h
      rw [ih hdenominations.2 hdenominations.1 hrest, RewardEntry.value,
        ← scale_mul_scale hbase.1 hle hdenominations.1.2]
      ring
    · rw [ih hdenominations.2 hbase h, zero_add]

lemma getRewardSum_eq_some {addr : Bytes} {sum : Int} {base : Nat}
    (hdenominations : ∀ entry ∈ rewardHistory, 1 ≤ entry.denomination ∧ entry.denomination ≤ denomination)
    (hdenomination : 1 ≤ denomination) (h : getRewardSum addr rewardHistory = some (sum, base)) :
    sum * scale base denomination = rewardsOf addr denomination rewardHistory := by
  have hreverse : rewardsOf addr denomination rewardHistory.reverse = rewardsOf addr denomination rewardHistory := by
    unfold rewardsOf
    rw [List.filter_reverse, List.map_reverse, List.sum_reverse]
  unfold getRewardSum at h
  rw [getRewardSumFrom_eq_some (by simpa using hdenominations) ⟨le_rfl, hdenomination⟩ h, hreverse]
  ring

end Sums

section Ban

variable {accounts accounts2 : Accounts} {denomination : Nat} {addr : Bytes} {total : Int}

lemma banAccount_eq (h : banAccount addr accounts denomination = some accounts2) :
    accounts2 = accounts.insert addr
      (.quad (balanceAt accounts denomination addr + 1) (lastTxAt accounts addr) denomination false) := by
  unfold banAccount at h
  unfold balanceAt lastTxAt
  cases hlookup : accounts.lookup addr with
  | none =>
    simp only [hlookup, Option.some.injEq] at h
    rw [← h]
    rfl
  | some account =>
    simp only [hlookup, bind, Option.bind_eq_some_iff, Account.balanceIn_eq_some, Option.some.injEq] at h
    obtain ⟨_, ⟨-, rfl⟩, rfl⟩ := h
    rfl

lemma totalBalance_banAccount (htotal : totalBalance accounts denomination = some total)
    (h : banAccount addr accounts denomination = some accounts2) :
    totalBalance accounts2 denomination = some (total + 1) := by
  rw [totalBalance_eq_some] at htotal ⊢
  obtain ⟨hdenominated, rfl⟩ := htotal
  rw [banAccount_eq h]
  constructor
  · exact hdenominated.insert le_rfl
  · rw [sum_insert_account]
    simp only [Account.value, Account.balance, Account.denomination, scale_self]
    ring

lemma inDenominations_banAccount (hdenomination : 1 ≤ denomination) (hin : InDenominations denomination accounts)
    (h : banAccount addr accounts denomination = some accounts2) : InDenominations denomination accounts2 := by
  intro addr' account hlookup
  rw [banAccount_eq h, SortedMap.lookup_insert] at hlookup
  split_ifs at hlookup
  · cases hlookup
    exact ⟨hdenomination, le_rfl⟩
  · exact hin addr' account hlookup

lemma isAccountBanned_banAccount (h : banAccount addr accounts denomination = some accounts2)
    (rewardAddr : Option Bytes) :
    isAccountBanned rewardAddr accounts2 = if rewardAddr = some addr then true else isAccountBanned rewardAddr accounts := by
  cases rewardAddr with
  | none => rfl
  | some addr' =>
    rw [banAccount_eq h, isAccountBanned_eq, isAccountBanned_eq, permissionAt, SortedMap.lookup_insert]
    by_cases heq : addr' = addr
    · rw [if_pos heq, if_pos (by rw [heq])]
      rfl
    · rw [if_neg heq, if_neg (by simpa using heq)]
      rfl

lemma reservedSum_banAccount (h : banAccount addr accounts denomination = some accounts2)
    (hbanned : isAccountBanned (some addr) accounts = false) {D : Nat} (rewardHistory : List RewardEntry) :
    reservedSum accounts D rewardHistory = rewardsOf addr D rewardHistory + reservedSum accounts2 D rewardHistory := by
  induction rewardHistory with
  | nil => rfl
  | cons entry rewardHistory ih =>
    rw [reservedSum_cons, reservedSum_cons, rewardsOf_cons, ih]
    have hentry : (if isReserved accounts entry = true then entry.value D else 0) =
        (if entry.addr = some addr then entry.value D else 0) +
          if isReserved accounts2 entry = true then entry.value D else 0 := by
      unfold isReserved
      rw [isAccountBanned_banAccount h]
      by_cases haddr : entry.addr = some addr
      · simp [haddr, hbanned]
      · simp [haddr]
    rw [hentry]
    ring

end Ban

section Release

variable {accounts accounts2 : Accounts} {denomination : Nat} {total : Int} {rewardHistory : List RewardEntry}

/-- The release of the reward that leaves the window. -/
def Releases (rewardHistory : List RewardEntry) (denomination : Nat) (accounts accounts2 : Accounts) : Prop :=
  (rewardHistory.length < rewardHistoryBlocks ∧ accounts2 = accounts) ∨
    ∃ entry, rewardHistory[rewardHistoryBlocks - 1]? = some entry ∧
      (isAccountBanned entry.addr accounts = true ∧ accounts2 = accounts ∨
        isAccountBanned entry.addr accounts = false ∧
          applyMiningReward accounts entry.addr (entry.value denomination) denomination = some accounts2)

lemma Releases.rewrites (h : Releases rewardHistory denomination accounts accounts2) :
    Rewrites denomination accounts accounts2 := by
  rcases h with ⟨-, rfl⟩ | ⟨entry, -, ⟨-, rfl⟩ | ⟨-, happly⟩⟩
  · exact .refl
  · exact .refl
  · exact rewrites_applyMiningReward happly

lemma totalBalance_applyMiningReward {rewardAddr : Option Bytes} {amount : Int}
    (htotal : totalBalance accounts denomination = some total)
    (h : applyMiningReward accounts rewardAddr amount denomination = some accounts2) :
    totalBalance accounts2 denomination = some (total + if rewardAddr.isSome = true then amount else 0) := by
  cases rewardAddr with
  | none =>
    cases h
    simpa using htotal
  | some addr =>
    rw [totalBalance_addAmountToAccount htotal h]
    rfl

lemma Releases.conserves (h : Releases rewardHistory denomination accounts accounts2)
    (hlength : rewardHistory.length ≤ rewardHistoryBlocks) (htotal : totalBalance accounts denomination = some total) :
    ∃ total2, totalBalance accounts2 denomination = some total2 ∧
      total2 + reservedSum accounts2 denomination (rewardHistory.take (rewardHistoryBlocks - 1)) =
        total + reservedSum accounts denomination rewardHistory := by
  have hrewrites := h.rewrites
  simp only [hrewrites.reservedSum_eq]
  rcases h with ⟨hshort, rfl⟩ | ⟨entry, hentry, hrelease⟩
  · rw [List.take_of_length_le (by omega)]
    exact ⟨total, htotal, rfl⟩
  · have hsplit : rewardHistory = rewardHistory.take (rewardHistoryBlocks - 1) ++ [entry] := by
      obtain ⟨hlt, hget⟩ := List.getElem?_eq_some_iff.mp hentry
      rw [← hget, ← List.take_succ_eq_append_getElem hlt, List.take_of_length_le (by omega)]
    have hsum : reservedSum accounts denomination rewardHistory =
        reservedSum accounts denomination (rewardHistory.take (rewardHistoryBlocks - 1)) +
          ((if isReserved accounts entry = true then entry.value denomination else 0) +
            reservedSum accounts denomination []) := by
      rw [← reservedSum_cons, ← reservedSum_append, ← hsplit]
    rcases hrelease with ⟨hbanned, rfl⟩ | ⟨hbanned, happly⟩
    · refine ⟨total, htotal, ?_⟩
      rw [hsum, isReserved, hbanned]
      simp [reservedSum]
    · refine ⟨_, totalBalance_applyMiningReward htotal happly, ?_⟩
      rw [hsum, isReserved, hbanned]
      simp only [Bool.not_false, Bool.and_true, reservedSum, List.filter_nil, List.map_nil, List.sum_nil]
      ring

end Release

end Arweave.Ledger

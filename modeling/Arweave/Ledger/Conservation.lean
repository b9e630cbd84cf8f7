import Arweave.Lib.Runs
import Arweave.Tx.Replay

/-!
# Conservation

A transaction moves its quantity from one account to another and takes its reward out of the
accounts, in whatever denominations the accounts and the transaction are. The total is
measured in the denomination of the block.
-/

namespace Arweave.Ledger
open Arweave.Lib Arweave.Tx

/-- The sum of all balances in the given denomination. -/
def totalBalance (accounts : Accounts) (denomination : Nat) : Option Int := do
  let balances ← accounts.entries.mapM fun entry => entry.2.balanceIn denomination
  some balances.sum

/-- The sum of the rewards in the given denomination. -/
def totalRewards (txs : List TX) (denomination : Nat) : Option Int := do
  let rewards ← txs.mapM fun tx => redenominate tx.reward tx.denomination denomination
  some rewards.sum

def NonNegative (accounts : Accounts) : Prop :=
  ∀ addr account, accounts.lookup addr = some account → 0 ≤ account.balance

instance (accounts : Accounts) : Decidable (NonNegative accounts) :=
  decidable_of_iff (∀ entry ∈ accounts.entries, 0 ≤ entry.2.balance)
    ⟨fun h addr account hlookup => h (addr, account) (SortedMap.lookup_eq_some.mp hlookup),
      fun h entry hmem => h entry.1 entry.2 (SortedMap.lookup_eq_some.mpr hmem)⟩

/-- No account is in a later denomination. -/
def Denominated (denomination : Nat) (accounts : Accounts) : Prop :=
  ∀ addr account, accounts.lookup addr = some account → account.denomination ≤ denomination

section Measure

variable {accounts accounts2 : Accounts} {addr : Bytes} {account : Account} {denomination : Nat}
  {amount total : Int} {tx : TX} {txs : List TX}

lemma totalBalance_eq_some :
    totalBalance accounts denomination = some total ↔
      Denominated denomination accounts ∧ accounts.sum (Account.value denomination) = total := by
  have hvalue (x : Bytes × Account) (y : Int) : x.2.balanceIn denomination = some y ↔
      x.2.denomination ≤ denomination ∧ x.2.value denomination = y := Account.balanceIn_eq_some
  unfold totalBalance Denominated SortedMap.sum
  simp only [bind, Option.bind_eq_some_iff, Option.some.injEq, mapM_eq_some_iff hvalue, SortedMap.lookup_eq_some]
  constructor
  · rintro ⟨_, ⟨hle, rfl⟩, rfl⟩
    exact ⟨fun addr account hmem => hle _ hmem, rfl⟩
  · rintro ⟨hle, rfl⟩
    exact ⟨_, ⟨fun x hmem => hle _ _ hmem, rfl⟩, rfl⟩

lemma totalRewards_cons {rewards : Int} (h : totalRewards txs denomination = some rewards)
    (hle : tx.denomination ≤ denomination) :
    totalRewards (tx :: txs) denomination =
      some (tx.reward * scale tx.denomination denomination + rewards) := by
  unfold totalRewards at h ⊢
  simp only [bind, Option.bind_eq_some_iff, Option.some.injEq] at h
  obtain ⟨l, hl, rfl⟩ := h
  rw [List.mapM_cons, redenominate_eq, if_pos hle, hl]
  simp

lemma Denominated.insert (h : Denominated denomination accounts) (haccount : account.denomination ≤ denomination) :
    Denominated denomination (accounts.insert addr account) := by
  intro addr' account' hlookup
  rw [SortedMap.lookup_insert] at hlookup
  split_ifs at hlookup
  · cases hlookup
    exact haccount
  · exact h addr' account' hlookup

lemma sum_insert_account :
    (accounts.insert addr account).sum (Account.value denomination) =
      accounts.sum (Account.value denomination) - balanceAt accounts denomination addr +
        account.value denomination := by
  rw [SortedMap.sum_insert, balanceAt]
  cases hlookup : accounts.lookup addr with
  | none =>
    rw [SortedMap.sum_erase_of_none hlookup]
    simp [add_comm]
  | some old =>
    rw [← SortedMap.sum_erase hlookup]
    simp only [Option.elim_some]
    ring

lemma totalBalance_addAmountToAccount (htotal : totalBalance accounts denomination = some total)
    (h : addAmountToAccount accounts addr amount denomination = some accounts2) :
    totalBalance accounts2 denomination = some (total + amount) := by
  rw [totalBalance_eq_some] at htotal ⊢
  obtain ⟨hdenominated, rfl⟩ := htotal
  rw [(addAmountToAccount_eq h).2]
  constructor
  · exact hdenominated.insert (by rw [Account.denomination_of])
  · rw [sum_insert_account, Account.value_of]
    ring

lemma totalBalance_applyTx (htotal : totalBalance accounts denomination = some total)
    (hknown : (accounts.lookup tx.address).isSome = true)
    (h : applyTx accounts denomination tx = some accounts2) :
    totalBalance accounts2 denomination =
      some (total - tx.reward * scale tx.denomination denomination) := by
  obtain ⟨-, -, accounts1, hsender, hrest⟩ := applyTx_eq h hknown
  have hpaid : totalBalance accounts1 denomination =
      some (total - (tx.quantity + tx.reward) * scale tx.denomination denomination) := by
    rw [totalBalance_eq_some] at htotal ⊢
    obtain ⟨hdenominated, rfl⟩ := htotal
    rw [hsender]
    constructor
    · exact hdenominated.insert (by rw [Account.denomination_of])
    · rw [sum_insert_account, Account.value_of]
      ring
  rcases hrest with ⟨hq, rfl⟩ | ⟨-, hadd⟩
  · rw [hpaid, hq, zero_add]
  · rw [totalBalance_addAmountToAccount hpaid hadd]
    congr 1
    ring

end Measure

section Blocks

variable {ctx : Context} {tx : TX} {txs : List TX} {accounts accounts2 : Accounts} {pool : Pool} {total : Int}

lemma height_of_isTxFeeSufficient {args : Args} {addr : Bytes} {sufficient : Bool}
    (h : isTxFeeSufficient args tx accounts addr = some sufficient) : Fork.height_2_6_8 ≤ args.height + 1 := by
  unfold isTxFeeSufficient minimumRequiredFee getTxFee at h
  by_contra hfork
  rw [if_neg hfork] at h
  cases h

lemma target_ne_nil {args : Args} (h : Verified args tx accounts) (hq : tx.quantity ≠ 0) : tx.target ≠ [] := by
  have hheight := height_of_isTxFeeSufficient h.fee
  have hlength := h.targetLength
  have hfork : Fork.height_2_4 ≤ args.height := by
    simp only [Fork.height_2_6_8, Fork.height_2_4] at *
    omega
  unfold verifyTargetLength at hlength
  rw [if_pos hfork] at hlength
  intro hnil
  simp [hq, hnil] at hlength

lemma NonNegative.applyTx {args : Args} (hnonneg : NonNegative accounts) (hverified : Verified args tx accounts)
    (h : applyTx accounts args.denomination tx = some accounts2) : NonNegative accounts2 := by
  obtain ⟨_, hsome, hover⟩ := hverified.overspend
  rw [h] at hsome
  cases hsome
  intro addr account hlookup
  have hchecked (haddr : addr = tx.address ∨ addr = tx.target ∧ addr ≠ []) : 0 ≤ account.balance := by
    obtain ⟨_, hsome, hbalance⟩ := validateOverspend_lookup hover haddr
    rw [hlookup] at hsome
    cases hsome
    exact hbalance
  by_cases hsender : addr = tx.address
  · exact hchecked (.inl hsender)
  by_cases htarget : tx.quantity ≠ 0 ∧ addr = tx.target
  · exact hchecked (.inr ⟨htarget.2, htarget.2 ▸ target_ne_nil hverified htarget.1⟩)
  · rw [lookup_applyTx h hsender (by tauto)] at hlookup
    exact hnonneg addr account hlookup

lemma verified_of_verifyBlockTxsFrom_cons (h : verifyBlockTxsFrom ctx (tx :: txs) pool = some .valid) :
    Verified ctx.toArgs tx pool.wallets ∧ ∃ newPool : Pool,
      applyTx pool.wallets ctx.denomination tx = some newPool.wallets ∧
      verifyBlockTxsFrom ctx txs newPool = some .valid := by
  rw [verifyBlockTxsFrom_cons] at h
  obtain ⟨hvalid, newPool, hadd, -, hrest⟩ := h
  refine ⟨(verified_of_verifyTx2 hvalid).1, newPool, ?_, hrest⟩
  unfold Pool.add at hadd
  simp only [bind, Option.bind_eq_some_iff, Option.some.injEq] at hadd
  obtain ⟨newWallets, happly, rfl⟩ := hadd
  exact happly

lemma totalBalance_applyTxs (htotal : totalBalance pool.wallets ctx.denomination = some total)
    (h : verifyBlockTxsFrom ctx txs pool = some .valid) :
    ∃ accounts2 rewards, applyTxs pool.wallets ctx.denomination txs = some accounts2 ∧
      totalRewards txs ctx.denomination = some rewards ∧
      totalBalance accounts2 ctx.denomination = some (total - rewards) := by
  induction txs generalizing pool total with
  | nil => exact ⟨pool.wallets, 0, rfl, rfl, by rw [htotal, sub_zero]⟩
  | cons tx txs ih =>
    obtain ⟨hverified, newPool, happly, hrest⟩ := verified_of_verifyBlockTxsFrom_cons h
    have hle := (applyTx_eq happly hverified.known).2.1
    obtain ⟨accounts2, rewards, htxs, hrewards, htotal2⟩ :=
      ih (totalBalance_applyTx htotal hverified.known happly) hrest
    refine ⟨accounts2, tx.reward * scale tx.denomination ctx.denomination + rewards, ?_,
      totalRewards_cons hrewards hle, ?_⟩
    · unfold applyTxs at htxs ⊢
      rw [List.foldlM_cons, happly]
      exact htxs
    · rw [htotal2]
      congr 1
      ring

lemma NonNegative.applyTxs (hnonneg : NonNegative pool.wallets) (h : verifyBlockTxsFrom ctx txs pool = some .valid)
    (happly : Ledger.applyTxs pool.wallets ctx.denomination txs = some accounts2) : NonNegative accounts2 := by
  induction txs generalizing pool with
  | nil =>
    cases happly
    exact hnonneg
  | cons tx txs ih =>
    obtain ⟨hverified, newPool, hfirst, hrest⟩ := verified_of_verifyBlockTxsFrom_cons h
    unfold Ledger.applyTxs at happly
    rw [List.foldlM_cons, hfirst] at happly
    exact ih (hnonneg.applyTx hverified hfirst) hrest happly

end Blocks

/-- The transactions of a valid block overdraw no account, and the total of the accounts
decreases by their rewards. -/
theorem applyTxs_conserves (ctx : Context) (accounts : Accounts) (txs : List TX) (total : Int)
    (hnonneg : NonNegative accounts) (htotal : totalBalance accounts ctx.denomination = some total)
    (h : verifyBlockTxs ctx accounts txs = some .valid) :
    ∃ accounts2 rewards, applyTxs accounts ctx.denomination txs = some accounts2 ∧ NonNegative accounts2 ∧
      totalRewards txs ctx.denomination = some rewards ∧
      totalBalance accounts2 ctx.denomination = some (total - rewards) := by
  unfold verifyBlockTxs at h
  change NonNegative (Pool.init accounts).wallets at hnonneg
  change totalBalance (Pool.init accounts).wallets ctx.denomination = some total at htotal
  obtain ⟨accounts2, rewards, happly, hrewards, htotal2⟩ := totalBalance_applyTxs htotal h
  exact ⟨accounts2, rewards, happly, hnonneg.applyTxs h happly, hrewards, htotal2⟩

set_option maxRecDepth 10000 in
theorem applyTxs_conserves_transfers :
    NonNegative sampleWallets ∧ totalBalance sampleWallets 1 = some 30000000 ∧
    verifyBlockTxs sampleContext sampleWallets [transferAB, transferBA] = some .valid ∧
    ∃ accounts2 rewards, applyTxs sampleWallets 1 [transferAB, transferBA] = some accounts2 ∧
      NonNegative accounts2 ∧ totalRewards [transferAB, transferBA] 1 = some rewards ∧
      totalBalance accounts2 1 = some (30000000 - rewards) := by
  have hnonneg : NonNegative sampleWallets := by decide
  have htotal : totalBalance sampleWallets 1 = some 30000000 := by decide
  exact ⟨hnonneg, htotal, verifyBlockTxs_transfers, applyTxs_conserves sampleContext sampleWallets
    [transferAB, transferBA] 30000000 hnonneg htotal verifyBlockTxs_transfers⟩

end Arweave.Ledger

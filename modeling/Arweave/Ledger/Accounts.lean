import Arweave.Lib.Sorted
import Arweave.Lib.Prefix
import Arweave.Tx.Transaction

/-!
# Accounts

The account map that blocks are applied to, as in `ar_node_utils`. An account is a pair in the
first denomination, or it carries its denomination and the mining permission. Amounts of
different denominations are brought to the denomination of the block. A crash of the source
is `none`.
-/

namespace Arweave.Ledger
open Arweave.Lib Arweave.Tx

/-- `ar_pricing:redenominate/3`: a step of the denomination is a factor of a thousand. There
is no clause for a step back. -/
def redenominate (amount : Int) (base : Nat) : Nat → Option Int
  | 0 => if base = 0 then some amount else none
  | denomination + 1 =>
    if base = 0 ∨ base = denomination + 1 then some amount
    else if base < denomination + 1 then redenominate (amount * 1000) base denomination
    else none

/-- The value of an account in the map. -/
inductive Account where
  | pair (balance : Int) (lastTx : Bytes)
  | quad (balance : Int) (lastTx : Bytes) (denomination : Nat) (miningPermission : Bool)
  deriving DecidableEq, Repr

namespace Account

def balance : Account → Int
  | .pair balance _ => balance
  | .quad balance _ _ _ => balance

def lastTx : Account → Bytes
  | .pair _ lastTx => lastTx
  | .quad _ lastTx _ _ => lastTx

/-- Pairs are in the first denomination. -/
def denomination : Account → Nat
  | .pair _ _ => 1
  | .quad _ _ denomination _ => denomination

def miningPermission : Account → Bool
  | .pair _ _ => true
  | .quad _ _ _ miningPermission => miningPermission

/-- The two clauses of `update_account`: accounts of the first denomination with the mining
permission are pairs. -/
def of (balance : Int) (lastTx : Bytes) (denomination : Nat) (miningPermission : Bool) : Account :=
  if denomination = 1 ∧ miningPermission then .pair balance lastTx
  else .quad balance lastTx denomination miningPermission

/-- The balance in the given denomination. -/
def balanceIn (account : Account) (denomination : Nat) : Option Int :=
  redenominate account.balance account.denomination denomination

end Account

abbrev Accounts := SortedMap Bytes Account

def updateAccount (addr : Bytes) (balance : Int) (lastTx : Bytes) (denomination : Nat)
    (miningPermission : Bool) (accounts : Accounts) : Accounts :=
  accounts.insert addr (.of balance lastTx denomination miningPermission)

def addAmountToAccount (accounts : Accounts) (addr : Bytes) (amount : Int) (denomination : Nat) :
    Option Accounts :=
  match accounts.lookup addr with
  | none => some (updateAccount addr amount [] denomination true accounts)
  | some account => do
    let balance2 ← account.balanceIn denomination
    some (updateAccount addr (balance2 + amount) account.lastTx denomination
      account.miningPermission accounts)

def updateSenderBalance (accounts : Accounts) (denomination : Nat) (tx : TX) : Option Accounts :=
  match accounts.lookup tx.address with
  | none => some accounts
  | some account => do
    let balance2 ← account.balanceIn denomination
    let spent ← redenominate (tx.quantity + tx.reward) tx.denomination denomination
    some (updateAccount tx.address (balance2 - spent) tx.id denomination
      account.miningPermission accounts)

def updateRecipientBalance (accounts : Accounts) (denomination : Nat) (tx : TX) : Option Accounts :=
  if tx.quantity = 0 then some accounts
  else
    match accounts.lookup tx.target with
    | none => do
      let qty2 ← redenominate tx.quantity tx.denomination denomination
      some (updateAccount tx.target qty2 [] denomination true accounts)
    | some account => do
      let qty2 ← redenominate tx.quantity tx.denomination denomination
      let balance2 ← account.balanceIn denomination
      some (updateAccount tx.target (balance2 + qty2) account.lastTx denomination
        account.miningPermission accounts)

def applyTx2 (accounts : Accounts) (denomination : Nat) (tx : TX) : Option Accounts := do
  let accounts2 ← updateSenderBalance accounts denomination tx
  updateRecipientBalance accounts2 denomination tx

/-- The transactions of unknown accounts change nothing. -/
def applyTx (accounts : Accounts) (denomination : Nat) (tx : TX) : Option Accounts :=
  match accounts.lookup tx.address with
  | none => some accounts
  | some _ => applyTx2 accounts denomination tx

def applyTxs (accounts : Accounts) (denomination : Nat) (txs : List TX) : Option Accounts :=
  txs.foldlM (fun acc tx => applyTx acc denomination tx) accounts

/-- The factor between two denominations. -/
def scale (base denomination : Nat) : Int := if base = 0 then 1 else 1000 ^ (denomination - base)

@[simp] lemma scale_self (denomination : Nat) : scale denomination denomination = 1 := by
  unfold scale
  split_ifs
  · rfl
  · rw [Nat.sub_self, pow_zero]

lemma scale_pos (base denomination : Nat) : 0 < scale base denomination := by
  unfold scale
  split_ifs <;> positivity

lemma redenominate_eq (amount : Int) (base denomination : Nat) :
    redenominate amount base denomination =
      if base ≤ denomination then some (amount * scale base denomination) else none := by
  induction denomination generalizing amount with
  | zero =>
    by_cases h : base = 0 <;> simp [redenominate, scale, h]
  | succ d ih =>
    unfold redenominate
    by_cases h0 : base = 0
    · simp [h0, scale]
    by_cases hd : base = d + 1
    · simp [hd]
    by_cases hlt : base < d + 1
    · have hle : base ≤ d := by omega
      have hsub : d + 1 - base = (d - base) + 1 := by omega
      rw [if_neg (by omega), if_pos hlt, ih, if_pos hle, if_pos hlt.le]
      simp only [scale, h0, if_false, hsub, pow_succ]
      rw [mul_assoc, mul_comm (1000 : Int)]
    · rw [if_neg (by omega), if_neg hlt, if_neg (by omega)]

lemma redenominate_eq_some {amount x : Int} {base denomination : Nat} :
    redenominate amount base denomination = some x ↔
      base ≤ denomination ∧ amount * scale base denomination = x := by
  rw [redenominate_eq]
  split_ifs with h <;> simp [h]

namespace Account

variable {balance : Int} {lastTx : Bytes} {denomination : Nat} {miningPermission : Bool}

@[simp] lemma balance_of : (of balance lastTx denomination miningPermission).balance = balance := by
  unfold of
  split_ifs <;> rfl

@[simp] lemma lastTx_of : (of balance lastTx denomination miningPermission).lastTx = lastTx := by
  unfold of
  split_ifs <;> rfl

@[simp] lemma denomination_of :
    (of balance lastTx denomination miningPermission).denomination = denomination := by
  unfold of
  split_ifs with h
  · exact h.1.symm
  · rfl

@[simp] lemma miningPermission_of :
    (of balance lastTx denomination miningPermission).miningPermission = miningPermission := by
  unfold of
  split_ifs with h
  · exact h.2.symm
  · rfl

lemma balanceIn_eq_some {account : Account} {x : Int} :
    account.balanceIn denomination = some x ↔
      account.denomination ≤ denomination ∧ account.balance * scale account.denomination denomination = x :=
  redenominate_eq_some

end Account

/-- The balance in a denomination that is not below that of the account. -/
def Account.value (denomination : Nat) (account : Account) : Int :=
  account.balance * scale account.denomination denomination

-- An unknown account counts as empty, without a transaction and with the mining permission.

def balanceAt (accounts : Accounts) (denomination : Nat) (addr : Bytes) : Int :=
  (accounts.lookup addr).elim 0 (Account.value denomination)

def lastTxAt (accounts : Accounts) (addr : Bytes) : Bytes := (accounts.lookup addr).elim [] Account.lastTx

def permissionAt (accounts : Accounts) (addr : Bytes) : Bool :=
  (accounts.lookup addr).elim true Account.miningPermission

section Updates

variable {accounts accounts2 : Accounts} {addr addr' : Bytes} {amount : Int} {denomination : Nat} {tx : TX}

@[simp] lemma Account.value_of {balance : Int} {lastTx : Bytes} {miningPermission : Bool} :
    (of balance lastTx denomination miningPermission).value denomination = balance := by
  simp [value]

lemma addAmountToAccount_eq (h : addAmountToAccount accounts addr amount denomination = some accounts2) :
    (∀ account, accounts.lookup addr = some account → account.denomination ≤ denomination) ∧
      accounts2 = accounts.insert addr (.of (balanceAt accounts denomination addr + amount)
        (lastTxAt accounts addr) denomination (permissionAt accounts addr)) := by
  unfold addAmountToAccount at h
  unfold balanceAt lastTxAt permissionAt
  cases hlookup : accounts.lookup addr with
  | none =>
    simp only [hlookup, Option.some.injEq] at h
    constructor
    · intro account hsome
      cases hsome
    · simp [← h, updateAccount]
  | some account =>
    simp only [hlookup, bind, Option.bind_eq_some_iff, Account.balanceIn_eq_some, Option.some.injEq] at h
    obtain ⟨_, ⟨hle, rfl⟩, rfl⟩ := h
    constructor
    · intro account' hsome
      cases hsome
      exact hle
    · rfl

lemma lastTxAt_addAmountToAccount
    (h : addAmountToAccount accounts addr amount denomination = some accounts2) :
    lastTxAt accounts2 addr' = lastTxAt accounts addr' := by
  rw [(addAmountToAccount_eq h).2]
  by_cases heq : addr' = addr
  · rw [lastTxAt, SortedMap.lookup_insert, if_pos heq, heq, Option.elim_some, Account.lastTx_of]
  · rw [lastTxAt, SortedMap.lookup_insert, if_neg heq, lastTxAt]

lemma updateRecipientBalance_eq (h : updateRecipientBalance accounts denomination tx = some accounts2)
    (hne : tx.quantity ≠ 0) : tx.denomination ≤ denomination ∧
      addAmountToAccount accounts tx.target (tx.quantity * scale tx.denomination denomination) denomination =
        some accounts2 := by
  unfold updateRecipientBalance at h
  rw [if_neg hne] at h
  unfold addAmountToAccount
  cases hlookup : accounts.lookup tx.target with
  | none =>
    simp only [hlookup, bind, Option.bind_eq_some_iff, redenominate_eq_some] at h
    obtain ⟨_, ⟨hle, rfl⟩, hacc⟩ := h
    exact ⟨hle, hacc⟩
  | some account =>
    simp only [hlookup, bind, Option.bind_eq_some_iff, redenominate_eq_some] at h ⊢
    obtain ⟨_, ⟨hle, rfl⟩, balance2, hbalance, hacc⟩ := h
    exact ⟨hle, balance2, hbalance, hacc⟩

lemma applyTx_eq (h : applyTx accounts denomination tx = some accounts2)
    (hknown : (accounts.lookup tx.address).isSome = true) :
    (∀ account, accounts.lookup tx.address = some account → account.denomination ≤ denomination) ∧
      tx.denomination ≤ denomination ∧
      ∃ accounts1, accounts1 = accounts.insert tx.address
          (.of (balanceAt accounts denomination tx.address -
              (tx.quantity + tx.reward) * scale tx.denomination denomination)
            tx.id denomination (permissionAt accounts tx.address)) ∧
        (tx.quantity = 0 ∧ accounts2 = accounts1 ∨
          tx.quantity ≠ 0 ∧ addAmountToAccount accounts1 tx.target
            (tx.quantity * scale tx.denomination denomination) denomination = some accounts2) := by
  obtain ⟨account, hlookup⟩ := Option.isSome_iff_exists.mp hknown
  unfold applyTx applyTx2 updateSenderBalance at h
  simp only [hlookup, bind, Option.bind_eq_some_iff, Account.balanceIn_eq_some, redenominate_eq_some,
    Option.some.injEq] at h
  obtain ⟨accounts1, ⟨_, ⟨hle, rfl⟩, _, ⟨htx, rfl⟩, haccounts⟩, hrecipient⟩ := h
  refine ⟨?_, htx, accounts1, ?_, ?_⟩
  · intro account' hsome
    rw [hlookup] at hsome
    cases hsome
    exact hle
  · rw [← haccounts]
    unfold balanceAt permissionAt
    rw [hlookup]
    rfl
  · by_cases hq : tx.quantity = 0
    · unfold updateRecipientBalance at hrecipient
      rw [if_pos hq] at hrecipient
      cases hrecipient
      exact .inl ⟨hq, rfl⟩
    · exact .inr ⟨hq, (updateRecipientBalance_eq hrecipient hq).2⟩

lemma lastTxAt_applyTx (h : applyTx accounts denomination tx = some accounts2)
    (hknown : (accounts.lookup tx.address).isSome = true) :
    lastTxAt accounts2 addr = if addr = tx.address then tx.id else lastTxAt accounts addr := by
  obtain ⟨-, -, accounts1, rfl, hrest⟩ := applyTx_eq h hknown
  have hsender : lastTxAt (accounts.insert tx.address (.of (balanceAt accounts denomination tx.address -
        (tx.quantity + tx.reward) * scale tx.denomination denomination)
      tx.id denomination (permissionAt accounts tx.address))) addr =
      if addr = tx.address then tx.id else lastTxAt accounts addr := by
    rw [lastTxAt, SortedMap.lookup_insert]
    split_ifs
    · rw [Option.elim_some, Account.lastTx_of]
    · rfl
  rcases hrest with ⟨-, rfl⟩ | ⟨-, hadd⟩
  · exact hsender
  · rw [lastTxAt_addAmountToAccount hadd, hsender]

lemma applyTx_of_unknown (hnone : accounts.lookup tx.address = none) :
    applyTx accounts denomination tx = some accounts := by
  unfold applyTx
  rw [hnone]

lemma lookup_applyTx (h : applyTx accounts denomination tx = some accounts2)
    (hsender : addr ≠ tx.address) (htarget : tx.quantity = 0 ∨ addr ≠ tx.target) :
    accounts2.lookup addr = accounts.lookup addr := by
  cases hlookup : accounts.lookup tx.address with
  | none =>
    rw [applyTx_of_unknown hlookup] at h
    cases h
    rfl
  | some account =>
    obtain ⟨-, -, accounts1, rfl, hrest⟩ := applyTx_eq h (by rw [hlookup]; rfl)
    rcases hrest with ⟨-, rfl⟩ | ⟨hq, hadd⟩
    · rw [SortedMap.lookup_insert, if_neg hsender]
    · have hne := htarget.resolve_left hq
      rw [(addAmountToAccount_eq hadd).2, SortedMap.lookup_insert, if_neg hne, SortedMap.lookup_insert,
        if_neg hsender]

end Updates

end Arweave.Ledger

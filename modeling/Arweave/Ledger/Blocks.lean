import Arweave.Ledger.Pricing
import Arweave.Wallet.Account

/-!
# Applying blocks

How a block changes the accounts, the endowment pool and the debt, as in `ar_node_utils` and
`ar_wallets`. The reward of a block is reserved in the reward history and released when the
block leaves the window of the history. A miner that has signed two blocks can be reported.
The account is banned then, and its reserved rewards go to the endowment pool and to the
miner that reports it.
-/

namespace Arweave.Ledger
open Arweave.Lib Arweave.Lib.Sha2 Arweave.Tx

def rewardHistoryBlocks : Nat := 30 * 24 * 30

def blockTimeHistoryBlocks : Nat := 30 * 24 * 30

def storeBlocksBehindCurrent : Nat := 50

def doubleSigningRewardSampleSize : Nat := 100

def doubleSigningProverRewardShare : Int × Int := (1, 2)

def totalSupply : Int := 66000015859279336957

def redenominationThreshold : Int := 1000000000000000000

def redenominationDelayBlocks : Nat := 100

def maxDiff : Int := 2 ^ 256

/-- Two signatures by one key. Parsed keys have 512 bytes. -/
structure DoubleSigningProof where
  pub : Bytes
  signature1 : Bytes
  cdiff1 : Nat
  prevCdiff1 : Nat
  preimage1 : Bytes
  signature2 : Bytes
  cdiff2 : Nat
  prevCdiff2 : Nat
  preimage2 : Bytes
  length_pub : pub.length = 512

/-- An element of the reward history. There is no address when the reward is unclaimed. -/
structure RewardEntry where
  addr : Option Bytes
  hashRate : Int
  reward : Int
  denomination : Nat
  deriving DecidableEq, Repr

/-- The fields of a block that the accounts depend on. The sizes of the data are never
negative: the parser takes the size of the data or reads an unsigned number. -/
structure Block where
  height : Nat
  timestamp : Int
  diff : Int
  txs : List TX
  weaveSize : Nat
  rewardAddr : Option Bytes
  rewardKey : SignatureType × Bytes
  rewardPool : Int
  reward : Int
  debtSupply : Int
  kryderPlusRateMultiplierLatch : Nat
  kryderPlusRateMultiplier : Nat
  pricePerGiBMinute : Nat
  usdToArRate : Int × Int
  denomination : Nat
  redenominationHeight : Nat
  walletList : Bytes
  rewardHistory : List RewardEntry
  /-- the intervals of `block_time_history` -/
  blockTimeHistory : List Int
  doubleSigningProof : Option DoubleSigningProof
  dataSize_nonneg : ∀ tx ∈ txs, 0 ≤ tx.dataSize

lemma dataSize_nonneg_nil : ∀ tx ∈ ([] : List TX), 0 ≤ tx.dataSize := by simp

/-- The errors of `ar_wallets:apply_block/2`. -/
inductive BlockError where
  | invalidDenomination
  | miningAddressBanned
  | invalidDoubleSigningProofSameSignature
  | invalidDoubleSigningProofCdiff
  | invalidDoubleSigningProofSameAddress
  | invalidDoubleSigningProofAlreadyBanned
  | invalidDoubleSigningProofNotInRewardHistory
  | invalidDoubleSigningProofInvalidSignature
  | invalidAccountAnchors
  | invalidRewardPool
  | invalidMinerReward
  | invalidDebtSupply
  | invalidKryderPlusRateMultiplierLatch
  | invalidKryderPlusRateMultiplier
  | invalidWalletList
  deriving DecidableEq, Repr

def applyMiningReward (accounts : Accounts) (rewardAddr : Option Bytes) (quantity : Int) (denomination : Nat) :
    Option Accounts :=
  match rewardAddr with
  | none => some accounts
  | some addr => addAmountToAccount accounts addr quantity denomination

def isAccountBanned (addr : Option Bytes) (accounts : Accounts) : Bool :=
  match addr with
  | none => false
  | some addr =>
    match accounts.lookup addr with
    | none => false
    | some account => !account.miningPermission

/-- The account is left with one unit more and without the mining permission. -/
def banAccount (addr : Bytes) (accounts : Accounts) (denomination : Nat) : Option Accounts :=
  match accounts.lookup addr with
  | none => some (accounts.insert addr (.quad 1 [] denomination false))
  | some account => do
    let balance2 ← account.balanceIn denomination
    some (accounts.insert addr (.quad (balance2 + 1) account.lastTx denomination false))

def isInRewardHistory (addr : Bytes) (rewardHistory : List RewardEntry) : Bool :=
  rewardHistory.any fun entry => entry.addr = some addr

/-- The preimage of a block signature. -/
def signaturePreimage (cdiff prevCdiff : Nat) (preimage : Bytes) : Bytes :=
  Wallet.encodeInt cdiff 2 ++ Wallet.encodeInt prevCdiff 2 ++ preimage

/-- `?DEFAULT_KEY_TYPE` is RSA. -/
def DoubleSigningProof.address (proof : DoubleSigningProof) : Bytes := toAddress proof.pub .rsa

def mayBeApplyDoubleSigningProof3 (proof : DoubleSigningProof) (accounts : Accounts) (denomination : Nat) :
    Option (Except BlockError Accounts) := do
  if ← RsaPss.verify (signaturePreimage proof.cdiff1 proof.prevCdiff1 proof.preimage1) proof.signature1
      proof.pub.toNat then
    if ← RsaPss.verify (signaturePreimage proof.cdiff2 proof.prevCdiff2 proof.preimage2) proof.signature2
        proof.pub.toNat then
      let accounts2 ← banAccount proof.address accounts denomination
      some (.ok accounts2)
    else some (.error .invalidDoubleSigningProofInvalidSignature)
  else some (.error .invalidDoubleSigningProofInvalidSignature)

def mayBeApplyDoubleSigningProof2 (b : Block) (proof : DoubleSigningProof) (accounts : Accounts)
    (denomination : Nat) (rewardHistory : List RewardEntry) : Option (Except BlockError Accounts) :=
  if b.rewardKey = (.rsa, proof.pub) then some (.error .invalidDoubleSigningProofSameAddress)
  else if isAccountBanned (some proof.address) accounts then
    some (.error .invalidDoubleSigningProofAlreadyBanned)
  else if isInRewardHistory proof.address rewardHistory then
    mayBeApplyDoubleSigningProof3 proof accounts denomination
  else some (.error .invalidDoubleSigningProofNotInRewardHistory)

def mayBeApplyDoubleSigningProof (b : Block) (accounts : Accounts) (denomination : Nat)
    (rewardHistory : List RewardEntry) : Option (Except BlockError Accounts) :=
  match b.doubleSigningProof with
  | none => some (.ok accounts)
  | some proof =>
    if proof.signature1 = proof.signature2 then some (.error .invalidDoubleSigningProofSameSignature)
    else if proof.cdiff1 = proof.cdiff2 ∨ (proof.prevCdiff2 < proof.cdiff1 ∧ proof.prevCdiff1 < proof.cdiff2) then
      mayBeApplyDoubleSigningProof2 b proof accounts denomination rewardHistory
    else some (.error .invalidDoubleSigningProofCdiff)

/-- `get_reward_sum/4`, from the oldest reward on. -/
def getRewardSumFrom (addr : Bytes) : List RewardEntry → Int → Nat → Option (Int × Nat)
  | [], sum, denomination => some (sum, denomination)
  | entry :: rewardHistory, sum, denomination =>
    if entry.addr = some addr then do
      let sum2 ← redenominate sum denomination entry.denomination
      getRewardSumFrom addr rewardHistory (sum2 + entry.reward) entry.denomination
    else getRewardSumFrom addr rewardHistory sum denomination

def getRewardSum (addr : Bytes) (rewardHistory : List RewardEntry) : Option (Int × Nat) :=
  getRewardSumFrom addr rewardHistory.reverse 0 1

/-- `get_minimal_reward/3`. There is no minimum before the first reward. -/
def getMinimalRewardFrom : List RewardEntry → Option Int → Nat → Option (Option Int × Nat)
  | [], min, denomination => some (min, denomination)
  | entry :: rewardHistory, none, _ => getMinimalRewardFrom rewardHistory (some entry.reward) entry.denomination
  | entry :: rewardHistory, some min, denomination => do
    let min2 ← redenominate min denomination entry.denomination
    if entry.reward < min2 then getMinimalRewardFrom rewardHistory (some entry.reward) entry.denomination
    else getMinimalRewardFrom rewardHistory (some min) denomination

def getMinimalReward (rewardHistory : List RewardEntry) : Option (Option Int × Nat) :=
  getMinimalRewardFrom rewardHistory.reverse none 1

/-- An account that sent a transaction must not be overdrawn, nor empty without a last one. -/
def isWalletInvalid (tx : TX) (accounts : Accounts) : Bool :=
  match accounts.lookup tx.address with
  | none => true
  | some account =>
    if 0 ≤ account.balance then if account.balance = 0 then account.lastTx.length = 0 else false else true

def validateAccountAnchors (accounts : Accounts) (txs : List TX) : Bool :=
  !txs.any fun tx => isWalletInvalid tx accounts

def updateAccounts6 (b : Block) (accounts : Accounts) (args : RewardUpdate) :
    Option (Except BlockError (RewardUpdate × Accounts)) :=
  if validateAccountAnchors accounts b.txs then some (.ok (args, accounts))
  else some (.error .invalidAccountAnchors)

def updateAccounts5 (b prevB : Block) (accounts : Accounts) (args : RewardUpdate)
    (rewardHistory : List RewardEntry) : Option (Except BlockError (RewardUpdate × Accounts)) :=
  match b.doubleSigningProof with
  | none => updateAccounts6 b accounts args
  | some proof => do
    let (sum, sumDenomination) ← getRewardSum proof.address rewardHistory
    let sum2 := (← redenominate sum sumDenomination prevB.denomination) - 1
    let (min?, minDenomination) ← getMinimalReward (rewardHistory.take doubleSigningRewardSampleSize)
    let min2 ← redenominate (← min?) minDenomination prevB.denomination
    let proverReward :=
      min ((min2 * doubleSigningProverRewardShare.1).tdiv doubleSigningProverRewardShare.2) sum2
    let endowmentPool2 := args.endowmentPool + sum2 - proverReward
    let accounts2 ← applyMiningReward accounts b.rewardAddr proverReward prevB.denomination
    updateAccounts6 b accounts2 { args with endowmentPool := endowmentPool2 }

/-- The reward that leaves the window is released, unless its account is banned. -/
def updateAccounts4 (b prevB : Block) (accounts : Accounts) (args : RewardUpdate)
    (rewardHistory : List RewardEntry) : Option (Except BlockError (RewardUpdate × Accounts)) :=
  if rewardHistoryBlocks ≤ rewardHistory.length then do
    let entry ← rewardHistory[rewardHistoryBlocks - 1]?
    if isAccountBanned entry.addr accounts then updateAccounts5 b prevB accounts args rewardHistory
    else
      let reward2 ← redenominate entry.reward entry.denomination prevB.denomination
      let accounts2 ← applyMiningReward accounts entry.addr reward2 prevB.denomination
      updateAccounts5 b prevB accounts2 args rewardHistory
  else updateAccounts5 b prevB accounts args rewardHistory

def updateAccounts3 (b prevB : Block) (accounts : Accounts) (args : RewardUpdate) :
    Option (Except BlockError (RewardUpdate × Accounts)) := do
  let rewardHistory := prevB.rewardHistory.take rewardHistoryBlocks
  match ← mayBeApplyDoubleSigningProof b accounts prevB.denomination rewardHistory with
  | .ok accounts2 => updateAccounts4 b prevB accounts2 args rewardHistory
  | .error error => some (.error error)

def updateAccounts2 (b prevB : Block) (accounts : Accounts) (args : RewardUpdate) :
    Option (Except BlockError (RewardUpdate × Accounts)) :=
  if isAccountBanned b.rewardAddr accounts then some (.error .miningAddressBanned)
  else updateAccounts3 b prevB accounts args

/-- `ar_block:compute_block_interval/1` -/
def computeBlockInterval (prevB : Block) : Int :=
  if Fork.height_2_7 + blockTimeHistoryBlocks ≤ prevB.height + 1 then
    (prevB.blockTimeHistory.take blockTimeHistoryBlocks).sum.tdiv blockTimeHistoryBlocks
  else 120

/-- The arguments of the reward, from a block and the one before. -/
def pricingArgs (b prevB : Block) : PricingArgs where
  endowmentPool := prevB.rewardPool
  debtSupply := prevB.debtSupply
  txs := b.txs
  weaveSize := b.weaveSize
  height := b.height
  gibMinutePrice := prevB.pricePerGiBMinute
  kryderPlusRateMultiplierLatch := prevB.kryderPlusRateMultiplierLatch
  kryderPlusRateMultiplier := prevB.kryderPlusRateMultiplier
  denomination := prevB.denomination
  blockInterval := computeBlockInterval prevB

/-- The value of an account in the tree. Negative balances have no encoding. -/
def Account.toWallet : Account → Option Wallet.Account
  | .pair balance lastTx => if balance < 0 then none else some (.v1 balance.toNat lastTx)
  | .quad balance lastTx denomination miningPermission =>
    if balance < 0 then none else some (.v2 balance.toNat lastTx denomination miningPermission)

/-- `ar_block:hash_wallet_list/1` on the tree of the accounts. The depth of the tree is bounded by
the longest address. -/
def hashWalletList (accounts : Accounts) : Option Bytes := do
  let tree ← accounts.entries.foldlM (fun tree entry => do
    let value ← entry.2.toWallet
    Patricia.insert entry.1 value tree) Patricia.new
  let depth := accounts.entries.foldl (fun depth entry => max depth entry.1.length) 0
  let (rootHash, _) ← Wallet.hashWalletList sha384 (depth + 2) tree
  some rootHash

section Node

-- the pricing before version two
variable (pricingV1 : Block → Block → Option (Int × Int))

/-- `ar_node_utils:get_miner_reward_and_endowment_pool/1` -/
def getMinerRewardAndEndowmentPool (b prevB : Block) : Option RewardUpdate :=
  if isV2PricingHeight b.height then getMinerRewardEndowmentPoolDebtSupply (pricingArgs b prevB)
  else do
    let (minerReward, endowmentPool2) ← pricingV1 b prevB
    some ⟨minerReward, endowmentPool2, 0, 0, 1⟩

def updateAccounts (b prevB : Block) (accounts : Accounts) :
    Option (Except BlockError (RewardUpdate × Accounts)) := do
  let args ← getMinerRewardAndEndowmentPool pricingV1 b prevB
  let accounts2 ← applyTxs accounts prevB.denomination b.txs
  if Fork.height_2_6 ≤ b.height then updateAccounts2 b prevB accounts2 args else none

/-- `ar_pricing:may_be_redenominate/1` -/
def mayBeRedenominate (b : Block) : Option (Nat × Nat) :=
  if isV2PricingHeight (b.height + 1) then
    if b.height = b.redenominationHeight then some (b.denomination + 1, b.redenominationHeight)
    else if b.height < b.redenominationHeight then some (b.denomination, b.redenominationHeight)
    else do
      let supply ← redenominate totalSupply 1 b.denomination
      if supply + b.debtSupply - b.rewardPool < redenominationThreshold then
        some (b.denomination, b.height + redenominationDelayBlocks)
      else some (b.denomination, b.redenominationHeight)
  else some (b.denomination, b.redenominationHeight)

/-- `ar_wallets:apply_block2/5`: the fields of the block agree with its application. -/
def checkBlockFields (b prevB : Block) (args : RewardUpdate) (accounts : Accounts) :
    Option (Except BlockError Accounts) := do
  let endowmentPool2 ← redenominate args.endowmentPool prevB.denomination b.denomination
  let minerReward2 ← redenominate args.minerReward prevB.denomination b.denomination
  let debtSupply2 ← redenominate args.debtSupply prevB.denomination b.denomination
  if b.rewardPool ≠ endowmentPool2 then some (.error .invalidRewardPool)
  else if b.reward ≠ minerReward2 then some (.error .invalidMinerReward)
  else if b.debtSupply ≠ debtSupply2 then some (.error .invalidDebtSupply)
  else if b.kryderPlusRateMultiplierLatch ≠ args.kryderPlusRateMultiplierLatch then
    some (.error .invalidKryderPlusRateMultiplierLatch)
  else if b.kryderPlusRateMultiplier ≠ args.kryderPlusRateMultiplier then
    some (.error .invalidKryderPlusRateMultiplier)
  else do
    let rootHash ← hashWalletList accounts
    if b.walletList ≠ rootHash then some (.error .invalidWalletList) else some (.ok accounts)

/-- `ar_wallets:apply_block/3`, on all accounts. -/
def applyBlock (b prevB : Block) (accounts : Accounts) : Option (Except BlockError Accounts) := do
  let denominations ← mayBeRedenominate prevB
  if denominations = (b.denomination, b.redenominationHeight) then
    match ← updateAccounts pricingV1 b prevB accounts with
    | .ok (args, accounts2) => checkBlockFields b prevB args accounts2
    | .error error => some (.error error)
  else some (.error .invalidDenomination)

/-- The chain of a node: its last block and the accounts after it. -/
structure Chain where
  block : Block
  accounts : Accounts

/-- A block and what its transactions are checked for replays against. -/
structure Received where
  block : Block
  blockAnchors : List Bytes
  recentTxs : OrdSet Bytes

/-- What the transactions of a block are verified against: the prices are those of the block
before. -/
def Received.context (received : Received) (prevB : Block) : Context where
  rate := prevB.usdToArRate
  pricePerGiBMinute := prevB.pricePerGiBMinute
  kryderPlusRateMultiplier := prevB.kryderPlusRateMultiplier
  denomination := prevB.denomination
  redenominationHeight := prevB.redenominationHeight
  height := received.block.height - 1
  timestamp := received.block.timestamp
  blockAnchors := received.blockAnchors
  recentTxs := received.recentTxs

/-- What `ar_block:verify_signature/3` asks of the reward key and address. -/
def verifyRewardAddr (b : Block) : Bool :=
  b.rewardKey.1 = .rsa && b.rewardKey.2.length = 512 && b.rewardAddr = some (toAddress b.rewardKey.2 .rsa)

/-- `ar_difficulty:get_hash_rate/1` -/
def getHashRate (diff : Int) : Int := maxDiff.tdiv (maxDiff - diff)

/-- The block with the histories that the node keeps for it. -/
def Block.withHistories (b prevB : Block) : Block :=
  { b with
    rewardHistory := (⟨b.rewardAddr, getHashRate b.diff, b.reward, b.denomination⟩ :: prevB.rewardHistory).take
      (rewardHistoryBlocks + storeBlocksBehindCurrent)
    blockTimeHistory := (max 1 (b.timestamp - prevB.timestamp) :: prevB.blockTimeHistory).take
      (blockTimeHistoryBlocks + storeBlocksBehindCurrent) }

/-- A received block becomes the last one of the chain. Of the checks of a block, these are the
ones that the accounts depend on. -/
def Chain.accept (s : Chain) (received : Received) : Option Chain :=
  let b := received.block
  if b.height = s.block.height + 1 ∧ verifyRewardAddr b = true ∧
      verifyBlockTxs (received.context s.block) s.accounts b.txs = some .valid then
    match applyBlock pricingV1 b s.block s.accounts with
    | some (.ok accounts2) => some ⟨b.withHistories s.block, accounts2⟩
    | _ => none
  else none

def Chain.run (blocks : List Received) (s : Chain) : Option Chain :=
  blocks.foldlM (Chain.accept pricingV1) s

end Node

end Arweave.Ledger

import Arweave.Ledger.Fees
import Arweave.Tx.RsaPss

/-!
# Verification of transactions

The checks that `ar_tx:verify/3` makes of one transaction, against the accounts that it is
applied to. Every check has an error code, and a transaction is valid when no check fails. A
crash of the source is `none`.
-/

namespace Arweave.Tx
open Arweave.Lib Arweave.Lib.Sha2 Arweave.Ledger

/-- What transactions are verified against, besides the accounts. -/
structure Args where
  rate : Int × Int
  pricePerGiBMinute : Nat
  kryderPlusRateMultiplier : Nat
  denomination : Nat
  redenominationHeight : Nat
  height : Nat
  timestamp : Int
  deriving DecidableEq, Repr

def txDataSizeLimit : Nat := 10 * 1024 * 1024

/-- An empty map counts as anchored. -/
def checkLastTx (accounts : Accounts) (tx : TX) : Bool :=
  if accounts.size = 0 then true
  else
    match accounts.lookup tx.address with
    | none => false
    | some account => account.lastTx = tx.lastTx

def verifyDenomination (tx : TX) (denomination height redenominationHeight : Nat) : Bool :=
  if Fork.height_2_6 ≤ height + 1 then
    if tx.denomination = 0 then height = 0 || redenominationHeight < height
    else tx.denomination ≤ denomination
  else tx.denomination = 0

def minimumRequiredFee (args : Args) (tx : TX) (accounts : Accounts) (addr : Bytes) : Option Int :=
  getTxFee (getWeaveSizeIncrease tx.dataSize (args.height + 1)) args.pricePerGiBMinute
    args.kryderPlusRateMultiplier addr accounts (args.height + 1)

def isTxFeeSufficient (args : Args) (tx : TX) (accounts : Accounts) (addr : Bytes) : Option Bool := do
  let minimum ← minimumRequiredFee args tx accounts addr
  let fee ← redenominate tx.reward tx.denomination args.denomination
  some (decide (minimum ≤ fee))

def validateTagsSize (tx : TX) (height : Nat) : Bool :=
  if Fork.height_2_5 ≤ height then tx.tags.length ≤ 2048 && (tagsToBinary tx.tags).length ≤ 2048
  else (tagsToBinary tx.tags).length ≤ 2048

/-- The number of digits allowed for amounts. -/
def maxDigits (height denomination : Nat) : Int :=
  if Fork.height_2_6 ≤ height + 1 then 30 + ((denomination : Int) - 1) * 3 else 21

def txFieldSizeLimitV1 (tx : TX) (height denomination : Nat) : Bool :=
  tx.id.length ≤ 32 &&
  tx.lastTx.length ≤ (if Fork.height_1_8 ≤ height then 48 else 32) &&
  tx.owner.length ≤ 512 &&
  validateTagsSize tx height &&
  (integerToList tx.quantity).length ≤ maxDigits height denomination &&
  tx.data.length ≤ txDataSizeLimit &&
  tx.signature.length ≤ 512 &&
  (integerToList tx.reward).length ≤ maxDigits height denomination

def txFieldSizeLimitV2 (tx : TX) (height denomination : Nat) : Bool :=
  tx.id.length ≤ 32 &&
  tx.lastTx.length ≤ 48 &&
  tx.owner.length ≤ 512 &&
  validateTagsSize tx height &&
  (integerToList tx.quantity).length ≤ maxDigits height denomination &&
  (integerToList tx.dataSize).length ≤ 21 &&
  tx.signature.length ≤ 512 &&
  (integerToList tx.reward).length ≤ maxDigits height denomination &&
  tx.dataRoot.length ≤ 32

/-- The identifier is the hash of the signature. -/
def verifyHash (tx : TX) : Bool := tx.id = sha256 tx.signature

/-- The signature over a segment, by an RSA key whatever the signature type is. -/
def verifySegment (segment : Bytes) (tx : TX) (height : Nat) : Option Bool :=
  if Fork.height_2_4 ≤ height then RsaPss.verify segment tx.signature tx.owner.toNat
  else RsaPss.verifyLegacy segment tx.signature tx.owner.toNat

def verifySignatureV1 (tx : TX) (verifySignature : Bool) (height : Nat) : Option Bool :=
  if verifySignature then verifySegment (signatureDataSegmentV1 sha384 tx) tx height else some true

def verifySignatureV2 (tx : TX) (verifySignature : Bool) (height : Nat) : Option Bool :=
  if verifySignature then verifySegment (signatureDataSegmentV2 sha384 tx) tx height else some true

/-- The sender and the target have accounts after the transaction, neither overdrawn nor empty
without a transaction. -/
def validateOverspend (tx : TX) (accounts : Accounts) : Bool :=
  (if tx.target = [] then [tx.address] else [tx.address, tx.target]).all fun addr =>
    match accounts.lookup addr with
    | none => false
    | some account => !(account.balance = 0 && account.lastTx.length = 0) && 0 ≤ account.balance

def isDigit (byte : UInt8) : Bool := 48 ≤ byte && byte ≤ 57

def endsWithDigit (data : Bytes) : Bool :=
  match data.getLast? with
  | none => false
  | some lastByte => isDigit lastByte

/-- `list_to_integer/1` of decimal digits. -/
def listToInteger (digits : Bytes) : Nat :=
  digits.foldl (fun value digit => value * 10 + (digit.toNat - 48)) 0

/-- The fields must not be read in another way: a transfer has a target of 32 bytes and other
transactions have none, the data do not end in a digit, and without its first digit the reward
is too small. -/
def verifyMalleability2 (args : Args) (tx : TX) (accounts : Accounts) : Option Bool :=
  if (0 < tx.quantity ∧ tx.target.length ≠ 32) ∨ (¬0 < tx.quantity ∧ 0 < tx.target.length) then some false
  else if endsWithDigit tx.data then some false
  else if tx.reward < 10 then some true
  else do
    let truncatedReward ← redenominate (listToInteger (integerToList tx.reward).tail) tx.denomination
      args.denomination
    let sufficient ← isTxFeeSufficient args { tx with reward := truncatedReward } accounts tx.target
    some (!sufficient)

/-- The signature of a transaction with a denomination is over a deep hash. -/
def verifyMalleability (args : Args) (tx : TX) (accounts : Accounts) : Option Bool :=
  if Fork.height_2_4 ≤ args.height + 1 then
    if 0 < tx.denomination then some true else verifyMalleability2 args tx accounts
  else some true

def verifyTargetLength (tx : TX) (height : Nat) : Bool :=
  if Fork.height_2_4 ≤ height then (tx.quantity = 0 && tx.target.length ≤ 32) || tx.target.length = 32
  else tx.target.length ≤ 32

/-- The error codes of the failed checks. -/
def collectValidationResults (checks : List (String × Bool)) : List String :=
  checks.filterMap fun (errorCode, passed) => if passed then none else some errorCode

def doVerifyV1 (args : Args) (tx : TX) (accounts : Accounts) (verifySignature : Bool) :
    Option (List String) :=
  let lastTxCheck := if Fork.height_1_8 ≤ args.height then true else checkLastTx accounts tx
  if verifyDenomination tx args.denomination args.height args.redenominationHeight then do
    let feeSufficient ← isTxFeeSufficient args tx accounts tx.target
    let accounts2 ← applyTx accounts args.denomination tx
    let signatureValid ← verifySignatureV1 tx verifySignature args.height
    let notMalleable ← verifyMalleability args tx accounts
    some (collectValidationResults [
      ("quantity_negative", 0 ≤ tx.quantity),
      ("same_owner_as_target", tx.address ≠ tx.target),
      ("tx_too_cheap", feeSufficient),
      ("tx_fields_too_large", txFieldSizeLimitV1 tx args.height args.denomination),
      ("last_tx_not_valid", lastTxCheck),
      ("tx_id_not_valid", verifyHash tx),
      ("overspend", validateOverspend tx accounts2),
      ("tx_signature_not_valid", signatureValid),
      ("tx_malleable", notMalleable),
      ("invalid_target_length", verifyTargetLength tx args.height)])
  else some (collectValidationResults [("invalid_denomination", false)])

def doVerifyV2 (args : Args) (tx : TX) (accounts : Accounts) (verifySignature : Bool) :
    Option (List String) :=
  if verifyDenomination tx args.denomination args.height args.redenominationHeight then do
    let feeSufficient ← isTxFeeSufficient args tx accounts tx.target
    let accounts2 ← applyTx accounts args.denomination tx
    let signatureValid ← verifySignatureV2 tx verifySignature args.height
    some (collectValidationResults [
      ("quantity_negative", 0 ≤ tx.quantity),
      ("same_owner_as_target", tx.address ≠ tx.target),
      ("tx_too_cheap", feeSufficient),
      ("tx_fields_too_large", txFieldSizeLimitV2 tx args.height args.denomination),
      ("tx_id_not_valid", verifyHash tx),
      ("overspend", validateOverspend tx accounts2),
      ("tx_signature_not_valid", signatureValid),
      ("tx_data_size_negative", 0 ≤ tx.dataSize),
      ("tx_data_size_data_root_mismatch", decide (tx.dataSize = 0) = decide (tx.dataRoot = [])),
      ("invalid_target_length", verifyTargetLength tx args.height)])
  else some (collectValidationResults [("invalid_denomination", false)])

def doVerify (args : Args) (tx : TX) (accounts : Accounts) (verifySignature : Bool) :
    Option (List String) :=
  if tx.format = 1 then doVerifyV1 args tx accounts verifySignature
  else if tx.format = 2 ∧ Fork.height_2_0 ≤ args.height then doVerifyV2 args tx accounts verifySignature
  else some (collectValidationResults [("tx_format_not_supported", false)])

def verify (args : Args) (tx : TX) (accounts : Accounts) (verifySignature : Bool) : Option Bool := do
  let errorCodes ← doVerify args tx accounts verifySignature
  some errorCodes.isEmpty

/-- What is known about a transaction that passed. -/
structure Verified (args : Args) (tx : TX) (accounts : Accounts) : Prop where
  format : tx.format = 1 ∨ tx.format = 2
  denomination : verifyDenomination tx args.denomination args.height args.redenominationHeight = true
  quantity : 0 ≤ tx.quantity
  target_ne : tx.address ≠ tx.target
  fee : isTxFeeSufficient args tx accounts tx.target = some true
  hash : verifyHash tx = true
  overspend : ∃ accounts2, applyTx accounts args.denomination tx = some accounts2 ∧
    validateOverspend tx accounts2 = true
  malleability : tx.format = 1 → verifyMalleability args tx accounts = some true
  dataSize : tx.format = 2 → 0 ≤ tx.dataSize
  targetLength : verifyTargetLength tx args.height = true

lemma isEmpty_collectValidationResults {checks : List (String × Bool)} :
    (collectValidationResults checks).isEmpty = true ↔ ∀ check ∈ checks, check.2 = true := by
  rw [List.isEmpty_iff, collectValidationResults, List.filterMap_eq_nil_iff]
  simp

variable {args : Args} {tx : TX} {accounts : Accounts} {verifySignature : Bool}

lemma verified_of_doVerifyV1 {errorCodes : List String} (hformat : tx.format = 1)
    (h : doVerifyV1 args tx accounts verifySignature = some errorCodes) (hempty : errorCodes.isEmpty = true) :
    Verified args tx accounts := by
  unfold doVerifyV1 at h
  by_cases hden : verifyDenomination tx args.denomination args.height args.redenominationHeight = true
  · simp only [hden, if_true, bind, Option.bind_eq_some_iff] at h
    obtain ⟨feeSufficient, hfee, accounts2, happly, signatureValid, -, notMalleable, hmal, h⟩ := h
    cases h
    simp only [isEmpty_collectValidationResults, List.forall_mem_cons, decide_eq_true_eq] at hempty
    obtain ⟨hq, htarget, rfl, -, -, hhash, hover, -, rfl, hlength, -⟩ := hempty
    exact ⟨.inl hformat, hden, hq, htarget, hfee, hhash, ⟨accounts2, happly, hover⟩, fun _ => hmal,
      fun h2 => by omega, hlength⟩
  · simp only [hden] at h
    cases h
    cases hempty

lemma verified_of_doVerifyV2 {errorCodes : List String} (hformat : tx.format = 2)
    (h : doVerifyV2 args tx accounts verifySignature = some errorCodes) (hempty : errorCodes.isEmpty = true) :
    Verified args tx accounts := by
  unfold doVerifyV2 at h
  by_cases hden : verifyDenomination tx args.denomination args.height args.redenominationHeight = true
  · simp only [hden, if_true, bind, Option.bind_eq_some_iff] at h
    obtain ⟨feeSufficient, hfee, accounts2, happly, signatureValid, -, h⟩ := h
    cases h
    simp only [isEmpty_collectValidationResults, List.forall_mem_cons, decide_eq_true_eq] at hempty
    obtain ⟨hq, htarget, rfl, -, hhash, hover, -, hsize, -, hlength, -⟩ := hempty
    exact ⟨.inr hformat, hden, hq, htarget, hfee, hhash, ⟨accounts2, happly, hover⟩, fun h1 => by omega,
      fun _ => hsize, hlength⟩
  · simp only [hden] at h
    cases h
    cases hempty

lemma verified_of_verify (h : verify args tx accounts verifySignature = some true) :
    Verified args tx accounts := by
  unfold verify at h
  simp only [bind, Option.bind_eq_some_iff, Option.some.injEq] at h
  obtain ⟨errorCodes, hcodes, hempty⟩ := h
  unfold doVerify at hcodes
  split_ifs at hcodes with h1 h2
  · exact verified_of_doVerifyV1 h1 hcodes hempty
  · exact verified_of_doVerifyV2 h2.1 hcodes hempty
  · cases hcodes
    cases hempty

lemma validateOverspend_lookup (h : validateOverspend tx accounts = true) {addr : Bytes}
    (haddr : addr = tx.address ∨ addr = tx.target ∧ addr ≠ []) :
    ∃ account, accounts.lookup addr = some account ∧ 0 ≤ account.balance := by
  unfold validateOverspend at h
  rw [List.all_eq_true] at h
  have hmem : addr ∈ if tx.target = [] then [tx.address] else [tx.address, tx.target] := by
    split_ifs with htarget
    · rcases haddr with rfl | ⟨rfl, hne⟩
      · exact List.mem_singleton_self _
      · exact absurd htarget hne
    · rcases haddr with rfl | ⟨rfl, -⟩
      · exact List.mem_cons_self
      · exact List.mem_cons_of_mem _ (List.mem_singleton_self _)
  have haccount := h addr hmem
  cases hlookup : accounts.lookup addr with
  | none => simp [hlookup] at haccount
  | some account =>
    simp only [hlookup, Bool.and_eq_true, decide_eq_true_eq] at haccount
    exact ⟨account, rfl, haccount.2⟩

lemma Verified.known (h : Verified args tx accounts) : (accounts.lookup tx.address).isSome = true := by
  cases hlookup : accounts.lookup tx.address with
  | some account => rfl
  | none =>
    obtain ⟨accounts2, happly, hover⟩ := h.overspend
    rw [applyTx_of_unknown hlookup] at happly
    cases happly
    obtain ⟨account, hsome, -⟩ := validateOverspend_lookup hover (.inl rfl)
    rw [hlookup] at hsome
    cases hsome

end Arweave.Tx

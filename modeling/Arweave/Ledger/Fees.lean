import Arweave.Constants
import Arweave.Ledger.Accounts

/-!
# Transaction fees

The minimum fee of a transaction, from `ar_tx` and `ar_pricing`. It pays for the bytes that
the transaction adds to the weave and, when the target has no account yet, for the account.
-/

namespace Arweave.Ledger
open Arweave.Lib Arweave.Tx

def gib : Int := 1024 * 1024 * 1024

def newAccountFeeDataSizeEquivalent : Int := 20000000

def static_2_6_8_FeeWinston : Int := 858000000000

def price_2_6_8_TransitionStart : Nat := 179505

/-- The approximation of the logarithm of 0.995, as a fraction. -/
def lnPriceDecayAnnual : Int × Int := (-5012541823544286, 1000000000000000000)

def minerMinimumEndowmentContributionShare : Int × Int := (1, 20)

/-- `?N_REPLICATIONS` -/
def nReplications (height : Nat) : Int :=
  if Fork.height_2_6 ≤ height then 20 else if Fork.height_2_5 ≤ height then 45 else 10

/-- `ar_fraction:multiply/2` -/
def multiply (a b : Int × Int) : Int × Int := (a.1 * b.1, a.2 * b.2)

/-- `ar_fraction:add/2` -/
def add (a b : Int × Int) : Int × Int := (a.1 * b.2 + b.1 * a.2, a.2 * b.2)

def getWeaveSizeIncrease (dataSize : Int) (height : Nat) : Int :=
  if dataSize = 0 then 0
  else if Fork.height_2_5 ≤ height then getPaddedOffset dataSize 0
  else dataSize

/-- `ar_pricing:get_tx_fee/1` -/
def getTxFeeForSize (dataSize : Int) (gibMinutePrice kryderPlusRateMultiplier height : Nat) : Int :=
  let firstYearPrice := dataSize * gibMinutePrice * 60 * 24 * 365
  let perpetualPrice := (-firstYearPrice * lnPriceDecayAnnual.2 * kryderPlusRateMultiplier *
    nReplications height, lnPriceDecayAnnual.1 * gib)
  let minerShare := multiply perpetualPrice minerMinimumEndowmentContributionShare
  let fee := add perpetualPrice minerShare
  fee.1.tdiv fee.2

/-- No account has to be paid for when the target is empty or has one. -/
def hasAccount (addr : Bytes) (accounts : Accounts) : Bool := addr = [] || (accounts.lookup addr).isSome

def getStatic_2_6_8_TxFee (dataSize : Int) (addr : Bytes) (accounts : Accounts) : Int :=
  let uploadFee := static_2_6_8_FeeWinston.tdiv gib * (dataSize + txSizeBase)
  if hasAccount addr accounts then uploadFee
  else uploadFee + static_2_6_8_FeeWinston.tdiv gib * newAccountFeeDataSizeEquivalent

def getNewAccountFee (pricePerGiBMinute kryderPlusRateMultiplier height : Nat) : Int :=
  getTxFeeForSize newAccountFeeDataSizeEquivalent pricePerGiBMinute kryderPlusRateMultiplier height

def getTxFee2 (dataSize : Int) (pricePerGiBMinute kryderPlusRateMultiplier : Nat) (addr : Bytes)
    (accounts : Accounts) (height : Nat) : Int :=
  let uploadFee := getTxFeeForSize (dataSize + txSizeBase) pricePerGiBMinute kryderPlusRateMultiplier height
  if hasAccount addr accounts then uploadFee
  else uploadFee + getNewAccountFee pricePerGiBMinute kryderPlusRateMultiplier height

/-- `ar_tx:get_tx_fee/1`. It crashes before the fork 2.6.8. -/
def getTxFee (dataSize : Int) (pricePerGiBMinute kryderPlusRateMultiplier : Nat) (addr : Bytes)
    (accounts : Accounts) (height : Nat) : Option Int :=
  if Fork.height_2_6_8 ≤ height then
    if Fork.height_2_6_8 + price_2_6_8_TransitionStart ≤ height then
      some (getTxFee2 dataSize pricePerGiBMinute kryderPlusRateMultiplier addr accounts height)
    else some (getStatic_2_6_8_TxFee dataSize addr accounts)
  else none

end Arweave.Ledger

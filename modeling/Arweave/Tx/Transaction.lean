import Arweave.DeepHash
import Arweave.Lib.Sha2

/-!
# Transactions

The record of a transaction, the address of its owner and the string that is signed. Version
one signs the concatenation of the fields, or a deep hash when a denomination is given.
Version two always signs a deep hash.
-/

namespace Arweave.Fork

-- `ar_fork`: the heights of the hard forks

def height_1_8 : Nat := 269510
def height_2_0 : Nat := 422250
def height_2_4 : Nat := 633720
def height_2_5 : Nat := 812970
def height_2_6 : Nat := 1132210
def height_2_6_8 : Nat := 1189560
def height_2_7 : Nat := 1275480
def height_2_7_1 : Nat := 1316410

end Arweave.Fork

namespace Arweave.Tx
open Arweave.Lib Arweave.Lib.Sha2 Arweave.DeepHash

/-- `{rsa, 65537}`, `{ecdsa, secp256k1}` and `{eddsa, ed25519}`. -/
inductive SignatureType where
  | rsa
  | ecdsa
  | eddsa
  deriving DecidableEq, Repr

/-- The record `tx`. A denomination of zero stands for the one of the block. -/
structure TX where
  format : Nat := 1
  id : Bytes := []
  lastTx : Bytes := []
  owner : Bytes := []
  tags : List (Bytes × Bytes) := []
  target : Bytes := []
  quantity : Int := 0
  data : Bytes := []
  dataSize : Int := 0
  dataRoot : Bytes := []
  signature : Bytes := []
  reward : Int := 0
  denomination : Nat := 0
  signatureType : SignatureType := .rsa
  deriving DecidableEq, Repr

/-- `ar_wallet:to_address/2` -/
def toAddress (pubKey : Bytes) : SignatureType → Bytes
  | .rsa => if pubKey.length = 32 then pubKey else sha256 pubKey
  | .ecdsa => 2 :: sha256 pubKey
  | .eddsa => 3 :: sha256 pubKey

/-- The address that a transaction is sent from. -/
def TX.address (tx : TX) : Bytes := toAddress tx.owner tx.signatureType

/-- `integer_to_list/1` and `integer_to_binary/1` -/
def integerToList (n : Int) : Bytes :=
  if n < 0 then 45 :: integerToBinary n.natAbs else integerToBinary n.natAbs

def tagsToList (tags : List (Bytes × Bytes)) : List Item :=
  tags.map fun (name, value) => .list [.blob name, .blob value]

def tagsToBinary (tags : List (Bytes × Bytes)) : Bytes :=
  tags.flatMap fun (name, value) => name ++ value

/-- The items that a transaction of version two signs. -/
def segmentListV2 (tx : TX) : List Item := [
  .blob (integerToBinary tx.format), .blob tx.owner, .blob tx.target,
  .blob (integerToList tx.quantity), .blob (integerToList tx.reward), .blob tx.lastTx,
  .list (tagsToList tx.tags), .blob (integerToList tx.dataSize), .blob tx.dataRoot]

/-- The items with the denomination when there is one. -/
def segmentItemsV2 (tx : TX) : List Item :=
  if 0 < tx.denomination then .blob (integerToBinary tx.denomination) :: segmentListV2 tx
  else segmentListV2 tx

def signatureDataSegmentV2 (H : Digest 48) (tx : TX) : Bytes := hash H (segmentItemsV2 tx)

/-- The items that a transaction of version one with a denomination signs. -/
def segmentItemsV1 (tx : TX) : List Item := [
  .blob (integerToBinary tx.denomination), .blob tx.owner, .blob tx.target,
  .blob (integerToList tx.quantity), .blob (integerToList tx.reward), .blob tx.lastTx,
  .list (tagsToList tx.tags)]

def signatureDataSegmentV1 (H : Digest 48) (tx : TX) : Bytes :=
  if 0 < tx.denomination then hash H (segmentItemsV1 tx)
  else tx.owner ++ tx.target ++ tx.data ++ integerToList tx.quantity ++ integerToList tx.reward ++
    tx.lastTx ++ tagsToBinary tx.tags

/-- `ar_tx:utility/1`: large transactions of version one come last. -/
def utility (tx : TX) : Nat × Int :=
  if tx.format = 1 ∧ 100 < tx.dataSize then (1, tx.reward) else (2, tx.reward)

end Arweave.Tx

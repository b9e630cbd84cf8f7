import Arweave.Lib.Codec
import Arweave.Tx.Transaction
import Arweave.Wallet.Account

/-!
# The binary format of transactions

A transaction is a sequence of fields that are fixed in size or come with a size. The
denomination is left out when it is zero. Lists are written in reverse order, since the
encoders and the parsers both collect the elements in front of the ones they have.
-/

namespace Arweave.Serialize
open Arweave.Lib Arweave.Lib.Codec Arweave.Tx Arweave.Wallet

/-- The reasons in the errors of `ar_serialize`. -/
inductive ParseError where
  | invalidBlockInput
  | invalidInput1
  | invalidInput4
  | invalidInput7
  | invalidTagsInput
  | invalidTagInput
  | invalidTransactionsInput
  | invalidTransactions2Input
  | invalidDoubleSigningProofInput
  | invalidMerkleRebaseSupportThreshold
  | invalidTxInput
  | invalidTxTagsInput
  | invalidTxTagInput
  | invalidDenomination
  | invalidCheckpoints
  | invalid1
  | invalid2
  deriving DecidableEq, Repr

/-- An element of the transactions of a block: an identifier or a transaction. -/
inductive BlockTx where
  | id (txid : Bytes)
  | tx (tx : TX)
  deriving DecidableEq, Repr

/-- `Bin:n/binary` in a binary that is built: a longer binary is cut, a shorter one is an error. -/
def binaryOf (n : Nat) (bin : Bytes) : Option Bytes :=
  if n ≤ bin.length then some (bin.take n) else none

/-- `encode_int/2` of an integer of any sign. There is no encoding of a negative one. -/
def encodeInteger (n : Int) (sizeBytes : Nat) : Option Bytes :=
  if 0 ≤ n then some (encodeInt n.toNat sizeBytes) else none

def encodeTag (tag : Bytes × Bytes) : Bytes :=
  Bytes.ofNat 2 tag.1.length ++ Bytes.ofNat 2 tag.2.length ++ tag.1 ++ tag.2

def encodeTxTagsFrom : List (Bytes × Bytes) → Bytes → Nat → Bytes
  | [], encoded, n => Bytes.ofNat 2 n ++ encoded
  | tag :: tags, encoded, n => encodeTxTagsFrom tags (encodeTag tag ++ encoded) (n + 1)

def encodeTxTags (tags : List (Bytes × Bytes)) : Bytes := encodeTxTagsFrom tags [] 0

def encodeSignatureType : SignatureType → Bytes
  | .rsa => []
  | .ecdsa => [1]
  | .eddsa => [2]

def mayBeEncodeTxDenomination (tx : TX) : Bytes :=
  if tx.denomination = 0 then [] else Bytes.ofNat 3 tx.denomination

def encodeTx (tx : TX) : Option Bytes := do
  let id ← binaryOf 32 tx.id
  let quantity ← encodeInteger tx.quantity 1
  let dataSize ← encodeInteger tx.dataSize 2
  let reward ← encodeInteger tx.reward 1
  return Bytes.ofNat 1 tx.format ++ id ++ encodeBin tx.lastTx 1 ++ encodeBin tx.owner 2 ++
    encodeBin tx.target 1 ++ quantity ++ dataSize ++ encodeBin tx.dataRoot 1 ++
    encodeBin tx.signature 2 ++ reward ++ encodeBin tx.data 3 ++ encodeTxTags tx.tags ++
    encodeSignatureType tx.signatureType ++ mayBeEncodeTxDenomination tx

def txToBinary (tx : TX) : Option Bytes := do
  let bin ← encodeTx tx
  return Bytes.ofNat 3 bin.length ++ bin

/-- An identifier is recognised by its size. -/
def encodeBlockTx : BlockTx → Option Bytes
  | .id txid => if txid.length = 32 then some txid else none
  | .tx tx => encodeTx tx

def encodeTransactionsFrom : List BlockTx → Bytes → Nat → Option Bytes
  | [], encoded, n => some (Bytes.ofNat 2 n ++ encoded)
  | tx :: txs, encoded, n => do
    let bin ← encodeBlockTx tx
    encodeTransactionsFrom txs (encodeBin bin 3 ++ encoded) (n + 1)

def encodeTransactions (txs : List BlockTx) : Option Bytes := encodeTransactionsFrom txs [] 0

/-- The fields of a transaction before its tags. -/
structure TxFields where
  format : Fixed 1
  id : Fixed 32
  lastTx : Sized 1
  owner : Sized 2
  target : Sized 1
  quantity : Sized 1
  dataSize : Sized 2
  dataRoot : Sized 1
  signature : Sized 2
  reward : Sized 1
  data : Sized 3

def txFields : Pattern TxFields := do
  let format ← fixed 1
  let id ← fixed 32
  let lastTx ← sized 1
  let owner ← sized 2
  let target ← sized 1
  let quantity ← sized 1
  let dataSize ← sized 2
  let dataRoot ← sized 1
  let signature ← sized 2
  let reward ← sized 1
  let data ← sized 3
  return { format, id, lastTx, owner, target, quantity, dataSize, dataRoot, signature, reward, data }

def tagPattern : Pattern (Sized 2 × Sized 2) := do
  let nameSize ← fixed 2
  let valueSize ← fixed 2
  let name ← fixed nameSize.1.toNat
  let value ← fixed valueSize.1.toNat
  return (⟨name.1, name.2.symm ▸ nameSize.toNat_lt⟩, ⟨value.1, value.2.symm ▸ valueSize.toNat_lt⟩)

def parseTxTagsFrom : Nat → Bytes → List (Bytes × Bytes) →
    Except ParseError (List (Bytes × Bytes) × Bytes)
  | 0, rest, tags => .ok (tags, rest)
  | n + 1, bin, tags =>
    match tagPattern.run bin with
    | some ((name, value), rest) => parseTxTagsFrom n rest ((name.1, value.1) :: tags)
    | none => .error .invalidTxTagInput

def parseTxTags (bin : Bytes) : Except ParseError (List (Bytes × Bytes) × Bytes) :=
  match (fixed 2).run bin with
  | some (tagsLen, rest) =>
    if tagsLen.1.toNat ≤ 2048 then parseTxTagsFrom tagsLen.1.toNat rest []
    else .error .invalidTxTagsInput
  | none => .error .invalidTxTagsInput

def parseTxDenomination (bin : Bytes) : Except ParseError Nat :=
  if bin = [] then .ok 0
  else if bin.length = 3 ∧ 0 < bin.toNat then .ok bin.toNat
  else .error .invalidDenomination

/-- The size of the data of the first format is the one of the data that comes with it. -/
def TxFields.toTX (f : TxFields) (tags : List (Bytes × Bytes)) (denomination : Nat) : TX where
  format := f.format.1.toNat
  id := f.id.1
  lastTx := f.lastTx.1
  owner := f.owner.1
  target := f.target.1
  quantity := f.quantity.1.toNat
  dataSize := if f.format.1.toNat = 1 then f.data.1.length else f.dataSize.1.toNat
  dataRoot := f.dataRoot.1
  signature := f.signature.1
  reward := f.reward.1.toNat
  data := f.data.1
  tags := tags
  denomination := denomination

def parseTx (bin : Bytes) : Except ParseError BlockTx :=
  if bin.length = 32 then .ok (.id bin)
  else
    match txFields.run bin with
    | some (fields, rest) =>
      if fields.format.1.toNat = 1 ∨ fields.format.1.toNat = 2 then do
        let (tags, rest2) ← parseTxTags rest
        let denomination ← parseTxDenomination rest2
        return .tx (fields.toTX tags denomination)
      else .error .invalidTxInput
    | none => .error .invalidTxInput

def binaryToTx (bin : Bytes) : Except ParseError BlockTx :=
  match (sized 3).run bin with
  | some (bin, []) => parseTx bin.1
  | _ => .error .invalidInput7

def parseBlockTransactionsFrom : Nat → Bytes → List BlockTx →
    Except ParseError (List BlockTx × Bytes)
  | 0, rest, txs => .ok (txs, rest)
  | n + 1, bin, txs =>
    match (sized 3).run bin with
    | some (bin, rest) => do
      let tx ← parseTx bin.1
      parseBlockTransactionsFrom n rest (tx :: txs)
    | none => .error .invalidTransactions2Input

def parseBlockTransactions (bin : Bytes) : Except ParseError (List BlockTx × Bytes) :=
  match (fixed 2).run bin with
  | some (count, rest) =>
    if count.1.toNat ≤ 1000 then parseBlockTransactionsFrom count.1.toNat rest []
    else .error .invalidTransactionsInput
  | none => .error .invalidTransactionsInput

end Arweave.Serialize

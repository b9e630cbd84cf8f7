import Arweave.Ledger.Blocks
import Arweave.Serialize.VdfRoundTrip

/-!
# The binary format of blocks

A block is a long sequence of fields, then its tags and its transactions. From the fork 2.6 on
there are more fields behind the transactions, and a proof of double signing. From the fork
2.7 on there are still more.
-/

namespace Arweave.Serialize
open Arweave.Lib Arweave.Lib.Codec Arweave.Tx Arweave.Wallet

def initialVdfDifficulty : Nat := 600000

/-- The record `poa` -/
structure Poa where
  option : Nat := 1
  txPath : Bytes := []
  dataPath : Bytes := []
  chunk : Bytes := []
  deriving DecidableEq, Repr

/-- The record `nonce_limiter_info` -/
structure NonceLimiterInfo where
  output : Bytes := []
  prevOutput : Bytes := []
  seed : Bytes := []
  nextSeed : Bytes := []
  partitionUpperBound : Nat := 0
  nextPartitionUpperBound : Nat := 0
  globalStepNumber : Nat := 1
  lastStepCheckpoints : List Bytes := []
  steps : List Bytes := []
  vdfDifficulty : Nat := initialVdfDifficulty
  nextVdfDifficulty : Nat := initialVdfDifficulty
  deriving DecidableEq, Repr

/-- A nonce is a binary before the fork 2.6 and a number from then on. -/
inductive Nonce where
  | binary (nonce : Bytes)
  | integer (nonce : Nat)
  deriving DecidableEq, Repr

deriving instance DecidableEq for Ledger.DoubleSigningProof

/-- The fields of the record `block` that are sent. An `unclaimed` address is none. -/
structure Block where
  nonce : Nonce
  previousBlock : Bytes := []
  timestamp : Nat
  lastRetarget : Nat
  diff : Nat
  height : Nat := 0
  hash : Bytes := []
  indepHash : Bytes
  txs : List BlockTx := []
  txRoot : Bytes := []
  hashListMerkle : Bytes := []
  walletList : Bytes
  rewardAddr : Option Bytes := none
  tags : List Bytes := []
  rewardPool : Nat
  weaveSize : Nat
  blockSize : Nat
  cumulativeDiff : Nat
  poa : Poa := {}
  usdToArRate : Option (Nat × Nat) := none
  scheduledUsdToArRate : Option (Nat × Nat) := none
  packing25Threshold : Option Nat := none
  strictDataSplitThreshold : Option Nat := none
  -- the fields of the fork 2.6
  hashPreimage : Bytes := []
  recallByte : Option Nat := none
  reward : Nat := 0
  previousSolutionHash : Bytes := []
  partitionNumber : Option Nat := none
  nonceLimiterInfo : NonceLimiterInfo := {}
  poa2 : Poa := {}
  recallByte2 : Option Nat := none
  signature : Bytes := []
  rewardKey : Option (SignatureType × Bytes) := none
  pricePerGiBMinute : Nat := 0
  scheduledPricePerGiBMinute : Nat := 0
  rewardHistoryHash : Option Bytes := none
  debtSupply : Nat := 0
  kryderPlusRateMultiplier : Nat := 1
  kryderPlusRateMultiplierLatch : Nat := 0
  denomination : Nat := 1
  redenominationHeight : Nat := 0
  doubleSigningProof : Option Ledger.DoubleSigningProof := none
  previousCumulativeDiff : Nat := 0
  -- the fields of the fork 2.7
  merkleRebaseSupportThreshold : Option Nat := none
  chunkHash : Option Bytes := none
  chunk2Hash : Option Bytes := none
  blockTimeHistoryHash : Option Bytes := none
  deriving DecidableEq

def encodeBinListFrom (lenBytes elemSizeBytes : Nat) : List Bytes → Bytes → Nat → Bytes
  | [], encoded, n => Bytes.ofNat lenBytes n ++ encoded
  | bin :: bins, encoded, n =>
    encodeBinListFrom lenBytes elemSizeBytes bins (encodeBin bin elemSizeBytes ++ encoded) (n + 1)

def encodeBinList (bins : List Bytes) (lenBytes elemSizeBytes : Nat) : Bytes :=
  encodeBinListFrom lenBytes elemSizeBytes bins [] 0

/-- `encode_bin/2` -/
def encodeOptionalBin : Option Bytes → Nat → Bytes
  | none, sizeBytes => Bytes.ofNat sizeBytes 0
  | some bin, sizeBytes => encodeBin bin sizeBytes

def encodeNonceLimiterInfo (info : NonceLimiterInfo) : Option Bytes := do
  let output ← binaryOf 32 info.output
  let seed ← binaryOf 48 info.seed
  let nextSeed ← binaryOf 48 info.nextSeed
  return output ++ Bytes.ofNat 8 info.globalStepNumber ++ seed ++ nextSeed ++ encodeBin info.prevOutput 1 ++
    Bytes.ofNat 32 info.partitionUpperBound ++ Bytes.ofNat 32 info.nextPartitionUpperBound ++
    Bytes.ofNat 2 info.lastStepCheckpoints.length ++ info.lastStepCheckpoints.flatten ++
    Bytes.ofNat 2 info.steps.length ++ info.steps.flatten

def encodeDoubleSigningProof : Option Ledger.DoubleSigningProof → Option Bytes
  | none => some [0]
  | some proof => do
    let key ← binaryOf 512 proof.pub
    let sig1 ← binaryOf 512 proof.signature1
    let preimage1 ← binaryOf 64 proof.preimage1
    let sig2 ← binaryOf 512 proof.signature2
    let preimage2 ← binaryOf 64 proof.preimage2
    return [1] ++ key ++ sig1 ++ encodeInt proof.cdiff1 2 ++ encodeInt proof.prevCdiff1 2 ++ preimage1 ++
      sig2 ++ encodeInt proof.cdiff2 2 ++ encodeInt proof.prevCdiff2 2 ++ preimage2

def encodePost27Fields (b : Block) : Option Bytes :=
  if Fork.height_2_7 ≤ b.height then do
    let chunkHash ← b.chunkHash >>= binaryOf 32
    let blockTimeHistoryHash ← b.blockTimeHistoryHash >>= binaryOf 32
    return encodeOptionalInt b.merkleRebaseSupportThreshold 2 ++ chunkHash ++ encodeOptionalBin b.chunk2Hash 1 ++
      blockTimeHistoryHash ++ encodeInt b.nonceLimiterInfo.vdfDifficulty 1 ++
      encodeInt b.nonceLimiterInfo.nextVdfDifficulty 1
  else some []

def encodePost26Fields (b : Block) : Option Bytes :=
  let rewardKey := b.rewardKey.elim [] Prod.snd
  if b.height < Fork.height_2_6 then some []
  else do
    let partitionNumber ← b.partitionNumber
    let nonceLimiterInfo ← encodeNonceLimiterInfo b.nonceLimiterInfo
    let rewardHistoryHash ← b.rewardHistoryHash >>= binaryOf 32
    let doubleSigningProof ← encodeDoubleSigningProof b.doubleSigningProof
    let post27Fields ← encodePost27Fields b
    return encodeBin b.hashPreimage 1 ++ encodeOptionalInt b.recallByte 2 ++ encodeInt b.reward 1 ++
      encodeBin b.signature 2 ++ encodeOptionalInt b.recallByte2 2 ++ encodeBin b.previousSolutionHash 1 ++
      Bytes.ofNat 32 partitionNumber ++ nonceLimiterInfo ++ encodeBin b.poa2.chunk 3 ++ encodeBin rewardKey 2 ++
      encodeBin b.poa2.txPath 3 ++ encodeBin b.poa2.dataPath 3 ++ encodeInt b.pricePerGiBMinute 1 ++
      encodeInt b.scheduledPricePerGiBMinute 1 ++ rewardHistoryHash ++ encodeInt b.debtSupply 1 ++
      Bytes.ofNat 3 b.kryderPlusRateMultiplier ++ Bytes.ofNat 1 b.kryderPlusRateMultiplierLatch ++
      Bytes.ofNat 3 b.denomination ++ encodeInt b.redenominationHeight 1 ++
      encodeInt b.previousCumulativeDiff 2 ++ doubleSigningProof ++ post27Fields

/-- The nonce as it is written. A nonce of the other era cannot be. -/
def encodeNonce (b : Block) : Option Bytes :=
  match decide (Fork.height_2_6 ≤ b.height), b.nonce with
  | true, .integer nonce => some (encodeUnsigned nonce)
  | false, .binary nonce => some nonce
  | _, _ => none

def blockToBinary (b : Block) : Option Bytes := do
  let addr2 := b.rewardAddr.getD []
  let nonce2 ← encodeNonce b
  let indepHash ← binaryOf 48 b.indepHash
  let txs ← encodeTransactions b.txs
  let post26Fields ← encodePost26Fields b
  return indepHash ++ encodeBin b.previousBlock 1 ++ encodeInt b.timestamp 1 ++ encodeBin nonce2 2 ++
    encodeInt b.height 1 ++ encodeInt b.diff 2 ++ encodeInt b.cumulativeDiff 2 ++ encodeInt b.lastRetarget 1 ++
    encodeBin b.hash 1 ++ encodeInt b.blockSize 2 ++ encodeInt b.weaveSize 2 ++ encodeBin addr2 1 ++
    encodeBin b.txRoot 1 ++ encodeBin b.walletList 1 ++ encodeBin b.hashListMerkle 1 ++
    encodeInt b.rewardPool 1 ++ encodeOptionalInt b.packing25Threshold 1 ++
    encodeOptionalInt b.strictDataSplitThreshold 1 ++ encodeOptionalInt (b.usdToArRate.map Prod.fst) 1 ++
    encodeOptionalInt (b.usdToArRate.map Prod.snd) 1 ++
    encodeOptionalInt (b.scheduledUsdToArRate.map Prod.fst) 1 ++
    encodeOptionalInt (b.scheduledUsdToArRate.map Prod.snd) 1 ++ encodeInt b.poa.option 1 ++
    encodeBin b.poa.chunk 3 ++ encodeBin b.poa.txPath 3 ++ encodeBin b.poa.dataPath 3 ++
    encodeBinList b.tags 2 2 ++ txs ++ post26Fields

/-- The fields before the tags. -/
structure BlockFields where
  indepHash : Fixed 48
  previousBlock : Sized 1
  timestamp : Sized 1
  nonce : Sized 2
  height : Sized 1
  diff : Sized 2
  cumulativeDiff : Sized 2
  lastRetarget : Sized 1
  hash : Sized 1
  blockSize : Sized 2
  weaveSize : Sized 2
  rewardAddr : Sized 1
  txRoot : Sized 1
  walletList : Sized 1
  hashListMerkle : Sized 1
  rewardPool : Sized 1
  packing25Threshold : Sized 1
  strictDataSplitThreshold : Sized 1
  rateDividend : Sized 1
  rateDivisor : Sized 1
  scheduledRateDividend : Sized 1
  scheduledRateDivisor : Sized 1
  poaOption : Sized 1
  chunk : Sized 3
  txPath : Sized 3
  dataPath : Sized 3

def blockFields : Pattern BlockFields := do
  let indepHash ← fixed 48
  let previousBlock ← sized 1
  let timestamp ← sized 1
  let nonce ← sized 2
  let height ← sized 1
  let diff ← sized 2
  let cumulativeDiff ← sized 2
  let lastRetarget ← sized 1
  let hash ← sized 1
  let blockSize ← sized 2
  let weaveSize ← sized 2
  let rewardAddr ← sized 1
  let txRoot ← sized 1
  let walletList ← sized 1
  let hashListMerkle ← sized 1
  let rewardPool ← sized 1
  let packing25Threshold ← sized 1
  let strictDataSplitThreshold ← sized 1
  let rateDividend ← sized 1
  let rateDivisor ← sized 1
  let scheduledRateDividend ← sized 1
  let scheduledRateDivisor ← sized 1
  let poaOption ← sized 1
  let chunk ← sized 3
  let txPath ← sized 3
  let dataPath ← sized 3
  return {
    indepHash, previousBlock, timestamp, nonce, height, diff, cumulativeDiff, lastRetarget, hash, blockSize,
    weaveSize, rewardAddr, txRoot, walletList, hashListMerkle, rewardPool, packing25Threshold,
    strictDataSplitThreshold, rateDividend, rateDivisor, scheduledRateDividend, scheduledRateDivisor,
    poaOption, chunk, txPath, dataPath }

/-- A rate is undefined when its divisor is. -/
def toRate (dividend divisor : Bytes) : Option (Nat × Nat) :=
  if divisor.length = 0 then none else some (dividend.toNat, divisor.toNat)

def BlockFields.toBlock (f : BlockFields) : Block where
  indepHash := f.indepHash.1
  previousBlock := f.previousBlock.1
  timestamp := f.timestamp.1.toNat
  nonce := .binary f.nonce.1
  height := f.height.1.toNat
  diff := f.diff.1.toNat
  cumulativeDiff := f.cumulativeDiff.1.toNat
  lastRetarget := f.lastRetarget.1.toNat
  hash := f.hash.1
  blockSize := f.blockSize.1.toNat
  weaveSize := f.weaveSize.1.toNat
  rewardAddr :=
    if f.rewardAddr.1.length = 0 ∧ f.height.1.toNat < Fork.height_2_6 then none else some f.rewardAddr.1
  txRoot := f.txRoot.1
  walletList := f.walletList.1
  hashListMerkle := f.hashListMerkle.1
  rewardPool := f.rewardPool.1.toNat
  packing25Threshold := toOptionalInt f.packing25Threshold.1
  strictDataSplitThreshold := toOptionalInt f.strictDataSplitThreshold.1
  usdToArRate := toRate f.rateDividend.1 f.rateDivisor.1
  scheduledUsdToArRate := toRate f.scheduledRateDividend.1 f.scheduledRateDivisor.1
  poa := { option := f.poaOption.1.toNat, chunk := f.chunk.1, txPath := f.txPath.1, dataPath := f.dataPath.1 }

def parseBlockTagsFrom : Nat → Bytes → List Bytes → Nat → Except ParseError (List Bytes × Bytes)
  | 0, rest, tags, _ => .ok (tags, rest)
  | n + 1, bin, tags, totalSize =>
    match (sized 2).run bin with
    | some (tag, rest) =>
      if totalSize + tag.1.length ≤ 2048 then
        parseBlockTagsFrom n rest (tag.1 :: tags) (totalSize + tag.1.length)
      else .error .invalidTagInput
    | none => .error .invalidTagInput

def parseBlockTags (bin : Bytes) : Except ParseError (List Bytes × Bytes) :=
  match (fixed 2).run bin with
  | some (tagsLen, rest) =>
    if tagsLen.1.toNat ≤ 2048 then parseBlockTagsFrom tagsLen.1.toNat rest [] 0
    else .error .invalidTagsInput
  | none => .error .invalidTagsInput

/-- The fields of the fork 2.7. -/
structure Post27Fields where
  merkleRebaseSupportThreshold : Sized 2
  chunkHash : Fixed 32
  chunk2Hash : Sized 1
  blockTimeHistoryHash : Fixed 32
  vdfDifficulty : Sized 1
  nextVdfDifficulty : Sized 1

def post27Fields : Pattern Post27Fields := do
  let merkleRebaseSupportThreshold ← sized 2
  let chunkHash ← fixed 32
  let chunk2Hash ← sized 1
  let blockTimeHistoryHash ← fixed 32
  let vdfDifficulty ← sized 1
  let nextVdfDifficulty ← sized 1
  return {
    merkleRebaseSupportThreshold, chunkHash, chunk2Hash, blockTimeHistoryHash, vdfDifficulty,
    nextVdfDifficulty }

def Block.withPost27Fields (b : Block) (f : Post27Fields) : Block :=
  { b with
    merkleRebaseSupportThreshold := some f.merkleRebaseSupportThreshold.1.toNat
    chunkHash := some f.chunkHash.1
    chunk2Hash := if f.chunk2Hash.1.length = 0 then none else some f.chunk2Hash.1
    blockTimeHistoryHash := some f.blockTimeHistoryHash.1
    nonceLimiterInfo := {
      b.nonceLimiterInfo with
      vdfDifficulty := f.vdfDifficulty.1.toNat
      nextVdfDifficulty := f.nextVdfDifficulty.1.toNat } }

def parsePost27Fields (rest : Bytes) (b : Block) : Except ParseError Block :=
  if Fork.height_2_7 ≤ b.height then
    match post27Fields.run rest with
    | some (f, []) => .ok (b.withPost27Fields f)
    | _ => .error .invalidMerkleRebaseSupportThreshold
  else if rest = [] then .ok b
  else .error .invalidMerkleRebaseSupportThreshold

/-- A proof behind its mark. -/
def doubleSigningProofPattern : Pattern Ledger.DoubleSigningProof := do
  let key ← fixed 512
  let sig1 ← fixed 512
  let cdiff1 ← sized 2
  let prevCdiff1 ← sized 2
  let preimage1 ← fixed 64
  let sig2 ← fixed 512
  let cdiff2 ← sized 2
  let prevCdiff2 ← sized 2
  let preimage2 ← fixed 64
  return {
    pub := key.1, signature1 := sig1.1, cdiff1 := cdiff1.1.toNat, prevCdiff1 := prevCdiff1.1.toNat,
    preimage1 := preimage1.1, signature2 := sig2.1, cdiff2 := cdiff2.1.toNat,
    prevCdiff2 := prevCdiff2.1.toNat, preimage2 := preimage2.1, length_pub := key.2 }

def parseDoubleSigningProof (bin : Bytes) (b : Block) : Except ParseError Block :=
  match bin with
  | [] => .error .invalidDoubleSigningProofInput
  | mark :: rest =>
    if mark = 0 then parsePost27Fields rest b
    else if mark = 1 then
      match doubleSigningProofPattern.run rest with
      | some (proof, rest) => parsePost27Fields rest { b with doubleSigningProof := some proof }
      | none => .error .invalidDoubleSigningProofInput
    else .error .invalidDoubleSigningProofInput

/-- There is no clause for an empty list above height zero, nor for other pieces. -/
def parseCheckpoints (bin : Bytes) (height : Nat) : Option (Except ParseError (List Bytes)) :=
  if height = 0 then if bin = [] then some (.ok []) else some (.error .invalidCheckpoints)
  else if bin = [] then none
  else (pieces 32 bin.length bin).map .ok

/-- The fields of the fork 2.6 before the proof of double signing. -/
structure Post26Fields where
  hashPreimage : Sized 1
  recallByte : Sized 2
  reward : Sized 1
  signature : Sized 2
  recallByte2 : Sized 2
  previousSolutionHash : Sized 1
  partitionNumber : Fixed 32
  output : Fixed 32
  globalStepNumber : Fixed 8
  seed : Fixed 48
  nextSeed : Fixed 48
  prevOutput : Sized 1
  partitionUpperBound : Fixed 32
  nextPartitionUpperBound : Fixed 32
  lastStepCheckpoints : {p : Nat × Bytes // p.1 < 256 ^ 2 ∧ p.2.length = p.1 * 32}
  steps : {p : Nat × Bytes // p.1 < 256 ^ 2 ∧ p.2.length = p.1 * 32}
  chunk : Sized 3
  rewardKey : Sized 2
  txPath : Sized 3
  dataPath : Sized 3
  pricePerGiBMinute : Sized 1
  scheduledPricePerGiBMinute : Sized 1
  rewardHistoryHash : Fixed 32
  debtSupply : Sized 1
  kryderPlusRateMultiplier : Fixed 3
  kryderPlusRateMultiplierLatch : Fixed 1
  denomination : Fixed 3
  redenominationHeight : Sized 1
  previousCumulativeDiff : Sized 2

def post26Fields : Pattern Post26Fields := do
  let hashPreimage ← sized 1
  let recallByte ← sized 2
  let reward ← sized 1
  let signature ← sized 2
  let recallByte2 ← sized 2
  let previousSolutionHash ← sized 1
  let partitionNumber ← fixed 32
  let output ← fixed 32
  let globalStepNumber ← fixed 8
  let seed ← fixed 48
  let nextSeed ← fixed 48
  let prevOutput ← sized 1
  let partitionUpperBound ← fixed 32
  let nextPartitionUpperBound ← fixed 32
  let lastStepCheckpoints ← chunked 2 32
  let steps ← chunked 2 32
  let chunk ← sized 3
  let rewardKey ← sized 2
  let txPath ← sized 3
  let dataPath ← sized 3
  let pricePerGiBMinute ← sized 1
  let scheduledPricePerGiBMinute ← sized 1
  let rewardHistoryHash ← fixed 32
  let debtSupply ← sized 1
  let kryderPlusRateMultiplier ← fixed 3
  let kryderPlusRateMultiplierLatch ← fixed 1
  let denomination ← fixed 3
  let redenominationHeight ← sized 1
  let previousCumulativeDiff ← sized 2
  return {
    hashPreimage, recallByte, reward, signature, recallByte2, previousSolutionHash, partitionNumber, output,
    globalStepNumber, seed, nextSeed, prevOutput, partitionUpperBound, nextPartitionUpperBound,
    lastStepCheckpoints, steps, chunk, rewardKey, txPath, dataPath, pricePerGiBMinute,
    scheduledPricePerGiBMinute, rewardHistoryHash, debtSupply, kryderPlusRateMultiplier,
    kryderPlusRateMultiplierLatch, denomination, redenominationHeight, previousCumulativeDiff }

/-- `binary:decode_unsigned/2`, which has no result for a number. -/
def Nonce.decodeUnsigned : Nonce → Option Nat
  | .binary nonce => some nonce.toNat
  | .integer _ => none

def Block.withPost26Fields (b : Block) (f : Post26Fields) (nonce : Nat)
    (lastStepCheckpoints steps : List Bytes) : Block :=
  { b with
    hashPreimage := f.hashPreimage.1
    recallByte := toOptionalInt f.recallByte.1
    reward := f.reward.1.toNat
    nonce := .integer nonce
    recallByte2 := toOptionalInt f.recallByte2.1
    previousSolutionHash := f.previousSolutionHash.1
    signature := f.signature.1
    partitionNumber := some f.partitionNumber.1.toNat
    rewardKey := some (.rsa, f.rewardKey.1)
    nonceLimiterInfo := {
      output := f.output.1
      prevOutput := f.prevOutput.1
      globalStepNumber := f.globalStepNumber.1.toNat
      seed := f.seed.1
      nextSeed := f.nextSeed.1
      partitionUpperBound := f.partitionUpperBound.1.toNat
      nextPartitionUpperBound := f.nextPartitionUpperBound.1.toNat
      lastStepCheckpoints := lastStepCheckpoints
      steps := steps }
    poa2 := { chunk := f.chunk.1, dataPath := f.dataPath.1, txPath := f.txPath.1 }
    pricePerGiBMinute := f.pricePerGiBMinute.1.toNat
    scheduledPricePerGiBMinute := f.scheduledPricePerGiBMinute.1.toNat
    rewardHistoryHash := some f.rewardHistoryHash.1
    debtSupply := f.debtSupply.1.toNat
    kryderPlusRateMultiplier := f.kryderPlusRateMultiplier.1.toNat
    kryderPlusRateMultiplierLatch := f.kryderPlusRateMultiplierLatch.1.toNat
    denomination := f.denomination.1.toNat
    redenominationHeight := f.redenominationHeight.1.toNat
    previousCumulativeDiff := f.previousCumulativeDiff.1.toNat }

/-- The result of `parse_checkpoints` is a list: the height is not zero after the fork. -/
def parseBlockPost26Fields (b : Block) (bin : Bytes) : Option (Except ParseError Block) :=
  match post26Fields.run bin with
  | some (f, rest) => do
    let nonce ← b.nonce.decodeUnsigned
    match parseCheckpoints f.lastStepCheckpoints.1.2 b.height, parseCheckpoints f.steps.1.2 b.height with
    | some (.ok checkpoints), some (.ok steps) =>
      some (parseDoubleSigningProof rest (b.withPost26Fields f nonce checkpoints steps))
    | _, _ => none
  | none => some (.error .invalidInput4)

/-- `parse_block_transactions/2` -/
def parseBlockTransactionsOf (bin : Bytes) (b : Block) : Option (Except ParseError Block) :=
  match parseBlockTransactions bin with
  | .error reason => some (.error reason)
  | .ok (txs, rest) =>
    if b.height < Fork.height_2_6 then
      if rest = [] then some (.ok { b with txs := txs }) else some (.error .invalidInput1)
    else parseBlockPost26Fields { b with txs := txs } rest

def parseBlockTagsTransactions (bin : Bytes) (b : Block) : Option (Except ParseError Block) :=
  match parseBlockTags bin with
  | .error reason => some (.error reason)
  | .ok (tags, rest) => parseBlockTransactionsOf rest { b with tags := tags }

/-- There is no result when the parser has no clause for a list of checkpoints. -/
def binaryToBlock (bin : Bytes) : Option (Except ParseError Block) :=
  match blockFields.run bin with
  | some (f, rest) =>
    if f.nonce.1.length ≤ 512 then parseBlockTagsTransactions rest f.toBlock
    else some (.error .invalidBlockInput)
  | none => some (.error .invalidBlockInput)

end Arweave.Serialize

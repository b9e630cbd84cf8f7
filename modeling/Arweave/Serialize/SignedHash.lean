import Arweave.Serialize.Accepted

/-!
# The signed hash of a block

`ar_block:generate_signed_hash` hashes the consensus fields of a block. Each of them is fixed
in size or comes with its size, so that a pattern reads the fields back from the segment and
blocks with the same segment have the same fields.
-/

namespace Arweave.Serialize
open Arweave.Lib Arweave.Lib.Codec Arweave.Tx Arweave.Wallet

/-- The part of the segment that the fork 2.7 has added. -/
def signedPost27 (b : Block) : Option Bytes :=
  if Fork.height_2_7 ≤ b.height then do
    let chunkHash ← b.chunkHash >>= binaryOf 32
    let blockTimeHistoryHash ← b.blockTimeHistoryHash >>= binaryOf 32
    return encodeOptionalInt b.merkleRebaseSupportThreshold 2 ++ encodeBin b.poa.dataPath 3 ++
      encodeBin b.poa.txPath 3 ++ encodeBin b.poa2.dataPath 3 ++ encodeBin b.poa2.txPath 3 ++ chunkHash ++
      encodeOptionalBin b.chunk2Hash 1 ++ blockTimeHistoryHash ++
      encodeInt b.nonceLimiterInfo.vdfDifficulty 1 ++ encodeInt b.nonceLimiterInfo.nextVdfDifficulty 1
  else some []

/-- There is no segment for a nonce of the old era or without the rates. -/
def signedSegment (b : Block) : Option Bytes := do
  let nonce2 ← match b.nonce with
    | .integer nonce => some (encodeUnsigned nonce)
    | .binary _ => none
  let (rateDividend, rateDivisor) ← b.usdToArRate
  let (scheduledRateDividend, scheduledRateDivisor) ← b.scheduledUsdToArRate
  let addr2 := b.rewardAddr.getD []
  let rewardKey2 := b.rewardKey.map Prod.snd
  let info := b.nonceLimiterInfo
  let output ← binaryOf 32 info.output
  let seed ← binaryOf 48 info.seed
  let nextSeed ← binaryOf 48 info.nextSeed
  let rewardHistoryHash ← b.rewardHistoryHash >>= binaryOf 32
  let doubleSigningProof ← encodeDoubleSigningProof b.doubleSigningProof
  let post27 ← signedPost27 b
  return encodeBin b.previousBlock 1 ++ encodeInt b.timestamp 1 ++ encodeBin nonce2 2 ++ encodeInt b.height 1 ++
    encodeInt b.diff 2 ++ encodeInt b.cumulativeDiff 2 ++ encodeInt b.lastRetarget 1 ++ encodeBin b.hash 1 ++
    encodeInt b.blockSize 2 ++ encodeInt b.weaveSize 2 ++ encodeBin addr2 1 ++ encodeBin b.txRoot 1 ++
    encodeBin b.walletList 1 ++ encodeBin b.hashListMerkle 1 ++ encodeInt b.rewardPool 1 ++
    encodeOptionalInt b.packing25Threshold 1 ++ encodeOptionalInt b.strictDataSplitThreshold 1 ++
    encodeInt rateDividend 1 ++ encodeInt rateDivisor 1 ++ encodeInt scheduledRateDividend 1 ++
    encodeInt scheduledRateDivisor 1 ++ encodeBinList b.tags 2 2 ++
    encodeBinList (b.txs.map BlockTx.getTxid) 2 1 ++ encodeInt b.reward 1 ++ encodeOptionalInt b.recallByte 2 ++
    encodeBin b.hashPreimage 1 ++ encodeOptionalInt b.recallByte2 2 ++ encodeOptionalBin rewardKey2 2 ++
    encodeOptionalInt b.partitionNumber 1 ++ output ++ Bytes.ofNat 8 info.globalStepNumber ++ seed ++
    nextSeed ++ Bytes.ofNat 32 info.partitionUpperBound ++ Bytes.ofNat 32 info.nextPartitionUpperBound ++
    encodeBin info.prevOutput 1 ++ Bytes.ofNat 2 info.steps.length ++ info.steps.flatten ++
    Bytes.ofNat 2 info.lastStepCheckpoints.length ++ info.lastStepCheckpoints.flatten ++
    encodeBin b.previousSolutionHash 1 ++ encodeInt b.pricePerGiBMinute 1 ++
    encodeInt b.scheduledPricePerGiBMinute 1 ++ rewardHistoryHash ++ encodeInt b.debtSupply 1 ++
    Bytes.ofNat 3 b.kryderPlusRateMultiplier ++ Bytes.ofNat 1 b.kryderPlusRateMultiplierLatch ++
    Bytes.ofNat 3 b.denomination ++ encodeInt b.redenominationHeight 1 ++ doubleSigningProof ++
    encodeInt b.previousCumulativeDiff 2 ++ post27

def generateSignedHash (H : Digest 32) (b : Block) : Option Bytes := (signedSegment b).map H

/-- The consensus fields of a block that its signed hash commits to. -/
structure SignedFields where
  previousBlock : Bytes
  timestamp : Nat
  nonce : Nonce
  height : Nat
  diff : Nat
  cumulativeDiff : Nat
  lastRetarget : Nat
  hash : Bytes
  blockSize : Nat
  weaveSize : Nat
  rewardAddr : Option Bytes
  txRoot : Bytes
  walletList : Bytes
  hashListMerkle : Bytes
  rewardPool : Nat
  packing25Threshold : Option Nat
  strictDataSplitThreshold : Option Nat
  usdToArRate : Option (Nat × Nat)
  scheduledUsdToArRate : Option (Nat × Nat)
  tags : List Bytes
  txids : List Bytes
  reward : Nat
  recallByte : Option Nat
  hashPreimage : Bytes
  recallByte2 : Option Nat
  rewardKey : Option (SignatureType × Bytes)
  partitionNumber : Option Nat
  nonceLimiterInfo : NonceLimiterInfo
  previousSolutionHash : Bytes
  pricePerGiBMinute : Nat
  scheduledPricePerGiBMinute : Nat
  rewardHistoryHash : Option Bytes
  debtSupply : Nat
  kryderPlusRateMultiplier : Nat
  kryderPlusRateMultiplierLatch : Nat
  denomination : Nat
  redenominationHeight : Nat
  doubleSigningProof : Option Ledger.DoubleSigningProof
  previousCumulativeDiff : Nat
  merkleRebaseSupportThreshold : Option Nat
  dataPath : Bytes
  txPath : Bytes
  dataPath2 : Bytes
  txPath2 : Bytes
  chunkHash : Option Bytes
  chunk2Hash : Option Bytes
  blockTimeHistoryHash : Option Bytes

def Block.signedFields (b : Block) : SignedFields :=
  { b, b.poa with
    txids := b.txs.map BlockTx.getTxid
    dataPath2 := b.poa2.dataPath
    txPath2 := b.poa2.txPath }

/-- The mark and the proof when there is one. -/
def optionalProofPattern : Pattern (Option Ledger.DoubleSigningProof) := do
  let mark ← fixed 1
  if mark.1.toNat = 0 then return none
  else
    let proof ← doubleSigningProofPattern
    return some proof

def optionalBin (b : Bytes) : Option Bytes := if b.length = 0 then none else some b

/-- Reads the fields back from the segment of a block of the last era. -/
def signedPattern : Pattern SignedFields := do
  let previousBlock ← sized 1
  let timestamp ← sized 1
  let nonce ← sized 2
  let height ← sized 1
  let diff ← sized 2
  let cumulativeDiff ← sized 2
  let lastRetarget ← sized 1
  let hash ← sized 1
  let blockSize ← sized 2
  let weaveSize ← sized 2
  let rewardAddr ← sized 1
  let txRoot ← sized 1
  let walletList ← sized 1
  let hashListMerkle ← sized 1
  let rewardPool ← sized 1
  let packing25Threshold ← sized 1
  let strictDataSplitThreshold ← sized 1
  let rateDividend ← sized 1
  let rateDivisor ← sized 1
  let scheduledRateDividend ← sized 1
  let scheduledRateDivisor ← sized 1
  let tags ← listOf 2 (sized 2)
  let txids ← listOf 2 (sized 1)
  let reward ← sized 1
  let recallByte ← sized 2
  let hashPreimage ← sized 1
  let recallByte2 ← sized 2
  let rewardKey ← sized 2
  let partitionNumber ← sized 1
  let output ← fixed 32
  let globalStepNumber ← fixed 8
  let seed ← fixed 48
  let nextSeed ← fixed 48
  let partitionUpperBound ← fixed 32
  let nextPartitionUpperBound ← fixed 32
  let prevOutput ← sized 1
  let steps ← chunked 2 32
  let lastStepCheckpoints ← chunked 2 32
  let previousSolutionHash ← sized 1
  let pricePerGiBMinute ← sized 1
  let scheduledPricePerGiBMinute ← sized 1
  let rewardHistoryHash ← fixed 32
  let debtSupply ← sized 1
  let kryderPlusRateMultiplier ← fixed 3
  let kryderPlusRateMultiplierLatch ← fixed 1
  let denomination ← fixed 3
  let redenominationHeight ← sized 1
  let doubleSigningProof ← optionalProofPattern
  let previousCumulativeDiff ← sized 2
  let merkleRebaseSupportThreshold ← sized 2
  let dataPath ← sized 3
  let txPath ← sized 3
  let dataPath2 ← sized 3
  let txPath2 ← sized 3
  let chunkHash ← fixed 32
  let chunk2Hash ← sized 1
  let blockTimeHistoryHash ← fixed 32
  let vdfDifficulty ← sized 1
  let nextVdfDifficulty ← sized 1
  return {
    previousBlock := previousBlock.1
    timestamp := timestamp.1.toNat
    nonce := .integer nonce.1.toNat
    height := height.1.toNat
    diff := diff.1.toNat
    cumulativeDiff := cumulativeDiff.1.toNat
    lastRetarget := lastRetarget.1.toNat
    hash := hash.1
    blockSize := blockSize.1.toNat
    weaveSize := weaveSize.1.toNat
    rewardAddr := some rewardAddr.1
    txRoot := txRoot.1
    walletList := walletList.1
    hashListMerkle := hashListMerkle.1
    rewardPool := rewardPool.1.toNat
    packing25Threshold := toOptionalInt packing25Threshold.1
    strictDataSplitThreshold := toOptionalInt strictDataSplitThreshold.1
    usdToArRate := some (rateDividend.1.toNat, rateDivisor.1.toNat)
    scheduledUsdToArRate := some (scheduledRateDividend.1.toNat, scheduledRateDivisor.1.toNat)
    tags := (tags.map Subtype.val).reverse
    txids := (txids.map Subtype.val).reverse
    reward := reward.1.toNat
    recallByte := toOptionalInt recallByte.1
    hashPreimage := hashPreimage.1
    recallByte2 := toOptionalInt recallByte2.1
    rewardKey := some (.rsa, rewardKey.1)
    partitionNumber := toOptionalInt partitionNumber.1
    nonceLimiterInfo := {
      output := output.1
      prevOutput := prevOutput.1
      seed := seed.1
      nextSeed := nextSeed.1
      partitionUpperBound := partitionUpperBound.1.toNat
      nextPartitionUpperBound := nextPartitionUpperBound.1.toNat
      globalStepNumber := globalStepNumber.1.toNat
      lastStepCheckpoints := (parse32bList lastStepCheckpoints.1.2).getD []
      steps := (parse32bList steps.1.2).getD []
      vdfDifficulty := vdfDifficulty.1.toNat
      nextVdfDifficulty := nextVdfDifficulty.1.toNat }
    previousSolutionHash := previousSolutionHash.1
    pricePerGiBMinute := pricePerGiBMinute.1.toNat
    scheduledPricePerGiBMinute := scheduledPricePerGiBMinute.1.toNat
    rewardHistoryHash := some rewardHistoryHash.1
    debtSupply := debtSupply.1.toNat
    kryderPlusRateMultiplier := kryderPlusRateMultiplier.1.toNat
    kryderPlusRateMultiplierLatch := kryderPlusRateMultiplierLatch.1.toNat
    denomination := denomination.1.toNat
    redenominationHeight := redenominationHeight.1.toNat
    doubleSigningProof := doubleSigningProof
    previousCumulativeDiff := previousCumulativeDiff.1.toNat
    merkleRebaseSupportThreshold := some merkleRebaseSupportThreshold.1.toNat
    dataPath := dataPath.1
    txPath := txPath.1
    dataPath2 := dataPath2.1
    txPath2 := txPath2.1
    chunkHash := some chunkHash.1
    chunk2Hash := optionalBin chunk2Hash.1
    blockTimeHistoryHash := some blockTimeHistoryHash.1 }

lemma reads_encodeBinList {v : Nat} {bins : List Bytes} (hl : bins.length < 256 ^ 2) (h : BinariesFit v bins) :
    ∃ l : List (Sized v), Reads (listOf 2 (sized v)) (encodeBinList bins 2 v) l ∧
      (l.map Subtype.val).reverse = bins := by
  have hrev : ∀ bin ∈ bins.reverse, bin.length < 256 ^ v := fun bin hbin => h bin (List.mem_reverse.mp hbin)
  refine ⟨bins.reverse.pmap Subtype.mk hrev, ?_, by simp [List.map_pmap]⟩
  have hread : Reads (listOf 2 (sized v)) (Bytes.ofNat 2 (bins.reverse.pmap Subtype.mk hrev).length ++
      (bins.reverse.pmap Subtype.mk hrev).flatMap (fun b => encodeBin b.1 v)) _ :=
    reads_listOf (by simpa using hl) fun x _ => reads_encodeBin x.2
  have henc : (bins.reverse.pmap Subtype.mk hrev).flatMap (fun b => encodeBin b.1 v) =
      bins.reverse.flatMap fun bin => encodeBin bin v := by
    rw [List.flatMap_def, List.flatMap_def, List.map_pmap]
    exact congrArg List.flatten (List.pmap_eq_map (f := fun bin => encodeBin bin v) hrev)
  rwa [henc, List.length_pmap, List.length_reverse, ← encodeBinList_eq] at hread

lemma reads_encodeDoubleSigningProof {proof : Option Ledger.DoubleSigningProof} (h : ∀ p ∈ proof, ProofFits p) :
    ∃ bin, encodeDoubleSigningProof proof = some bin ∧ Reads optionalProofPattern bin proof := by
  cases proof with
  | none => exact ⟨[0], rfl, (reads_fixed ⟨[0], rfl⟩).bind (b := []) (Reads.pure _)⟩
  | some proof =>
    have hfit := h proof rfl
    refine ⟨[1] ++ proofBinary proof, ?_, (reads_fixed ⟨[1], rfl⟩).bind (reads_proofBinary hfit).bind_pure⟩
    simp [encodeDoubleSigningProof, binaryOf_eq proof.length_pub, binaryOf_eq hfit.signature1,
      binaryOf_eq hfit.signature2, binaryOf_eq hfit.preimage1, binaryOf_eq hfit.preimage2, proofBinary]

lemma optionalBin_getD {bin : Option Bytes} (h : ∀ x ∈ bin, 0 < x.length) : optionalBin (bin.getD []) = bin := by
  cases bin with
  | none => rfl
  | some bin => exact if_neg (Nat.pos_iff_ne_zero.mp (h bin rfl))

lemma optionFits_of_lt {n : Nat} (h : n < 256 ^ 32) : OptionFits 1 (some n) := by
  have hlen : (encodeUnsigned n).length ≤ max 1 32 := by
    have hn := length_encodeUnsigned_toNat (Bytes.ofNat 32 n)
    rwa [Bytes.toNat_ofNat_of_lt h, Bytes.length_ofNat] at hn
  exact lt_of_le_of_lt hlen (by decide)

variable {b : Block}

/-- The segment of an accepted block, with the fields that are optional in the record given. -/
theorem reads_signedSegment (h : b.Accepted27) (hheight : Fork.height_2_7 ≤ b.height) {segment : Bytes}
    (hsegment : signedSegment b = some segment) : Reads signedPattern segment b.signedFields := by
  obtain ⟨nonce, hnonce, hnonceFits⟩ := h.nonce
  obtain ⟨pub, hkey, hpub⟩ := h.fits26.rewardKey
  obtain ⟨n, hpartition, hn⟩ := h.fits26.partitionNumber
  obtain ⟨hash, hhistory, hhash⟩ := h.fits26.rewardHistoryHash
  obtain ⟨threshold, hthreshold, hthresholdFits⟩ := h.fits27.merkleRebaseSupportThreshold
  obtain ⟨chunkHash, hchunkHash, hchunkLen⟩ := h.fits27.chunkHash
  obtain ⟨timeHash, htimeHash, htimeLen⟩ := h.fits27.blockTimeHistoryHash
  obtain ⟨addr, haddr⟩ := Option.ne_none_iff_exists'.mp h.rewardAddr
  obtain ⟨proof, hproof, hreadProof⟩ := reads_encodeDoubleSigningProof h.fits26.doubleSigningProof
  obtain ⟨tags, hreadTags, htags⟩ := reads_encodeBinList h.tags.1 h.tags.2
  have hids : BinariesFit 1 (b.txs.map BlockTx.getTxid) := by
    intro bin hbin
    obtain ⟨tx, htx, rfl⟩ := List.mem_map.mp hbin
    rw [h.txs.2 tx htx]
    decide
  obtain ⟨txids, hreadTxids, htxids⟩ := reads_encodeBinList (by simpa using h.txs.1) hids
  have hinfo := h.fits26.nonceLimiterInfo
  cases hrate : b.usdToArRate with
  | none =>
    rw [signedSegment, hnonce, hrate] at hsegment
    cases hsegment
  | some rate =>
  cases hscheduled : b.scheduledUsdToArRate with
  | none =>
    rw [signedSegment, hnonce, hrate, hscheduled] at hsegment
    cases hsegment
  | some scheduled =>
  have hrateFits := h.header.usdToArRate rate hrate
  have hscheduledFits := h.header.scheduledUsdToArRate scheduled hscheduled
  obtain ⟨enc, fields, hread, henc, hfields⟩ : ∃ enc fields, Reads signedPattern enc fields ∧
      signedSegment b = some enc ∧ fields = b.signedFields := by
    refine ⟨_, _, (reads_encodeBin (h.header.binaries1 b.previousBlock (by simp))).bind <|
      (reads_encodeInt (h.header.numbers1 b.timestamp (by simp))).bind <|
      (reads_encodeBin (hnonceFits nonce (by simp))).bind <|
      (reads_encodeInt (h.header.numbers1 b.height (by simp))).bind <|
      (reads_encodeInt (h.header.numbers2 b.diff (by simp))).bind <|
      (reads_encodeInt (h.header.numbers2 b.cumulativeDiff (by simp))).bind <|
      (reads_encodeInt (h.header.numbers1 b.lastRetarget (by simp))).bind <|
      (reads_encodeBin (h.header.binaries1 b.hash (by simp))).bind <|
      (reads_encodeInt (h.header.numbers2 b.blockSize (by simp))).bind <|
      (reads_encodeInt (h.header.numbers2 b.weaveSize (by simp))).bind <|
      (reads_encodeBin (h.header.binaries1 (b.rewardAddr.getD []) (by simp))).bind <|
      (reads_encodeBin (h.header.binaries1 b.txRoot (by simp))).bind <|
      (reads_encodeBin (h.header.binaries1 b.walletList (by simp))).bind <|
      (reads_encodeBin (h.header.binaries1 b.hashListMerkle (by simp))).bind <|
      (reads_encodeInt (h.header.numbers1 b.rewardPool (by simp))).bind <|
      (reads_encodeOptionalInt h.header.packing25Threshold).bind <|
      (reads_encodeOptionalInt h.header.strictDataSplitThreshold).bind <|
      (reads_encodeInt (hrateFits rate.1 (by simp))).bind <|
      (reads_encodeInt (hrateFits rate.2 (by simp))).bind <|
      (reads_encodeInt (hscheduledFits scheduled.1 (by simp))).bind <|
      (reads_encodeInt (hscheduledFits scheduled.2 (by simp))).bind <|
      hreadTags.bind <| hreadTxids.bind <|
      (reads_encodeInt (h.fits26.numbers1 b.reward (by simp))).bind <|
      (reads_encodeOptionalInt h.fits26.recallByte).bind <|
      (reads_encodeBin (h.fits26.binaries1 b.hashPreimage (by simp))).bind <|
      (reads_encodeOptionalInt h.fits26.recallByte2).bind <| (reads_encodeBin hpub).bind <|
      (reads_encodeOptionalInt (optionFits_of_lt hn)).bind <| (reads_fixed ⟨_, hinfo.output⟩).bind <|
      (reads_ofNat (n := b.nonceLimiterInfo.globalStepNumber)).bind <| (reads_fixed ⟨_, hinfo.seed⟩).bind <| (reads_fixed ⟨_, hinfo.nextSeed⟩).bind <|
      (reads_ofNat (n := b.nonceLimiterInfo.partitionUpperBound)).bind <|
      (reads_ofNat (n := b.nonceLimiterInfo.nextPartitionUpperBound)).bind <|
      (reads_encodeBin hinfo.prevOutput).bind <|
      (reads_chunked hinfo.steps.1 hinfo.steps.2).bind <|
      (reads_chunked hinfo.lastStepCheckpoints.1 hinfo.lastStepCheckpoints.2).bind <|
      (reads_encodeBin (h.fits26.binaries1 b.previousSolutionHash (by simp))).bind <|
      (reads_encodeInt (h.fits26.numbers1 b.pricePerGiBMinute (by simp))).bind <|
      (reads_encodeInt (h.fits26.numbers1 b.scheduledPricePerGiBMinute (by simp))).bind <|
      (reads_fixed ⟨hash, hhash⟩).bind <| (reads_encodeInt (h.fits26.numbers1 b.debtSupply (by simp))).bind <|
      (reads_ofNat (n := b.kryderPlusRateMultiplier)).bind <|
      (reads_ofNat (n := b.kryderPlusRateMultiplierLatch)).bind <| (reads_ofNat (n := b.denomination)).bind <|
      (reads_encodeInt (h.fits26.numbers1 b.redenominationHeight (by simp))).bind <| hreadProof.bind <|
      (reads_encodeInt (h.fits26.previousCumulativeDiff b.previousCumulativeDiff (by simp))).bind <|
      (reads_encodeInt (hthresholdFits threshold (by simp))).bind <|
      (reads_encodeBin (h.header.binaries3 b.poa.dataPath (by simp))).bind <|
      (reads_encodeBin (h.header.binaries3 b.poa.txPath (by simp))).bind <|
      (reads_encodeBin (h.fits26.binaries3 b.poa2.dataPath (by simp))).bind <|
      (reads_encodeBin (h.fits26.binaries3 b.poa2.txPath (by simp))).bind <|
      (reads_fixed ⟨chunkHash, hchunkLen⟩).bind <|
      (reads_encodeOptionalBin fun x hx => (h.fits27.chunk2Hash x hx).2).bind <|
      (reads_fixed ⟨timeHash, htimeLen⟩).bind <|
      (reads_encodeInt (h.fits27.vdfDifficulties b.nonceLimiterInfo.vdfDifficulty (by simp))).bind <|
      (reads_encodeInt (h.fits27.vdfDifficulties b.nonceLimiterInfo.nextVdfDifficulty (by simp))).bind_pure,
      ?_, ?_⟩
    · simp only [signedSegment, signedPost27, hnonce, hrate, hscheduled, hkey, hpartition, hhistory, hproof,
        hthreshold, hchunkHash, htimeHash, if_pos hheight, binaryOf_eq hinfo.output, binaryOf_eq hinfo.seed,
        binaryOf_eq hinfo.nextSeed, binaryOf_eq hhash, binaryOf_eq hchunkLen, binaryOf_eq htimeLen,
        Option.map_some, encodeOptionalInt, encodeOptionalBin, Option.bind_eq_bind, Option.bind_some,
        Option.pure_def, List.append_assoc]
    · simp only [Block.signedFields, toNat_encodeUnsigned, toOptionalInt_optionalBytes, hnonce, hkey, hpartition,
        hhistory, hthreshold, hchunkHash, htimeHash, haddr, hrate, hscheduled, htags, htxids, Option.getD_some,
        parse32bList_flatten hinfo.steps, parse32bList_flatten hinfo.lastStepCheckpoints,
        optionalBin_getD fun x hx => (h.fits27.chunk2Hash x hx).1, Bytes.toNat_ofNat_of_lt hinfo.globalStepNumber,
        Bytes.toNat_ofNat_of_lt hinfo.partitionUpperBound, Bytes.toNat_ofNat_of_lt hinfo.nextPartitionUpperBound,
        Bytes.toNat_ofNat_of_lt h.fits26.kryderPlusRateMultiplier,
        Bytes.toNat_ofNat_of_lt h.fits26.kryderPlusRateMultiplierLatch,
        Bytes.toNat_ofNat_of_lt h.fits26.denomination]
  rw [henc] at hsegment
  rw [← Option.some.inj hsegment, ← hfields]
  exact hread

/-- Two parsed blocks of the last era with the same signed hash agree in every field that the
hash covers, unless their segments collide. -/
theorem generateSignedHash_binds (H : Digest 32) {bin bin' hash : Bytes} {b b' : Block}
    (hb : binaryToBlock bin = some (.ok b)) (hb' : binaryToBlock bin' = some (.ok b'))
    (hheight : Fork.height_2_7 ≤ b.height) (hheight' : Fork.height_2_7 ≤ b'.height)
    (hcollision : H.CollisionFree ((signedSegment b).toList ++ (signedSegment b').toList))
    (hhash : generateSignedHash H b = some hash) (hhash' : generateSignedHash H b' = some hash) :
    b.signedFields = b'.signedFields := by
  obtain ⟨segment, hsegment, heq⟩ := Option.map_eq_some_iff.mp hhash
  obtain ⟨segment', hsegment', heq'⟩ := Option.map_eq_some_iff.mp hhash'
  have hsame : segment = segment' :=
    hcollision segment (by simp [hsegment]) segment' (by simp [hsegment']) (heq.trans heq'.symm)
  have hread := reads_signedSegment (accepted27_of_binaryToBlock hb hheight) hheight hsegment
  rw [hsame] at hread
  exact hread.injective (reads_signedSegment (accepted27_of_binaryToBlock hb' hheight') hheight' hsegment')

/-- The sample block as it is read, with another rate and another identifier. -/
def sampleSigned (indepHash : Bytes) : Block :=
  { sampleBlock.normalise with scheduledUsdToArRate := some (1, 12), indepHash := indepHash }

/-- The identifier is not part of what is signed. -/
theorem generateSignedHash_binds_sample :
    (sampleSigned (List.replicate 48 1)).signedFields = (sampleSigned (List.replicate 48 2)).signedFields := by
  have hsegment : signedSegment (sampleSigned (List.replicate 48 1)) =
      some ((signedSegment (sampleSigned (List.replicate 48 1))).getD []) := by decide +kernel
  have hsame : signedSegment (sampleSigned (List.replicate 48 2)) =
      signedSegment (sampleSigned (List.replicate 48 1)) := rfl
  have hparse (id : Bytes) (h : binaryToBlock ((blockToBinary (sampleSigned id)).getD []) =
      some (.ok (sampleSigned id))) := h
  have hhash : generateSignedHash Sha2.sha256 (sampleSigned (List.replicate 48 1)) =
      some (Sha2.sha256 ((signedSegment (sampleSigned (List.replicate 48 1))).getD [])) := by
    rw [generateSignedHash, hsegment]
    rfl
  have hhash' := hhash
  rw [generateSignedHash, ← hsame] at hhash'
  refine generateSignedHash_binds Sha2.sha256 (hparse (List.replicate 48 1) (by decide +kernel))
    (hparse (List.replicate 48 2) (by decide +kernel)) (by decide) (by decide) ?_ hhash hhash'
  rw [hsame, hsegment]
  intro x hx y hy _
  simp only [Option.toList_some, List.cons_append, List.nil_append, List.mem_cons, List.not_mem_nil,
    or_false, or_self] at hx hy
  rw [hx, hy]

end Arweave.Serialize

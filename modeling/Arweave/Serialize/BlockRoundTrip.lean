import Arweave.Serialize.Block

/-!
# Blocks are read back

A block that is well formed for its height and within the limits of the parser is read back
from its binary. The option of the second proof of access is not sent.
-/

namespace Arweave.Serialize
open Arweave.Lib Arweave.Lib.Codec Arweave.Tx Arweave.Wallet

/-- The numbers have size fields of `w` bytes. -/
def NumbersFit (w : Nat) (l : List Nat) : Prop := ∀ n ∈ l, (encodeUnsigned n).length < 256 ^ w

/-- The binaries have size fields of `w` bytes. -/
def BinariesFit (w : Nat) (l : List Bytes) : Prop := ∀ bin ∈ l, bin.length < 256 ^ w

instance (w : Nat) (l : List Nat) : Decidable (NumbersFit w l) :=
  inferInstanceAs (Decidable (∀ n ∈ l, (encodeUnsigned n).length < 256 ^ w))

instance (w : Nat) (l : List Bytes) : Decidable (BinariesFit w l) :=
  inferInstanceAs (Decidable (∀ bin ∈ l, bin.length < 256 ^ w))

/-- The fields before the tags fit their places. -/
structure Block.HeaderFits (b : Block) : Prop where
  indepHash : b.indepHash.length = 48
  numbers1 : NumbersFit 1 [b.timestamp, b.height, b.lastRetarget, b.rewardPool, b.poa.option]
  numbers2 : NumbersFit 2 [b.diff, b.cumulativeDiff, b.blockSize, b.weaveSize]
  binaries1 : BinariesFit 1 [b.previousBlock, b.hash, b.rewardAddr.getD [], b.txRoot, b.walletList,
    b.hashListMerkle]
  binaries3 : BinariesFit 3 [b.poa.chunk, b.poa.txPath, b.poa.dataPath]
  packing25Threshold : OptionFits 1 b.packing25Threshold
  strictDataSplitThreshold : OptionFits 1 b.strictDataSplitThreshold
  usdToArRate : ∀ rate ∈ b.usdToArRate, NumbersFit 1 [rate.1, rate.2]
  scheduledUsdToArRate : ∀ rate ∈ b.scheduledUsdToArRate, NumbersFit 1 [rate.1, rate.2]

structure ProofFits (proof : Ledger.DoubleSigningProof) : Prop where
  signature1 : proof.signature1.length = 512
  signature2 : proof.signature2.length = 512
  preimage1 : proof.preimage1.length = 64
  preimage2 : proof.preimage2.length = 64
  cdiffs : NumbersFit 2 [proof.cdiff1, proof.prevCdiff1, proof.cdiff2, proof.prevCdiff2]

structure NonceLimiterInfo.Fits (info : NonceLimiterInfo) : Prop where
  output : info.output.length = 32
  globalStepNumber : info.globalStepNumber < 256 ^ 8
  seed : info.seed.length = 48
  nextSeed : info.nextSeed.length = 48
  prevOutput : info.prevOutput.length < 256 ^ 1
  partitionUpperBound : info.partitionUpperBound < 256 ^ 32
  nextPartitionUpperBound : info.nextPartitionUpperBound < 256 ^ 32
  lastStepCheckpoints : OutputsFit info.lastStepCheckpoints
  steps : OutputsFit info.steps

/-- The fields of the fork 2.6 are there and fit their places. -/
structure Block.Fits26 (b : Block) : Prop where
  numbers1 : NumbersFit 1 [b.reward, b.pricePerGiBMinute, b.scheduledPricePerGiBMinute, b.debtSupply,
    b.redenominationHeight]
  previousCumulativeDiff : NumbersFit 2 [b.previousCumulativeDiff]
  recallByte : OptionFits 2 b.recallByte
  recallByte2 : OptionFits 2 b.recallByte2
  binaries1 : BinariesFit 1 [b.hashPreimage, b.previousSolutionHash]
  signature : b.signature.length < 256 ^ 2
  binaries3 : BinariesFit 3 [b.poa2.chunk, b.poa2.txPath, b.poa2.dataPath]
  rewardKey : ∃ pub, b.rewardKey = some (.rsa, pub) ∧ pub.length < 256 ^ 2
  partitionNumber : ∃ n, b.partitionNumber = some n ∧ n < 256 ^ 32
  rewardHistoryHash : ∃ hash, b.rewardHistoryHash = some hash ∧ hash.length = 32
  nonceLimiterInfo : b.nonceLimiterInfo.Fits
  kryderPlusRateMultiplier : b.kryderPlusRateMultiplier < 256 ^ 3
  kryderPlusRateMultiplierLatch : b.kryderPlusRateMultiplierLatch < 256 ^ 1
  denomination : b.denomination < 256 ^ 3
  doubleSigningProof : ∀ proof ∈ b.doubleSigningProof, ProofFits proof

/-- The fields of the fork 2.7 are there and fit their places. -/
structure Block.Fits27 (b : Block) : Prop where
  merkleRebaseSupportThreshold : ∃ n, b.merkleRebaseSupportThreshold = some n ∧ NumbersFit 2 [n]
  chunkHash : ∃ hash, b.chunkHash = some hash ∧ hash.length = 32
  chunk2Hash : ∀ hash ∈ b.chunk2Hash, 0 < hash.length ∧ hash.length < 256 ^ 1
  blockTimeHistoryHash : ∃ hash, b.blockTimeHistoryHash = some hash ∧ hash.length = 32
  vdfDifficulties : NumbersFit 1 [b.nonceLimiterInfo.vdfDifficulty, b.nonceLimiterInfo.nextVdfDifficulty]

/-- The block with the defaults of the fields of the fork 2.7. -/
def Block.resetPost27 (b : Block) : Block :=
  { b with
    merkleRebaseSupportThreshold := none
    chunkHash := none
    chunk2Hash := none
    blockTimeHistoryHash := none
    nonceLimiterInfo := {
      b.nonceLimiterInfo with vdfDifficulty := initialVdfDifficulty, nextVdfDifficulty := initialVdfDifficulty } }

/-- The block with the defaults of the fields of both forks. -/
def Block.resetPost26 (b : Block) : Block :=
  { b.resetPost27 with
    hashPreimage := [], recallByte := none, reward := 0, previousSolutionHash := [], partitionNumber := none
    nonceLimiterInfo := {}, poa2 := {}, recallByte2 := none, signature := [], rewardKey := none
    pricePerGiBMinute := 0, scheduledPricePerGiBMinute := 0, rewardHistoryHash := none, debtSupply := 0
    kryderPlusRateMultiplier := 1, kryderPlusRateMultiplierLatch := 0, denomination := 1
    redenominationHeight := 0, doubleSigningProof := none, previousCumulativeDiff := 0 }

/-- A block that is well formed for the era of its height. -/
structure Block.WellFormed (b : Block) : Prop where
  header : b.HeaderFits
  nonce : ∃ bin, encodeNonce b = some bin ∧ bin.length < 256 ^ 2
  rewardAddr : if b.height < Fork.height_2_6 then b.rewardAddr ≠ some [] else b.rewardAddr ≠ none
  tags : b.tags.length < 256 ^ 2 ∧ BinariesFit 2 b.tags
  txs : b.txs.length < 256 ^ 2 ∧ ∀ tx ∈ b.txs, tx.Encodable
  before26 : b.height < Fork.height_2_6 → b.resetPost26 = b
  before27 : b.height < Fork.height_2_7 → b.resetPost27 = b
  after26 : Fork.height_2_6 ≤ b.height → b.Fits26
  checkpoints : Fork.height_2_6 ≤ b.height →
    b.nonceLimiterInfo.lastStepCheckpoints ≠ [] ∧ b.nonceLimiterInfo.steps ≠ []
  after27 : Fork.height_2_7 ≤ b.height → b.Fits27

/-- The limits that the parser checks on top of the sizes of the fields. -/
structure Block.WithinLimits (b : Block) : Prop where
  nonce : ∀ bin ∈ encodeNonce b, bin.length ≤ 512
  tags : b.tags.length ≤ 2048 ∧ b.tags.flatten.length ≤ 2048
  txs : b.txs.length ≤ 1000

/-- What is left of a block that is sent. -/
def Block.normalise (b : Block) : Block := { b with poa2 := { b.poa2 with option := 1 } }

section Header

lemma optionFits_map_rate {rate : Option (Nat × Nat)} (h : ∀ r ∈ rate, NumbersFit 1 [r.1, r.2]) :
    OptionFits 1 (rate.map Prod.fst) ∧ OptionFits 1 (rate.map Prod.snd) := by
  cases rate with
  | none => exact ⟨by decide, by decide⟩
  | some r => exact ⟨h r rfl _ (by simp), h r rfl _ (by simp)⟩

variable {b : Block}

/-- The fields as the pattern returns them. -/
def Block.HeaderFits.fields (h : b.HeaderFits) (nonce : Sized 2) : BlockFields where
  indepHash := ⟨b.indepHash, h.indepHash⟩
  previousBlock := ⟨b.previousBlock, h.binaries1 _ (by simp)⟩
  timestamp := ⟨encodeUnsigned b.timestamp, h.numbers1 _ (by simp)⟩
  nonce := nonce
  height := ⟨encodeUnsigned b.height, h.numbers1 _ (by simp)⟩
  diff := ⟨encodeUnsigned b.diff, h.numbers2 _ (by simp)⟩
  cumulativeDiff := ⟨encodeUnsigned b.cumulativeDiff, h.numbers2 _ (by simp)⟩
  lastRetarget := ⟨encodeUnsigned b.lastRetarget, h.numbers1 _ (by simp)⟩
  hash := ⟨b.hash, h.binaries1 _ (by simp)⟩
  blockSize := ⟨encodeUnsigned b.blockSize, h.numbers2 _ (by simp)⟩
  weaveSize := ⟨encodeUnsigned b.weaveSize, h.numbers2 _ (by simp)⟩
  rewardAddr := ⟨b.rewardAddr.getD [], h.binaries1 _ (by simp)⟩
  txRoot := ⟨b.txRoot, h.binaries1 _ (by simp)⟩
  walletList := ⟨b.walletList, h.binaries1 _ (by simp)⟩
  hashListMerkle := ⟨b.hashListMerkle, h.binaries1 _ (by simp)⟩
  rewardPool := ⟨encodeUnsigned b.rewardPool, h.numbers1 _ (by simp)⟩
  packing25Threshold := ⟨optionalBytes b.packing25Threshold, h.packing25Threshold⟩
  strictDataSplitThreshold := ⟨optionalBytes b.strictDataSplitThreshold, h.strictDataSplitThreshold⟩
  rateDividend := ⟨optionalBytes (b.usdToArRate.map Prod.fst), (optionFits_map_rate h.usdToArRate).1⟩
  rateDivisor := ⟨optionalBytes (b.usdToArRate.map Prod.snd), (optionFits_map_rate h.usdToArRate).2⟩
  scheduledRateDividend :=
    ⟨optionalBytes (b.scheduledUsdToArRate.map Prod.fst), (optionFits_map_rate h.scheduledUsdToArRate).1⟩
  scheduledRateDivisor :=
    ⟨optionalBytes (b.scheduledUsdToArRate.map Prod.snd), (optionFits_map_rate h.scheduledUsdToArRate).2⟩
  poaOption := ⟨encodeUnsigned b.poa.option, h.numbers1 _ (by simp)⟩
  chunk := ⟨b.poa.chunk, h.binaries3 _ (by simp)⟩
  txPath := ⟨b.poa.txPath, h.binaries3 _ (by simp)⟩
  dataPath := ⟨b.poa.dataPath, h.binaries3 _ (by simp)⟩

/-- What `block_to_binary` writes before the tags. -/
def headerBinary (b : Block) (nonce : Bytes) : Bytes :=
  b.indepHash ++ (encodeBin b.previousBlock 1 ++ (encodeInt b.timestamp 1 ++ (encodeBin nonce 2 ++
    (encodeInt b.height 1 ++ (encodeInt b.diff 2 ++ (encodeInt b.cumulativeDiff 2 ++
    (encodeInt b.lastRetarget 1 ++ (encodeBin b.hash 1 ++ (encodeInt b.blockSize 2 ++
    (encodeInt b.weaveSize 2 ++ (encodeBin (b.rewardAddr.getD []) 1 ++ (encodeBin b.txRoot 1 ++
    (encodeBin b.walletList 1 ++ (encodeBin b.hashListMerkle 1 ++ (encodeInt b.rewardPool 1 ++
    (encodeOptionalInt b.packing25Threshold 1 ++ (encodeOptionalInt b.strictDataSplitThreshold 1 ++
    (encodeOptionalInt (b.usdToArRate.map Prod.fst) 1 ++ (encodeOptionalInt (b.usdToArRate.map Prod.snd) 1 ++
    (encodeOptionalInt (b.scheduledUsdToArRate.map Prod.fst) 1 ++
    (encodeOptionalInt (b.scheduledUsdToArRate.map Prod.snd) 1 ++ (encodeInt b.poa.option 1 ++
    (encodeBin b.poa.chunk 3 ++ (encodeBin b.poa.txPath 3 ++ encodeBin b.poa.dataPath 3))))))))))))))))))))))))

lemma reads_headerBinary (h : b.HeaderFits) (nonce : Sized 2) :
    Reads blockFields (headerBinary b nonce.1) (h.fields nonce) :=
  (reads_fixed ⟨b.indepHash, h.indepHash⟩).bind <| (reads_encodeBin _).bind <| (reads_encodeInt _).bind <|
  (reads_encodeBin nonce.2).bind <| (reads_encodeInt _).bind <| (reads_encodeInt _).bind <|
  (reads_encodeInt _).bind <| (reads_encodeInt _).bind <| (reads_encodeBin _).bind <|
  (reads_encodeInt _).bind <| (reads_encodeInt _).bind <| (reads_encodeBin _).bind <|
  (reads_encodeBin _).bind <| (reads_encodeBin _).bind <| (reads_encodeBin _).bind <|
  (reads_encodeInt _).bind <| (reads_encodeOptionalInt _).bind <| (reads_encodeOptionalInt _).bind <|
  (reads_encodeOptionalInt _).bind <| (reads_encodeOptionalInt _).bind <|
  (reads_encodeOptionalInt _).bind <| (reads_encodeOptionalInt _).bind <| (reads_encodeInt _).bind <|
  (reads_encodeBin _).bind <| (reads_encodeBin _).bind <| (reads_encodeBin _).bind_pure

lemma toRate_optionalBytes (rate : Option (Nat × Nat)) :
    toRate (optionalBytes (rate.map Prod.fst)) (optionalBytes (rate.map Prod.snd)) = rate := by
  cases rate with
  | none => rfl
  | some rate =>
    have hpos := length_encodeUnsigned_pos rate.2
    change (if (encodeUnsigned rate.2).length = 0 then none
      else some ((encodeUnsigned rate.1).toNat, (encodeUnsigned rate.2).toNat)) = some rate
    rw [if_neg (by omega), toNat_encodeUnsigned, toNat_encodeUnsigned]

/-- The block with the fields before the tags only. -/
def Block.header (b : Block) (nonce : Bytes) : Block :=
  { b.resetPost26 with nonce := .binary nonce, tags := [], txs := [] }

lemma toBlock_fields (h : b.HeaderFits) (nonce : Sized 2)
    (haddr : if b.height < Fork.height_2_6 then b.rewardAddr ≠ some [] else b.rewardAddr ≠ none) :
    (h.fields nonce).toBlock = b.header nonce.1 := by
  have hrewardAddr : (if (b.rewardAddr.getD []).length = 0 ∧ b.height < Fork.height_2_6 then none
      else some (b.rewardAddr.getD [])) = b.rewardAddr := by
    cases hb : b.rewardAddr with
    | none =>
      rw [hb] at haddr
      split_ifs at haddr with hlt
      · exact if_pos ⟨rfl, hlt⟩
      · exact absurd rfl haddr
    | some addr =>
      rw [hb] at haddr
      refine if_neg fun hcond => ?_
      rw [if_pos hcond.2] at haddr
      exact haddr (congrArg some (List.eq_nil_of_length_eq_zero hcond.1))
  simp only [BlockFields.toBlock, Block.HeaderFits.fields, toNat_encodeUnsigned, toOptionalInt_optionalBytes,
    toRate_optionalBytes, hrewardAddr]
  rfl

end Header

lemma encodeBinListFrom_eq (w v : Nat) (bins : List Bytes) (encoded : Bytes) (n : Nat) :
    encodeBinListFrom w v bins encoded n = Bytes.ofNat w (n + bins.length) ++
      bins.reverse.flatMap (fun bin => encodeBin bin v) ++ encoded := by
  induction bins generalizing encoded n with
  | nil => simp [encodeBinListFrom]
  | cons bin bins ih =>
    rw [encodeBinListFrom, ih, List.length_cons, List.reverse_cons, List.flatMap_append]
    simp [Nat.add_comm, Nat.add_left_comm]

lemma encodeBinList_eq (bins : List Bytes) (w v : Nat) :
    encodeBinList bins w v =
      Bytes.ofNat w bins.length ++ bins.reverse.flatMap (fun bin => encodeBin bin v) := by
  rw [encodeBinList, encodeBinListFrom_eq, Nat.zero_add, List.append_nil]

lemma parseBlockTagsFrom_eq {l : List Bytes} {totalSize : Nat} (h : totalSize + l.flatten.length ≤ 2048)
    (rest : Bytes) (tags : List Bytes) :
    parseBlockTagsFrom l.length (l.flatMap (fun bin => encodeBin bin 2) ++ rest) tags totalSize =
      .ok (l.reverse ++ tags, rest) := by
  induction l generalizing tags totalSize with
  | nil => rfl
  | cons tag l ih =>
    rw [List.flatten_cons, List.length_append] at h
    have htag : tag.length < 256 ^ 2 := by omega
    rw [List.length_cons, List.flatMap_cons, List.append_assoc, parseBlockTagsFrom, reads_encodeBin htag]
    simp only
    rw [if_pos (by omega), ih (by omega)]
    simp

lemma parseBlockTags_encodeBinList {tags : List Bytes} (hcount : tags.length ≤ 2048)
    (hsize : tags.flatten.length ≤ 2048) (rest : Bytes) :
    parseBlockTags (encodeBinList tags 2 2 ++ rest) = .ok (tags, rest) := by
  have hlen : (Bytes.ofNat 2 tags.length).toNat = tags.length := Bytes.toNat_ofNat_of_lt (by omega)
  have hsum : tags.reverse.flatten.length = tags.flatten.length := by
    simp [List.length_flatten, List.sum_reverse]
  rw [encodeBinList_eq, List.append_assoc, parseBlockTags, reads_ofNat]
  simp only [hlen, if_pos hcount]
  rw [← List.length_reverse, parseBlockTagsFrom_eq (by omega)]
  simp

section Proof

variable {proof : Ledger.DoubleSigningProof}

/-- What follows the mark of a proof. -/
def proofBinary (proof : Ledger.DoubleSigningProof) : Bytes :=
  proof.pub ++ (proof.signature1 ++ (encodeInt proof.cdiff1 2 ++ (encodeInt proof.prevCdiff1 2 ++
    (proof.preimage1 ++ (proof.signature2 ++ (encodeInt proof.cdiff2 2 ++ (encodeInt proof.prevCdiff2 2 ++
    proof.preimage2)))))))

lemma reads_proofBinary (h : ProofFits proof) : Reads doubleSigningProofPattern (proofBinary proof) proof := by
  have hread : Reads doubleSigningProofPattern (proofBinary proof) {
      proof with
      cdiff1 := (encodeUnsigned proof.cdiff1).toNat, prevCdiff1 := (encodeUnsigned proof.prevCdiff1).toNat
      cdiff2 := (encodeUnsigned proof.cdiff2).toNat, prevCdiff2 := (encodeUnsigned proof.prevCdiff2).toNat } :=
    (reads_fixed ⟨proof.pub, proof.length_pub⟩).bind <|
    (reads_fixed ⟨proof.signature1, h.signature1⟩).bind <|
    (reads_encodeInt (h.cdiffs proof.cdiff1 (by simp))).bind <|
    (reads_encodeInt (h.cdiffs proof.prevCdiff1 (by simp))).bind <|
    (reads_fixed ⟨proof.preimage1, h.preimage1⟩).bind <|
    (reads_fixed ⟨proof.signature2, h.signature2⟩).bind <|
    (reads_encodeInt (h.cdiffs proof.cdiff2 (by simp))).bind <|
    (reads_encodeInt (h.cdiffs proof.prevCdiff2 (by simp))).bind <|
    (reads_fixed ⟨proof.preimage2, h.preimage2⟩).bind_pure
  simpa only [toNat_encodeUnsigned] using hread

lemma parseDoubleSigningProof_encodeDoubleSigningProof {proof : Option Ledger.DoubleSigningProof}
    (h : ∀ p ∈ proof, ProofFits p) {b : Block} (hb : b.doubleSigningProof = none) :
    ∃ bin, encodeDoubleSigningProof proof = some bin ∧ ∀ rest,
      parseDoubleSigningProof (bin ++ rest) b = parsePost27Fields rest { b with doubleSigningProof := proof } := by
  cases proof with
  | none =>
    refine ⟨[0], rfl, fun rest => ?_⟩
    have hsame : { b with doubleSigningProof := none } = b := by
      cases b
      rw [← hb]
    rw [hsame]
    rfl
  | some proof =>
    have hfit := h proof rfl
    refine ⟨1 :: proofBinary proof, ?_, fun rest => ?_⟩
    · simp [encodeDoubleSigningProof, binaryOf_eq proof.length_pub, binaryOf_eq hfit.signature1,
        binaryOf_eq hfit.signature2, binaryOf_eq hfit.preimage1, binaryOf_eq hfit.preimage2, proofBinary]
    · rw [List.cons_append, parseDoubleSigningProof, if_neg (by decide), if_pos rfl, reads_proofBinary hfit]

end Proof

section Post27

variable {b : Block}

lemma reads_encodeOptionalBin {bin : Option Bytes} (h : ∀ x ∈ bin, x.length < 256 ^ 1) :
    Reads (sized 1) (encodeOptionalBin bin 1) ⟨bin.getD [], by
      cases bin with
      | none => decide
      | some bin => exact h bin rfl⟩ := by
  cases bin with
  | none => exact reads_sized ⟨[], by decide⟩
  | some bin => exact reads_encodeBin (h bin rfl)

/-- The fields of the fork 2.7 are taken from the other block. -/
def Block.copyPost27 (c b : Block) : Block :=
  { c with
    merkleRebaseSupportThreshold := b.merkleRebaseSupportThreshold
    chunkHash := b.chunkHash
    chunk2Hash := b.chunk2Hash
    blockTimeHistoryHash := b.blockTimeHistoryHash
    nonceLimiterInfo := {
      c.nonceLimiterInfo with
      vdfDifficulty := b.nonceLimiterInfo.vdfDifficulty
      nextVdfDifficulty := b.nonceLimiterInfo.nextVdfDifficulty } }

lemma parsePost27Fields_encodePost27Fields (h : b.Fits27) (hheight : Fork.height_2_7 ≤ b.height) :
    ∃ bin, encodePost27Fields b = some bin ∧
      ∀ c : Block, c.height = b.height → parsePost27Fields bin c = .ok (c.copyPost27 b) := by
  obtain ⟨threshold, hthreshold, hfit⟩ := h.merkleRebaseSupportThreshold
  obtain ⟨chunkHash, hchunkHash, hchunkLen⟩ := h.chunkHash
  obtain ⟨timeHash, htimeHash, htimeLen⟩ := h.blockTimeHistoryHash
  have hread : Reads post27Fields (encodeInt threshold 2 ++ (chunkHash ++ (encodeOptionalBin b.chunk2Hash 1 ++
      (timeHash ++ (encodeInt b.nonceLimiterInfo.vdfDifficulty 1 ++
      encodeInt b.nonceLimiterInfo.nextVdfDifficulty 1))))) _ :=
    (reads_encodeInt (hfit threshold (by simp))).bind <| (reads_fixed ⟨chunkHash, hchunkLen⟩).bind <|
    (reads_encodeOptionalBin fun x hx => (h.chunk2Hash x hx).2).bind <| (reads_fixed ⟨timeHash, htimeLen⟩).bind <|
    (reads_encodeInt (h.vdfDifficulties _ (by simp))).bind <|
    (reads_encodeInt (h.vdfDifficulties _ (by simp))).bind_pure
  have henc : encodePost27Fields b = some (encodeInt threshold 2 ++ (chunkHash ++
      (encodeOptionalBin b.chunk2Hash 1 ++ (timeHash ++ (encodeInt b.nonceLimiterInfo.vdfDifficulty 1 ++
      encodeInt b.nonceLimiterInfo.nextVdfDifficulty 1))))) := by
    simp [encodePost27Fields, hheight, hthreshold, hchunkHash, htimeHash, binaryOf_eq hchunkLen,
      binaryOf_eq htimeLen, encodeOptionalInt]
  have hchunk2 : (if (b.chunk2Hash.getD []).length = 0 then none else some (b.chunk2Hash.getD [])) =
      b.chunk2Hash := by
    cases hb : b.chunk2Hash with
    | none => rfl
    | some hash => exact if_neg (Nat.pos_iff_ne_zero.mp (h.chunk2Hash hash hb).1)
  refine ⟨_, henc, fun c hc => ?_⟩
  have hall := hread []
  rw [List.append_nil] at hall
  rw [parsePost27Fields, hc, if_pos hheight, hall]
  simp only [Block.withPost27Fields, Block.copyPost27, toNat_encodeUnsigned, hchunk2, hthreshold, hchunkHash,
    htimeHash]

end Post27

section Post26

variable {b : Block}

/-- The fields of the fork 2.6 before the proof. -/
def post26Binary (b : Block) (partitionNumber : Nat) (rewardKey rewardHistoryHash : Bytes) : Bytes :=
  encodeBin b.hashPreimage 1 ++ (encodeOptionalInt b.recallByte 2 ++ (encodeInt b.reward 1 ++
    (encodeBin b.signature 2 ++ (encodeOptionalInt b.recallByte2 2 ++ (encodeBin b.previousSolutionHash 1 ++
    (Bytes.ofNat 32 partitionNumber ++ (b.nonceLimiterInfo.output ++
    (Bytes.ofNat 8 b.nonceLimiterInfo.globalStepNumber ++ (b.nonceLimiterInfo.seed ++
    (b.nonceLimiterInfo.nextSeed ++ (encodeBin b.nonceLimiterInfo.prevOutput 1 ++
    (Bytes.ofNat 32 b.nonceLimiterInfo.partitionUpperBound ++
    (Bytes.ofNat 32 b.nonceLimiterInfo.nextPartitionUpperBound ++
    ((Bytes.ofNat 2 b.nonceLimiterInfo.lastStepCheckpoints.length ++
      b.nonceLimiterInfo.lastStepCheckpoints.flatten) ++
    ((Bytes.ofNat 2 b.nonceLimiterInfo.steps.length ++ b.nonceLimiterInfo.steps.flatten) ++
    (encodeBin b.poa2.chunk 3 ++ (encodeBin rewardKey 2 ++ (encodeBin b.poa2.txPath 3 ++
    (encodeBin b.poa2.dataPath 3 ++ (encodeInt b.pricePerGiBMinute 1 ++
    (encodeInt b.scheduledPricePerGiBMinute 1 ++ (rewardHistoryHash ++ (encodeInt b.debtSupply 1 ++
    (Bytes.ofNat 3 b.kryderPlusRateMultiplier ++ (Bytes.ofNat 1 b.kryderPlusRateMultiplierLatch ++
    (Bytes.ofNat 3 b.denomination ++ (encodeInt b.redenominationHeight 1 ++
    encodeInt b.previousCumulativeDiff 2)))))))))))))))))))))))))))

/-- The fields of the fork 2.6 but the proof are taken from the other block. -/
def Block.copyPost26 (c b : Block) (nonce : Nat) : Block :=
  { c with
    hashPreimage := b.hashPreimage, recallByte := b.recallByte, reward := b.reward
    nonce := .integer nonce, recallByte2 := b.recallByte2, previousSolutionHash := b.previousSolutionHash
    signature := b.signature, partitionNumber := b.partitionNumber, rewardKey := b.rewardKey
    nonceLimiterInfo := b.resetPost27.nonceLimiterInfo
    poa2 := { b.poa2 with option := 1 }
    pricePerGiBMinute := b.pricePerGiBMinute, scheduledPricePerGiBMinute := b.scheduledPricePerGiBMinute
    rewardHistoryHash := b.rewardHistoryHash, debtSupply := b.debtSupply
    kryderPlusRateMultiplier := b.kryderPlusRateMultiplier
    kryderPlusRateMultiplierLatch := b.kryderPlusRateMultiplierLatch
    denomination := b.denomination, redenominationHeight := b.redenominationHeight
    previousCumulativeDiff := b.previousCumulativeDiff }

lemma parseCheckpoints_flatten {l : List Bytes} {height : Nat} (hheight : 0 < height) (hl : OutputsFit l)
    (hne : l ≠ []) : parseCheckpoints l.flatten height = some (.ok l) := by
  have hflat : l.flatten ≠ [] := by
    refine List.ne_nil_of_length_pos ?_
    rw [length_flatten_of_forall hl.2]
    have := List.length_pos_iff.mpr hne
    omega
  rw [parseCheckpoints, if_neg (by omega), if_neg hflat, pieces_flatten (by decide) hl.2 le_rfl]
  rfl

lemma reads_post26Binary (h : b.Fits26) {pub hash : Bytes} {n : Nat} (hpub : pub.length < 256 ^ 2)
    (hhash : hash.length = 32) (hn : n < 256 ^ 32) :
    ∃ f, Reads post26Fields (post26Binary b n pub hash) f ∧
      f.lastStepCheckpoints.1.2 = b.nonceLimiterInfo.lastStepCheckpoints.flatten ∧
      f.steps.1.2 = b.nonceLimiterInfo.steps.flatten ∧
      ∀ (c : Block) (nonce : Nat), b.rewardKey = some (.rsa, pub) → b.partitionNumber = some n →
        b.rewardHistoryHash = some hash →
        c.withPost26Fields f nonce b.nonceLimiterInfo.lastStepCheckpoints b.nonceLimiterInfo.steps =
          c.copyPost26 b nonce := by
  refine ⟨_, (reads_encodeBin (h.binaries1 _ (by simp))).bind <| (reads_encodeOptionalInt h.recallByte).bind <|
    (reads_encodeInt (h.numbers1 _ (by simp))).bind <| (reads_encodeBin h.signature).bind <|
    (reads_encodeOptionalInt h.recallByte2).bind <| (reads_encodeBin (h.binaries1 _ (by simp))).bind <|
    reads_ofNat.bind <| (reads_fixed ⟨_, h.nonceLimiterInfo.output⟩).bind <| reads_ofNat.bind <|
    (reads_fixed ⟨_, h.nonceLimiterInfo.seed⟩).bind <| (reads_fixed ⟨_, h.nonceLimiterInfo.nextSeed⟩).bind <|
    (reads_encodeBin h.nonceLimiterInfo.prevOutput).bind <| reads_ofNat.bind <| reads_ofNat.bind <|
    (reads_chunked h.nonceLimiterInfo.lastStepCheckpoints.1 h.nonceLimiterInfo.lastStepCheckpoints.2).bind <|
    (reads_chunked h.nonceLimiterInfo.steps.1 h.nonceLimiterInfo.steps.2).bind <|
    (reads_encodeBin (h.binaries3 _ (by simp))).bind <| (reads_encodeBin hpub).bind <|
    (reads_encodeBin (h.binaries3 _ (by simp))).bind <| (reads_encodeBin (h.binaries3 _ (by simp))).bind <|
    (reads_encodeInt (h.numbers1 _ (by simp))).bind <| (reads_encodeInt (h.numbers1 _ (by simp))).bind <|
    (reads_fixed ⟨hash, hhash⟩).bind <| (reads_encodeInt (h.numbers1 _ (by simp))).bind <|
    reads_ofNat.bind <| reads_ofNat.bind <| reads_ofNat.bind <| (reads_encodeInt (h.numbers1 _ (by simp))).bind <|
    (reads_encodeInt (h.previousCumulativeDiff _ (by simp))).bind_pure, rfl, rfl, ?_⟩
  intro c nonce hkey hpartition hhistory
  simp only [Block.withPost26Fields, Block.copyPost26, Block.resetPost27, toNat_encodeUnsigned,
    toOptionalInt_optionalBytes, hkey, hpartition, hhistory, Bytes.toNat_ofNat_of_lt hn,
    Bytes.toNat_ofNat_of_lt h.nonceLimiterInfo.globalStepNumber,
    Bytes.toNat_ofNat_of_lt h.nonceLimiterInfo.partitionUpperBound,
    Bytes.toNat_ofNat_of_lt h.nonceLimiterInfo.nextPartitionUpperBound,
    Bytes.toNat_ofNat_of_lt h.kryderPlusRateMultiplier, Bytes.toNat_ofNat_of_lt h.denomination,
    Bytes.toNat_ofNat_of_lt h.kryderPlusRateMultiplierLatch]

lemma parseBlockPost26Fields_encodePost26Fields (h : b.Fits26) (hheight : Fork.height_2_6 ≤ b.height)
    (hcheckpoints : b.nonceLimiterInfo.lastStepCheckpoints ≠ [] ∧ b.nonceLimiterInfo.steps ≠ [])
    {post27 : Bytes} (hpost27 : encodePost27Fields b = some post27) :
    ∃ bin, encodePost26Fields b = some bin ∧ ∀ (c : Block) (nonce : Bytes), c.height = b.height →
      c.nonce = .binary nonce → c.doubleSigningProof = none → parseBlockPost26Fields c bin =
        some (parsePost27Fields post27
          { c.copyPost26 b nonce.toNat with doubleSigningProof := b.doubleSigningProof }) := by
  obtain ⟨pub, hkey, hpub⟩ := h.rewardKey
  obtain ⟨n, hpartition, hn⟩ := h.partitionNumber
  obtain ⟨hash, hhistory, hhash⟩ := h.rewardHistoryHash
  obtain ⟨f, hread, hcheckpointsBin, hstepsBin, hfields⟩ := reads_post26Binary h hpub hhash hn
  have hpos : 0 < b.height := Nat.lt_of_lt_of_le (by decide) hheight
  refine ⟨post26Binary b n pub hash ++ ((encodeDoubleSigningProof b.doubleSigningProof).getD [] ++ post27),
    ?_, fun c nonce hc hnonce hproof => ?_⟩
  · obtain ⟨proof, hproof, -⟩ := parseDoubleSigningProof_encodeDoubleSigningProof h.doubleSigningProof
      (b := b.resetPost26) rfl
    simp [encodePost26Fields, Nat.not_lt.mpr hheight, hpartition, hhistory, hkey, hproof, hpost27,
      encodeNonceLimiterInfo, binaryOf_eq h.nonceLimiterInfo.output, binaryOf_eq h.nonceLimiterInfo.seed,
      binaryOf_eq h.nonceLimiterInfo.nextSeed, binaryOf_eq hhash, post26Binary]
  · obtain ⟨proof, hproofBin, hparse⟩ := parseDoubleSigningProof_encodeDoubleSigningProof h.doubleSigningProof
      (b := c.copyPost26 b nonce.toNat) hproof
    rw [parseBlockPost26Fields, hread, hproofBin]
    simp only [hnonce, Nonce.decodeUnsigned, Option.bind_eq_bind, Option.bind_some, hc, hcheckpointsBin, hstepsBin,
      parseCheckpoints_flatten hpos h.nonceLimiterInfo.lastStepCheckpoints hcheckpoints.1,
      parseCheckpoints_flatten hpos h.nonceLimiterInfo.steps hcheckpoints.2, hfields c nonce.toNat hkey hpartition
      hhistory, Option.getD_some, hparse]

end Post26

section RoundTrip

variable {b : Block}

lemma encodePost26Fields_of_lt (h : b.height < Fork.height_2_6) : encodePost26Fields b = some [] := if_pos h

lemma encodePost27Fields_of_lt (h : b.height < Fork.height_2_7) : encodePost27Fields b = some [] :=
  if_neg (Nat.not_le.mpr h)

lemma nonce_of_lt {nonce : Bytes} (h : b.height < Fork.height_2_6) (hnonce : encodeNonce b = some nonce) :
    b.nonce = .binary nonce := by
  rw [encodeNonce, decide_eq_false (Nat.not_le.mpr h)] at hnonce
  cases hb : b.nonce with
  | binary n =>
    rw [hb] at hnonce
    exact congrArg Nonce.binary (Option.some.inj hnonce)
  | integer n =>
    rw [hb] at hnonce
    cases hnonce

lemma nonce_of_le {nonce : Bytes} (h : Fork.height_2_6 ≤ b.height) (hnonce : encodeNonce b = some nonce) :
    b.nonce = .integer nonce.toNat := by
  rw [encodeNonce, decide_eq_true h] at hnonce
  cases hb : b.nonce with
  | binary n =>
    rw [hb] at hnonce
    cases hnonce
  | integer n =>
    rw [hb] at hnonce
    rw [← Option.some.inj hnonce, toNat_encodeUnsigned]

lemma parsePost27Fields_nil {c : Block} (h : c.height < Fork.height_2_7) : parsePost27Fields [] c = .ok c := by
  rw [parsePost27Fields, if_neg (Nat.not_le.mpr h), if_pos rfl]

/-- The tail behind the transactions completes the block. The cases are the eras. -/
lemma parse_tail (h : b.WellFormed) {nonce : Bytes} (hnonce : encodeNonce b = some nonce) :
    ∃ bin, encodePost26Fields b = some bin ∧
      (if b.height < Fork.height_2_6 then
        if bin = [] then some (.ok { b.header nonce with tags := b.tags, txs := b.txs })
        else some (.error .invalidInput1)
      else parseBlockPost26Fields { b.header nonce with tags := b.tags, txs := b.txs } bin) =
        some (.ok b.normalise) := by
  by_cases h26 : b.height < Fork.height_2_6
  · refine ⟨[], encodePost26Fields_of_lt h26, ?_⟩
    rw [if_pos h26, if_pos rfl, ← h.before26 h26]
    have hn := nonce_of_lt h26 hnonce
    simp only [Block.header, ← hn]
    rfl
  · have hle26 : Fork.height_2_6 ≤ b.height := Nat.not_lt.mp h26
    have hn := nonce_of_le hle26 hnonce
    have hfit := h.after26 hle26
    simp only [if_neg h26]
    by_cases h27 : b.height < Fork.height_2_7
    · obtain ⟨bin, henc, hparse⟩ := parseBlockPost26Fields_encodePost26Fields hfit hle26 (h.checkpoints hle26)
        (encodePost27Fields_of_lt h27)
      refine ⟨bin, henc, ?_⟩
      rw [hparse { b.header nonce with tags := b.tags, txs := b.txs } nonce rfl rfl rfl]
      refine congrArg some ((parsePost27Fields_nil ?_).trans ?_)
      · exact h27
      · rw [← h.before27 h27]
        simp only [Block.copyPost26, Block.header, Block.resetPost26, Block.resetPost27, Block.normalise, ← hn]
    · have hle27 : Fork.height_2_7 ≤ b.height := Nat.not_lt.mp h27
      obtain ⟨post27, hpost27, hparse27⟩ := parsePost27Fields_encodePost27Fields (h.after27 hle27) hle27
      obtain ⟨bin, henc, hparse⟩ := parseBlockPost26Fields_encodePost26Fields hfit hle26 (h.checkpoints hle26)
        hpost27
      refine ⟨bin, henc, ?_⟩
      rw [hparse { b.header nonce with tags := b.tags, txs := b.txs } nonce rfl rfl rfl]
      refine congrArg some ((hparse27 _ ?_).trans ?_)
      · rfl
      · simp only [Block.copyPost26, Block.copyPost27, ← hn]
        rfl

theorem binaryToBlock_blockToBinary (h : b.WellFormed) (hlimits : b.WithinLimits) :
    ∃ bin, blockToBinary b = some bin ∧ binaryToBlock bin = some (.ok b.normalise) := by
  obtain ⟨nonce, hnonce, hnonceLen⟩ := h.nonce
  obtain ⟨txs, htxs, hparseTxs⟩ := parseBlockTransactions_encodeTransactions hlimits.txs h.txs.2
  obtain ⟨tail, htail, hparseTail⟩ := parse_tail h hnonce
  have henc : blockToBinary b =
      some (headerBinary b nonce ++ (encodeBinList b.tags 2 2 ++ (txs ++ tail))) := by
    simp [blockToBinary, hnonce, htxs, htail, binaryOf_eq h.header.indepHash, headerBinary]
  refine ⟨_, henc, ?_⟩
  have hread := reads_headerBinary h.header ⟨nonce, hnonceLen⟩ (encodeBinList b.tags 2 2 ++ (txs ++ tail))
  have hlen : ((h.header.fields ⟨nonce, hnonceLen⟩).nonce.1).length ≤ 512 := hlimits.nonce nonce hnonce
  rw [binaryToBlock, hread]
  simp only
  rw [if_pos hlen, toBlock_fields h.header _ h.rewardAddr, parseBlockTagsTransactions,
    parseBlockTags_encodeBinList hlimits.tags.1 hlimits.tags.2]
  simp only
  rw [parseBlockTransactionsOf, hparseTxs]
  exact hparseTail

end RoundTrip

/-- A block behind both forks, with the optional fields present. -/
def sampleBlock : Block where
  nonce := .integer 70000
  timestamp := 1690000000
  lastRetarget := 1689990000
  diff := 5000
  height := Fork.height_2_7
  indepHash := List.replicate 48 1
  txs := [.tx sampleTx, .id (List.replicate 32 9)]
  walletList := [2]
  rewardAddr := some [3, 4]
  tags := [[5], [], [6, 7]]
  rewardPool := 0
  weaveSize := 1000000
  blockSize := 300
  cumulativeDiff := 90000
  usdToArRate := some (1, 10)
  recallByte := some 0
  recallByte2 := some 20
  partitionNumber := some 3
  nonceLimiterInfo := {
    output := List.replicate 32 1, seed := List.replicate 48 2, nextSeed := List.replicate 48 3
    lastStepCheckpoints := [List.replicate 32 4], steps := [List.replicate 32 5, List.replicate 32 6] }
  rewardKey := some (.rsa, [8])
  poa2 := { chunk := [9] }
  rewardHistoryHash := some (List.replicate 32 10)
  merkleRebaseSupportThreshold := some 40
  chunkHash := some (List.replicate 32 11)
  chunk2Hash := some (List.replicate 32 12)
  blockTimeHistoryHash := some (List.replicate 32 13)

lemma wellFormed_sampleBlock : sampleBlock.WellFormed where
  header := {
    indepHash := rfl
    numbers1 := by decide
    numbers2 := by decide
    binaries1 := by decide
    binaries3 := by decide
    packing25Threshold := by decide
    strictDataSplitThreshold := by decide
    usdToArRate := by
      rintro rate ⟨⟩
      decide
    scheduledUsdToArRate := by rintro rate ⟨⟩ }
  nonce := ⟨_, rfl, by decide⟩
  rewardAddr := by decide
  tags := ⟨by decide, by decide⟩
  txs := by
    refine ⟨by decide, fun tx htx => ?_⟩
    rcases List.mem_pair.mp htx with rfl | rfl
    · exact ⟨encodable_sampleTx, by decide, size_sampleTx⟩
    · exact (List.length_replicate : (List.replicate 32 (9 : UInt8)).length = 32)
  before26 := fun h => absurd h (by decide)
  before27 := fun h => absurd h (by decide)
  after26 := fun _ => {
    numbers1 := by decide
    previousCumulativeDiff := by decide
    recallByte := by decide
    recallByte2 := by decide
    binaries1 := by decide
    signature := by decide
    binaries3 := by decide
    rewardKey := ⟨[8], rfl, by decide⟩
    partitionNumber := ⟨3, rfl, by decide⟩
    rewardHistoryHash := ⟨_, rfl, rfl⟩
    nonceLimiterInfo := ⟨rfl, by decide, rfl, rfl, by decide, by decide, by decide, by decide, by decide⟩
    kryderPlusRateMultiplier := by decide
    kryderPlusRateMultiplierLatch := by decide
    denomination := by decide
    doubleSigningProof := by rintro proof ⟨⟩ }
  checkpoints := fun _ => ⟨by decide, by decide⟩
  after27 := fun _ => {
    merkleRebaseSupportThreshold := ⟨40, rfl, by decide⟩
    chunkHash := ⟨_, rfl, rfl⟩
    chunk2Hash := by
      rintro hash ⟨⟩
      decide
    blockTimeHistoryHash := ⟨_, rfl, rfl⟩
    vdfDifficulties := by decide }

theorem binaryToBlock_blockToBinary_sampleBlock :
    ∃ bin, blockToBinary sampleBlock = some bin ∧ binaryToBlock bin = some (.ok sampleBlock.normalise) :=
  binaryToBlock_blockToBinary wellFormed_sampleBlock
    { nonce := by decide, tags := by decide, txs := by decide }

/-- A block of the first era whose nonce has one byte more than the parser takes. -/
def longNonceBlock : Block where
  nonce := .binary (List.replicate 513 0)
  timestamp := 0
  lastRetarget := 0
  diff := 0
  indepHash := List.replicate 48 1
  walletList := []
  rewardPool := 0
  weaveSize := 0
  blockSize := 0
  cumulativeDiff := 0

/-- The encoder writes the block and the parser refuses it. -/
theorem not_round_trip_longNonceBlock :
    longNonceBlock.WellFormed ∧
      (blockToBinary longNonceBlock).bind binaryToBlock = some (.error .invalidBlockInput) := by
  refine ⟨?_, by decide +kernel⟩
  exact {
    header := {
      indepHash := rfl
      numbers1 := by decide
      numbers2 := by decide
      binaries1 := by decide
      binaries3 := by decide
      packing25Threshold := by decide
      strictDataSplitThreshold := by decide
      usdToArRate := by rintro rate ⟨⟩
      scheduledUsdToArRate := by rintro rate ⟨⟩ }
    nonce := ⟨_, rfl, by decide +kernel⟩
    rewardAddr := by decide
    tags := ⟨by decide, by decide⟩
    txs := ⟨by decide, by rintro tx ⟨⟩⟩
    before26 := fun _ => rfl
    before27 := fun _ => rfl
    after26 := fun h => absurd h (by decide)
    checkpoints := fun h => absurd h (by decide)
    after27 := fun h => absurd h (by decide) }

end Arweave.Serialize

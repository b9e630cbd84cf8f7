import Arweave.Serialize.BlockRoundTrip

/-!
# Blocks that the parser accepts

The fields of a block that has been parsed fit their places: the bounds of the patterns are
bounds of the values, since a number is never longer than the binary it has been read from.
-/

namespace Arweave.Serialize
open Arweave.Lib Arweave.Lib.Codec Arweave.Tx Arweave.Wallet

section Numbers

variable {w : Nat}

lemma length_encodeUnsigned_toNat (b : Bytes) : (encodeUnsigned b.toNat).length ≤ max 1 b.length := by
  rw [encodeUnsigned]
  split_ifs with h
  · exact le_max_left _ _
  · rw [List.length_reverse, List.length_map]
    exact le_max_of_le_right ((Nat.digits_length_le_iff (by decide) _).mpr (Bytes.toNat_lt b))

lemma length_encodeUnsigned_lt {b : Bytes} (hw : 0 < w) (h : b.length < 256 ^ w) :
    (encodeUnsigned b.toNat).length < 256 ^ w := by
  have hone : 1 < 256 ^ w := Nat.one_lt_pow (by omega) (by decide)
  exact lt_of_le_of_lt (length_encodeUnsigned_toNat b) (max_lt hone h)

lemma optionFits_toOptionalInt {b : Bytes} (hw : 0 < w) (h : b.length < 256 ^ w) :
    OptionFits w (toOptionalInt b) := by
  rw [toOptionalInt]
  split_ifs with hb
  · exact Nat.pow_pos (by decide)
  · exact length_encodeUnsigned_lt hw h

lemma numbersFit_map_toNat (hw : 0 < w) (l : List (Sized w)) :
    NumbersFit w (l.map fun b => Bytes.toNat b.1) := by
  intro n hn
  obtain ⟨b, -, rfl⟩ := List.mem_map.mp hn
  exact length_encodeUnsigned_lt hw b.2

lemma binariesFit_map_val (l : List (Sized w)) : BinariesFit w (l.map Subtype.val) := by
  intro bin hbin
  obtain ⟨b, -, rfl⟩ := List.mem_map.mp hbin
  exact b.2

lemma numbersFit_toRate {a b : Sized 1} {rate : Nat × Nat} (h : rate ∈ toRate a.1 b.1) :
    NumbersFit 1 [rate.1, rate.2] := by
  rw [toRate] at h
  split_ifs at h
  · cases h
  · obtain rfl := Option.mem_some.mp h
    exact numbersFit_map_toNat (by decide) [a, b]

end Numbers

lemma BlockFields.headerFits (f : BlockFields) : f.toBlock.HeaderFits where
  indepHash := f.indepHash.2
  numbers1 := numbersFit_map_toNat (by decide) [f.timestamp, f.height, f.lastRetarget, f.rewardPool, f.poaOption]
  numbers2 := numbersFit_map_toNat (by decide) [f.diff, f.cumulativeDiff, f.blockSize, f.weaveSize]
  binaries1 := by
    have haddr : (f.toBlock.rewardAddr.getD []).length < 256 ^ 1 := by
      rw [BlockFields.toBlock]
      simp only
      split_ifs
      · decide
      · exact f.rewardAddr.2
    exact binariesFit_map_val
      [f.previousBlock, f.hash, ⟨f.toBlock.rewardAddr.getD [], haddr⟩, f.txRoot, f.walletList, f.hashListMerkle]
  binaries3 := binariesFit_map_val [f.chunk, f.txPath, f.dataPath]
  packing25Threshold := optionFits_toOptionalInt (by decide) f.packing25Threshold.2
  strictDataSplitThreshold := optionFits_toOptionalInt (by decide) f.strictDataSplitThreshold.2
  usdToArRate := fun _ h => numbersFit_toRate h
  scheduledUsdToArRate := fun _ h => numbersFit_toRate h

lemma parseBlockTagsFrom_fits {n totalSize : Nat} {bin rest : Bytes} {tags parsed : List Bytes}
    (h : parseBlockTagsFrom n bin parsed totalSize = .ok (tags, rest)) (hp : BinariesFit 2 parsed) :
    BinariesFit 2 tags ∧ tags.length = n + parsed.length := by
  induction n generalizing bin parsed totalSize with
  | zero =>
    cases h
    exact ⟨hp, (Nat.zero_add _).symm⟩
  | succ n ih =>
    rw [parseBlockTagsFrom] at h
    split at h
    · rename_i tag rest' _
      split_ifs at h
      obtain ⟨hfit, hlen⟩ := ih h (List.forall_mem_cons.mpr ⟨tag.2, hp⟩)
      exact ⟨hfit, by rw [hlen, List.length_cons]; omega⟩
    · cases h

lemma parseBlockTags_fits {bin rest : Bytes} {tags : List Bytes} (h : parseBlockTags bin = .ok (tags, rest)) :
    BinariesFit 2 tags ∧ tags.length < 256 ^ 2 := by
  rw [parseBlockTags] at h
  split at h
  · split_ifs at h with hcount
    obtain ⟨hfit, hlen⟩ := parseBlockTagsFrom_fits h (by rintro bin ⟨⟩)
    exact ⟨hfit, by rw [hlen, List.length_nil]; omega⟩
  · cases h

/-- The identifier of an element. -/
def BlockTx.getTxid : BlockTx → Bytes
  | .id txid => txid
  | .tx t => t.id

lemma parseTx_getTxid {bin : Bytes} {tx : BlockTx} (h : parseTx bin = .ok tx) : tx.getTxid.length = 32 := by
  rw [parseTx] at h
  split_ifs at h with hlen
  · cases h
    exact hlen
  · split at h
    · rename_i fields rest _
      split_ifs at h
      cases htags : parseTxTags rest with
      | error e =>
        rw [htags] at h
        cases h
      | ok tags =>
        cases hden : parseTxDenomination tags.2 with
        | error e =>
          simp only [htags, hden, bind, Except.bind] at h
          cases h
        | ok denomination =>
          simp only [htags, hden, bind, Except.bind, pure, Except.pure] at h
          cases h
          exact fields.id.2
    · cases h

lemma parseBlockTransactionsFrom_fits {n : Nat} {bin rest : Bytes} {txs parsed : List BlockTx}
    (h : parseBlockTransactionsFrom n bin parsed = .ok (txs, rest)) (hp : ∀ tx ∈ parsed, tx.getTxid.length = 32) :
    (∀ tx ∈ txs, tx.getTxid.length = 32) ∧ txs.length = n + parsed.length := by
  induction n generalizing bin parsed with
  | zero =>
    cases h
    exact ⟨hp, (Nat.zero_add _).symm⟩
  | succ n ih =>
    rw [parseBlockTransactionsFrom] at h
    split at h
    · rename_i txBin rest' _
      cases htx : parseTx txBin.1 with
      | error e =>
        rw [htx] at h
        cases h
      | ok tx =>
        rw [htx] at h
        obtain ⟨hfit, hlen⟩ := ih h (List.forall_mem_cons.mpr ⟨parseTx_getTxid htx, hp⟩)
        exact ⟨hfit, by rw [hlen, List.length_cons]; omega⟩
    · cases h

lemma parseBlockTransactions_fits {bin rest : Bytes} {txs : List BlockTx}
    (h : parseBlockTransactions bin = .ok (txs, rest)) :
    (∀ tx ∈ txs, tx.getTxid.length = 32) ∧ txs.length < 256 ^ 2 := by
  rw [parseBlockTransactions] at h
  split at h
  · split_ifs at h with hcount
    obtain ⟨hfit, hlen⟩ := parseBlockTransactionsFrom_fits h (by rintro tx ⟨⟩)
    exact ⟨hfit, by rw [hlen, List.length_nil]; omega⟩
  · cases h

lemma doubleSigningProofPattern_fits : Yields ProofFits doubleSigningProofPattern :=
  .bind fun _ => .bind fun sig1 => .bind fun cdiff1 => .bind fun prevCdiff1 => .bind fun preimage1 =>
  .bind fun sig2 => .bind fun cdiff2 => .bind fun prevCdiff2 => .bind fun preimage2 => .pure {
    signature1 := sig1.2
    signature2 := sig2.2
    preimage1 := preimage1.2
    preimage2 := preimage2.2
    cdiffs := numbersFit_map_toNat (by decide) [cdiff1, prevCdiff1, cdiff2, prevCdiff2] }

lemma parsePost27Fields_eq_ok {rest : Bytes} {b b' : Block} (h : parsePost27Fields rest b = .ok b')
    (hheight : Fork.height_2_7 ≤ b'.height) : ∃ f, b' = b.withPost27Fields f := by
  rw [parsePost27Fields] at h
  split_ifs at h with h27
  · split at h
    · rename_i f _
      exact ⟨f, (Except.ok.inj h).symm⟩
    · cases h
  · cases h
    exact absurd hheight h27

lemma parseDoubleSigningProof_eq_ok {bin : Bytes} {b b' : Block} (h : parseDoubleSigningProof bin b = .ok b')
    (hheight : Fork.height_2_7 ≤ b'.height) (hproof : b.doubleSigningProof = none) :
    ∃ proof f, (∀ p ∈ proof, ProofFits p) ∧ b' = { b with doubleSigningProof := proof }.withPost27Fields f := by
  cases bin with
  | nil => cases h
  | cons mark rest =>
    rw [parseDoubleSigningProof] at h
    split_ifs at h
    · obtain ⟨f, hf⟩ := parsePost27Fields_eq_ok h hheight
      refine ⟨b.doubleSigningProof, f, ?_, hf⟩
      rw [hproof]
      rintro p ⟨⟩
    · split at h
      · rename_i proof rest hrun
        obtain ⟨f, hf⟩ := parsePost27Fields_eq_ok h hheight
        refine ⟨some proof, f, ?_, hf⟩
        rintro p ⟨⟩
        exact doubleSigningProofPattern_fits _ _ _ hrun
      · cases h

lemma pieces_fits {k fuel : Nat} {b : Bytes} {l : List Bytes} (h : pieces k fuel b = some l) :
    (∀ x ∈ l, x.length = k) ∧ l.flatten = b := by
  induction fuel generalizing b l with
  | zero =>
    cases b with
    | nil =>
      cases h
      exact ⟨by rintro x ⟨⟩, rfl⟩
    | cons x b => cases h
  | succ fuel ih =>
    cases b with
    | nil =>
      cases h
      exact ⟨by rintro x ⟨⟩, rfl⟩
    | cons x b =>
      rw [pieces] at h
      split at h
      · rename_i piece rest hrun
        obtain ⟨l', hl', rfl⟩ := Option.map_eq_some_iff.mp h
        obtain ⟨hfit, hflat⟩ := ih hl'
        refine ⟨List.forall_mem_cons.mpr ⟨piece.2, hfit⟩, ?_⟩
        rw [StateT.run, fixed] at hrun
        split_ifs at hrun
        obtain ⟨rfl, rfl⟩ := Prod.mk.inj (Option.some.inj hrun)
        rw [List.flatten_cons, hflat]
        exact List.take_append_drop k (x :: b)
      · cases h

lemma parseCheckpoints_fits {p : {p : Nat × Bytes // p.1 < 256 ^ 2 ∧ p.2.length = p.1 * 32}} {height : Nat}
    {l : List Bytes} (hheight : 0 < height) (h : parseCheckpoints p.1.2 height = some (.ok l)) :
    OutputsFit l ∧ l ≠ [] := by
  rw [parseCheckpoints, if_neg (by omega)] at h
  split_ifs at h with hne
  obtain ⟨l', hl', hok⟩ := Option.map_eq_some_iff.mp h
  obtain rfl := Except.ok.inj hok
  obtain ⟨hfit, hflat⟩ := pieces_fits hl'
  have hlen := length_flatten_of_forall hfit
  rw [hflat, p.2.2] at hlen
  refine ⟨⟨by have := p.2.1; omega, hfit⟩, ?_⟩
  rintro rfl
  exact hne hflat.symm

lemma fits26_of_fields {c : Block} {f : Post26Fields} {nonce : Nat} {checkpoints steps : List Bytes}
    {proof : Option Ledger.DoubleSigningProof} {g : Post27Fields} (hcheckpoints : OutputsFit checkpoints)
    (hsteps : OutputsFit steps) (hproof : ∀ p ∈ proof, ProofFits p) :
    ({ c.withPost26Fields f nonce checkpoints steps with doubleSigningProof := proof }.withPost27Fields g).Fits26 where
  numbers1 := numbersFit_map_toNat (by decide)
    [f.reward, f.pricePerGiBMinute, f.scheduledPricePerGiBMinute, f.debtSupply, f.redenominationHeight]
  previousCumulativeDiff := numbersFit_map_toNat (by decide) [f.previousCumulativeDiff]
  recallByte := optionFits_toOptionalInt (by decide) f.recallByte.2
  recallByte2 := optionFits_toOptionalInt (by decide) f.recallByte2.2
  binaries1 := binariesFit_map_val [f.hashPreimage, f.previousSolutionHash]
  signature := f.signature.2
  binaries3 := binariesFit_map_val [f.chunk, f.txPath, f.dataPath]
  rewardKey := ⟨f.rewardKey.1, rfl, f.rewardKey.2⟩
  partitionNumber := ⟨f.partitionNumber.1.toNat, rfl, f.partitionNumber.toNat_lt⟩
  rewardHistoryHash := ⟨f.rewardHistoryHash.1, rfl, f.rewardHistoryHash.2⟩
  nonceLimiterInfo := {
    output := f.output.2
    globalStepNumber := f.globalStepNumber.toNat_lt
    seed := f.seed.2
    nextSeed := f.nextSeed.2
    prevOutput := f.prevOutput.2
    partitionUpperBound := f.partitionUpperBound.toNat_lt
    nextPartitionUpperBound := f.nextPartitionUpperBound.toNat_lt
    lastStepCheckpoints := hcheckpoints
    steps := hsteps }
  kryderPlusRateMultiplier := f.kryderPlusRateMultiplier.toNat_lt
  kryderPlusRateMultiplierLatch := f.kryderPlusRateMultiplierLatch.toNat_lt
  denomination := f.denomination.toNat_lt
  doubleSigningProof := hproof

lemma fits27_of_fields (c : Block) (g : Post27Fields) : (c.withPost27Fields g).Fits27 where
  merkleRebaseSupportThreshold :=
    ⟨_, rfl, numbersFit_map_toNat (by decide) [g.merkleRebaseSupportThreshold]⟩
  chunkHash := ⟨_, rfl, g.chunkHash.2⟩
  chunk2Hash := by
    intro hash h
    rw [Block.withPost27Fields] at h
    simp only at h
    split_ifs at h with hlen
    · cases h
    · obtain rfl := Option.mem_some.mp h
      exact ⟨Nat.pos_of_ne_zero hlen, g.chunk2Hash.2⟩
  blockTimeHistoryHash := ⟨_, rfl, g.blockTimeHistoryHash.2⟩
  vdfDifficulties := numbersFit_map_toNat (by decide) [g.vdfDifficulty, g.nextVdfDifficulty]

/-- What the parser guarantees about a block of the last era. -/
structure Block.Accepted27 (b : Block) : Prop where
  header : b.HeaderFits
  fits26 : b.Fits26
  fits27 : b.Fits27
  nonce : ∃ n, b.nonce = .integer n ∧ NumbersFit 2 [n]
  rewardAddr : b.rewardAddr ≠ none
  tags : b.tags.length < 256 ^ 2 ∧ BinariesFit 2 b.tags
  txs : b.txs.length < 256 ^ 2 ∧ ∀ tx ∈ b.txs, tx.getTxid.length = 32

lemma parseBlockPost26Fields_eq_ok {c b : Block} {bin nonce : Bytes}
    (h : parseBlockPost26Fields c bin = some (.ok b)) (hheight : Fork.height_2_7 ≤ b.height)
    (hpos : 0 < c.height) (hnonce : c.nonce = .binary nonce) (hproof : c.doubleSigningProof = none) :
    ∃ f checkpoints steps proof g, OutputsFit checkpoints ∧ OutputsFit steps ∧ (∀ p ∈ proof, ProofFits p) ∧
      b = { c.withPost26Fields f nonce.toNat checkpoints steps with doubleSigningProof := proof }.withPost27Fields g := by
  rw [parseBlockPost26Fields] at h
  split at h
  · rename_i f rest _
    simp only [hnonce, Nonce.decodeUnsigned, Option.bind_eq_bind, Option.bind_some] at h
    split at h
    · rename_i checkpoints steps hcheckpoints hsteps
      obtain ⟨proof, g, hfits, hb⟩ := parseDoubleSigningProof_eq_ok (Option.some.inj h) hheight hproof
      exact ⟨f, checkpoints, steps, proof, g, (parseCheckpoints_fits hpos hcheckpoints).1,
        (parseCheckpoints_fits hpos hsteps).1, hfits, hb⟩
    · cases h
  · cases h

theorem accepted27_of_binaryToBlock {bin : Bytes} {b : Block} (h : binaryToBlock bin = some (.ok b))
    (hheight : Fork.height_2_7 ≤ b.height) : b.Accepted27 := by
  rw [binaryToBlock] at h
  split at h
  · rename_i f rest _
    rw [ite_eq_iff] at h
    obtain ⟨-, h⟩ | ⟨-, h⟩ := h
    swap
    · cases h
    rw [parseBlockTagsTransactions] at h
    split at h
    · cases h
    · rename_i tags rest htags
      rw [parseBlockTransactionsOf] at h
      split at h
      · cases h
      · rename_i txs rest htxs
        split_ifs at h with h26 hrest
        · cases h
          exact absurd (Nat.le_trans (by decide) hheight) (Nat.not_le.mpr h26)
        · cases h
        · have hle : ¬f.toBlock.height < Fork.height_2_6 := h26
          have hpos : 0 < f.toBlock.height :=
            Nat.lt_of_lt_of_le (by decide : 0 < Fork.height_2_6) (Nat.not_lt.mp hle)
          obtain ⟨g, checkpoints, steps, proof, k, hcheckpoints, hsteps, hproof, rfl⟩ :=
            parseBlockPost26Fields_eq_ok h hheight hpos rfl rfl
          have hheader := f.headerFits
          exact {
            header := ⟨hheader.1, hheader.2, hheader.3, hheader.4, hheader.5, hheader.6, hheader.7, hheader.8,
              hheader.9⟩
            fits26 := fits26_of_fields hcheckpoints hsteps hproof
            fits27 := fits27_of_fields _ k
            nonce := ⟨f.nonce.1.toNat, rfl, numbersFit_map_toNat (by decide) [f.nonce]⟩
            rewardAddr := by
              change (if f.rewardAddr.1.length = 0 ∧ f.height.1.toNat < Fork.height_2_6 then none
                else some f.rewardAddr.1) ≠ none
              rw [if_neg fun hcond => hle hcond.2]
              simp
            tags := (parseBlockTags_fits htags).symm
            txs := (parseBlockTransactions_fits htxs).symm }
  · cases h

end Arweave.Serialize

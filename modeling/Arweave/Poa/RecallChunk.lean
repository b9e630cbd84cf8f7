import Arweave.Poa.Layout

/-!
# The chunk of a recall byte

A miner looks for the chunk of a recall byte in the index of end offsets, with offsets that count from
one. A validator descends to it through the trees of the block, with offsets that count from zero and
from the start of the block. Above the threshold both take the chunk at the first byte of the bucket of
the recall byte.
-/

namespace Arweave.Poa

open Lib Merkle

section Code

/-- The thresholds are offsets; without a value the last one is infinite. -/
def getDataPathValidationRuleset (blockStartOffset : Nat) (merkleRebaseSupportThreshold : Option Nat)
    (strictDataSplitThreshold : Nat) : Ruleset :=
  if merkleRebaseSupportThreshold.any (· ≤ blockStartOffset) then .offsetRebaseSupport
  else if blockStartOffset ≥ strictDataSplitThreshold then .strictDataSplit
  else .strictBorders

structure PoA where
  chunk : Bytes
  txPath : Bytes
  dataPath : Bytes

structure ValidateArgs (Packing : Type) where
  blockStartOffset : Nat
  recallOffset : Nat
  txRoot : Bytes
  blockSize : Nat
  spoa : PoA
  strictDataSplitThreshold : Nat
  packing : Packing
  merkleRebaseSupportThreshold : Option Nat
  expectedChunkID : Option Bytes

inductive UnpackReply where
  | error
  | exception
  | ok (unpacked : Bytes)

inductive Verdict where
  | invalid
  | error
  | valid (chunkID : Bytes)
  deriving DecidableEq

variable {Packing : Type}

def recallBucketOffset (args : ValidateArgs Packing) : Int :=
  if args.recallOffset ≥ args.strictDataSplitThreshold then
    getPaddedOffset (args.recallOffset + 1) args.strictDataSplitThreshold - dataChunkSize - args.blockStartOffset
  else args.recallOffset - args.blockStartOffset

/-- The identifier and the offsets in the weave of the chunk at the end of the two paths. -/
def locate (H : Digest 32) (args : ValidateArgs Packing) : Except PathError (Option DataPath) := do
  let offset := recallBucketOffset args
  let ruleset := getDataPathValidationRuleset args.blockStartOffset args.merkleRebaseSupportThreshold
    args.strictDataSplitThreshold
  match ← validatePath H args.txRoot offset args.blockSize args.spoa.txPath .basic with
  | none => pure none
  | some tx =>
    let txSize := tx.endOffset - tx.startOffset
    match ← validatePath H tx.leaf (offset - tx.startOffset) txSize args.spoa.dataPath ruleset with
    | none => pure none
    | some chunk =>
      pure (some ⟨chunk.leaf, args.blockStartOffset + tx.startOffset + chunk.startOffset,
        args.blockStartOffset + tx.startOffset + chunk.endOffset⟩)

/-- The packing is given by how it unpacks. -/
def validate (H : Digest 32) (unpack : Packing → Int → Bytes → Bytes → Int → UnpackReply) (args : ValidateArgs Packing) :
    Except PathError Verdict := do
  match ← locate H args with
  | none => pure .invalid
  | some chunk =>
    match args.expectedChunkID with
    | none =>
      let chunkSize := chunk.endOffset - chunk.startOffset
      match unpack args.packing chunk.endOffset args.txRoot args.spoa.chunk chunkSize with
      | .error => pure .invalid
      | .exception => pure .error
      | .ok unpacked => pure (if chunk.leaf = H unpacked then .valid chunk.leaf else .invalid)
    | some expected => pure (if chunk.leaf = expected then .valid chunk.leaf else .invalid)

def getChunkSeekOffset (strictDataSplitThreshold : Nat) (offset : Nat) : Int :=
  if offset > strictDataSplitThreshold then getPaddedOffset offset strictDataSplitThreshold - dataChunkSize + 1
  else offset

/-- The entry with the smallest key from the given one on, among those with the same 232 first bits of
256 or with these bits larger by one. -/
def getNextByPrefix (index : SortedMap Nat Chunk) (key : Nat) : Option (Nat × Chunk) :=
  (index.entries.find? fun e => key ≤ e.1 ∧ e.1 / 2 ^ 24 = key / 2 ^ 24).or
    (index.entries.find? fun e => (key / 2 ^ 24 + 1) * 2 ^ 24 ≤ e.1 ∧ e.1 / 2 ^ 24 = key / 2 ^ 24 + 1)

/-- The chunk found in the index for an offset, counted from one. -/
def getChunk (strictDataSplitThreshold : Nat) (index : SortedMap Nat Chunk) (offset : Nat) : Option Chunk := do
  let seekOffset := getChunkSeekOffset strictDataSplitThreshold offset
  let (absoluteOffset, chunk) ← getNextByPrefix index seekOffset.toNat
  let chunkSize := chunk.stop - chunk.start
  if absoluteOffset - seekOffset ≥ chunkSize then none else some chunk

end Code

section Offsets

variable {T n : Nat}

/-- The byte at which the chunk of a recall byte is looked for. -/
def firstByte (T n : Nat) : Nat := if T ≤ n then bucketStart T n else n

lemma getPaddedOffset_eq (h : T ≤ n) : getPaddedOffset (n + 1) T = bucketStart T n + dataChunkSize := by
  have hdiff : ((n : Int) + 1 - T - 1) = ((n - T : Nat) : Int) := by omega
  rw [getPaddedOffset, bucketStart, hdiff, ← Int.ofNat_tdiv]
  push_cast
  ring

lemma getPaddedOffset_isLeast (h : T < n) :
    ∃ k : Nat, getPaddedOffset n T = T + k * dataChunkSize ∧ n ≤ T + k * dataChunkSize ∧
      ∀ j : Nat, n ≤ T + j * dataChunkSize → k ≤ j := by
  obtain ⟨m, rfl⟩ : ∃ m, n = m + 1 := ⟨n - 1, by omega⟩
  have hS : 0 < dataChunkSize := by decide
  have hmod := Nat.div_add_mod (m - T) dataChunkSize
  have hlt := Nat.mod_lt (m - T) hS
  refine ⟨(m - T) / dataChunkSize + 1, ?_, ?_, fun j hj => ?_⟩
  · push_cast
    rw [getPaddedOffset_eq (by omega), bucketStart]
    push_cast
    ring
  · rw [Nat.add_mul, one_mul, Nat.mul_comm]
    omega
  · rw [Nat.succ_le_iff, Nat.div_lt_iff_lt_mul hS]
    omega

lemma firstByte_le : firstByte T n ≤ n := by
  rw [firstByte, bucketStart]
  split_ifs with h
  · have := Nat.div_mul_le_self (n - T) dataChunkSize
    omega
  · exact le_rfl

lemma getChunkSeekOffset_eq : getChunkSeekOffset T (n + 1) = (firstByte T n + 1 : Nat) := by
  rw [getChunkSeekOffset, firstByte]
  split_ifs with h1 h2 h2
  · push_cast
    rw [getPaddedOffset_eq h2]
    omega
  · omega
  · omega
  · rfl

end Offsets

section Miner

variable {H : Digest 32} {T n : Nat} {L : DataLayout H T} {c : Chunk}

lemma getNextByPrefix_eq (hc : c ∈ L.chunks) (hcn : c.start ≤ n ∧ n < c.stop) :
    getNextByPrefix L.index (n + 1) = some (c.stop, c) := by
  have hmem : (c.stop, c) ∈ L.index.entries := DataLayout.mem_index.mpr ⟨hc, rfl⟩
  have hmin : ∀ e ∈ L.index.entries, n + 1 ≤ e.1 → c.stop ≤ e.1 := by
    intro e he hle
    obtain ⟨hd, heq⟩ := DataLayout.mem_index.mp he
    by_contra hlt
    have hne : c ≠ e.2 := by
      rintro rfl
      omega
    have hapart := related_of_pairwise DataLayout.chunks_pairwise hc hd hne
    have hnonempty := L.nonempty e.2 hd
    omega
  have hsize := L.size_le c hc
  have hS : dataChunkSize = 2 ^ 18 := by decide
  rw [getNextByPrefix]
  by_cases hprefix : c.stop / 2 ^ 24 = (n + 1) / 2 ^ 24
  · rw [SortedMap.find?_eq_some hmem (by simpa using ⟨hcn.2, hprefix⟩) fun e he hp => ?_]
    · rfl
    · rw [decide_eq_true_eq] at hp
      exact hmin e he hp.1
  · have hnone : L.index.entries.find? (fun e => n + 1 ≤ e.1 ∧ e.1 / 2 ^ 24 = (n + 1) / 2 ^ 24) = none := by
      rw [List.find?_eq_none]
      intro e he hp
      rw [decide_eq_true_eq] at hp
      have hle := hmin e he hp.1
      omega
    rw [hnone, Option.none_or]
    refine SortedMap.find?_eq_some hmem ?_ fun e he hp => ?_
    · rw [decide_eq_true_eq]
      dsimp only
      omega
    · rw [decide_eq_true_eq] at hp
      exact hmin e he (by omega)

lemma getChunk_eq_some : getChunk T L.index (n + 1) = some c ↔ c ∈ L.chunks ∧ c.start ≤ firstByte T n ∧ firstByte T n < c.stop := by
  rw [getChunk, getChunkSeekOffset_eq]
  dsimp only
  rw [Int.toNat_natCast]
  constructor
  · intro h
    obtain ⟨⟨k, d⟩, hnext, h⟩ := Option.bind_eq_some_iff.mp h
    dsimp only at h
    split_ifs at h with hsize
    cases h
    have hmem : (k, c) ∈ L.index.entries ∧ firstByte T n + 1 ≤ k := by
      rw [getNextByPrefix, Option.or_eq_some_iff] at hnext
      obtain hfind | ⟨-, hfind⟩ := hnext
      · have hp := List.find?_some hfind
        rw [decide_eq_true_eq] at hp
        exact ⟨List.mem_of_find?_eq_some hfind, hp.1⟩
      · have hp := List.find?_some hfind
        rw [decide_eq_true_eq] at hp
        exact ⟨List.mem_of_find?_eq_some hfind, by dsimp only at hp; omega⟩
    obtain ⟨hc, heq⟩ := DataLayout.mem_index.mp hmem.1
    replace heq : c.stop = k := heq
    subst heq
    have hnonempty := L.nonempty c hc
    have hle := hmem.2
    refine ⟨hc, ?_, ?_⟩
    · omega
    · omega
  · rintro ⟨hc, hcn⟩
    rw [getNextByPrefix_eq hc hcn]
    have hnonempty := L.nonempty c hc
    refine if_neg ?_
    dsimp only
    omega

lemma getChunk_eq_some_of_le (h : T ≤ n) :
    getChunk T L.index (n + 1) = some c ↔ c ∈ L.chunks ∧ T < c.stop ∧ bucketStart T (c.stop - 1) = bucketStart T n := by
  have hS : 0 < dataChunkSize := by decide
  rw [getChunk_eq_some, firstByte, if_pos h]
  refine and_congr_right fun hc => ⟨fun ⟨hstart, hstop⟩ => ?_, fun ⟨hT, heq⟩ => ?_⟩
  · have hsize := L.size_le c hc
    have hT : T < c.stop := (Nat.le_add_right _ _).trans_lt hstop
    refine ⟨hT, ?_⟩
    rw [bucketStart] at hstart hstop ⊢
    rw [bucketStart]
    have hdiv : (c.stop - 1 - T) / dataChunkSize = (n - T) / dataChunkSize := by
      rw [Nat.div_eq_iff hS]
      constructor
      · omega
      · omega
    rw [hdiv]
  · have hcover := L.covers c hc hT
    rw [← heq]
    refine ⟨hcover, ?_⟩
    have hle := Nat.div_mul_le_self (c.stop - 1 - T) dataChunkSize
    rw [bucketStart]
    omega

end Miner

end Arweave.Poa

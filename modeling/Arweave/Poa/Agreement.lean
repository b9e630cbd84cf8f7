import Arweave.Poa.RecallChunk

/-!
# Miner and validator mean the same chunk

The chunk that a miner finds in the index for a recall byte is the one that every proof accepted by the
validator is about, as long as the data path of the proof marks the subtrees that are rebased in the
layout. The path of the layout is accepted.
-/

namespace Arweave.Poa

open Lib Merkle

variable {H : Digest 32} {T : Nat} {L : DataLayout H T} {b : DataBlock H} {Packing : Type} {args : ValidateArgs Packing}

namespace DataBlock

/-- The place in the tree of transactions of an offset in the block. -/
def txAt (b : DataBlock H) (offset : Nat) : Chunk := b.txTree.covering 0 b.size offset

/-- The strings hashed for the trees of the block. -/
def strings (b : DataBlock H) : List Bytes :=
  b.txTree.strings H ++ (b.txTree.chunks 0 b.size).flatMap fun x => ((b.dataTree x).map fun t => t.strings H).getD []

lemma txAt_spec {offset : Nat} (h : offset < b.size) :
    b.txAt offset ∈ b.txTree.chunks 0 b.size ∧ (b.txAt offset).start ≤ offset ∧ offset < (b.txAt offset).stop ∧
      (b.txAt offset).stop ≤ b.size := by
  obtain ⟨hmem, hstart, hstop⟩ := Layout.covering_mem b.spans (by omega) (show (offset : Int) < b.size by omega)
  exact ⟨hmem, by exact_mod_cast hstart, by exact_mod_cast hstop, ((Layout.chunks_spec b.spans).1 _ hmem).2.2⟩

lemma txTree_strings_sub : ∀ s ∈ b.txTree.strings H, s ∈ b.strings := fun _ hs => List.mem_append_left _ hs

lemma dataTree_strings_sub {x : Chunk} {t : Layout} (hx : x ∈ b.txTree.chunks 0 b.size) (ht : b.dataTree x = some t) :
    ∀ s ∈ t.strings H, s ∈ b.strings := by
  intro s hs
  refine List.mem_append_right _ (List.mem_flatMap.mpr ⟨x, hx, ?_⟩)
  rw [ht]
  exact hs

end DataBlock

/-- The question about a byte of a block. -/
structure Asks (args : ValidateArgs Packing) (b : DataBlock H) (T : Nat) : Prop where
  start : args.blockStartOffset = b.start
  size : args.blockSize = b.size
  root : args.txRoot = b.txTree.id H
  threshold : args.strictDataSplitThreshold = T
  le_recall : b.start ≤ args.recallOffset
  recall_lt : args.recallOffset < b.start + b.size

/-- The offset in the block at which the chunk is looked for. -/
def recallByte (args : ValidateArgs Packing) : Nat :=
  firstByte args.strictDataSplitThreshold args.recallOffset - args.blockStartOffset

def ValidateArgs.ruleset (args : ValidateArgs Packing) : Ruleset :=
  getDataPathValidationRuleset args.blockStartOffset args.merkleRebaseSupportThreshold args.strictDataSplitThreshold

/-- The data path marks the subtrees that are rebased in the layout. Without rebasing there are none. -/
def MarksFit (args : ValidateArgs Packing) (b : DataBlock H) : Prop :=
  let x := b.txAt (recallByte args)
  let dest := recallByte args - x.start
  ∀ t, b.dataTree x = some t →
    (args.ruleset.checks.allowRebase = false → ∀ u ∈ t.subtrees, u.rebased = false) ∧
      (args.ruleset.checks.allowRebase = true →
        MarksAgree (descent true (.start dest (x.stop - x.start : Nat)) args.spoa.dataPath) (t.turns 0 dest))

lemma start_le_firstByte (hb : b ∈ L.blocks) (h : Asks args b T) : b.start ≤ firstByte T args.recallOffset := by
  rw [firstByte]
  split_ifs with hT
  · by_cases hstart : T ≤ b.start
    · -- the block starts at a bucket, not after the bucket of the byte
      obtain ⟨k, hk⟩ := L.aligned b hb hstart
      have hle : k ≤ (args.recallOffset - T) / dataChunkSize := by
        rw [Nat.le_div_iff_mul_le (by decide), Nat.mul_comm, ← hk]
        have := h.le_recall
        omega
      have hmul := Nat.mul_le_mul_right dataChunkSize hle
      rw [Nat.mul_comm k, ← hk] at hmul
      rw [bucketStart]
      omega
    · rw [bucketStart]
      omega
  · exact h.le_recall

lemma recallBucketOffset_eq (hb : b ∈ L.blocks) (h : Asks args b T) : recallBucketOffset args = recallByte args := by
  have hle := start_le_firstByte hb h
  rw [recallBucketOffset, recallByte, h.threshold, h.start]
  rw [firstByte] at hle ⊢
  split_ifs at hle ⊢ with hT
  · rw [getPaddedOffset_eq hT]
    omega
  · omega

lemma recallByte_lt (hb : b ∈ L.blocks) (h : Asks args b T) : recallByte args < b.size := by
  have hle := start_le_firstByte hb h
  have hfirst : firstByte T args.recallOffset ≤ args.recallOffset := firstByte_le
  have hlt := h.recall_lt
  rw [recallByte, h.threshold, h.start]
  omega

section Descents

lemma covering_mem_chunks {x : Chunk} {t : Layout} {offset : Nat} (hb : b ∈ L.blocks)
    (hx : x ∈ b.txTree.chunks 0 b.size) (ht : b.dataTree x = some t) (hstart : x.start ≤ offset) (hstop : offset < x.stop) :
    let c := (t.covering 0 (x.stop - x.start) (offset - x.start : Nat)).shift (b.start + x.start)
    c ∈ L.chunks ∧ c.start ≤ b.start + offset ∧ b.start + offset < c.stop := by
  have hspan := (b.data_spans x hx t ht).2
  obtain ⟨hmem, hle, hlt⟩ := Layout.covering_mem hspan (show ((0 : Nat) : Int) ≤ (offset - x.start : Nat) by omega) (by omega)
  refine ⟨List.mem_flatMap.mpr ⟨b, hb, List.mem_flatMap.mpr ⟨x, hx, ?_⟩⟩, ?_, ?_⟩
  · rw [DataBlock.txChunks, ht]
    exact List.mem_map_of_mem hmem
  · simp only [Chunk.shift]
    omega
  · simp only [Chunk.shift]
    omega

variable {chunk : DataPath}

lemma locate_some (h : locate H args = .ok (some chunk)) :
    ∃ tx inner : DataPath,
      validatePath H args.txRoot (recallBucketOffset args) args.blockSize args.spoa.txPath .basic = .ok (some tx) ∧
      validatePath H tx.leaf (recallBucketOffset args - tx.startOffset) (tx.endOffset - tx.startOffset)
        args.spoa.dataPath args.ruleset = .ok (some inner) ∧
      chunk = ⟨inner.leaf, args.blockStartOffset + tx.startOffset + inner.startOffset,
        args.blockStartOffset + tx.startOffset + inner.endOffset⟩ := by
  rw [locate, ← ValidateArgs.ruleset] at h
  dsimp only [bind, Except.bind] at h
  cases htx : validatePath H args.txRoot (recallBucketOffset args) args.blockSize args.spoa.txPath .basic with
  | error e =>
    rw [htx] at h
    cases h
  | ok tx =>
    rw [htx] at h
    cases tx with
    | none => cases h
    | some tx =>
      dsimp only at h
      cases hinner : validatePath H tx.leaf (recallBucketOffset args - tx.startOffset)
          (tx.endOffset - tx.startOffset) args.spoa.dataPath args.ruleset with
      | error e =>
        rw [hinner] at h
        cases h
      | ok inner =>
        rw [hinner] at h
        cases inner with
        | none => cases h
        | some inner =>
          cases h
          exact ⟨tx, inner, rfl, hinner, rfl⟩

lemma length_leaf_of_validatePath {id path : Bytes} {dest rightBound : Int} {ruleset : Ruleset} {res : DataPath}
    (h : validatePath H id dest rightBound path ruleset = .ok (some res)) : res.leaf.length = 32 := by
  replace h := (validatePath_ok h).2
  generalize Cursor.start dest rightBound = c at h
  induction hn : path.length using Nat.strong_induction_on generalizing id path c with
  | _ n ih =>
    obtain ⟨data, e, hseg, -, -, hleaf⟩ | ⟨marked, l, r, note, rest, hseg, -, hrest⟩ := validatePathFrom_some h
    · obtain ⟨-, rfl⟩ := validateLeaf_some hleaf
      unfold Merkle.segment at hseg
      split_ifs at hseg with hlen
      cases hseg
      rw [List.length_take, hlen]
      rfl
    · exact ih rest.length (hn ▸ segment_ofNode_rest_lt hseg) _ hrest rfl

/-- An accepted proof is about the chunk of the layout with the first byte. -/
lemma locate_sound (hb : b ∈ L.blocks) (h : Asks args b T) (hlt : b.size < 256 ^ noteSize)
    (hs : H.CollisionFree (b.strings ++ (hashedStrings H false args.spoa.txPath ++
      hashedStrings H args.ruleset.checks.allowRebase args.spoa.dataPath)))
    (hmarks : MarksFit args b) (hloc : locate H args = .ok (some chunk)) :
    ∃ c ∈ L.chunks, (c.start ≤ firstByte T args.recallOffset ∧ firstByte T args.recallOffset < c.stop) ∧
      chunk = ⟨c.data, c.start, c.stop⟩ := by
  obtain ⟨tx, inner, htx, hinner, rfl⟩ := locate_some hloc
  have hoff := recallBucketOffset_eq hb h
  have hoffset := recallByte_lt hb h
  have hstart := start_le_firstByte hb h
  have hrecall : recallByte args = firstByte T args.recallOffset - b.start := by
    rw [recallByte, h.threshold, h.start]
  obtain ⟨hx, hxstart, hxstop, hxsize⟩ := DataBlock.txAt_spec hoffset
  have hstrings : H.CollisionFree (b.txTree.strings H ++ hashedStrings H Ruleset.basic.checks.allowRebase args.spoa.txPath) := by
    refine hs.mono fun s hs' => ?_
    obtain hs' | hs' := List.mem_append.mp hs'
    · exact List.mem_append_left _ (DataBlock.txTree_strings_sub s hs')
    · exact List.mem_append_right _ (List.mem_append_left _ hs')
  have hunmarked : MarksAgree (descent Ruleset.basic.checks.allowRebase (.start (recallByte args) b.size) args.spoa.txPath)
      (b.txTree.turns 0 (recallByte args)) :=
    marksAgree_of_unmarked (descent_unmarked _ _) (Layout.turns_unmarked b.unmarked _)
  rw [h.root, h.size, hoff] at htx
  have heq := Layout.eq_covering_of_validatePath b.spans hlt hstrings hoffset hunmarked htx
  change tx = ⟨(b.txAt (recallByte args)).data, (b.txAt (recallByte args)).start, (b.txAt (recallByte args)).stop⟩ at heq
  have hlen := length_leaf_of_validatePath htx
  subst heq
  rw [MarksFit] at hmarks
  generalize b.txAt (recallByte args) = x at *
  cases ht : b.dataTree x with
  | none => exact absurd hlen (b.no_data x hx ht)
  | some t =>
    obtain ⟨hid, hspan⟩ := b.data_spans x hx t ht
    obtain ⟨hplain, hrebase⟩ := hmarks t ht
    have hdest : recallByte args - x.start < x.stop - x.start := by omega
    have hstrings' : H.CollisionFree (t.strings H ++ hashedStrings H args.ruleset.checks.allowRebase args.spoa.dataPath) := by
      refine hs.mono fun s hs' => ?_
      obtain hs' | hs' := List.mem_append.mp hs'
      · exact List.mem_append_left _ (DataBlock.dataTree_strings_sub hx ht s hs')
      · exact List.mem_append_right _ (List.mem_append_right _ hs')
    have hagree : MarksAgree (descent args.ruleset.checks.allowRebase (.start (recallByte args - x.start : Nat)
        (x.stop - x.start : Nat)) args.spoa.dataPath) (t.turns 0 (recallByte args - x.start : Nat)) := by
      cases hallow : args.ruleset.checks.allowRebase with
      | false => exact marksAgree_of_unmarked (descent_unmarked _ _) (Layout.turns_unmarked (hplain hallow) _)
      | true => exact hrebase hallow
    rw [hoff] at hinner
    dsimp only at hinner
    rw [← Nat.cast_sub hxstart, ← Nat.cast_sub (by omega), hid] at hinner
    have heq := Layout.eq_covering_of_validatePath hspan (by omega) hstrings' hdest hagree hinner
    subst heq
    obtain ⟨hmem, hle, hlt'⟩ := covering_mem_chunks hb hx ht hxstart hxstop
    refine ⟨_, hmem, ⟨by omega, by omega⟩, ?_⟩
    rw [h.start]
    simp [Chunk.shift]

lemma exists_dataTree {c : Chunk} (hb : b ∈ L.blocks) (h : Asks args b T) (hc : c ∈ L.chunks)
    (hcn : c.start ≤ firstByte T args.recallOffset ∧ firstByte T args.recallOffset < c.stop) :
    ∃ t, b.dataTree (b.txAt (recallByte args)) = some t := by
  obtain ⟨b', hb', hc⟩ := List.mem_flatMap.mp hc
  obtain ⟨x, hx, hc⟩ := List.mem_flatMap.mp hc
  have hoffset := recallByte_lt hb h
  have hstart := start_le_firstByte hb h
  have hrecall : recallByte args = firstByte T args.recallOffset - b.start := by
    rw [recallByte, h.threshold, h.start]
  have hcx := (DataBlock.txChunks_spec hx).1 c hc
  have hxsize := (Layout.chunks_spec b'.spans).1 x hx
  obtain rfl : b = b' := by
    by_contra hne
    have := related_of_pairwise L.ordered hb hb' hne
    omega
  obtain ⟨hy, hystart, hystop, -⟩ := DataBlock.txAt_spec hoffset
  obtain rfl : b.txAt (recallByte args) = x := by
    by_contra hne
    have := related_of_pairwise (Layout.chunks_spec b.spans).2 hy hx hne
    omega
  rw [DataBlock.txChunks] at hc
  cases ht : b.dataTree (b.txAt (recallByte args)) with
  | none =>
    rw [ht] at hc
    exact absurd hc List.not_mem_nil
  | some t => exact ⟨t, rfl⟩

/-- The proof of the chunk with the first byte, made from the layout. -/
def withPaths (args : ValidateArgs Packing) (b : DataBlock H) (t : Layout) : ValidateArgs Packing :=
  let x := b.txAt (recallByte args)
  { args with
    spoa :=
      { chunk := args.spoa.chunk
        txPath := b.txTree.honestPath H Layout.rebased 0 (recallByte args)
        dataPath := t.honestPath H Layout.rebased 0 (recallByte args - x.start : Nat) } }

/-- What the ruleset demands of the data tree and of the chunk with the first byte, besides its size. -/
structure Admits (args : ValidateArgs Packing) (b : DataBlock H) (t : Layout) : Prop where
  plain : args.ruleset.checks.allowRebase = false → ∀ u ∈ t.subtrees, u.rebased = false
  no_mark : args.ruleset.checks.allowRebase = true → ∀ u ∈ t.subtrees, u.id H ≠ rebaseMark
  split :
    let x := b.txAt (recallByte args)
    let dest := recallByte args - x.start
    let c := t.covering 0 (x.stop - x.start) dest
    isSplitValid args.ruleset.checks (x.stop - x.start : Nat) ⟨dest, c.start, c.stop, some false, 0⟩ c.stop = true

/-- The proof made from the layout is accepted and is about the chunk with the first byte. -/
lemma locate_withPaths {c : Chunk} {t : Layout} (hb : b ∈ L.blocks) (h : Asks args b T) (hlt : b.size < 256 ^ noteSize)
    (ht : b.dataTree (b.txAt (recallByte args)) = some t) (hadmits : Admits args b t) (hc : c ∈ L.chunks)
    (hcn : c.start ≤ firstByte T args.recallOffset ∧ firstByte T args.recallOffset < c.stop) :
    locate H (withPaths args b t) = .ok (some ⟨c.data, c.start, c.stop⟩) := by
  have hoff := recallBucketOffset_eq hb h
  have hoffset := recallByte_lt hb h
  have hstart := start_le_firstByte hb h
  have hrecall : recallByte args = firstByte T args.recallOffset - b.start := by
    rw [recallByte, h.threshold, h.start]
  obtain ⟨hx, hxstart, hxstop, hxsize⟩ := DataBlock.txAt_spec hoffset
  obtain ⟨hid, hspan⟩ := b.data_spans _ hx t ht
  obtain ⟨hmem, hle, hlt'⟩ := covering_mem_chunks hb hx ht hxstart hxstop
  have heq := DataLayout.eq_of_mem hmem hc (n := firstByte T args.recallOffset) (by omega) hcn
  have htx : validatePath H (b.txTree.id H) (recallByte args) b.size
      (b.txTree.honestPath H Layout.rebased 0 (recallByte args)) .basic =
      .ok (some ⟨(b.txAt (recallByte args)).data, (b.txAt (recallByte args)).start, (b.txAt (recallByte args)).stop⟩) := by
    refine Layout.validatePath_covered b.spans hlt hoffset ?_ (fun _ => b.unmarked) (fun h => nomatch h)
      (fun h => nomatch h) rfl
    change (b.txAt (recallByte args)).data.length = 32
    rw [hid, Layout.length_id]
  have hdest : recallByte args - (b.txAt (recallByte args)).start <
      (b.txAt (recallByte args)).stop - (b.txAt (recallByte args)).start := by omega
  have hinner := @Layout.validatePath_covered H t args.ruleset _ _ hspan (by omega) hdest
    (b.data_ids _ hx t ht _ (Layout.covering_mem hspan (by omega) (by omega)).1) hadmits.plain hadmits.no_mark ?_
    hadmits.split
  · rw [locate]
    change (validatePath H args.txRoot (recallBucketOffset args) args.blockSize
      (b.txTree.honestPath H Layout.rebased 0 (recallByte args)) .basic >>= _) = _
    rw [h.root, h.size, hoff, htx]
    change (validatePath H (b.txAt (recallByte args)).data (recallBucketOffset args - (b.txAt (recallByte args)).start)
      ((b.txAt (recallByte args)).stop - (b.txAt (recallByte args)).start)
      (t.honestPath H Layout.rebased 0 (recallByte args - (b.txAt (recallByte args)).start : Nat)) args.ruleset).bind _ = _
    rw [hoff, ← Nat.cast_sub hxstart, ← Nat.cast_sub (by omega), hid, hinner, ← heq]
    change Except.ok (some (DataPath.mk _ (args.blockStartOffset + _ + _) (args.blockStartOffset + _ + _))) = _
    rw [h.start]
    simp [Chunk.shift]
  · intro _
    have hsize := L.size_le _ hmem
    simp only [Chunk.shift] at hsize
    omega

lemma locate_of_valid {unpack : Packing → Int → Bytes → Bytes → Int → UnpackReply} {id : Bytes}
    (h : validate H unpack args = .ok (.valid id)) : ∃ chunk, locate H args = .ok (some chunk) ∧ chunk.leaf = id := by
  rw [validate] at h
  cases hloc : locate H args with
  | error e =>
    rw [hloc] at h
    cases h
  | ok found =>
    rw [hloc] at h
    cases found with
    | none => cases h
    | some chunk =>
      refine ⟨chunk, rfl, ?_⟩
      dsimp only [bind, Except.bind] at h
      split at h
      · split at h
        · cases h
        · cases h
        · split_ifs at h
          · cases h
            rfl
          · cases h
      · split_ifs at h
        · cases h
          rfl
        · cases h

end Descents

/-- Every accepted proof with the marks of the layout is about the chunk that the miner finds, and the miner's
chunk has an accepted proof when the ruleset admits the chunk. From the threshold on it is the chunk that
ends in the bucket of the recall byte, and below the threshold the chunk with the byte. -/
theorem miner_and_validator_agree (L : DataLayout H T) (b : DataBlock H) (hb : b ∈ L.blocks) (args : ValidateArgs Packing)
    (h : Asks args b T) (hlt : b.size < 256 ^ noteSize) :
    (H.CollisionFree (b.strings ++ (hashedStrings H false args.spoa.txPath ++
        hashedStrings H args.ruleset.checks.allowRebase args.spoa.dataPath)) → MarksFit args b →
      (∀ chunk, locate H args = .ok (some chunk) →
        ∃ c, getChunk T L.index (args.recallOffset + 1) = some c ∧ chunk = ⟨c.data, c.start, c.stop⟩) ∧
      (∀ unpack id, validate H unpack args = .ok (.valid id) →
        ∃ c, getChunk T L.index (args.recallOffset + 1) = some c ∧ id = c.data)) ∧
    (∀ c, getChunk T L.index (args.recallOffset + 1) = some c →
      ∃ t, b.dataTree (b.txAt (recallByte args)) = some t ∧
        (Admits args b t → locate H (withPaths args b t) = .ok (some ⟨c.data, c.start, c.stop⟩))) ∧
    (T ≤ args.recallOffset → ∀ c, getChunk T L.index (args.recallOffset + 1) = some c ↔
      c ∈ L.chunks ∧ T < c.stop ∧ bucketStart T (c.stop - 1) = bucketStart T args.recallOffset) ∧
    (args.recallOffset < T → ∀ c, getChunk T L.index (args.recallOffset + 1) = some c ↔
      c ∈ L.chunks ∧ c.start ≤ args.recallOffset ∧ args.recallOffset < c.stop) ∧
    (∀ offset, T < offset → ∃ k : Nat, getPaddedOffset offset T = T + k * dataChunkSize ∧
      offset ≤ T + k * dataChunkSize ∧ ∀ j : Nat, offset ≤ T + j * dataChunkSize → k ≤ j) := by
  refine ⟨fun hs hmarks => ?_, fun c hc => ?_, fun hT c => getChunk_eq_some_of_le hT, fun hT c => ?_,
    fun offset hT => getPaddedOffset_isLeast hT⟩
  · have hsound : ∀ chunk, locate H args = .ok (some chunk) →
        ∃ c, getChunk T L.index (args.recallOffset + 1) = some c ∧ chunk = ⟨c.data, c.start, c.stop⟩ := by
      intro chunk hloc
      obtain ⟨c, hc, hcn, heq⟩ := locate_sound hb h hlt hs hmarks hloc
      exact ⟨c, getChunk_eq_some.mpr ⟨hc, hcn⟩, heq⟩
    refine ⟨hsound, fun unpack id hvalid => ?_⟩
    obtain ⟨chunk, hloc, rfl⟩ := locate_of_valid hvalid
    obtain ⟨c, hc, rfl⟩ := hsound chunk hloc
    exact ⟨c, hc, rfl⟩
  · obtain ⟨hmem, hcn⟩ := getChunk_eq_some.mp hc
    obtain ⟨t, ht⟩ := exists_dataTree hb h hmem hcn
    exact ⟨t, ht, fun hadmits => locate_withPaths hb h hlt ht hadmits hmem hcn⟩
  · rw [getChunk_eq_some, firstByte, if_neg (by omega)]

/-- A block with one transaction. -/
def DataBlock.single (H : Digest 32) (start size : Nat) (t : Layout) (hspan : t.Spans 0 size)
    (hids : ∀ c ∈ t.chunks 0 size, c.data.length = 32) : DataBlock H where
  start := start
  size := size
  txTree := .leaf false (t.id H) size
  dataTree := fun _ => some t
  spans := ⟨rfl, Nat.zero_le _⟩
  unmarked := fun u hu => by
    cases List.mem_singleton.mp hu
    rfl
  data_spans := fun x hx t' ht => by
    cases List.mem_singleton.mp hx
    cases ht
    exact ⟨rfl, hspan⟩
  data_ids := fun x hx t' ht => by
    cases List.mem_singleton.mp hx
    cases ht
    exact hids
  no_data := fun _ _ h => nomatch h

/-- Four chunks after another chunk, in a subtree that may be rebased. -/
def sampleLayout (rebased : Bool) : Layout :=
  let chunk (i : UInt8) (note : Nat) : Layout := .leaf false (List.replicate 32 i) note
  .branch false (chunk 1 262144)
    (.branch rebased (.branch false (chunk 2 262144) (chunk 3 524288) 262144)
      (.branch false (chunk 4 786432) (chunk 5 1048576) 786432) 524288) 262144

def sampleBlocks : DataBlock Sha2.sha256 × DataBlock Sha2.sha256 :=
  (.single _ 0 262144 (.leaf false (List.replicate 32 9) 262144) ⟨rfl, by decide⟩ (by decide),
    .single _ 262144 1310720 (sampleLayout true)
      (by simp [sampleLayout, Layout.Spans, Layout.base, Layout.rebased]) (by decide))

/-- One block below the threshold and one above it. -/
def sampleWeaveLayout : DataLayout Sha2.sha256 262144 where
  blocks := [sampleBlocks.1, sampleBlocks.2]
  ordered := by
    refine List.pairwise_cons.mpr ⟨fun c hc => ?_, List.pairwise_singleton _ _⟩
    cases List.mem_singleton.mp hc
    decide
  aligned := by
    intro b hb _
    obtain rfl | rfl : b = sampleBlocks.1 ∨ b = sampleBlocks.2 := by simpa using hb
    · exact ⟨0, by decide⟩
    · exact ⟨0, by decide⟩
  nonempty := by decide
  size_le := by decide
  covers := by decide

/-- The question for a byte of the second chunk of the second block. -/
def sampleArgs (dataPath : Bytes) : ValidateArgs Unit where
  blockStartOffset := 262144
  recallOffset := 700000
  txRoot := sampleBlocks.2.txTree.id Sha2.sha256
  blockSize := 1310720
  spoa :=
    { chunk := []
      txPath := sampleBlocks.2.txTree.honestPath Sha2.sha256 Layout.rebased 0 262144
      dataPath := dataPath }
  strictDataSplitThreshold := 262144
  packing := ()
  merkleRebaseSupportThreshold := some 262144
  expectedChunkID := none

def samplePath (rebased : Bool) : Bytes := (sampleLayout rebased).honestPath Sha2.sha256 Layout.rebased 0 262144

set_option maxRecDepth 10000 in
lemma collisionFree_sampleBlocks : Sha2.sha256.CollisionFree sampleBlocks.2.strings := by
  decide

set_option maxRecDepth 10000 in
lemma hashed_samplePath_mem : ∀ rebased, ∀ x ∈ sampleBlocks.2.strings ++
    (hashedStrings Sha2.sha256 false (sampleArgs (samplePath rebased)).spoa.txPath ++
      hashedStrings Sha2.sha256 true (sampleArgs (samplePath rebased)).spoa.dataPath), x ∈ sampleBlocks.2.strings := by
  decide +kernel

set_option maxRecDepth 10000 in
lemma locate_samplePath :
    (∀ rebased, locate Sha2.sha256 (sampleArgs (samplePath rebased)) =
      .ok (some ⟨List.replicate 32 (if rebased then 2 else 3), 524288, 786432⟩)) ∧
    descent true (.start (262144 : Nat) (1310720 : Nat)) (samplePath true) =
      [(true, true), (false, false), (false, false)] := by
  constructor <;> decide +kernel

set_option maxRecDepth 10000 in
theorem miner_and_validator_agree_sample :
    getChunk 262144 sampleWeaveLayout.index 700001 = some ⟨List.replicate 32 2, 524288, 786432⟩ ∧
      locate Sha2.sha256 (sampleArgs (samplePath true)) = .ok (some ⟨List.replicate 32 2, 524288, 786432⟩) := by
  have hasks : Asks (sampleArgs (samplePath true)) sampleBlocks.2 262144 :=
    ⟨rfl, rfl, rfl, rfl, by decide, by decide⟩
  have hagree := miner_and_validator_agree sampleWeaveLayout sampleBlocks.2 (by simp [sampleWeaveLayout])
    (sampleArgs (samplePath true)) hasks (by decide)
  have hmarks : MarksFit (sampleArgs (samplePath true)) sampleBlocks.2 := by
    intro t ht
    cases ht
    refine ⟨fun h => absurd h (by decide), fun _ => ?_⟩
    have hturns : (sampleLayout true).turns 0 (262144 : Nat) = [(true, true), (false, false), (false, false)] := by
      decide
    change MarksAgree (descent true (.start (262144 : Nat) (1310720 : Nat)) (samplePath true))
      ((sampleLayout true).turns 0 (262144 : Nat))
    rw [locate_samplePath.2, hturns]
    exact fun _ => ⟨rfl, fun _ => ⟨rfl, fun _ => ⟨rfl, trivial⟩⟩⟩
  have hloc := locate_samplePath.1 true
  obtain ⟨c, hc, heq⟩ := (hagree.1 (collisionFree_sampleBlocks.mono (hashed_samplePath_mem true)) hmarks).1 _ hloc
  obtain ⟨data, start, stop⟩ := c
  simp only [DataPath.mk.injEq] at heq
  obtain ⟨rfl, hstart, hstop⟩ := heq
  obtain rfl : 524288 = start := by exact_mod_cast hstart
  obtain rfl : 786432 = stop := by exact_mod_cast hstop
  exact ⟨hc, hloc⟩

set_option maxRecDepth 10000 in
/-- Without the mark of the rebased subtree the path leads to its second chunk in place of its first. -/
theorem unmarked_path_proves_other_chunk :
    let args := sampleArgs (samplePath false)
    getChunk 262144 sampleWeaveLayout.index (args.recallOffset + 1) = some ⟨List.replicate 32 2, 524288, 786432⟩ ∧
      locate Sha2.sha256 args = .ok (some ⟨List.replicate 32 3, 524288, 786432⟩) ∧
      validate Sha2.sha256 (fun _ _ _ _ _ => .error) { args with expectedChunkID := some (List.replicate 32 3) } =
        .ok (.valid (List.replicate 32 3)) ∧
      Sha2.sha256.CollisionFree (sampleBlocks.2.strings ++ (hashedStrings Sha2.sha256 false args.spoa.txPath ++
        hashedStrings Sha2.sha256 true args.spoa.dataPath)) := by
  have hloc := locate_samplePath.1 false
  refine ⟨by decide, hloc, ?_, collisionFree_sampleBlocks.mono (hashed_samplePath_mem false)⟩
  -- the answer does not depend on the expected chunk
  have hloc' : locate Sha2.sha256 { sampleArgs (samplePath false) with expectedChunkID := some (List.replicate 32 3) } =
    .ok (some ⟨List.replicate 32 3, 524288, 786432⟩) := hloc
  rw [validate, hloc']
  rfl

end Arweave.Poa

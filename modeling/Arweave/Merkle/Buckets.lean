import Arweave.Merkle.Layout
import Arweave.Merkle.Binding

/-!
# Chunks and buckets

The rulesets with a split check keep the chunks of a root in different buckets of 256 KiB. The bucket of a chunk is
that of its last byte. The strict check looks at the offsets that the parents of a leaf leave to it, the relaxed one
at the end offset that the leaf records.
-/

namespace Arweave.Merkle
open Arweave.Lib

/-- The number of the bucket in which a chunk ends. -/
def DataPath.bucket (res : DataPath) : Int := (res.endOffset - 1).tdiv dataChunkSize

/-- The first byte of this bucket. -/
def DataPath.bucketStart (res : DataPath) : Int := (res.endOffset - 1) - (res.endOffset - 1).tmod dataChunkSize

/-- The cursor at the leaf of a path, and the end offset of the leaf. -/
def leafAt (allowRebase : Bool) (c : Cursor) (path : Bytes) : Option (Cursor × Nat) :=
  match _h : segment allowRebase path with
  | .leaf _ endOffset => some (c, endOffset)
  | .rebase _ _ note rest => leafAt allowRebase (c.rebase note) rest
  | .node _ _ note rest => leafAt allowRebase (c.descend note) rest
  | .invalid => none
termination_by path.length
decreasing_by
  · exact segment_rebase_rest_lt _h
  · exact segment_node_rest_lt _h

/-- The right bound of the leaf does not move its end offset into another bucket. -/
def EndsInBucket (allowRebase : Bool) (c : Cursor) (path : Bytes) : Prop :=
  ∀ d e, leafAt allowRebase c path = some (d, e) →
    (d.leftBoundShift + min d.rightBound e - 1).tdiv dataChunkSize = (d.leftBoundShift + e - 1).tdiv dataChunkSize

section Leaves

variable {H : Digest 32} {checks : Checks} {dataSize : Int} {id path : Bytes} {c d : Cursor} {endOffset : Nat}

lemma leafAt_leaf {allowRebase : Bool} {data : Bytes} (h : segment allowRebase path = .leaf data endOffset) :
    leafAt allowRebase c path = some (c, endOffset) := by
  rw [leafAt]
  split <;> simp_all

lemma leafAt_node {allowRebase marked : Bool} {l r rest : Bytes} {note : Nat}
    (h : segment allowRebase path = .ofNode marked l r note rest) :
    leafAt allowRebase c path = leafAt allowRebase (c.step marked note) rest := by
  rw [leafAt]
  cases marked <;> simp only [Segment.ofNode, Bool.false_eq_true, if_true, if_false] at h <;>
    split <;> simp_all [Cursor.step]

/-- The leaf below a single node. -/
lemma endsInBucket_of_segment {allowRebase marked : Bool} {l r data : Bytes} {note : Nat}
    (h : segment allowRebase path = .ofNode marked l r note (data ++ noteToBinary endOffset)) (hd : data.length = 32)
    (hn : endOffset < 256 ^ noteSize)
    (hbucket : ((c.step marked note).leftBoundShift + min (c.step marked note).rightBound endOffset - 1).tdiv
        dataChunkSize = ((c.step marked note).leftBoundShift + endOffset - 1).tdiv dataChunkSize) :
    EndsInBucket allowRebase c path := by
  intro d e hat
  rw [leafAt_node h, leafAt_leaf (segment_leafPath allowRebase hd hn)] at hat
  cases hat
  exact hbucket

lemma validatePathFrom_leafAt {res : DataPath} (hc : c.Inside) (h : validatePathFrom H checks dataSize id c path = some res) :
    ∃ d e, leafAt checks.allowRebase c path = some (d, e) ∧ d.Inside ∧ areBordersValid checks d e ∧
      isSplitValid checks dataSize d e ∧
      d.leftBoundShift + d.rightBound ≤ c.leftBoundShift + c.rightBound ∧
      (checks.allowRebase = false → d.leftBoundShift = c.leftBoundShift) ∧
      res.startOffset = d.leftBoundShift + d.leftBound ∧
      res.endOffset = d.leftBoundShift + max (min d.rightBound e) (d.leftBound + 1) := by
  induction hn : path.length using Nat.strong_induction_on generalizing id path c with
  | _ n ih =>
    rcases validatePathFrom_some h with ⟨data, e, hseg, hborders, hsplit, hleaf⟩ | ⟨marked, l, r, note, rest, hseg, -, hrest⟩
    · obtain ⟨-, rfl⟩ := validateLeaf_some hleaf
      exact ⟨c, e, leafAt_leaf hseg, hc, hborders, hsplit, le_rfl, fun _ => rfl, rfl, rfl⟩
    · obtain ⟨d, e, hat, hd, hborders, hsplit, hright, hshift, hstart, hend⟩ :=
        ih rest.length (hn ▸ segment_ofNode_rest_lt hseg) (hc.step marked note) hrest rfl
      have hwindow := (Cursor.step_window hc marked note).2.2.1
      refine ⟨d, e, (leafAt_node hseg).trans hat, hd, hborders, hsplit, hright.trans hwindow, fun hrebase => ?_, hstart, hend⟩
      have hunmarked : marked = false := segment_unmarked (by rw [← hrebase]; exact hseg)
      rw [hshift hrebase, hunmarked]
      by_cases hn : c.dest < note <;> simp [Cursor.step, Cursor.descend, hn]

end Leaves

section Buckets

variable {H : Digest 32} {root path : Bytes} {dest rightBound : Int} {res res' : DataPath}

lemma size_le_of_areBordersValid {checks : Checks} {d : Cursor} {e : Int} (hcheck : checks.checkBorders = true)
    (h : areBordersValid checks d e) : e - d.leftBound ≤ dataChunkSize ∧ d.rightBound - d.leftBound ≤ dataChunkSize := by
  simpa [areBordersValid, hcheck] using h

lemma bucket_ne (hcovers : res.bucketStart ∈ Set.Ico res.startOffset res.endOffset)
    (hcovers' : res'.bucketStart ∈ Set.Ico res'.startOffset res'.endOffset)
    (hdisjoint : Disjoint (Set.Ico res.startOffset res.endOffset) (Set.Ico res'.startOffset res'.endOffset)) :
    res.bucket ≠ res'.bucket := by
  intro heq
  have hsame : res.bucketStart = res'.bucketStart := by
    have hdiv := Int.tdiv_mul_add_tmod (res.endOffset - 1) dataChunkSize
    have hdiv' := Int.tdiv_mul_add_tmod (res'.endOffset - 1) dataChunkSize
    rw [DataPath.bucket, DataPath.bucket] at heq
    rw [heq] at hdiv
    simp only [DataPath.bucketStart]
    omega
  exact Set.disjoint_left.mp hdisjoint hcovers (hsame ▸ hcovers')

lemma covers_of_tmod_eq_zero (hstart : 0 ≤ res.startOffset) (hlt : res.startOffset < res.endOffset)
    (hsize : res.endOffset - res.startOffset ≤ dataChunkSize) (hmod : res.startOffset.tmod dataChunkSize = 0) :
    res.bucketStart ∈ Set.Ico res.startOffset res.endOffset := by
  rw [Int.tmod_eq_emod_of_nonneg hstart] at hmod
  simp only [DataPath.bucketStart, Set.mem_Ico]
  rw [Int.tmod_eq_emod_of_nonneg (by omega)]
  simp only [dataChunkSize] at hmod hsize ⊢
  omega

lemma strict_covers (h : validatePath H root dest rightBound path .strictDataSplit = .ok (some res)) :
    res.endOffset - res.startOffset ≤ dataChunkSize ∧ res.bucketStart ∈ Set.Ico res.startOffset res.endOffset := by
  obtain ⟨hstart0, hlt, -, -⟩ := validatePath_bounds h
  obtain ⟨hpos, h⟩ := validatePath_ok h
  obtain ⟨d, e, -, hd, hborders, hsplit, hright, hshift, hstart, hend⟩ := validatePathFrom_leafAt (Cursor.inside_start hpos) h
  obtain ⟨he, hwidth⟩ := size_le_of_areBordersValid rfl hborders
  have hleft := hd.left_le
  have hdest := hd.lt_right
  replace hshift : d.leftBoundShift = 0 := hshift rfl
  rw [hshift] at hstart hend hright
  replace hright : d.rightBound ≤ rightBound := by simpa [Cursor.start] using hright
  have hsize : res.endOffset - res.startOffset ≤ dataChunkSize := by
    simp only [dataChunkSize] at he hwidth ⊢
    omega
  refine ⟨hsize, ?_⟩
  have hzero : d.leftBound.tmod dataChunkSize = 0 → res.bucketStart ∈ Set.Ico res.startOffset res.endOffset :=
    fun hmod => covers_of_tmod_eq_zero hstart0 hlt hsize (by rw [hstart, zero_add]; exact hmod)
  simp only [isSplitValid, Ruleset.checks] at hsplit
  split_ifs at hsplit with hfull hlast
  · exact hzero (of_decide_eq_true hsplit)
  · -- the last chunk ends at its right bound, which is not the end of a bucket
    obtain ⟨hmod, hborder⟩ := of_decide_eq_true hsplit
    rw [Int.tmod_eq_emod_of_nonneg (by omega)] at hmod hborder
    simp only [DataPath.bucketStart, Set.mem_Ico]
    rw [Int.tmod_eq_emod_of_nonneg (by omega)]
    simp only [dataChunkSize] at hmod hborder ⊢
    omega
  · exact hzero (of_decide_eq_true hsplit).1

/-- A chunk of the relaxed split is not longer than a bucket. It covers the first byte of its bucket when its right bound
does not move its end into another one. -/
lemma relaxed_covers (h : validatePath H root dest rightBound path .offsetRebaseSupport = .ok (some res)) :
    res.endOffset - res.startOffset ≤ dataChunkSize ∧
      (EndsInBucket true (.start dest rightBound) path → res.bucketStart ∈ Set.Ico res.startOffset res.endOffset) := by
  obtain ⟨hstart0, hlt, -, -⟩ := validatePath_bounds h
  obtain ⟨hpos, h⟩ := validatePath_ok h
  obtain ⟨d, e, hat, hd, hborders, hsplit, -, -, hstart, hend⟩ := validatePathFrom_leafAt (Cursor.inside_start hpos) h
  obtain ⟨he, hwidth⟩ := size_le_of_areBordersValid rfl hborders
  have hshift := hd.shift_nonneg
  have hleft0 := hd.left_nonneg
  have hleft := hd.left_le
  have hdest := hd.lt_right
  have hsize : res.endOffset - res.startOffset ≤ dataChunkSize := by
    simp only [dataChunkSize] at he hwidth ⊢
    omega
  refine ⟨hsize, fun hclamp => ?_⟩
  by_cases hmod : res.startOffset.tmod dataChunkSize = 0
  · exact covers_of_tmod_eq_zero hstart0 hlt hsize hmod
  · -- the chunk does not start a bucket, so it is the last one and its recorded end is in the next bucket
    rw [hstart] at hmod
    have hspans : (d.leftBoundShift + d.leftBound).tdiv dataChunkSize + 1 = (d.leftBoundShift + e).tdiv dataChunkSize ∧
        (d.leftBoundShift + e).tmod dataChunkSize ≠ 0 := by
      simp only [isSplitValid, Ruleset.checks] at hsplit
      split at hsplit
      · exact (of_decide_eq_true hsplit).resolve_left hmod
      · exact (hmod (of_decide_eq_true hsplit)).elim
    have hbucket := hclamp d e hat
    obtain ⟨hnext, hrem⟩ := hspans
    rw [Int.tdiv_eq_ediv_of_nonneg (by omega), Int.tdiv_eq_ediv_of_nonneg (by omega)] at hnext
    rw [Int.tmod_eq_emod_of_nonneg (by omega)] at hrem hmod
    have hpast : d.leftBound < e := by
      simp only [dataChunkSize] at hnext
      omega
    rw [Int.tdiv_eq_ediv_of_nonneg (by omega), Int.tdiv_eq_ediv_of_nonneg (by omega)] at hbucket
    simp only [DataPath.bucketStart, Set.mem_Ico]
    rw [Int.tmod_eq_emod_of_nonneg (by omega)]
    simp only [dataChunkSize] at hnext hrem hmod hbucket ⊢
    omega

/-- Under the strict split, every chunk that can be proved covers the first byte of its bucket, and different chunks
of one root are in different buckets. -/
theorem strict_split_buckets (H : Digest 32) (root : Bytes) (rightBound : Int) :
    (∀ dest path res, validatePath H root dest rightBound path .strictDataSplit = .ok (some res) →
      res.endOffset - res.startOffset ≤ dataChunkSize ∧ res.bucketStart ∈ Set.Ico res.startOffset res.endOffset) ∧
    ∀ dest1 dest2 path1 path2 res1 res2,
      H.CollisionFree (hashedStrings H false path1 ++ hashedStrings H false path2) →
      validatePath H root dest1 rightBound path1 .strictDataSplit = .ok (some res1) →
      validatePath H root dest2 rightBound path2 .strictDataSplit = .ok (some res2) →
      res1 ≠ res2 → res1.bucket ≠ res2.bucket := by
  refine ⟨fun dest path res h => strict_covers h, ?_⟩
  intro dest1 dest2 path1 path2 res1 res2 hH h1 h2 hne
  have hdisjoint := (validatePath_binding .strictDataSplit hH
    (marksAgree_of_unmarked (descent_unmarked _ _) (descent_unmarked _ _)) h1 h2).2.resolve_left hne
  exact bucket_ne (strict_covers h1).2 (strict_covers h2).2 hdisjoint

theorem strict_split_buckets_fullAndShort :
    let (l, r, root) := fullAndShort
    let path1 := shallowPath l r 262144 (List.replicate 32 1) 262144
    let path2 := shallowPath l r 262144 (List.replicate 32 2) 300000
    validatePath Sha2.sha256 root 5 300000 path1 .strictDataSplit =
        .ok (some ⟨List.replicate 32 1, 0, 262144⟩) ∧
      validatePath Sha2.sha256 root 262150 300000 path2 .strictDataSplit =
        .ok (some ⟨List.replicate 32 2, 262144, 300000⟩) ∧
      (DataPath.mk (List.replicate 32 1) 0 262144).bucket ≠ (DataPath.mk (List.replicate 32 2) 262144 300000).bucket := by
  dsimp only
  obtain ⟨⟨h1, h2⟩, hfree⟩ := validatePath_fullAndShort
  exact ⟨h1, h2, (strict_split_buckets _ _ _).2 _ _ _ _ _ _ hfree h1 h2 (by decide)⟩

/-- Under the relaxed split, chunks are not longer than a bucket. Those whose right bounds leave their ends in their
buckets cover the first bytes of these, and they are in different buckets when the marks of their paths agree. -/
theorem relaxed_split_buckets (H : Digest 32) (root : Bytes) (rightBound : Int) :
    (∀ dest path res, validatePath H root dest rightBound path .offsetRebaseSupport = .ok (some res) →
      res.endOffset - res.startOffset ≤ dataChunkSize ∧
      (EndsInBucket true (.start dest rightBound) path → res.bucketStart ∈ Set.Ico res.startOffset res.endOffset)) ∧
    ∀ dest1 dest2 path1 path2 res1 res2,
      H.CollisionFree (hashedStrings H true path1 ++ hashedStrings H true path2) →
      MarksAgree (descent true (.start dest1 rightBound) path1) (descent true (.start dest2 rightBound) path2) →
      EndsInBucket true (.start dest1 rightBound) path1 → EndsInBucket true (.start dest2 rightBound) path2 →
      validatePath H root dest1 rightBound path1 .offsetRebaseSupport = .ok (some res1) →
      validatePath H root dest2 rightBound path2 .offsetRebaseSupport = .ok (some res2) →
      res1 ≠ res2 → res1.bucket ≠ res2.bucket := by
  refine ⟨fun dest path res h => relaxed_covers h, ?_⟩
  intro dest1 dest2 path1 path2 res1 res2 hH hmarks hends1 hends2 h1 h2 hne
  have hdisjoint := (validatePath_binding .offsetRebaseSupport hH hmarks h1 h2).2.resolve_left hne
  exact bucket_ne ((relaxed_covers h1).2 hends1) ((relaxed_covers h2).2 hends2) hdisjoint

theorem relaxed_split_buckets_rebasedRight :
    let (l, r, root) := rebasedRight
    let path1 := shallowPath l r 262144 (List.replicate 32 1) 262144
    let path2 := rebaseMark ++ shallowPath l r 262144 (List.replicate 32 2) 262144
    validatePath Sha2.sha256 root 0 524288 path1 .offsetRebaseSupport =
        .ok (some ⟨List.replicate 32 1, 0, 262144⟩) ∧
      validatePath Sha2.sha256 root 300000 524288 path2 .offsetRebaseSupport =
        .ok (some ⟨List.replicate 32 2, 262144, 524288⟩) ∧
      (DataPath.mk (List.replicate 32 1) 0 262144).bucket ≠ (DataPath.mk (List.replicate 32 2) 262144 524288).bucket := by
  dsimp only
  obtain ⟨⟨h1, -, hmarked⟩, ⟨-, hfree⟩, hseg1, hseg2⟩ := validatePath_rebasedRight
  have h2 := hmarked 300000 (by decide)
  have hends1 : EndsInBucket true (.start 0 524288) _ :=
    endsInBucket_of_segment hseg1 rfl (by decide) (by decide)
  have hends2 : EndsInBucket true (.start 300000 524288) _ :=
    endsInBucket_of_segment hseg2 rfl (by decide) (by decide)
  refine ⟨h1, h2, (relaxed_split_buckets _ _ _).2 _ _ _ _ _ _ hfree ?_ hends1 hends2 h1 h2 (by decide)⟩
  rw [descent_node hseg1, descent_node hseg2]
  exact fun hturn => absurd hturn (by decide)

/-- The identifiers of a chunk and of a pair of half a chunk and a long one, and of the node above them. -/
def halfAndLong : Bytes × Bytes × Bytes × Bytes × Bytes :=
  let x := leafHash Sha2.sha256 (List.replicate 32 1) 262144
  let a := leafHash Sha2.sha256 (List.replicate 32 2) 131072
  let b := leafHash Sha2.sha256 (List.replicate 32 3) 524288
  let pair := nodeHash Sha2.sha256 a b 131072
  (x, a, b, pair, nodeHash Sha2.sha256 x pair 262144)

/-- The identifiers of two leaves of which the second one records an end that is not in the data, and of their node. -/
def shortAndBeyond : Bytes × Bytes × Bytes :=
  let l := leafHash Sha2.sha256 (List.replicate 32 1) 100
  let r := leafHash Sha2.sha256 (List.replicate 32 2) 262200
  (l, r, nodeHash Sha2.sha256 l r 100)

set_option maxRecDepth 10000 in
/-- Under the relaxed split, different chunks of one root can be in one bucket: with and without the mark of a node, the
same place belongs to different leaves, and a leaf whose recorded end is beyond the data passes for a chunk that steps
into the next bucket. -/
theorem relaxed_split_bucket_shared :
    (let (x, a, b, pair, root) := halfAndLong
      let path1 := rebaseMark ++ x ++ pair ++ noteToBinary 262144 ++ shallowPath a b 131072 (List.replicate 32 2) 131072
      let path2 := x ++ pair ++ noteToBinary 262144 ++ shallowPath a b 131072 (List.replicate 32 3) 524288
      let res1 : DataPath := ⟨List.replicate 32 2, 262144, 393216⟩
      let res2 : DataPath := ⟨List.replicate 32 3, 262144, 524288⟩
      validatePath Sha2.sha256 root 262144 524288 path1 .offsetRebaseSupport = .ok (some res1) ∧
        validatePath Sha2.sha256 root 262144 524288 path2 .offsetRebaseSupport = .ok (some res2) ∧
        Sha2.sha256.CollisionFree (hashedStrings Sha2.sha256 true path1 ++ hashedStrings Sha2.sha256 true path2) ∧
        res1.bucket = res2.bucket) ∧
    (let (l, r, root) := shortAndBeyond
      let path1 := shallowPath l r 100 (List.replicate 32 1) 100
      let path2 := shallowPath l r 100 (List.replicate 32 2) 262200
      let res1 : DataPath := ⟨List.replicate 32 1, 0, 100⟩
      let res2 : DataPath := ⟨List.replicate 32 2, 100, 200⟩
      validatePath Sha2.sha256 root 0 200 path1 .offsetRebaseSupport = .ok (some res1) ∧
        validatePath Sha2.sha256 root 100 200 path2 .offsetRebaseSupport = .ok (some res2) ∧
        Sha2.sha256.CollisionFree (hashedStrings Sha2.sha256 true path1 ++ hashedStrings Sha2.sha256 true path2) ∧
        res1.bucket = res2.bucket) := by
  dsimp only
  refine ⟨⟨?_, ?_, ?_, ?_⟩, ?_, ?_, ?_, ?_⟩ <;> decide +kernel

end Buckets

end Arweave.Merkle

import Arweave.Merkle.RoundTrip

/-!
# The data tree of a transaction

`ar_tx` splits the data of a transaction into chunks of 256 KiB, with an empty last chunk
when the size is a multiple of that, and builds the tree over the hashes of the chunks.
Every path of that tree is accepted by all rulesets of the validator.
-/

namespace Arweave.Tx
open Arweave.Lib Arweave.Merkle

/-- `chunk_binary/2`. It does not terminate for chunks of size zero. -/
def chunkBinary (chunkSize : Nat) (hpos : 0 < chunkSize) (bin : Bytes) : List Bytes :=
  if _h : bin.length < chunkSize then [bin]
  else bin.take chunkSize :: chunkBinary chunkSize hpos (bin.drop chunkSize)
termination_by bin.length
decreasing_by
  rw [List.length_drop]
  omega

/-- Every chunk with its end offset. -/
def chunksToSizeTaggedChunks (chunks : List Bytes) : List (Bytes × Nat) :=
  (chunks.foldl (fun (pos, list) chunk => (pos + chunk.length, (chunk, pos + chunk.length) :: list))
    (0, [])).2.reverse

def generateChunkID (H : Digest 32) (chunk : Bytes) : Bytes := H chunk

def sizedChunksToSizedChunkIDs (H : Digest 32) (sizedChunks : List (Bytes × Nat)) :
    List (Bytes × Nat) :=
  sizedChunks.map fun (chunk, size) => (generateChunkID H chunk, size)

/-- The elements of the data tree. -/
def chunkIDSizes (H : Digest 32) (data : Bytes) : List (Bytes × Nat) :=
  sizedChunksToSizedChunkIDs H (chunksToSizeTaggedChunks (chunkBinary dataChunkSize (by decide) data))

/-- `generate_chunk_tree/1`, with the data root and the data tree as its result. -/
def generateChunkTree (H : Digest 32) (data : Bytes) : Option (Bytes × List Node) :=
  generateTree H (flatElements (chunkIDSizes H data))

section Chunks

variable {c : Nat} {hpos : 0 < c}

/-- The end of the chunk with the given index. -/
def chunkEnd (c size i : Nat) : Nat := min (c * (i + 1)) size

/-- The chunk with the given index. -/
def chunkAt (c : Nat) (data : Bytes) (i : Nat) : Bytes := (data.drop (c * i)).take c

lemma foldl_chunkBinary (data : Bytes) (pos : Nat) (list : List (Bytes × Nat)) :
    ((chunkBinary c hpos data).foldl
      (fun (pos, list) chunk => (pos + chunk.length, (chunk, pos + chunk.length) :: list))
      (pos, list)).2.reverse =
    list.reverse ++ (List.range (data.length / c + 1)).map fun i =>
      (chunkAt c data i, pos + chunkEnd c data.length i) := by
  fun_induction chunkBinary c hpos data generalizing pos list with
  | case1 bin h =>
    rw [Nat.div_eq_of_lt h]
    have hend : min c bin.length = bin.length := min_eq_right h.le
    simp [chunkAt, chunkEnd, List.take_of_length_le h.le, hend]
  | case2 bin h ih =>
    have hle : c ≤ bin.length := not_lt.mp h
    have hdiv : bin.length / c = (bin.length - c) / c + 1 := Nat.div_eq_sub_div hpos hle
    rw [List.foldl_cons, ih, List.length_drop, hdiv,
      @List.range_succ_eq_map ((bin.length - c) / c + 1), List.map_cons, List.map_map,
      List.reverse_cons, List.append_assoc, List.singleton_append]
    congr 2
    · simp [chunkAt, chunkEnd]
    · refine List.map_congr_left fun i _ => ?_
      simp only [Function.comp_apply, chunkAt, chunkEnd, List.drop_drop, Nat.mul_succ, List.length_take,
        Prod.mk.injEq]
      refine ⟨by rw [Nat.add_comm], ?_⟩
      omega

end Chunks

lemma chunkIDSizes_eq (H : Digest 32) (data : Bytes) :
    chunkIDSizes H data = (List.range (data.length / dataChunkSize + 1)).map fun i =>
      (H (chunkAt dataChunkSize data i), chunkEnd dataChunkSize data.length i) := by
  have htag := @foldl_chunkBinary dataChunkSize (by decide) data 0 []
  rw [chunkIDSizes, sizedChunksToSizedChunkIDs, chunksToSizeTaggedChunks, htag]
  simp [generateChunkID]

section Elements

variable {H : Digest 32} {data : Bytes}

lemma length_chunkIDSizes : (chunkIDSizes H data).length = data.length / dataChunkSize + 1 := by
  simp [chunkIDSizes_eq]

lemma chunkIDSizes_getElem {i : Nat} (hi : i < (chunkIDSizes H data).length) :
    (chunkIDSizes H data)[i] =
      (H (chunkAt dataChunkSize data i), chunkEnd dataChunkSize data.length i) := by
  simp only [chunkIDSizes_eq, List.getElem_map, List.getElem_range]

lemma startOffset_chunkIDSizes {i : Nat} (hi : i < (chunkIDSizes H data).length) :
    startOffset (chunkIDSizes H data) i = dataChunkSize * i := by
  cases i with
  | zero => rfl
  | succ i =>
    have hi' : i < (chunkIDSizes H data).length := by omega
    rw [length_chunkIDSizes] at hi
    have hle : dataChunkSize * (i + 1) ≤ data.length :=
      (Nat.mul_le_mul_left _ (by omega)).trans (Nat.mul_div_le _ _)
    rw [startOffset, List.getElem?_eq_getElem hi', chunkIDSizes_getElem hi', Option.map_some,
      Option.getD_some, chunkEnd, min_eq_left hle]

lemma lastOffset_chunkIDSizes : lastOffset (chunkIDSizes H data) = data.length := by
  have hlast : (chunkIDSizes H data).getLast? = some (H (chunkAt dataChunkSize data
      (data.length / dataChunkSize)), chunkEnd dataChunkSize data.length (data.length / dataChunkSize)) := by
    rw [chunkIDSizes_eq, List.range_succ, List.map_append]
    simp
  have hlt := Nat.lt_mul_div_succ data.length (show 0 < dataChunkSize by decide)
  rw [lastOffset, hlast, Option.map_some, Option.getD_some, chunkEnd, min_eq_right hlt.le]

lemma pairwise_chunkIDSizes : ((chunkIDSizes H data).map Prod.snd).Pairwise (· ≤ ·) := by
  rw [chunkIDSizes_eq, List.map_map, List.pairwise_map]
  refine List.pairwise_lt_range.imp fun {i j} hij => ?_
  rw [Function.comp_apply, Function.comp_apply]
  exact min_le_min_right _ (Nat.mul_le_mul_left _ (Nat.succ_le_succ hij.le))

end Elements

/-- A chunk of the data passes the checks of every ruleset. -/
lemma checks_chunk (ruleset : Ruleset) {size i : Nat} {dest : Int} {d : Cursor}
    (hstart : (dataChunkSize * i : Nat) ≤ dest) (hstop : dest < chunkEnd dataChunkSize size i)
    (hleft : d.leftBoundShift + d.leftBound = (dataChunkSize * i : Nat))
    (hright : d.leftBoundShift + d.rightBound = chunkEnd dataChunkSize size i)
    (hshift : ruleset.checks.allowRebase = false → d.leftBoundShift = 0) :
    areBordersValid ruleset.checks d d.rightBound = true ∧
      isSplitValid ruleset.checks size d d.rightBound = true := by
  have hmod : ((dataChunkSize * i : Nat) : Int).tmod dataChunkSize = 0 := by
    rw [Nat.cast_mul, Int.mul_tmod_right]
  have hle : d.rightBound - d.leftBound ≤ dataChunkSize := by
    simp only [chunkEnd, Nat.mul_succ] at hright
    omega
  have hborders : areBordersValid ruleset.checks d d.rightBound = true := by
    unfold areBordersValid
    split <;> simp [hle]
  refine ⟨hborders, ?_⟩
  cases ruleset with
  | basic => rfl
  | strictBorders => rfl
  | strictDataSplit =>
    have hzero := hshift rfl
    rw [hzero, zero_add] at hleft hright
    simp only [isSplitValid, Ruleset.checks, hleft, hright, hmod]
    by_cases hfull : (chunkEnd dataChunkSize size i : Int) - (dataChunkSize * i : Nat) = dataChunkSize
    · rw [if_pos hfull]
      rfl
    · -- a chunk that is not full ends the data
      have hend : chunkEnd dataChunkSize size i = size := by
        simp only [chunkEnd, Nat.mul_succ] at hfull ⊢
        omega
      rw [hend] at hfull hstop ⊢
      have hlt : size - dataChunkSize * i < dataChunkSize := by
        simp only [chunkEnd, Nat.mul_succ] at hend
        omega
      have hmodsize : (size : Int).tmod dataChunkSize = size - (dataChunkSize * i : Nat) := by
        rw [← Int.ofNat_tmod, Nat.mod_eq_sub_mul_div]
        have hdiv : size / dataChunkSize = i := by
          refine Nat.div_eq_of_lt_le ?_ ?_ <;> rw [Nat.mul_comm]
          · omega
          · rw [Nat.mul_succ]
            omega
        rw [hdiv]
        omega
      rw [if_neg hfull, if_pos rfl, hmodsize]
      simp
      omega
  | offsetRebaseSupport =>
    simp only [isSplitValid, Ruleset.checks, hleft, hmod]
    split <;> simp

/-- Every path of the data tree is accepted by all rulesets, and proves the hash and the
bounds of the chunk that the destination lies in. -/
theorem validatePath_generateChunkTree (H : Digest 32) (data : Bytes)
    (hsize : data.length < 2 ^ 256) :
    ∃ root tree, generateChunkTree H data = some (root, tree) ∧
      (H.CollisionFree (treeStrings H tree) → (∀ n ∈ tree, n.id ≠ rebaseMark) →
        ∀ dest : Nat, dest < data.length →
          ∃ path, generatePath root dest tree = some path ∧ ∀ ruleset,
            validatePath H root dest data.length path ruleset =
              .ok (some ⟨H (chunkAt dataChunkSize data (dest / dataChunkSize)),
                (dataChunkSize * (dest / dataChunkSize) : Nat),
                chunkEnd dataChunkSize data.length (dest / dataChunkSize)⟩)) := by
  obtain ⟨⟨root, tree⟩, htree⟩ := Option.isSome_iff_exists.mp
    (generateTree_flatElements_isSome H (chunkIDSizes H data))
  refine ⟨root, tree, htree, fun hH hmark dest hdest => ?_⟩
  have hsize' : lastOffset (chunkIDSizes H data) < 256 ^ noteSize := by
    rw [lastOffset_chunkIDSizes]
    exact hsize.trans_eq (by norm_num [noteSize])
  have hids : ∀ x ∈ chunkIDSizes H data, x.1.length = 32 := by
    simp [chunkIDSizes_eq, H.length_hash]
  have hvalid : ∀ ruleset, _ := fun ruleset => validatePath_flatElements hids pairwise_chunkIDSizes
    hsize' htree hH (Nat.cast_nonneg dest)
    (by rw [lastOffset_chunkIDSizes]; exact_mod_cast hdest) ruleset (fun _ => hmark) (by
      intro i d hstart hstop hleft hright hshift
      rw [startOffset_chunkIDSizes i.isLt] at hstart hleft
      rw [Fin.getElem_fin, chunkIDSizes_getElem i.isLt] at hstop hright
      rw [lastOffset_chunkIDSizes]
      exact checks_chunk ruleset hstart hstop hleft hright hshift)
  obtain ⟨-, -, -, path, hpath, -⟩ := hvalid .basic
  refine ⟨path, hpath, fun ruleset => ?_⟩
  obtain ⟨i, hstart, hstop, path', hpath', hresult⟩ := hvalid ruleset
  obtain rfl : path = path' := Option.some.inj (hpath.symm.trans hpath')
  rw [startOffset_chunkIDSizes i.isLt] at hstart hresult
  rw [Fin.getElem_fin, chunkIDSizes_getElem i.isLt] at hstop hresult
  rw [lastOffset_chunkIDSizes] at hresult
  have hi : dest / dataChunkSize = i := by
    have hlt : dest < dataChunkSize * (i + 1) :=
      (Nat.cast_lt.mp hstop).trans_le (min_le_left _ _)
    refine Nat.div_eq_of_lt_le ?_ ?_ <;> rw [Nat.mul_comm]
    · exact Nat.cast_le.mp hstart
    · exact hlt
  rw [hresult, hi]

theorem validatePath_generateChunkTree_small :
    ∃ root tree path, generateChunkTree Sha2.sha256 [1, 2, 3] = some (root, tree) ∧
      generatePath root (1 : Nat) tree = some path ∧
      validatePath Sha2.sha256 root (1 : Nat) (3 : Nat) path .offsetRebaseSupport =
        .ok (some ⟨Sha2.sha256 [1, 2, 3], (0 : Nat), (3 : Nat)⟩) := by
  obtain ⟨root, tree, htree, hvalid⟩ :=
    validatePath_generateChunkTree Sha2.sha256 [1, 2, 3] (by decide)
  have hfree : ∀ x ∈ generateChunkTree Sha2.sha256 [1, 2, 3],
      Sha2.sha256.CollisionFree (treeStrings Sha2.sha256 x.2) ∧ ∀ n ∈ x.2, n.id ≠ rebaseMark := by
    decide +kernel
  obtain ⟨hH, hmark⟩ := hfree _ htree
  obtain ⟨path, hpath, hall⟩ := hvalid hH hmark 1 (by decide)
  exact ⟨root, tree, path, htree, hpath, hall .offsetRebaseSupport⟩

end Arweave.Tx

import Arweave.DataSync.Indices
import Arweave.Lib.Padding
import Arweave.Serialize.Block
import Arweave.Tx.ChunkTree

/-!
# The layout of a block

The data of the transactions of a block are laid out in the order of the transactions. From the fork
2.5 on the place behind the data of a transaction is padded to the next multiple of 256 KiB, and the
padding has an element of its own in the tree of the block. The size of the block is computed
without the layout, from one transaction after another.
-/

namespace Arweave.Ledger
open Arweave.Lib Arweave.Lib.Padding Arweave.Tx Arweave.Merkle

section Code

/-- An element `{{ID, DataRoot}, EndOffset}`. Padding has the atom `padding` in the place of the
identifier. -/
structure SizeTagged where
  id : Option Bytes
  root : Bytes
  offset : Int
  deriving DecidableEq, Repr

/-- `?PADDING_NODE_DATA_ROOT` -/
def paddingNodeDataRoot : Bytes := []

/-- The atoms `ecdsa`, `eddsa` and `rsa` in their order. -/
def signatureTypeRank : SignatureType → Nat
  | .ecdsa => 0
  | .eddsa => 1
  | .rsa => 2

/-- The fields of the record in their order. Records are compared field by field. -/
def sortKey (tx : TX) : Nat ×ₗ Bytes ×ₗ Bytes ×ₗ Bytes ×ₗ List (Bytes ×ₗ Bytes) ×ₗ Bytes ×ₗ Int ×ₗ Bytes ×ₗ Int ×ₗ
    Bytes ×ₗ Bytes ×ₗ Int ×ₗ Nat ×ₗ Nat :=
  toLex (tx.format, toLex (tx.id, toLex (tx.lastTx, toLex (tx.owner, toLex (tx.tags.map toLex, toLex (tx.target,
    toLex (tx.quantity, toLex (tx.data, toLex (tx.dataSize, toLex (tx.dataRoot, toLex (tx.signature,
      toLex (tx.reward, toLex (tx.denomination, signatureTypeRank tx.signatureType)))))))))))))

/-- `lists:sort/1`. Only equal records are at the same place of the order. -/
def sortTxs (txs : List TX) : List TX := txs.insertionSort fun tx1 tx2 => sortKey tx1 ≤ sortKey tx2

variable (H : Digest 32)

def getTxDataRoot (tx : TX) : Option Bytes :=
  if tx.format = 2 then some tx.dataRoot
  else (generateChunkTree H tx.data).map Prod.fst

/-- The function that is folded over the transactions. -/
def tagTx (height : Nat) (acc : Int × List SizeTagged) (tx : TX) : Option (Int × List SizeTagged) := do
  let (pos, list) := acc
  let stop := pos + tx.dataSize
  let dataRoot ← getTxDataRoot H tx
  if Fork.height_2_5 ≤ height then
    let padding := getWeaveSizeIncrease tx.dataSize height - tx.dataSize
    if 0 < padding then
      return (stop + padding, ⟨none, paddingNodeDataRoot, stop + padding⟩ :: ⟨some tx.id, dataRoot, stop⟩ :: list)
    else return (stop, ⟨some tx.id, dataRoot, stop⟩ :: list)
  else return (stop, ⟨some tx.id, dataRoot, stop⟩ :: list)

def generateSizeTaggedListFromTxs (txs : List TX) (height : Nat) : Option (List SizeTagged) := do
  let (_, list) ← (sortTxs txs).foldlM (tagTx H height) (0, [])
  return list.reverse

def verifyWeaveSize (newB oldB : Serialize.Block) (txs : List TX) : Bool :=
  let blockSize := txs.foldl (fun acc tx => acc + getWeaveSizeIncrease tx.dataSize newB.height) 0
  (newB.height < Fork.height_2_6 || blockSize = newB.blockSize) && (newB.weaveSize : Int) = oldB.weaveSize + blockSize

end Code

section DataRoots

variable {H : Digest 32} {tx : TX}

lemma getTxDataRoot_isSome : (getTxDataRoot H tx).isSome := by
  unfold getTxDataRoot
  split_ifs
  · rfl
  · rw [Option.isSome_map]
    exact generateTree_flatElements_isSome H (chunkIDSizes H tx.data)

/-- Every transaction has a data root. -/
def dataRootOf (H : Digest 32) (tx : TX) : Bytes := (getTxDataRoot H tx).get getTxDataRoot_isSome

lemma getTxDataRoot_eq : getTxDataRoot H tx = some (dataRootOf H tx) := (Option.some_get _).symm

end DataRoots

section Run

variable {H : Digest 32} {txs : List TX} {tx : TX} {height : Nat} {pos : Int} {list : List SizeTagged}

/-- The element of a place in the block. -/
def sizeTagged (H : Digest 32) (p : Piece TX) : SizeTagged where
  id := p.item.map TX.id
  root := p.item.elim paddingNodeDataRoot (dataRootOf H)
  offset := p.stop

lemma dataChunkSize_pos : (0 : Int) < dataChunkSize := by decide

lemma getWeaveSizeIncrease_eq (hfork : Fork.height_2_5 ≤ height) {size : Int} (h : 0 ≤ size) :
    getWeaveSizeIncrease size height = roundUp dataChunkSize size := by
  rw [getWeaveSizeIncrease, if_pos hfork]
  split_ifs with hzero
  · rw [hzero]
    decide
  · have hdiff : 0 ≤ size - 0 - 1 := by omega
    have hsum : size + dataChunkSize - 1 = size - 0 - 1 + 1 * dataChunkSize := by ring
    rw [getPaddedOffset, roundUp, hsum, Int.add_mul_ediv_right _ _ dataChunkSize_pos.ne',
      Int.tdiv_eq_ediv_of_nonneg hdiff]
    ring

lemma tagTx_eq (hfork : Fork.height_2_5 ≤ height) (hpos : (dataChunkSize : Int) ∣ pos) (h : 0 ≤ tx.dataSize) :
    tagTx H height (pos, list) tx = some (roundUp dataChunkSize (pos + tx.dataSize),
      ((⟨pos, pos + tx.dataSize, some tx⟩ :: gap TX dataChunkSize (pos + tx.dataSize)).map
        (sizeTagged H)).reverse ++ list) := by
  have hround := roundUp_add dataChunkSize_pos hpos tx.dataSize
  have hbounds := roundUp_bounds (n := tx.dataSize) dataChunkSize_pos
  rw [tagTx, getTxDataRoot_eq, Option.bind_eq_bind, Option.bind_some, if_pos hfork, getWeaveSizeIncrease_eq hfork h, gap]
  by_cases hdvd : (dataChunkSize : Int) ∣ pos + tx.dataSize
  · have hself := roundUp_eq_self dataChunkSize_pos hdvd
    rw [if_neg (by omega), if_pos hdvd, hself]
    rfl
  · have hne : roundUp dataChunkSize (pos + tx.dataSize) ≠ pos + tx.dataSize := fun heq => hdvd (heq ▸ dvd_roundUp)
    have hstop : pos + tx.dataSize + (roundUp dataChunkSize tx.dataSize - tx.dataSize) =
        roundUp dataChunkSize (pos + tx.dataSize) := by
      rw [hround]
      ring
    rw [if_pos (by omega), if_neg hdvd, hstop]
    rfl

lemma foldlM_tagTx (hfork : Fork.height_2_5 ≤ height) (hpos : (dataChunkSize : Int) ∣ pos) (h : ∀ tx ∈ txs, 0 ≤ tx.dataSize)
    (list : List SizeTagged) : ∃ stop, txs.foldlM (tagTx H height) (pos, list) =
      some (stop, ((place dataChunkSize TX.dataSize pos txs).map (sizeTagged H)).reverse ++ list) := by
  induction txs generalizing pos list with
  | nil => exact ⟨pos, rfl⟩
  | cons tx txs ih =>
    rw [List.foldlM_cons, tagTx_eq hfork hpos (h tx List.mem_cons_self), Option.bind_eq_bind, Option.bind_some]
    have hnext : (dataChunkSize : Int) ∣ roundUp dataChunkSize (pos + tx.dataSize) := dvd_roundUp
    obtain ⟨stop, hfold⟩ := ih hnext (fun tx htx => h tx (List.mem_cons_of_mem _ htx)) _
    refine ⟨stop, hfold.trans ?_⟩
    rw [place, ← List.cons_append, List.map_append, List.reverse_append, List.append_assoc]

end Run

section BlockSize

variable {H : Digest 32} {txs : List TX} {height : Nat}

/-- The size of the data of a block. -/
def weaveSizeIncrease (txs : List TX) (height : Nat) : Int :=
  (txs.map fun tx => getWeaveSizeIncrease tx.dataSize height).sum

lemma verifyWeaveSize_iff {newB oldB : Serialize.Block} : verifyWeaveSize newB oldB txs = true ↔
    (newB.height < Fork.height_2_6 ∨ weaveSizeIncrease txs newB.height = newB.blockSize) ∧
      (newB.weaveSize : Int) = oldB.weaveSize + weaveSizeIncrease txs newB.height := by
  have hfold : txs.foldl (fun acc tx => acc + getWeaveSizeIncrease tx.dataSize newB.height) 0 =
      weaveSizeIncrease txs newB.height := by
    rw [weaveSizeIncrease, List.sum_eq_foldl, List.foldl_map]
  rw [verifyWeaveSize, hfold]
  simp

lemma extent_sortTxs (hfork : Fork.height_2_5 ≤ height) (h : ∀ tx ∈ txs, 0 ≤ tx.dataSize) :
    extent dataChunkSize TX.dataSize (sortTxs txs) = weaveSizeIncrease txs height := by
  have hperm : ((sortTxs txs).map fun tx => roundUp dataChunkSize tx.dataSize).Perm
      (txs.map fun tx => roundUp dataChunkSize tx.dataSize) := (List.perm_insertionSort _ txs).map _
  rw [extent, hperm.sum_eq, weaveSizeIncrease]
  congr 1
  exact List.map_congr_left fun tx htx => (getWeaveSizeIncrease_eq hfork (h tx htx)).symm

/-- The places in a block of its transactions and of the padding. -/
def places (txs : List TX) : List (Piece TX) := place dataChunkSize TX.dataSize 0 (sortTxs txs)

lemma dataSize_nonneg_of_mem_sortTxs (h : ∀ tx ∈ txs, 0 ≤ tx.dataSize) : ∀ tx ∈ sortTxs txs, 0 ≤ tx.dataSize :=
  fun tx htx => h tx ((List.mem_insertionSort _).mp htx)

lemma generateSizeTaggedListFromTxs_eq (hfork : Fork.height_2_5 ≤ height) (h : ∀ tx ∈ txs, 0 ≤ tx.dataSize) :
    generateSizeTaggedListFromTxs H txs height = some ((places txs).map (sizeTagged H)) := by
  obtain ⟨stop, hfold⟩ := foldlM_tagTx (H := H) hfork (dvd_zero _)
    (dataSize_nonneg_of_mem_sortTxs h) []
  rw [generateSizeTaggedListFromTxs, hfold]
  simp [places]

lemma places_spec (hfork : Fork.height_2_5 ≤ height) (h : ∀ tx ∈ txs, 0 ≤ tx.dataSize) :
    Covers (places txs) 0 (weaveSizeIncrease txs height) ∧ Padded dataChunkSize (places txs) := by
  have hspec := place_spec dataChunkSize_pos (dataSize_nonneg_of_mem_sortTxs h) (dvd_zero _)
  rwa [zero_add, extent_sortTxs hfork h] at hspec

/-- The data of the transactions and the padding cover a block without overlap. Every transaction
starts at a multiple of 256 KiB, and the padding is what is left up to the next multiple. The last
offset is the size that blocks are accepted with. -/
theorem generateSizeTaggedListFromTxs_spec (H : Digest 32) (hfork : Fork.height_2_5 ≤ height)
    (h : ∀ tx ∈ txs, 0 ≤ tx.dataSize) :
    ∃ ps : List (Piece TX),
      generateSizeTaggedListFromTxs H txs height = some (ps.map (sizeTagged H)) ∧
      Covers ps 0 (weaveSizeIncrease txs height) ∧
      Padded dataChunkSize ps ∧
      ps.filterMap (fun p => p.item.map fun tx => (tx, p.stop - p.start)) =
        (sortTxs txs).map (fun tx => (tx, tx.dataSize)) ∧
      (0 :: (ps.map (sizeTagged H)).map SizeTagged.offset).Pairwise (· ≤ ·) ∧
      ((ps.map (sizeTagged H)).getLast?.map SizeTagged.offset).getD 0 = weaveSizeIncrease txs height ∧
      ∀ newB oldB : Serialize.Block, newB.height = height → (verifyWeaveSize newB oldB txs = true ↔
        (height < Fork.height_2_6 ∨ weaveSizeIncrease txs height = newB.blockSize) ∧
          (newB.weaveSize : Int) = oldB.weaveSize + weaveSizeIncrease txs height) := by
  obtain ⟨hcovers, hpadded⟩ := places_spec hfork h
  refine ⟨places txs, generateSizeTaggedListFromTxs_eq hfork h, hcovers, hpadded, filterMap_place, ?_, ?_, ?_⟩
  · rw [List.map_map]
    exact hcovers.pairwise_stop
  · rw [List.getLast?_map, Option.map_map]
    exact hcovers.getLast_stop
  · rintro newB oldB rfl
    exact verifyWeaveSize_iff

/-- Three transactions, two of which have data. -/
def threeTxs : List TX := [
  { id := [3], format := 2, dataSize := 262144 * 4, dataRoot := [7] },
  { id := [1], format := 2, dataSize := 1, dataRoot := [8] },
  { id := [2], format := 2 }]

theorem generateSizeTaggedListFromTxs_threeTxs :
    (∃ ps : List (Piece TX),
      generateSizeTaggedListFromTxs Sha2.sha256 threeTxs Fork.height_2_5 = some (ps.map (sizeTagged Sha2.sha256)) ∧
      Covers ps 0 (262144 * 5) ∧ Padded dataChunkSize ps) ∧
    generateSizeTaggedListFromTxs Sha2.sha256 threeTxs Fork.height_2_5 = some [
      ⟨some [1], [8], 1⟩, ⟨none, [], 262144⟩, ⟨some [2], [], 262144⟩, ⟨some [3], [7], 262144 * 5⟩] := by
  obtain ⟨ps, hps, hcovers, hpadded, -⟩ :=
    generateSizeTaggedListFromTxs_spec Sha2.sha256 (le_refl Fork.height_2_5)
      (by decide : ∀ tx ∈ threeTxs, 0 ≤ tx.dataSize)
  exact ⟨⟨ps, hps, hcovers, hpadded⟩, by decide⟩

/-- The element as the indices of the data keep it, with an offset that is not negative. -/
def SizeTagged.toIndexed (t : SizeTagged) : DataSync.SizeTagged := ⟨t.id, t.root, t.offset.toNat⟩

/-- The indices are made from ordered lists. -/
theorem ordered_toIndexed (hfork : Fork.height_2_5 ≤ height) (h : ∀ tx ∈ txs, 0 ≤ tx.dataSize) {list : List SizeTagged}
    (hlist : generateSizeTaggedListFromTxs H txs height = some list) :
    DataSync.Ordered 0 (list.map SizeTagged.toIndexed) ∧
      (DataSync.blockSize (list.map SizeTagged.toIndexed) : Int) = weaveSizeIncrease txs height := by
  obtain ⟨hcovers, -⟩ := places_spec hfork h
  obtain rfl := Option.some.inj (hlist.symm.trans (generateSizeTaggedListFromTxs_eq hfork h))
  constructor
  · have hmap := List.Pairwise.map Int.toNat (fun _ _ => Int.toNat_le_toNat) hcovers.pairwise_stop
    rw [DataSync.Ordered]
    simpa [Function.comp_def, SizeTagged.toIndexed, sizeTagged] using hmap
  · have hnonneg := hcovers.le
    have hlast := hcovers.getLast_stop
    rw [← hlast] at hnonneg ⊢
    rw [DataSync.blockSize, List.map_map, List.getLast?_map]
    cases hp : (places txs).getLast? with
    | none => rfl
    | some p =>
      rw [hp] at hnonneg
      exact Int.toNat_of_nonneg hnonneg

end BlockSize

end Arweave.Ledger

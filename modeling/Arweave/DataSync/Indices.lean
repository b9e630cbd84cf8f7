import Arweave.Lib.Ancestry
import Arweave.Lib.Ranges
import Arweave.Lib.Runs
import Arweave.DataSync.Keys

/-!
# The data indices across reorganisations

The default data sync server indexes the transactions and the data roots of the recent blocks. A
new tip comes with the recent blocks and their transactions, newest first. The entries above the
last block that the new chain shares with the old one are removed and the blocks above it are
added. After every tip the indices describe the blocks of its chain among all that were added.
-/

namespace Arweave.DataSync

open Lib

/-- An element of a block's list of transactions: a transaction, or padding, with the data root and the
end offset in the block. -/
structure SizeTagged where
  id : Option Bytes
  root : Bytes
  offset : Nat
  deriving DecidableEq

/-- The indices by transaction, by its start offset, by data root, and by the start offset of a block. -/
structure Indices where
  txIndex : SortedMap Bytes (Nat × Nat) := SortedMap.empty
  txOffsetIndex : SortedMap Bytes Bytes := SortedMap.empty
  dataRootIndex : SortedMap Bytes Bytes := SortedMap.empty
  dataRootOffsetIndex : SortedMap Bytes (Bytes × Nat × OrdSet Bytes) := SortedMap.empty

structure State (H : Type) where
  indices : Indices
  weaveSize : Nat
  blockIndex : List (H × Nat × Bytes)

/-- The root of the Merkle tree of a block's transactions and the paths in it. -/
structure TxTree where
  root : List SizeTagged → Bytes
  path : List SizeTagged → Nat → Bytes

section Code

def updateTxIndex (txs : List SizeTagged) (blockStartOffset : Nat) (I : Indices) : Indices :=
  (txs.foldl (fun (acc : Nat × Indices) t =>
    if t.offset = acc.1 then acc
    else
      match t.id with
      | none => (t.offset, acc.2)
      | some txid =>
        let absoluteEndOffset := blockStartOffset + t.offset
        let txSize := t.offset - acc.1
        let absoluteStartOffset := absoluteEndOffset - txSize
        (t.offset, { acc.2 with
          txOffsetIndex := acc.2.txOffsetIndex.insert (offsetKey absoluteStartOffset) txid
          txIndex := acc.2.txIndex.insert txid (absoluteEndOffset, txSize) })) (0, I)).2

/-- An entry of the data root index. -/
structure DataRootArgs where
  dataRoot : Bytes
  txSize : Nat
  txOffset : Nat
  txPath : Bytes

/-- The size of the block, the data roots in it and the entries of the data root index. -/
def blockDataRoots (tree : TxTree) (txs : List SizeTagged) (currentWeaveSize : Nat) :
    Nat × OrdSet Bytes × List DataRootArgs :=
  txs.foldl (fun (acc : Nat × OrdSet Bytes × List DataRootArgs) t =>
    if t.offset = acc.1 then acc
    else
      match t.id with
      | none => (t.offset, acc.2)
      | some _ =>
        if t.root.length < 32 then (t.offset, acc.2)
        else
          let txSize := t.offset - acc.1
          (t.offset, acc.2.1.add (dataRootKey t.root txSize),
            ⟨t.root, txSize, currentWeaveSize + acc.1, tree.path txs (t.offset - 1)⟩ :: acc.2.2))
    (0, OrdSet.empty, [])

def updateDataRootIndex (index : SortedMap Bytes Bytes) (args : DataRootArgs) : SortedMap Bytes Bytes :=
  index.insert (dataRootKeyV2 args.dataRoot args.txSize args.txOffset) args.txPath

def addBlockDataRoots (tree : TxTree) (txs : List SizeTagged) (currentWeaveSize : Nat) (I : Indices) :
    Indices × OrdSet Bytes :=
  let (blockSize, dataRootIndexKeySet, args) := blockDataRoots tree txs currentWeaveSize
  if blockSize > 0 then
    ({ I with
      dataRootOffsetIndex :=
        I.dataRootOffsetIndex.insert (offsetKey currentWeaveSize) (tree.root txs, blockSize, dataRootIndexKeySet)
      dataRootIndex := args.foldl updateDataRootIndex I.dataRootIndex }, dataRootIndexKeySet)
  else (I, dataRootIndexKeySet)

def removeTxIndexRange (start stop : Nat) (I : Indices) : Indices :=
  let removed := I.txOffsetIndex.getRange (offsetKey start) (offsetKey (stop - 1))
  { I with
    txIndex := removed.foldl (fun index e => index.erase e.2) I.txIndex
    txOffsetIndex := I.txOffsetIndex.deleteRange (offsetKey start) (offsetKey stop) }

/-- The key of the data root index begins with the data root and the size. -/
def matchesDataRoot (dataRoot : Bytes) (txSize : Nat) (key : Bytes) : Bool :=
  match key.drop 32 with
  | [] => false
  | size :: rest => key.take 32 = dataRoot ∧ size.toNat ≤ rest.length ∧ Bytes.toNat (rest.take size.toNat) = txSize

/-- The index without the offsets of the data root in the range, and whether none is left below it. -/
def removeDataRoot (index : SortedMap Bytes Bytes) (key : Bytes) (start stop : Nat) : SortedMap Bytes Bytes × Bool :=
  let dataRoot := key.take 32
  let txSize := Bytes.toNat (key.drop 32)
  let startKey := dataRootKeyV2 dataRoot txSize start
  let index2 := index.deleteRange startKey (dataRootKeyV2 dataRoot txSize stop)
  match index2.prev startKey with
  | some (prevKey, _) => (index2, !matchesDataRoot dataRoot txSize prevKey)
  | none => (index2, true)

def removeDataRootIndexRange (start stop : Nat) (I : Indices) : Indices × OrdSet Bytes :=
  let removed := I.dataRootOffsetIndex.getRange (offsetKey start) (offsetKey (stop - 1))
  let (index, orphaned) := removed.foldl (fun acc e =>
    e.2.2.2.elems.foldl (fun (acc : SortedMap Bytes Bytes × OrdSet Bytes) key =>
      if key.length = 64 then
        let (index, noneLeft) := removeDataRoot acc.1 key start stop
        (index, if noneLeft then acc.2.add key else acc.2)
      else acc) acc) (I.dataRootIndex, OrdSet.empty)
  ({ I with dataRootIndex := index }, orphaned)

def removeDataRootOffsetIndexRange (start stop : Nat) (I : Indices) : Indices :=
  { I with dataRootOffsetIndex := I.dataRootOffsetIndex.deleteRange (offsetKey start) (offsetKey stop) }

/-- The indices without the range, and the data roots that are orphaned. -/
def removeOrphanedData (blockStartOffset weaveSize : Nat) (I : Indices) : Indices × OrdSet Bytes :=
  let I1 := removeTxIndexRange blockStartOffset weaveSize I
  let (I2, orphaned) := removeDataRootIndexRange blockStartOffset weaveSize I1
  (removeDataRootOffsetIndexRange blockStartOffset weaveSize I2, orphaned)

variable {H : Type} [DecidableEq H]

/-- The weave size of the newest stored block among the given ones, and the blocks above it, oldest
first. The call fails when there is none. -/
def pickMissingBlocks : List (H × Nat × Bytes) → List (H × List SizeTagged) → Option (Nat × List (H × List SizeTagged))
  | [], _ => none
  | (h, weaveSize, _) :: currentBI, blockTxPairs =>
    match blockTxPairs.dropWhile (fun p => p.1 ≠ h) with
    | [] => pickMissingBlocks currentBI blockTxPairs
    | _ => some (weaveSize, (blockTxPairs.takeWhile fun p => p.1 ≠ h).reverse)

/-- The start of the next block, the indices and the data roots that were added. -/
def addBlocks (tree : TxTree) (blocks : List (H × List SizeTagged)) (blockStartOffset : Nat) (I : Indices) :
    Nat × Indices × OrdSet Bytes :=
  blocks.foldl (fun (acc : Nat × Indices × OrdSet Bytes) block =>
    match block.2.getLast? with
    | none => acc
    | some last =>
      let (I1, dataRoots) := addBlockDataRoots tree block.2 acc.1 acc.2.1
      (acc.1 + last.offset, updateTxIndex block.2 acc.1 I1, dataRoots.elems.foldl (fun s x => s.add x) acc.2.2))
    (blockStartOffset, I, OrdSet.empty)

/-- What a new tip changed. -/
structure Report (H : Type) where
  blocks : List H
  addedDataRoots : OrdSet Bytes
  orphanedDataRoots : OrdSet Bytes

def addTipBlock (tree : TxTree) (st : State H) (blockTxPairs : List (H × List SizeTagged))
    (bi : List (H × Nat × Bytes)) : Option (State H × Report H) := do
  let (blockStartOffset, blocks) ← pickMissingBlocks st.blockIndex blockTxPairs
  let (I1, orphanedDataRoots) := removeOrphanedData blockStartOffset st.weaveSize st.indices
  let (weaveSize, I2, addedDataRoots) := addBlocks tree blocks blockStartOffset I1
  pure (⟨I2, weaveSize, bi⟩, ⟨blocks.map Prod.fst, addedDataRoots, orphanedDataRoots⟩)

end Code

section Pieces

variable {txs : List SizeTagged} {prev base : Nat} {I : Indices} {tree : TxTree}

/-- A part of a block with bytes: a transaction by its identifier or by its data root. -/
structure Piece where
  label : Bytes
  start : Nat
  stop : Nat
  deriving DecidableEq

/-- The parts of a block with bytes, with the labels that are chosen. -/
def pieces (label : SizeTagged → Option Bytes) : Nat → List SizeTagged → List Piece
  | _, [] => []
  | prev, t :: txs =>
    if t.offset = prev then pieces label prev txs
    else ((label t).map fun l => (⟨l, prev, t.offset⟩ : Piece)).toList ++ pieces label t.offset txs

/-- The transactions of a block that have data. -/
def txPieces (txs : List SizeTagged) : List Piece := pieces SizeTagged.id 0 txs

/-- A data root is indexed when it has its full length. -/
def rootLabel (t : SizeTagged) : Option Bytes :=
  match t.id with
  | none => none
  | some _ => if t.root.length < 32 then none else some t.root

/-- The data roots of a block. -/
def rootPieces (txs : List SizeTagged) : List Piece := pieces rootLabel 0 txs

def blockSize (txs : List SizeTagged) : Nat := (txs.getLast?.map SizeTagged.offset).getD 0

/-- The end offsets do not go down. -/
def Ordered (prev : Nat) (txs : List SizeTagged) : Prop := (prev :: txs.map SizeTagged.offset).Pairwise (· ≤ ·)

lemma Ordered.tail {t : SizeTagged} (h : Ordered prev (t :: txs)) : Ordered t.offset txs := (List.pairwise_cons.mp h).2

lemma Ordered.head_le {t : SizeTagged} (h : Ordered prev (t :: txs)) : prev ≤ t.offset :=
  (List.pairwise_cons.mp h).1 _ (by simp)

lemma Ordered.skip {t : SizeTagged} (h : Ordered prev (t :: txs)) (heq : t.offset = prev) : Ordered prev txs :=
  heq ▸ h.tail

lemma blockSize_cons {t : SizeTagged} (htxs : txs ≠ []) : blockSize (t :: txs) = blockSize txs := by
  rw [blockSize, blockSize, List.getLast?_cons_of_ne_nil htxs]

/-- The pieces follow one another within the block. -/
lemma pieces_spec (label : SizeTagged → Option Bytes) (h : Ordered prev txs) :
    (∀ p ∈ pieces label prev txs, prev ≤ p.start ∧ p.start < p.stop ∧ p.stop ≤ blockSize txs) ∧
      (pieces label prev txs).Pairwise fun p q => p.stop ≤ q.start := by
  induction txs generalizing prev with
  | nil => exact ⟨by simp [pieces], List.Pairwise.nil⟩
  | cons t txs ih =>
    have hle := h.head_le
    have hsize : blockSize txs ≤ blockSize (t :: txs) ∧ t.offset ≤ blockSize (t :: txs) := by
      cases txs with
      | nil => exact ⟨Nat.zero_le _, le_rfl⟩
      | cons t' txs =>
        have hcons : blockSize (t :: t' :: txs) = blockSize (t' :: txs) := blockSize_cons (by simp)
        rw [hcons]
        refine ⟨le_rfl, (List.pairwise_cons.mp h.tail).1 _ ?_⟩
        rw [blockSize]
        cases hlast : (t' :: txs).getLast? with
        | none => simp at hlast
        | some u => exact List.mem_map_of_mem (List.mem_of_getLast? hlast)
    rw [pieces]
    split_ifs with heq
    · obtain ⟨hall, hpair⟩ := ih (h.skip heq)
      exact ⟨fun p hp => ⟨(hall p hp).1, (hall p hp).2.1, (hall p hp).2.2.trans hsize.1⟩, hpair⟩
    · obtain ⟨hall, hpair⟩ := ih h.tail
      constructor
      · intro p hp
        rw [List.mem_append] at hp
        obtain hp | hp := hp
        · obtain ⟨l, -, rfl⟩ := Option.map_eq_some_iff.mp (Option.mem_toList.mp hp)
          exact ⟨le_rfl, by dsimp only; omega, hsize.2⟩
        · have := hall p hp
          exact ⟨by omega, this.2.1, this.2.2.trans hsize.1⟩
      · rw [List.pairwise_append]
        refine ⟨?_, hpair, fun p hp q hq => ?_⟩
        · cases label t <;> simp
        · obtain ⟨l, -, rfl⟩ := Option.map_eq_some_iff.mp (Option.mem_toList.mp hp)
          exact (hall q hq).1

lemma exists_label {label : SizeTagged → Option Bytes} {p : Piece} (hp : p ∈ pieces label prev txs) :
    ∃ t ∈ txs, label t = some p.label := by
  induction txs generalizing prev with
  | nil => cases hp
  | cons t txs ih =>
    rw [pieces] at hp
    split_ifs at hp with heq
    · obtain ⟨u, hu, hlabel⟩ := ih hp
      exact ⟨u, List.mem_cons_of_mem _ hu, hlabel⟩
    · rw [List.mem_append] at hp
      obtain hp | hp := hp
      · obtain ⟨l, hl, rfl⟩ := Option.map_eq_some_iff.mp (Option.mem_toList.mp hp)
        exact ⟨t, List.mem_cons_self, hl⟩
      · obtain ⟨u, hu, hlabel⟩ := ih hp
        exact ⟨u, List.mem_cons_of_mem _ hu, hlabel⟩

lemma updateTxIndex_eq (h : Ordered 0 txs) :
    updateTxIndex txs base I = { I with
      txOffsetIndex := (txPieces txs).foldl (fun m p => m.insert (offsetKey (base + p.start : Nat)) p.label) I.txOffsetIndex
      txIndex := (txPieces txs).foldl (fun m p => m.insert p.label (base + p.stop, p.stop - p.start)) I.txIndex } := by
  rw [updateTxIndex, txPieces]
  generalize 0 = prev at h
  induction txs generalizing prev I with
  | nil => rfl
  | cons t txs ih =>
    have hle := h.head_le
    rw [List.foldl_cons, pieces]
    by_cases heq : t.offset = prev
    · simp only [if_pos heq]
      exact ih _ (h.skip heq)
    · simp only [if_neg heq]
      cases hid : t.id with
      | none => exact ih _ h.tail
      | some txid =>
        have hstart : base + t.offset - (t.offset - prev) = base + prev := by omega
        simp only [hstart, Option.map_some, Option.toList_some, List.singleton_append, List.foldl_cons]
        exact ih _ h.tail

/-- The keys of the data roots of a block. -/
def rootKeys (txs : List SizeTagged) : List Bytes :=
  (rootPieces txs).map fun p => dataRootKey p.label (p.stop - p.start)

/-- The entries of the data root index for a block. -/
def rootArgs (tree : TxTree) (txs : List SizeTagged) (base : Nat) : List DataRootArgs :=
  (rootPieces txs).map fun p => ⟨p.label, p.stop - p.start, base + p.start, tree.path txs (p.stop - 1)⟩

lemma blockDataRoots_loop (path : Nat → Bytes) {acc : OrdSet Bytes × List DataRootArgs} (h : Ordered prev txs) :
    txs.foldl (fun (acc : Nat × OrdSet Bytes × List DataRootArgs) t =>
      if t.offset = acc.1 then acc
      else
        match t.id with
        | none => (t.offset, acc.2)
        | some _ =>
          if t.root.length < 32 then (t.offset, acc.2)
          else
            (t.offset, acc.2.1.add (dataRootKey t.root (t.offset - acc.1)),
              ⟨t.root, t.offset - acc.1, base + acc.1, path (t.offset - 1)⟩ :: acc.2.2)) (prev, acc) =
      (((prev :: txs.map SizeTagged.offset).getLast?).getD 0,
        (pieces rootLabel prev txs).foldl (fun s p => s.add (dataRootKey p.label (p.stop - p.start))) acc.1,
        ((pieces rootLabel prev txs).map fun p =>
          (⟨p.label, p.stop - p.start, base + p.start, path (p.stop - 1)⟩ : DataRootArgs)).reverse ++ acc.2) := by
  induction txs generalizing prev acc with
  | nil => rfl
  | cons t txs ih =>
    have hlast : ((prev :: (t :: txs).map SizeTagged.offset).getLast?).getD 0 =
        ((t.offset :: txs.map SizeTagged.offset).getLast?).getD 0 := by
      rw [List.map_cons, List.getLast?_cons_of_ne_nil (by simp)]
    rw [List.foldl_cons, pieces, hlast]
    by_cases heq : t.offset = prev
    · simp only [if_pos heq]
      rw [ih (h.skip heq), heq]
    · simp only [if_neg heq]
      cases hid : t.id with
      | none => simp only [ih h.tail, rootLabel, hid, Option.map_none, Option.toList_none, List.nil_append]
      | some txid =>
        by_cases hlen : t.root.length < 32
        · simp only [if_pos hlen, ih h.tail, rootLabel, hid, Option.map_none, Option.toList_none,
            List.nil_append]
        · simp only [if_neg hlen, ih h.tail, rootLabel, hid, Option.map_some, Option.toList_some,
            List.singleton_append, List.foldl_cons, List.map_cons, List.reverse_cons, List.append_assoc]

lemma blockDataRoots_eq (h : Ordered 0 txs) :
    blockDataRoots tree txs base = (blockSize txs, (rootKeys txs).foldl (fun s k => s.add k) OrdSet.empty,
      (rootArgs tree txs base).reverse) := by
  have hsize : ((0 :: txs.map SizeTagged.offset).getLast?).getD 0 = blockSize txs := by
    rw [blockSize]
    cases txs with
    | nil => rfl
    | cons t txs => rw [List.map_cons, List.getLast?_cons_of_ne_nil (by simp), ← List.map_cons, List.getLast?_map]
  rw [blockDataRoots, blockDataRoots_loop (tree.path txs) h, hsize, rootKeys, rootArgs, List.foldl_map,
    List.append_nil]
  rfl

end Pieces

section Chains

variable {H : Type}

/-- The tree of blocks, with the transactions of every block and the weave size up to it. The size of
a block is that of its transactions, a data root has at most 32 bytes, and a transaction is in a chain
once. -/
structure Weave (H : Type) extends Ancestry H where
  txs : H → List SizeTagged
  weaveSize : H → Nat
  weave_eq : ∀ x y, parent x = some y → weaveSize x = weaveSize y + blockSize (txs x)
  size_le : ∀ x, blockSize (txs x) ≤ weaveSize x
  ordered : ∀ x, Ordered 0 (txs x)
  weave_lt : ∀ x, weaveSize x < 2 ^ 256
  roots : ∀ x, ∀ t ∈ txs x, t.root.length ≤ 32
  ids : ∀ tip, ∀ x ∈ toAncestry.path tip, ∀ y ∈ toAncestry.path tip, ∀ p ∈ txPieces (txs x), ∀ q ∈ txPieces (txs y),
    p.label = q.label → x = y ∧ p = q

namespace Weave

variable {W : Weave H} {x y z tip : H} {label label' : SizeTagged → Option Bytes} {p q : Piece}

/-- The offset at which a block starts. -/
def start (W : Weave H) (x : H) : Nat := W.weaveSize x - blockSize (W.txs x)

lemma start_add_blockSize : W.start x + blockSize (W.txs x) = W.weaveSize x := Nat.sub_add_cancel (W.size_le x)

lemma start_eq (h : W.parent x = some y) : W.start x = W.weaveSize y := by
  rw [start, W.weave_eq x y h, Nat.add_sub_cancel]

lemma weaveSize_le (h : z ∈ W.path x) : W.weaveSize z ≤ W.weaveSize x := by
  induction hn : W.height x generalizing x with
  | zero =>
    cases hp : W.parent x with
    | none =>
      rw [Ancestry.path_of_no_parent hp, List.mem_singleton] at h
      rw [h]
    | some y =>
      have := W.height_eq x y hp
      omega
  | succ n ih =>
    cases hp : W.parent x with
    | none =>
      rw [Ancestry.path_of_no_parent hp, List.mem_singleton] at h
      rw [h]
    | some y =>
      rw [Ancestry.path_of_parent hp, List.mem_cons] at h
      obtain rfl | h := h
      · exact le_rfl
      · have hheight := W.height_eq x y hp
        have hle := ih h (by omega)
        have hsize := W.weave_eq x y hp
        omega

lemma weaveSize_le_start (h : z ∈ W.path x) (hne : z ≠ x) : W.weaveSize z ≤ W.start x := by
  cases hp : W.parent x with
  | none =>
    rw [Ancestry.path_of_no_parent hp, List.mem_singleton] at h
    exact absurd h hne
  | some y =>
    rw [Ancestry.path_of_parent hp, List.mem_cons] at h
    rw [start_eq hp]
    exact weaveSize_le (h.resolve_left hne)

lemma weaveSize_le_start_of_notMem (hz : z ∈ W.path tip) (hx : x ∈ W.path tip) (hnot : x ∉ W.path z) :
    W.weaveSize z ≤ W.start x := by
  have hmem := (Ancestry.mem_path_or_mem_path hz hx).resolve_left hnot
  refine weaveSize_le_start hmem ?_
  rintro rfl
  exact hnot Ancestry.self_mem_path

lemma piece_spec (hp : p ∈ pieces label 0 (W.txs x)) :
    p.start < p.stop ∧ W.start x + p.stop ≤ W.weaveSize x := by
  obtain ⟨-, hlt, hle⟩ := (pieces_spec label (W.ordered x)).1 p hp
  have := W.start_add_blockSize (x := x)
  omega

lemma eq_of_start_eq (hx : x ∈ W.path tip) (hy : y ∈ W.path tip) (hp : p ∈ pieces label 0 (W.txs x))
    (hq : q ∈ pieces label' 0 (W.txs y)) (heq : W.start x + p.start = W.start y + q.start) : x = y := by
  by_contra hne
  have hpx := piece_spec hp
  have hqy := piece_spec hq
  obtain hmem | hmem := Ancestry.mem_path_or_mem_path hx hy
  · have := weaveSize_le_start hmem (Ne.symm hne)
    omega
  · have := weaveSize_le_start hmem hne
    omega

lemma piece_eq_of_start_eq (hp : p ∈ pieces label 0 (W.txs x)) (hq : q ∈ pieces label 0 (W.txs x))
    (heq : p.start = q.start) : p = q := by
  by_contra hne
  have hpair := (pieces_spec label (W.ordered x)).2
  have hpx := piece_spec hp
  have hqx := piece_spec hq
  have hapart := related_of_pairwise hpair hp hq hne
  omega

end Weave

end Chains

end Arweave.DataSync

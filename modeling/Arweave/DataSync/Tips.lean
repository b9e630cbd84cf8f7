import Arweave.DataSync.Reorgs

/-!
# Sequences of tips

Every message with a new tip carries the upper part of its chain. The newest stored block that the
message has is the last common block of the two chains, so that the indices follow the chain from tip
to tip.
-/

namespace Arweave.DataSync

open Lib

variable {H : Type} {W : Weave H} {tree : TxTree} {B : H → Prop} {I : Indices} {x y z tip : H}

lemma addBlocks_append {blocks : List (H × List SizeTagged)} {base : Nat} {txs : List SizeTagged} :
    addBlocks tree (blocks ++ [(x, txs)]) base I =
      ((addBlocks tree blocks base I).1 + blockSize txs,
        updateTxIndex txs (addBlocks tree blocks base I).1
          (addBlockDataRoots tree txs (addBlocks tree blocks base I).1 (addBlocks tree blocks base I).2.1).1,
        (addBlockDataRoots tree txs (addBlocks tree blocks base I).1 (addBlocks tree blocks base I).2.1).2.elems.foldl
          (fun s x => s.add x) (addBlocks tree blocks base I).2.2) := by
  rw [addBlocks, List.foldl_append, ← addBlocks, List.foldl_cons, List.foldl_nil, blockSize]
  cases hlast : txs.getLast? with
  | none =>
    rw [List.getLast?_eq_none_iff.mp hlast]
    rfl
  | some last => rfl

/-- The blocks above an indexed chain are added in their order. -/
lemma addBlocks_spec {above : List H} (hpath : W.path tip = above ++ W.path z) (hI : Describes W tree B I)
    (hB : ∀ x, B x → x ∈ W.path z) :
    (addBlocks tree (above.reverse.map fun x => (x, W.txs x)) (W.weaveSize z) I).1 = W.weaveSize tip ∧
      Describes W tree (fun x => B x ∨ x ∈ above)
        (addBlocks tree (above.reverse.map fun x => (x, W.txs x)) (W.weaveSize z) I).2.1 := by
  induction above generalizing tip with
  | nil =>
    obtain ⟨l, hl⟩ := W.exists_path_eq tip
    obtain ⟨l', hl'⟩ := W.exists_path_eq z
    have heq : tip = z := by
      rw [hl, List.nil_append, hl'] at hpath
      exact (List.cons.inj hpath).1
    subst heq
    exact ⟨rfl, hI.congr fun x => by simp⟩
  | cons w above ih =>
    obtain ⟨l', hl'⟩ := W.exists_path_eq z
    cases hparent : W.parent tip with
    | none =>
      rw [Ancestry.path_of_no_parent hparent, hl'] at hpath
      simp at hpath
    | some y =>
      rw [Ancestry.path_of_parent hparent, List.cons_append] at hpath
      obtain ⟨rfl, hrest⟩ := List.cons.inj hpath
      obtain ⟨hsize, hadded⟩ := ih hrest
      have hstart : W.weaveSize y = W.start tip := (Weave.start_eq hparent).symm
      have hin : ∀ x, B x ∨ x ∈ above → x ∈ W.path y := by
        intro x hx
        rw [hrest, List.mem_append]
        exact hx.symm.imp_right (hB x)
      have hnew : ¬ (B tip ∨ tip ∈ above) := by
        intro htip
        have hle := Ancestry.height_le_of_mem_path (hin tip htip)
        have := W.height_eq tip y hparent
        omega
      have hchain : ∀ x, B x ∨ x ∈ above → x ∈ W.path tip := by
        intro x hx
        rw [Ancestry.path_of_parent hparent]
        exact List.mem_cons_of_mem _ (hin x hx)
      rw [List.reverse_cons, List.map_append, List.map_cons, List.map_nil, addBlocks_append, hsize, hstart]
      refine ⟨Weave.start_add_blockSize, ?_⟩
      refine (describes_add hadded hchain Ancestry.self_mem_path hnew).congr fun x => ?_
      rw [List.mem_cons, or_assoc, or_comm (a := x = tip)]

section Messages

variable [DecidableEq H]

/-- A message with a new tip: how many of its blocks come with their transactions, and how many are in
the block index. -/
structure Tip (H : Type) where
  tip : H
  pairs : Nat
  recent : Nat

namespace Tip

/-- The recent blocks with their transactions, newest first. -/
def blockTxPairs (W : Weave H) (t : Tip H) : List (H × List SizeTagged) :=
  ((W.path t.tip).take t.pairs).map fun x => (x, W.txs x)

/-- The recent block index, newest first. -/
def blockIndex (W : Weave H) (tree : TxTree) (t : Tip H) : List (H × Nat × Bytes) :=
  ((W.path t.tip).take t.recent).map fun x => (x, W.weaveSize x, tree.root (W.txs x))

end Tip

/-- The message has a block of the stored block index. -/
def Shares (blockIndex : List (H × Nat × Bytes)) (blockTxPairs : List (H × List SizeTagged)) : Prop :=
  ∃ e ∈ blockIndex, ∃ p ∈ blockTxPairs, p.1 = e.1

lemma pickMissingBlocks_eq {stored given : List H} {root : H → Bytes} :
    pickMissingBlocks (stored.map fun x => (x, W.weaveSize x, root x)) (given.map fun x => (x, W.txs x)) =
      (stored.find? (· ∈ given)).map fun z =>
        (W.weaveSize z, (given.takeWhile (fun x => x ≠ z)).reverse.map fun x => (x, W.txs x)) := by
  induction stored with
  | nil => rfl
  | cons z stored ih =>
    have hdrop : (given.map fun x => (x, W.txs x)).dropWhile (fun p => decide (p.1 ≠ z)) =
        (given.dropWhile fun x => x ≠ z).map fun x => (x, W.txs x) := List.dropWhile_map ..
    have htake : (given.map fun x => (x, W.txs x)).takeWhile (fun p => decide (p.1 ≠ z)) =
        (given.takeWhile fun x => x ≠ z).map fun x => (x, W.txs x) := List.takeWhile_map ..
    rw [List.map_cons, pickMissingBlocks, hdrop, htake, ← List.map_reverse]
    by_cases hz : z ∈ given
    · rw [List.find?_cons_of_pos (by simpa using hz)]
      cases hrest : given.dropWhile fun x => decide (x ≠ z) with
      | nil =>
        have hall := List.dropWhile_eq_nil_iff.mp hrest z hz
        simp at hall
      | cons y rest => rfl
    · have hnil : (given.dropWhile fun x => decide (x ≠ z)) = [] := by
        rw [List.dropWhile_eq_nil_iff]
        intro x hx
        rw [decide_eq_true_eq]
        rintro rfl
        exact hz hx
      rw [List.find?_cons_of_neg (by simpa using hz), hnil]
      exact ih

lemma pickMissingBlocks_spec {stored given : Tip H} (hshares : Shares (stored.blockIndex W tree) (given.blockTxPairs W)) :
    ∃ z above, z ∈ W.path stored.tip ∧ W.path given.tip = above ++ W.path z ∧
      (∀ w, w ∈ W.path stored.tip → w ∈ W.path given.tip → w ∈ W.path z) ∧
      pickMissingBlocks (stored.blockIndex W tree) (given.blockTxPairs W) =
        some (W.weaveSize z, above.reverse.map fun x => (x, W.txs x)) := by
  have hsome : ((W.path stored.tip).take stored.recent).find? (· ∈ (W.path given.tip).take given.pairs) ≠ none := by
    obtain ⟨e, he, p, hp, heq⟩ := hshares
    obtain ⟨x, hx, rfl⟩ := List.mem_map.mp he
    obtain ⟨y, hy, rfl⟩ := List.mem_map.mp hp
    rw [Ne, List.find?_eq_none]
    intro hnone
    refine hnone x hx ?_
    replace heq : y = x := heq
    rw [← heq, decide_eq_true_eq]
    exact hy
  obtain ⟨z, hz⟩ := Option.ne_none_iff_exists'.mp hsome
  obtain ⟨hgiven, before, after, hstored, hbefore⟩ := List.find?_eq_some_iff_append.mp hz
  rw [decide_eq_true_eq] at hgiven
  have hsplit : W.path stored.tip = before ++ z :: (after ++ (W.path stored.tip).drop stored.recent) := by
    conv_lhs => rw [← List.take_append_drop stored.recent (W.path stored.tip), hstored]
    rw [List.append_assoc, List.cons_append]
  have hsplit' := (List.take_append_drop given.pairs (W.path given.tip)).symm
  obtain ⟨above, hpath, habove⟩ := Ancestry.exists_path_eq_append (List.mem_of_mem_take hgiven)
  refine ⟨z, above, ?_, hpath, ?_, ?_⟩
  · rw [hsplit]
    simp
  · intro w hw hw'
    refine Ancestry.mem_path_of_first hsplit hsplit' hgiven (fun a ha => ?_) hw hw'
    simpa using hbefore a ha
  · rw [Tip.blockIndex, Tip.blockTxPairs, pickMissingBlocks_eq, hz,
      Option.map_some, Ancestry.takeWhile_path hpath habove hsplit' hgiven]

end Messages

section Server

variable [DecidableEq H]

/-- The state of the server with the last tip and the blocks that were added. -/
structure Server (H : Type) where
  last : Tip H
  seen : List H
  state : State H

def Server.handle (W : Weave H) (tree : TxTree) (s : Server H) (t : Tip H) : Option (Server H) := do
  let (st, report) ← addTipBlock tree s.state (t.blockTxPairs W) (t.blockIndex W tree)
  pure ⟨t, s.seen ++ report.blocks, st⟩

/-- The message shares a block with the stored block index. -/
def Server.Accepts (W : Weave H) (s : Server H) (t : Tip H) : Prop := Shares s.state.blockIndex (t.blockTxPairs W)

/-- The indices describe the blocks of the chain of the last tip among those that were added. -/
structure Server.Good (W : Weave H) (tree : TxTree) (s : Server H) : Prop where
  weaveSize_eq : s.state.weaveSize = W.weaveSize s.last.tip
  blockIndex_eq : s.state.blockIndex = s.last.blockIndex W tree
  describes : Describes W tree (fun x => x ∈ s.seen ∧ x ∈ W.path s.last.tip) s.state.indices

/-- What a tip changed: the blocks of its chain that are not in the old one were added, and those data
roots of the removed blocks are reported that no block below them has. -/
structure Report.Correct (W : Weave H) (s : Server H) (t : Tip H) (report : Report H) : Prop where
  blocks : ∀ x, x ∈ report.blocks ↔ x ∈ W.path t.tip ∧ x ∉ W.path s.last.tip
  orphaned : ∀ key, key ∈ report.orphanedDataRoots ↔
    (∃ x ∈ s.seen, (x ∈ W.path s.last.tip ∧ x ∉ W.path t.tip) ∧ key ∈ rootKeys (W.txs x)) ∧
      ¬ ∃ x ∈ s.seen, (x ∈ W.path s.last.tip ∧ x ∈ W.path t.tip) ∧ key ∈ rootKeys (W.txs x)

variable {s : Server H} {t : Tip H}

lemma addTipBlock_spec (hs : s.Good W tree) (hacc : s.Accepts W t) :
    ∃ st report, addTipBlock tree s.state (t.blockTxPairs W) (t.blockIndex W tree) = some (st, report) ∧
      Server.Good W tree ⟨t, s.seen ++ report.blocks, st⟩ ∧ report.Correct W s t := by
  rw [Server.Accepts, hs.blockIndex_eq] at hacc
  obtain ⟨z, above, hz, hpath, hcommon, hpick⟩ := pickMissingBlocks_spec hacc
  obtain ⟨hremoved, horphaned⟩ := removeOrphanedData_spec hs.describes (fun x hx => hx.2) hz
  obtain ⟨hsize, hadded⟩ := addBlocks_spec hpath hremoved fun x hx => hx.2
  -- The chain of the new tip is the common part with the blocks above it.
  have hbelow : ∀ x, x ∈ W.path z → x ∈ W.path s.last.tip := fun x hx => Ancestry.mem_path_trans hz hx
  have hin : ∀ x, x ∈ W.path s.last.tip → (x ∈ W.path z ↔ x ∈ W.path t.tip) := by
    intro x hx
    refine ⟨fun h => ?_, hcommon x hx⟩
    rw [hpath, List.mem_append]
    exact Or.inr h
  have habove : ∀ x, x ∈ above ↔ x ∈ W.path t.tip ∧ x ∉ W.path s.last.tip := by
    intro x
    constructor
    · intro hx
      have hmem : x ∈ W.path t.tip := hpath ▸ List.mem_append_left _ hx
      refine ⟨hmem, fun hlast => ?_⟩
      have hle := Ancestry.height_le_of_mem_path (hcommon x hlast hmem)
      have hpair := W.path_pairwise t.tip
      rw [hpath, List.pairwise_append] at hpair
      have := hpair.2.2 x hx z Ancestry.self_mem_path
      omega
    · rintro ⟨hmem, hnot⟩
      rw [hpath, List.mem_append] at hmem
      exact hmem.resolve_right fun h => hnot (hbelow x h)
  have hblocks : ((above.reverse.map fun x => (x, W.txs x)).map Prod.fst) = above.reverse := by
    rw [List.map_map]
    exact List.map_id _
  have hstep : addTipBlock tree s.state (t.blockTxPairs W) (t.blockIndex W tree) =
      some (⟨(addBlocks tree (above.reverse.map fun x => (x, W.txs x)) (W.weaveSize z)
          (removeOrphanedData (W.weaveSize z) s.state.weaveSize s.state.indices).1).2.1,
        (addBlocks tree (above.reverse.map fun x => (x, W.txs x)) (W.weaveSize z)
          (removeOrphanedData (W.weaveSize z) s.state.weaveSize s.state.indices).1).1, t.blockIndex W tree⟩,
        ⟨(above.reverse.map fun x => (x, W.txs x)).map Prod.fst,
          (addBlocks tree (above.reverse.map fun x => (x, W.txs x)) (W.weaveSize z)
            (removeOrphanedData (W.weaveSize z) s.state.weaveSize s.state.indices).1).2.2,
          (removeOrphanedData (W.weaveSize z) s.state.weaveSize s.state.indices).2⟩) := by
    rw [addTipBlock, hs.blockIndex_eq, hpick]
    rfl
  rw [hs.weaveSize_eq, hblocks] at hstep
  refine ⟨_, _, hstep, ⟨hsize, rfl, hadded.congr fun x => ?_⟩, ⟨fun x => ?_, fun key => ?_⟩⟩
  · rw [List.mem_append, List.mem_reverse]
    constructor
    · rintro (⟨⟨hseen, hlast⟩, hx⟩ | hx)
      · exact ⟨Or.inl hseen, (hin x hlast).mp hx⟩
      · exact ⟨Or.inr hx, ((habove x).mp hx).1⟩
    · rintro ⟨hseen | hx, hmem⟩
      · by_cases hlast : x ∈ W.path s.last.tip
        · exact Or.inl ⟨⟨hseen, hlast⟩, (hin x hlast).mpr hmem⟩
        · exact Or.inr ((habove x).mpr ⟨hmem, hlast⟩)
      · exact Or.inr hx
  · rw [List.mem_reverse, habove]
  · have hiff : ∀ x, ((x ∈ s.seen ∧ x ∈ W.path s.last.tip) ∧ x ∈ W.path z) ↔
        x ∈ s.seen ∧ x ∈ W.path s.last.tip ∧ x ∈ W.path t.tip := by
      intro x
      rw [and_assoc]
      exact and_congr_right fun _ => and_congr_right (hin x)
    have hiff' : ∀ x, ((x ∈ s.seen ∧ x ∈ W.path s.last.tip) ∧ x ∉ W.path z) ↔
        x ∈ s.seen ∧ x ∈ W.path s.last.tip ∧ x ∉ W.path t.tip := by
      intro x
      rw [and_assoc]
      exact and_congr_right fun _ => and_congr_right fun h => not_congr (hin x h)
    rw [horphaned]
    simp only [hiff, hiff', and_assoc]

/-- After every sequence of tips the next one leaves the indices with exactly the entries of its chain
among the blocks that were added, and reports what it should. -/
theorem addTipBlock_describes_chain (W : Weave H) (tree : TxTree) (s0 : Server H) (hgood : s0.Good W tree)
    (tips : List (Tip H)) (t : Tip H) (haccepts : Along (Server.handle W tree) (Server.Accepts W) s0 (tips ++ [t])) :
    ∃ s st report, tips.foldlM (Server.handle W tree) s0 = some s ∧
      addTipBlock tree s.state (t.blockTxPairs W) (t.blockIndex W tree) = some (st, report) ∧
      Describes W tree (fun x => (x ∈ s.seen ∨ x ∈ report.blocks) ∧ x ∈ W.path t.tip) st.indices ∧
      report.Correct W s t := by
  have hrun : ∃ s, tips.foldlM (Server.handle W tree) s0 = some s ∧ s.Good W tree := by
    induction tips generalizing s0 with
    | nil => exact ⟨s0, rfl, hgood⟩
    | cons u tips ih =>
      rw [List.cons_append, along_cons] at haccepts
      obtain ⟨st, report, hadd, hgood', -⟩ := addTipBlock_spec hgood haccepts.1
      have hhandle : Server.handle W tree s0 u = some ⟨u, s0.seen ++ report.blocks, st⟩ := by
        rw [Server.handle, hadd]
        rfl
      obtain ⟨s, hs, hgood''⟩ := ih _ hgood' (haccepts.2 _ hhandle)
      refine ⟨s, ?_, hgood''⟩
      rw [List.foldlM_cons, hhandle]
      exact hs
  obtain ⟨s, hs, hgood'⟩ := hrun
  obtain ⟨st, report, hadd, hgood'', hcorrect⟩ := addTipBlock_spec hgood' (haccepts tips t [] s rfl hs)
  exact ⟨s, st, report, hs, hadd, hgood''.describes.congr fun x => by rw [List.mem_append], hcorrect⟩

end Server

/-- Two blocks on one parent with the same transaction. -/
def sampleWeave : Weave (Fin 3) where
  parent x := if x = 0 then none else some 0
  height x := if x = 0 then 0 else 1
  height_eq := by decide
  txs x := if x = 0 then [] else [⟨some [1], List.replicate 32 7, 10⟩]
  weaveSize x := if x = 0 then 0 else 10
  weave_eq := by decide
  size_le := by decide
  ordered x := by
    by_cases hx : x = 0
    · simp [hx, Ordered]
    · simp [hx, Ordered]
  weave_lt := by decide
  roots := by decide
  ids := by decide

def sampleTree : TxTree where
  root txs := [UInt8.ofNat txs.length]
  path txs offset := [UInt8.ofNat txs.length, UInt8.ofNat offset]

/-- A server at the common parent with nothing indexed. -/
def freshServer : Server (Fin 3) :=
  let t : Tip (Fin 3) := ⟨0, 1, 1⟩
  ⟨t, [], ⟨{}, 0, t.blockIndex sampleWeave sampleTree⟩⟩

lemma freshServer_good : freshServer.Good sampleWeave sampleTree :=
  ⟨rfl, rfl, describes_empty fun _ hx => List.not_mem_nil hx.1⟩

/-- A test of a common block. -/
def shares (blockIndex : List (Fin 3 × Nat × Bytes)) (blockTxPairs : List (Fin 3 × List SizeTagged)) : Bool :=
  blockIndex.any fun e => blockTxPairs.any fun p => p.1 = e.1

lemma accepts_of_shares (s : Server (Fin 3)) (t : Tip (Fin 3))
    (h : shares s.state.blockIndex (t.blockTxPairs sampleWeave) = true) : s.Accepts sampleWeave t := by
  simpa [shares, Server.Accepts, Shares] using h

theorem addTipBlock_describes_chain_fork :
    ∃ s st report, [(⟨1, 2, 2⟩ : Tip (Fin 3))].foldlM (Server.handle sampleWeave sampleTree) freshServer = some s ∧
      addTipBlock sampleTree s.state (Tip.blockTxPairs sampleWeave ⟨2, 2, 2⟩)
        (Tip.blockIndex sampleWeave sampleTree ⟨2, 2, 2⟩) = some (st, report) ∧
      Describes sampleWeave sampleTree (fun x => (x ∈ s.seen ∨ x ∈ report.blocks) ∧ x ∈ sampleWeave.path 2) st.indices ∧
      report.Correct sampleWeave s ⟨2, 2, 2⟩ :=
  addTipBlock_describes_chain sampleWeave sampleTree freshServer freshServer_good [⟨1, 2, 2⟩] ⟨2, 2, 2⟩
    (along_of_checkAlong accepts_of_shares (by decide +kernel))

/-- The fork has the data root of the block it replaces: it is reported as orphaned and is in the index. -/
theorem orphaned_root_in_index :
    (([(⟨1, 2, 2⟩ : Tip (Fin 3))].foldlM (Server.handle sampleWeave sampleTree) freshServer).bind fun s =>
      addTipBlock sampleTree s.state (Tip.blockTxPairs sampleWeave ⟨2, 2, 2⟩)
        (Tip.blockIndex sampleWeave sampleTree ⟨2, 2, 2⟩)).any (fun r =>
          decide (dataRootKey (List.replicate 32 7) 10 ∈ r.2.orphanedDataRoots ∧
            (r.1.indices.dataRootIndex.lookup (dataRootKeyV2 (List.replicate 32 7) 10 0)).isSome)) = true := by
  decide +kernel

end Arweave.DataSync

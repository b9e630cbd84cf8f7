import Arweave.DataSync.Indices

/-!
# Reorganisations of the data indices

A new tip removes what is above the last common block and adds the blocks above it. The removal takes
from the data root index the offsets of the removed blocks only, and reports the data roots that have
no offset left. From the chain of one tip to the chain of the next, every index keeps describing the
blocks that were added and are in the chain.
-/

namespace Arweave.DataSync

open Lib Wallet

section DataRoots

variable {index : SortedMap Bytes Bytes} {key k v : Bytes} {start stop : Nat}

/-- The offset of a data root and a size in the data root index. -/
def offsetOf (key : Bytes) (offset : Nat) : Bytes := dataRootKeyV2 (key.take 32) (Bytes.toNat (key.drop 32)) offset

def Triple.of (key : Bytes) (offset : Nat) : Triple := toLex (key.take 32, toLex (Bytes.toNat (key.drop 32), offset))

lemma Triple.of_key (offset : Nat) : (Triple.of key offset).key = offsetOf key offset := rfl

lemma Triple.of_fits {offset : Nat} (hkey : key.length = 64) (hoffset : offset < 2 ^ 256) :
    (Triple.of key offset).Fits := by
  refine ⟨?_, ?_, hoffset⟩
  · change (key.take 32).length = 32
    rw [List.length_take, hkey]
    rfl
  · have hlt := Bytes.toNat_lt (key.drop 32)
    rw [List.length_drop, hkey] at hlt
    exact hlt.trans_eq (by norm_num)

/-- All keys of the index are of data roots of 32 bytes with numbers of 256 bits. -/
def Keyed (index : SortedMap Bytes Bytes) : Prop :=
  ∀ k v, index.lookup k = some v → ∃ t : Triple, t.Fits ∧ t.key = k

lemma matchesDataRoot_key {t : Triple} (ht : t.Fits) (r : Bytes) (s : Nat) :
    matchesDataRoot r s t.key = true ↔ (ofLex t).1 = r ∧ (ofLex (ofLex t).2).1 = s := by
  obtain ⟨r', s', o'⟩ := t
  obtain ⟨hr', hs', -⟩ := ht
  replace hr' : r'.length = 32 := hr'
  replace hs' : s' < 2 ^ 256 := hs'
  obtain ⟨htake, size, hsize, hdrop⟩ := dataRootKeyV2_parts hr' hs' o'
  change matchesDataRoot r s (dataRootKeyV2 r' s' o') = true ↔ r' = r ∧ s' = s
  rw [matchesDataRoot, hdrop]
  dsimp only
  rw [htake, decide_eq_true_eq, hsize, List.length_append, List.take_append_of_le_length le_rfl, List.take_length,
    toNat_encodeUnsigned]
  exact and_congr_right fun _ => and_iff_right (Nat.le_add_right _ _)

/-- The key lies in the range that is removed for a data root. -/
def Removed (start stop : Nat) (key k : Bytes) : Prop := ∃ o, start ≤ o ∧ o < stop ∧ k = offsetOf key o

/-- The data root has an offset below the range. -/
def Left (index : SortedMap Bytes Bytes) (start : Nat) (key : Bytes) : Prop :=
  ∃ o < start, ∃ v, index.lookup (offsetOf key o) = some v

lemma range_iff_removed {t : Triple} (hkey : key.length = 64) (ht : t.Fits) (hstart : start < 2 ^ 256)
    (hstop : stop < 2 ^ 256) :
    (offsetOf key start ≤ t.key ∧ t.key < offsetOf key stop) ↔ Removed start stop key t.key := by
  have hmono := Triple.key_strictMonoOn
  have hlo := Triple.of_fits hkey hstart
  have hhi := Triple.of_fits hkey hstop
  rw [← Triple.of_key start, ← Triple.of_key stop, hmono.le_iff_le hlo ht, hmono.lt_iff_lt ht hhi]
  rw [Triple.of, Triple.of, lex_between]
  constructor
  · rintro ⟨o, hle, hlt, rfl⟩
    exact ⟨o, hle, hlt, rfl⟩
  · rintro ⟨o, hle, hlt, heq⟩
    exact ⟨o, hle, hlt, hmono.injOn ht (Triple.of_fits hkey (hlt.trans hstop)) heq⟩

/-- The index without the range of a data root. -/
def cutDataRoot (index : SortedMap Bytes Bytes) (key : Bytes) (start stop : Nat) : SortedMap Bytes Bytes :=
  index.deleteRange (offsetOf key start) (offsetOf key stop)

lemma removeDataRoot_eq : removeDataRoot index key start stop =
    (cutDataRoot index key start stop,
      match (cutDataRoot index key start stop).prev (offsetOf key start) with
      | some (prevKey, _) => !matchesDataRoot (key.take 32) (Bytes.toNat (key.drop 32)) prevKey
      | none => true) := by
  rw [removeDataRoot, cutDataRoot, offsetOf, offsetOf]
  split <;> simp only [*]

lemma lookup_cutDataRoot (hkeyed : Keyed index) (hkey : key.length = 64) (hstart : start < 2 ^ 256)
    (hstop : stop < 2 ^ 256) :
    (cutDataRoot index key start stop).lookup k = some v ↔ index.lookup k = some v ∧ ¬ Removed start stop key k := by
  rw [cutDataRoot, SortedMap.lookup_deleteRange]
  refine and_congr_right fun hk => not_congr ?_
  obtain ⟨t, ht, rfl⟩ := hkeyed k v hk
  exact range_iff_removed hkey ht hstart hstop

lemma Keyed.cutDataRoot (hkeyed : Keyed index) : Keyed (cutDataRoot index key start stop) :=
  fun k v hk => hkeyed k v (SortedMap.lookup_deleteRange.mp hk).1

lemma offsetOf_lt {o o' : Nat} (hkey : key.length = 64) (h : o < o') (ho' : o' < 2 ^ 256) :
    offsetOf key o < offsetOf key o' := by
  have hlt : Triple.of key o < Triple.of key o' := by
    rw [Triple.of, Triple.of, Prod.Lex.toLex_lt_toLex, Prod.Lex.toLex_lt_toLex]
    exact Or.inr ⟨rfl, Or.inr ⟨rfl, h⟩⟩
  exact Triple.key_strictMonoOn (Triple.of_fits hkey (h.trans ho')) (Triple.of_fits hkey ho') hlt

lemma offsetOf_inj {key' : Bytes} {o o' : Nat} (hkey : key.length = 64) (hkey' : key'.length = 64) (ho : o < 2 ^ 256)
    (ho' : o' < 2 ^ 256) (heq : offsetOf key o = offsetOf key' o') : key = key' ∧ o = o' := by
  have hof := Triple.key_strictMonoOn.injOn (Triple.of_fits hkey ho) (Triple.of_fits hkey' ho') heq
  have hpair := toLex.injective hof
  have hrest := toLex.injective (congrArg Prod.snd hpair)
  have htake : key.take 32 = key'.take 32 := congrArg Prod.fst hpair
  have hsize : Bytes.toNat (key.drop 32) = Bytes.toNat (key'.drop 32) := congrArg Prod.fst hrest
  have hdrop : key.drop 32 = key'.drop 32 :=
    Bytes.toNat_injective (by rw [List.length_drop, List.length_drop, hkey, hkey']) hsize
  refine ⟨?_, congrArg Prod.snd hrest⟩
  rw [← List.take_append_drop 32 key, htake, hdrop, List.take_append_drop]

lemma left_cutDataRoot (hkeyed : Keyed index) {key' : Bytes} (hkey : key.length = 64) (hkey' : key'.length = 64)
    (hstart : start < 2 ^ 256) (hstop : stop < 2 ^ 256) :
    Left (cutDataRoot index key' start stop) start key ↔ Left index start key := by
  refine exists_congr fun o => and_congr_right fun ho => exists_congr fun v => ?_
  rw [lookup_cutDataRoot hkeyed hkey' hstart hstop, and_iff_left]
  rintro ⟨o', hle, hlt, heq⟩
  have := (offsetOf_inj hkey hkey' (ho.trans hstart) (hlt.trans hstop) heq).2
  omega

/-- The largest key up to the start of the range tells whether the data root has an offset below it. -/
lemma removeDataRoot_snd (hkeyed : Keyed index) (hkey : key.length = 64) (hlt : start < stop) (hstop : stop < 2 ^ 256) :
    (removeDataRoot index key start stop).2 = true ↔ ¬ Left index start key := by
  have hstart := hlt.trans hstop
  have hmono := Triple.key_strictMonoOn
  have hkeyed2 : Keyed (cutDataRoot index key start stop) := hkeyed.cutDataRoot
  rw [← left_cutDataRoot hkeyed hkey hkey hstart hstop, removeDataRoot_eq]
  cases hprev : (cutDataRoot index key start stop).prev (offsetOf key start) with
  | none =>
    refine iff_of_true rfl ?_
    rintro ⟨o, ho, v, hv⟩
    have hle := (offsetOf_lt hkey ho hstart).le
    obtain ⟨a, -, ha, -⟩ := SortedMap.exists_prev (SortedMap.lookup_eq_some.mp hv) hle
    rw [hprev] at ha
    cases ha
  | some e =>
    obtain ⟨prevKey, v⟩ := e
    obtain ⟨hmem, hle, hmax⟩ := SortedMap.of_prev hprev
    have hprevKey := SortedMap.lookup_eq_some.mpr hmem
    obtain ⟨t, ht, rfl⟩ := hkeyed2 _ _ hprevKey
    simp only [Bool.not_eq_true']
    rw [← Bool.not_eq_true, matchesDataRoot_key ht]
    refine not_congr ⟨?_, ?_⟩
    · rintro ⟨hroot, hsize⟩
      obtain ⟨r, s, o⟩ := t
      have heq : Triple.key (r, s, o) = offsetOf key o := by
        rw [offsetOf, ← hroot, ← hsize]
        rfl
      rw [heq] at hprevKey hle
      refine ⟨o, ?_, v, hprevKey⟩
      by_contra hge
      obtain rfl | hgt := (not_lt.mp hge).eq_or_lt
      · exact ((lookup_cutDataRoot hkeyed hkey hstart hstop).mp hprevKey).2 ⟨start, le_rfl, hlt, rfl⟩
      · exact absurd hle (offsetOf_lt hkey hgt ht.2.2).not_ge
    · rintro ⟨o, ho, v', hv'⟩
      have hlow : offsetOf key o ≤ t.key := hmax _ (SortedMap.lookup_eq_some.mp hv') (offsetOf_lt hkey ho hstart).le
      have hhigh : t.key < offsetOf key (start + 1) := hle.trans_lt (offsetOf_lt hkey (Nat.lt_succ_self _) (by omega))
      rw [← Triple.of_key, hmono.le_iff_le (Triple.of_fits hkey (ho.trans hstart)) ht] at hlow
      rw [← Triple.of_key, hmono.lt_iff_lt ht (Triple.of_fits hkey (by omega))] at hhigh
      obtain ⟨c, -, -, rfl⟩ := lex_between.mp ⟨hlow, hhigh⟩
      exact ⟨rfl, rfl⟩

/-- One data root of a removed block. -/
def removeOne (start stop : Nat) (acc : SortedMap Bytes Bytes × OrdSet Bytes) (key : Bytes) :
    SortedMap Bytes Bytes × OrdSet Bytes :=
  if key.length = 64 then
    ((removeDataRoot acc.1 key start stop).1,
      if (removeDataRoot acc.1 key start stop).2 then acc.2.add key else acc.2)
  else acc

lemma foldl_removeOne {keys : List Bytes} (orphaned : OrdSet Bytes) (hkeyed : Keyed index)
    (hkeys : ∀ key ∈ keys, key.length = 64 ∧ start < stop) (hstop : stop < 2 ^ 256) :
    (∀ k v, (keys.foldl (removeOne start stop) (index, orphaned)).1.lookup k = some v ↔
      index.lookup k = some v ∧ ∀ key ∈ keys, ¬ Removed start stop key k) ∧
    ∀ key, key ∈ (keys.foldl (removeOne start stop) (index, orphaned)).2 ↔
      key ∈ orphaned ∨ key ∈ keys ∧ ¬ Left index start key := by
  induction keys generalizing index orphaned with
  | nil => simp
  | cons key keys ih =>
    obtain ⟨⟨hkey, hlt⟩, hrest⟩ := List.forall_mem_cons.mp hkeys
    have hstart := hlt.trans hstop
    have hfst : (removeDataRoot index key start stop).1 = cutDataRoot index key start stop := by rw [removeDataRoot_eq]
    rw [List.foldl_cons, removeOne, if_pos hkey, hfst]
    obtain ⟨hindex, horphaned⟩ := ih (if (removeDataRoot index key start stop).2 then orphaned.add key else orphaned)
      hkeyed.cutDataRoot hrest
    refine ⟨fun k v => ?_, fun k => ?_⟩
    · rw [hindex, lookup_cutDataRoot hkeyed hkey hstart hstop, List.forall_mem_cons, and_assoc]
    · have hadd : k ∈ (if (removeDataRoot index key start stop).2 then orphaned.add key else orphaned) ↔
          k ∈ orphaned ∨ k = key ∧ ¬ Left index start k := by
        have hsnd := removeDataRoot_snd hkeyed hkey hlt hstop
        split_ifs with hnone
        · rw [OrdSet.mem_add, or_comm]
          refine or_congr_right ⟨?_, And.left⟩
          rintro rfl
          exact ⟨rfl, hsnd.mp hnone⟩
        · refine (or_iff_left ?_).symm
          rintro ⟨rfl, hleft⟩
          exact hnone (hsnd.mpr hleft)
      have hleft : k ∈ keys ∧ ¬ Left (cutDataRoot index key start stop) start k ↔ k ∈ keys ∧ ¬ Left index start k :=
        and_congr_right fun hk => not_congr (left_cutDataRoot hkeyed (hrest k hk).1 hkey hstart hstop)
      rw [horphaned, hadd, hleft, List.mem_cons, or_assoc, ← or_and_right]

end DataRoots

section Descriptions

variable {H : Type} {W : Weave H} {tree : TxTree} {B : H → Prop} {I : Indices} {x y z tip : H} {p q : Piece}
  {label : SizeTagged → Option Bytes} {key : Bytes}

/-- The data roots of a block as they are stored with its offset. -/
def keySet (txs : List SizeTagged) : OrdSet Bytes := (rootKeys txs).foldl (fun s k => s.add k) OrdSet.empty

lemma mem_keySet {txs : List SizeTagged} : key ∈ keySet txs ↔ key ∈ rootKeys txs := by
  rw [keySet, OrdSet.mem_foldl_add, or_iff_left OrdSet.not_mem_empty]

/-- The one entry of a block with data. -/
def blockEntry (txs : List SizeTagged) : List Unit := if 0 < blockSize txs then [()] else []

/-- The indices have exactly the entries of the given blocks: their transactions with data under the
start offsets and under the identifiers, their data roots with sizes and start offsets, and the
blocks with data themselves. -/
structure Describes (W : Weave H) (tree : TxTree) (B : H → Prop) (I : Indices) : Prop where
  txOffset : I.txOffsetIndex.Lists B (fun x => txPieces (W.txs x)) (fun x p => offsetKey (W.start x + p.start : Nat))
    (fun _ p => p.label)
  tx : I.txIndex.Lists B (fun x => txPieces (W.txs x)) (fun _ p => p.label)
    (fun x p => (W.start x + p.stop, p.stop - p.start))
  dataRoot : I.dataRootIndex.Lists B (fun x => rootPieces (W.txs x))
    (fun x p => dataRootKeyV2 p.label (p.stop - p.start) (W.start x + p.start))
    (fun x p => tree.path (W.txs x) (p.stop - 1))
  dataRootOffset : I.dataRootOffsetIndex.Lists B (fun x => blockEntry (W.txs x)) (fun x _ => offsetKey (W.start x))
    (fun x _ => (tree.root (W.txs x), blockSize (W.txs x), keySet (W.txs x)))

lemma Describes.congr {C : H → Prop} (h : Describes W tree B I) (hB : ∀ x, B x ↔ C x) : Describes W tree C I :=
  ⟨h.txOffset.congr hB, h.tx.congr hB, h.dataRoot.congr hB, h.dataRootOffset.congr hB⟩

lemma describes_empty (hB : ∀ x, ¬ B x) : Describes W tree B {} :=
  ⟨SortedMap.lists_empty hB, SortedMap.lists_empty hB, SortedMap.lists_empty hB, SortedMap.lists_empty hB⟩

lemma in_range_iff {o : Nat} (hz : z ∈ W.path tip) (hx : x ∈ W.path tip) (hlo : W.start x ≤ o) (hhi : o < W.weaveSize x) :
    (W.weaveSize z ≤ o ∧ o < W.weaveSize tip) ↔ x ∉ W.path z := by
  constructor
  · rintro ⟨hle, -⟩ hmem
    have := Weave.weaveSize_le hmem
    omega
  · intro hnot
    have hstart := Weave.weaveSize_le_start_of_notMem hz hx hnot
    have htip := Weave.weaveSize_le hx
    omega

lemma offset_range_iff {o start stop : Nat} (ho : o < 2 ^ 256) (hstart : start < 2 ^ 256) (hstop : stop < 2 ^ 256)
    (hpos : 0 < stop) :
    (offsetKey start ≤ offsetKey o ∧ offsetKey o ≤ offsetKey ((stop : Int) - 1)) ↔ start ≤ o ∧ o < stop := by
  have hpred : ((stop : Int) - 1) = ((stop - 1 : Nat) : Int) := by omega
  rw [hpred, offsetKey_le_iff hstart ho, offsetKey_le_iff ho (by omega)]
  omega

lemma length_label (hp : p ∈ rootPieces (W.txs x)) : p.label.length = 32 := by
  obtain ⟨t, ht, hlabel⟩ := exists_label hp
  have hle := W.roots x t ht
  rw [rootLabel] at hlabel
  split at hlabel
  · cases hlabel
  · split_ifs at hlabel with hlen
    have heq : t.root = p.label := Option.some.inj hlabel
    rw [← heq]
    omega

lemma rootKeys_spec (hp : p ∈ rootPieces (W.txs x)) (o : Nat) :
    (dataRootKey p.label (p.stop - p.start)).length = 64 ∧
      offsetOf (dataRootKey p.label (p.stop - p.start)) o = dataRootKeyV2 p.label (p.stop - p.start) o := by
  have hlen := length_label hp
  have hspec := Weave.piece_spec hp
  have hweave := W.weave_lt x
  have htake : (dataRootKey p.label (p.stop - p.start)).take 32 = p.label := by
    rw [dataRootKey, List.take_of_length_le hlen.le, List.take_append_of_le_length hlen.ge, List.take_of_length_le hlen.le]
  have hdrop : (dataRootKey p.label (p.stop - p.start)).drop 32 = offsetKey (p.stop - p.start : Nat) := by
    rw [dataRootKey, List.take_of_length_le hlen.le, List.drop_append_of_le_length hlen.ge, List.drop_of_length_le hlen.le,
      List.nil_append]
  constructor
  · rw [dataRootKey, List.length_append, List.length_take, hlen, length_offsetKey]
    rfl
  · rw [offsetOf, htake, hdrop, toNat_offsetKey (by omega)]

section Ranges

variable {α V : Type} {m : SortedMap Bytes V} {items : H → List α} {o : H → α → Nat} {g : H → α → V}

lemma mem_getRange_offsets (hm : m.Lists B items (fun x a => offsetKey (o x a)) g)
    (ho : ∀ x, ∀ a ∈ items x, W.start x ≤ o x a ∧ o x a < W.weaveSize x) (hB : ∀ x, B x → x ∈ W.path tip)
    (hz : z ∈ W.path tip) {e : Bytes × V} :
    e ∈ m.getRange (offsetKey (W.weaveSize z)) (offsetKey ((W.weaveSize tip : Int) - 1)) ↔
      ∃ x, (B x ∧ x ∉ W.path z) ∧ ∃ a ∈ items x, offsetKey (o x a) = e.1 ∧ g x a = e.2 := by
  obtain ⟨k, v⟩ := e
  have hrange : ∀ x, B x → ∀ a ∈ items x,
      ((offsetKey (W.weaveSize z) ≤ offsetKey (o x a) ∧ offsetKey (o x a) ≤ offsetKey ((W.weaveSize tip : Int) - 1)) ↔
        x ∉ W.path z) := by
    intro x hx a ha
    obtain ⟨hlo, hhi⟩ := ho x a ha
    have hle := Weave.weaveSize_le (hB x hx)
    have hlt := W.weave_lt tip
    rw [offset_range_iff (by omega) (W.weave_lt z) hlt (by omega), in_range_iff hz (hB x hx) hlo hhi]
  rw [SortedMap.mem_getRange, hm k v]
  constructor
  · rintro ⟨⟨x, hx, a, ha, rfl, rfl⟩, hk⟩
    exact ⟨x, ⟨hx, (hrange x hx a ha).mp hk⟩, a, ha, rfl, rfl⟩
  · rintro ⟨x, ⟨hx, hnot⟩, a, ha, rfl, rfl⟩
    exact ⟨⟨x, hx, a, ha, rfl, rfl⟩, (hrange x hx a ha).mpr hnot⟩

lemma lists_deleteRange_offsets (hm : m.Lists B items (fun x a => offsetKey (o x a)) g)
    (ho : ∀ x, ∀ a ∈ items x, W.start x ≤ o x a ∧ o x a < W.weaveSize x) (hB : ∀ x, B x → x ∈ W.path tip)
    (hz : z ∈ W.path tip) :
    (m.deleteRange (offsetKey (W.weaveSize z)) (offsetKey (W.weaveSize tip))).Lists (fun x => B x ∧ x ∈ W.path z) items
      (fun x a => offsetKey (o x a)) g := by
  refine hm.restrict (fun k v => SortedMap.lookup_deleteRange) fun x hx a ha => ?_
  obtain ⟨hlo, hhi⟩ := ho x a ha
  have hlt := (hhi.trans_le (Weave.weaveSize_le (hB x hx))).trans (W.weave_lt tip)
  rw [offsetKey_le_iff (W.weave_lt z) hlt, offsetKey_lt_iff hlt (W.weave_lt tip), in_range_iff hz (hB x hx) hlo hhi,
    not_not]

end Ranges

lemma txPieces_in_block : ∀ x, ∀ p ∈ txPieces (W.txs x), W.start x ≤ W.start x + p.start ∧ W.start x + p.start < W.weaveSize x := by
  intro x p hp
  have hspec := Weave.piece_spec hp
  omega

lemma blockEntry_in_block : ∀ x, ∀ a ∈ blockEntry (W.txs x), W.start x ≤ W.start x ∧ W.start x < W.weaveSize x := by
  intro x a ha
  have hsize := W.start_add_blockSize (x := x)
  rw [blockEntry] at ha
  split_ifs at ha with hpos
  · omega
  · cases ha

lemma lists_removeTxIndexRange (hI : Describes W tree B I) (hB : ∀ x, B x → x ∈ W.path tip) (hz : z ∈ W.path tip) :
    (removeTxIndexRange (W.weaveSize z) (W.weaveSize tip) I).txIndex.Lists (fun x => B x ∧ x ∈ W.path z)
      (fun x => txPieces (W.txs x)) (fun _ p => p.label) (fun x p => (W.start x + p.stop, p.stop - p.start)) := by
  refine hI.tx.restrict (fun k v => SortedMap.lookup_foldl_erase.trans and_comm) fun x hx p hp => ?_
  have hremoved : ∀ e, e ∈ I.txOffsetIndex.getRange _ _ ↔ _ :=
    fun e => mem_getRange_offsets hI.txOffset txPieces_in_block hB hz
  constructor
  · intro hnone
    by_contra hnot
    exact hnone (offsetKey (W.start x + p.start : Nat), p.label) ((hremoved _).mpr ⟨x, ⟨hx, hnot⟩, p, hp, rfl, rfl⟩) rfl
  · rintro hmem e he heq
    obtain ⟨y, ⟨hy, hnot⟩, q, hq, -, hlabel⟩ := (hremoved e).mp he
    obtain ⟨rfl, -⟩ := W.ids tip x (hB x hx) y (hB y hy) p hp q hq (heq.symm.trans hlabel.symm)
    exact hnot hmem

/-- The data roots of the blocks in a range. -/
def removedKeys (start stop : Nat) (I : Indices) : List Bytes :=
  (I.dataRootOffsetIndex.getRange (offsetKey start) (offsetKey ((stop : Int) - 1))).flatMap fun e => e.2.2.2.elems

lemma removeDataRootIndexRange_eq {start stop : Nat} :
    removeDataRootIndexRange start stop I =
      ({ I with dataRootIndex :=
          ((removedKeys start stop I).foldl (removeOne start stop) (I.dataRootIndex, OrdSet.empty)).1 },
        ((removedKeys start stop I).foldl (removeOne start stop) (I.dataRootIndex, OrdSet.empty)).2) := by
  rw [removedKeys, List.foldl_flatMap]
  rfl

lemma mem_removedKeys (hI : Describes W tree B I) (hB : ∀ x, B x → x ∈ W.path tip) (hz : z ∈ W.path tip) :
    key ∈ removedKeys (W.weaveSize z) (W.weaveSize tip) I ↔ ∃ x, (B x ∧ x ∉ W.path z) ∧ key ∈ rootKeys (W.txs x) := by
  rw [removedKeys, List.mem_flatMap]
  constructor
  · rintro ⟨⟨k, v⟩, he, hkey⟩
    obtain ⟨x, hx, a, -, -, rfl⟩ := (mem_getRange_offsets hI.dataRootOffset blockEntry_in_block hB hz).mp he
    exact ⟨x, hx, mem_keySet.mp hkey⟩
  · rintro ⟨x, hx, hkey⟩
    obtain ⟨p, hp, rfl⟩ := List.mem_map.mp hkey
    have hentry : () ∈ blockEntry (W.txs x) := by
      have hspec := (pieces_spec rootLabel (W.ordered x)).1 p hp
      rw [blockEntry, if_pos (by omega)]
      exact List.mem_singleton_self _
    exact ⟨(offsetKey (W.start x), tree.root (W.txs x), blockSize (W.txs x), keySet (W.txs x)),
      (mem_getRange_offsets hI.dataRootOffset blockEntry_in_block hB hz).mpr ⟨x, hx, (), hentry, rfl, rfl⟩,
      mem_keySet.mpr hkey⟩

lemma length_of_mem_rootKeys (h : key ∈ rootKeys (W.txs x)) : key.length = 64 := by
  obtain ⟨p, hp, rfl⟩ := List.mem_map.mp h
  exact (rootKeys_spec hp 0).1

lemma Describes.keyed (hI : Describes W tree B I) : Keyed I.dataRootIndex := by
  intro k v hk
  obtain ⟨x, -, p, hp, rfl, -⟩ := (hI.dataRoot k v).mp hk
  have hspec := Weave.piece_spec hp
  have hweave := W.weave_lt x
  exact ⟨toLex (p.label, toLex (p.stop - p.start, W.start x + p.start)),
    ⟨length_label hp, by change p.stop - p.start < _; omega, by change W.start x + p.start < _; omega⟩, rfl⟩

lemma left_iff (hI : Describes W tree B I) (hB : ∀ x, B x → x ∈ W.path tip) (hz : z ∈ W.path tip) (hkey : key.length = 64) :
    Left I.dataRootIndex (W.weaveSize z) key ↔ ∃ x, (B x ∧ x ∈ W.path z) ∧ key ∈ rootKeys (W.txs x) := by
  constructor
  · rintro ⟨o, ho, v, hv⟩
    obtain ⟨x, hx, p, hp, heq, -⟩ := (hI.dataRoot _ v).mp hv
    have hspec := Weave.piece_spec hp
    have hweave := W.weave_lt x
    obtain ⟨hlen, hoffset⟩ := rootKeys_spec hp (W.start x + p.start)
    obtain ⟨rfl, rfl⟩ := offsetOf_inj hlen hkey (by omega) (ho.trans (W.weave_lt z)) (hoffset.trans heq)
    refine ⟨x, ⟨hx, ?_⟩, List.mem_map_of_mem hp⟩
    by_contra hnot
    have := Weave.weaveSize_le_start_of_notMem hz (hB x hx) hnot
    omega
  · rintro ⟨x, ⟨hx, hmem⟩, hroot⟩
    obtain ⟨p, hp, rfl⟩ := List.mem_map.mp hroot
    have hspec := Weave.piece_spec hp
    have hle := Weave.weaveSize_le hmem
    refine ⟨W.start x + p.start, by omega, tree.path (W.txs x) (p.stop - 1), ?_⟩
    rw [(rootKeys_spec hp _).2]
    exact (hI.dataRoot _ _).mpr ⟨x, hx, p, hp, rfl, rfl⟩

/-- The removal leaves the blocks up to the common one in the data root index, and reports the data
roots of the others that none of these has. -/
lemma removeDataRootIndexRange_spec (hI : Describes W tree B I) (hB : ∀ x, B x → x ∈ W.path tip) (hz : z ∈ W.path tip) :
    (removeDataRootIndexRange (W.weaveSize z) (W.weaveSize tip) I).1.dataRootIndex.Lists (fun x => B x ∧ x ∈ W.path z)
        (fun x => rootPieces (W.txs x)) (fun x p => dataRootKeyV2 p.label (p.stop - p.start) (W.start x + p.start))
        (fun x p => tree.path (W.txs x) (p.stop - 1)) ∧
      ∀ key, key ∈ (removeDataRootIndexRange (W.weaveSize z) (W.weaveSize tip) I).2 ↔
        (∃ x, (B x ∧ x ∉ W.path z) ∧ key ∈ rootKeys (W.txs x)) ∧
          ¬ ∃ x, (B x ∧ x ∈ W.path z) ∧ key ∈ rootKeys (W.txs x) := by
  have hmem : ∀ key, key ∈ removedKeys (W.weaveSize z) (W.weaveSize tip) I ↔ _ := fun key => mem_removedKeys hI hB hz
  have hkeys : ∀ key ∈ removedKeys (W.weaveSize z) (W.weaveSize tip) I,
      key.length = 64 ∧ W.weaveSize z < W.weaveSize tip := by
    intro key hkey
    obtain ⟨x, ⟨hx, hnot⟩, hroot⟩ := (hmem key).mp hkey
    obtain ⟨p, hp, -⟩ := List.mem_map.mp hroot
    have hpiece := Weave.piece_spec hp
    have hlo := Weave.weaveSize_le_start_of_notMem hz (hB x hx) hnot
    have hhi := Weave.weaveSize_le (hB x hx)
    exact ⟨length_of_mem_rootKeys hroot, by omega⟩
  have hspec := foldl_removeOne OrdSet.empty hI.keyed hkeys (W.weave_lt tip)
  rw [removeDataRootIndexRange_eq]
  refine ⟨hI.dataRoot.restrict hspec.1 fun x hx p hp => ?_, fun key => ?_⟩
  · have hpiece := Weave.piece_spec hp
    have hle := Weave.weaveSize_le (hB x hx)
    have htip := W.weave_lt tip
    obtain ⟨hlen, hoffset⟩ := rootKeys_spec hp (W.start x + p.start)
    have hrange := in_range_iff (o := W.start x + p.start) hz (hB x hx) (Nat.le_add_right _ _) (by omega)
    constructor
    · intro hnone
      by_contra hnot
      obtain ⟨hlo, hhi⟩ := hrange.mpr hnot
      exact hnone _ ((hmem _).mpr ⟨x, ⟨hx, hnot⟩, List.mem_map_of_mem hp⟩) ⟨_, hlo, hhi, hoffset.symm⟩
    · rintro hin key hkey ⟨o, hlo, hhi, heq⟩
      obtain ⟨-, rfl⟩ := offsetOf_inj hlen (hkeys key hkey).1 (by omega) (by omega) (hoffset.trans heq)
      exact hrange.mp ⟨hlo, hhi⟩ hin
  · rw [hspec.2, or_iff_right OrdSet.not_mem_empty, hmem]
    refine and_congr_right ?_
    rintro ⟨x, -, hroot⟩
    rw [left_iff hI hB hz (length_of_mem_rootKeys hroot)]

lemma removeOrphanedData_spec (hI : Describes W tree B I) (hB : ∀ x, B x → x ∈ W.path tip) (hz : z ∈ W.path tip) :
    Describes W tree (fun x => B x ∧ x ∈ W.path z) (removeOrphanedData (W.weaveSize z) (W.weaveSize tip) I).1 ∧
      ∀ key, key ∈ (removeOrphanedData (W.weaveSize z) (W.weaveSize tip) I).2 ↔
        (∃ x, (B x ∧ x ∉ W.path z) ∧ key ∈ rootKeys (W.txs x)) ∧
          ¬ ∃ x, (B x ∧ x ∈ W.path z) ∧ key ∈ rootKeys (W.txs x) := by
  obtain ⟨hroots, horphaned⟩ := removeDataRootIndexRange_spec hI hB hz
  refine ⟨⟨?_, ?_, hroots, ?_⟩, horphaned⟩
  · exact lists_deleteRange_offsets hI.txOffset txPieces_in_block hB hz
  · exact lists_removeTxIndexRange hI hB hz
  · exact lists_deleteRange_offsets hI.dataRootOffset blockEntry_in_block hB hz

lemma addBlockDataRoots_eq {txs : List SizeTagged} {base : Nat} (h : Ordered 0 txs) :
    addBlockDataRoots tree txs base I =
      ({ I with
        dataRootOffsetIndex := (blockEntry txs).foldl
          (fun m _ => m.insert (offsetKey base) (tree.root txs, blockSize txs, keySet txs)) I.dataRootOffsetIndex
        dataRootIndex := (rootPieces txs).reverse.foldl
          (fun m p => m.insert (dataRootKeyV2 p.label (p.stop - p.start) (base + p.start)) (tree.path txs (p.stop - 1)))
          I.dataRootIndex }, keySet txs) := by
  rw [addBlockDataRoots, blockDataRoots_eq h, blockEntry, rootArgs, ← List.map_reverse]
  dsimp only
  split_ifs with hpos
  · rw [List.foldl_map]
    rfl
  · have hnone : rootPieces txs = [] := by
      rw [List.eq_nil_iff_forall_not_mem]
      intro p hp
      have hspec := (pieces_spec rootLabel h).1 p hp
      omega
    rw [hnone]
    rfl

/-- A block that is added to others of its chain. -/
lemma describes_add (hI : Describes W tree B I) (hB : ∀ y, B y → y ∈ W.path tip) (hx : x ∈ W.path tip) (hnew : ¬ B x) :
    Describes W tree (fun y => B y ∨ y = x)
      (updateTxIndex (W.txs x) (W.start x) (addBlockDataRoots tree (W.txs x) (W.start x) I).1) := by
  have hne : ∀ y, B y → x ≠ y := by
    rintro y hy rfl
    exact hnew hy
  have hlt : ∀ y {label} {p : Piece}, p ∈ pieces label 0 (W.txs y) → W.start y + p.start < 2 ^ 256 := by
    intro y label p hp
    have hspec := Weave.piece_spec hp
    have hweave := W.weave_lt y
    omega
  rw [updateTxIndex_eq (W.ordered x), addBlockDataRoots_eq (W.ordered x)]
  refine ⟨?_, ?_, ?_, ?_⟩
  · refine hI.txOffset.insert_source (fun p => Iff.rfl) (fun p hp q hq heq => ?_) fun y hy q hq p hp heq => ?_
    · have := (offsetKey_inj (hlt x hp) (hlt x hq)).mp heq
      exact Weave.piece_eq_of_start_eq hp hq (by omega)
    · exact hne y hy (Weave.eq_of_start_eq hx (hB y hy) hp hq ((offsetKey_inj (hlt x hp) (hlt y hq)).mp heq))
  · refine hI.tx.insert_source (fun p => Iff.rfl) (fun p hp q hq heq => ?_) fun y hy q hq p hp heq => ?_
    · exact (W.ids tip x hx x hx p hp q hq heq).2
    · exact hne y hy (W.ids tip x hx y (hB y hy) p hp q hq heq).1
  · have hinj : ∀ y, ∀ q ∈ rootPieces (W.txs y), ∀ p ∈ rootPieces (W.txs x),
        dataRootKeyV2 p.label (p.stop - p.start) (W.start x + p.start) =
          dataRootKeyV2 q.label (q.stop - q.start) (W.start y + q.start) → W.start x + p.start = W.start y + q.start := by
      intro y q hq p hp heq
      obtain ⟨hlenp, hoffp⟩ := rootKeys_spec hp (W.start x + p.start)
      obtain ⟨hlenq, hoffq⟩ := rootKeys_spec hq (W.start y + q.start)
      exact (offsetOf_inj hlenp hlenq (hlt x hp) (hlt y hq) (hoffp.trans (heq.trans hoffq.symm))).2
    refine hI.dataRoot.insert_source (fun p => List.mem_reverse) (fun p hp q hq heq => ?_) fun y hy q hq p hp heq => ?_
    · have := hinj x q hq p hp heq
      exact Weave.piece_eq_of_start_eq hp hq (by omega)
    · exact hne y hy (Weave.eq_of_start_eq hx (hB y hy) hp hq (hinj y q hq p hp heq))
  · refine hI.dataRootOffset.insert_source (fun p => Iff.rfl) (fun _ _ _ _ _ => rfl) fun y hy q hq p hp heq => ?_
    obtain ⟨-, hxlt⟩ := blockEntry_in_block x p hp
    obtain ⟨-, hylt⟩ := blockEntry_in_block y q hq
    have heq' := (offsetKey_inj (hxlt.trans (W.weave_lt x)) (hylt.trans (W.weave_lt y))).mp heq
    obtain hmem | hmem := Ancestry.mem_path_or_mem_path hx (hB y hy)
    · have := Weave.weaveSize_le_start hmem (hne y hy).symm
      omega
    · have := Weave.weaveSize_le_start hmem (hne y hy)
      omega

end Descriptions

end Arweave.DataSync

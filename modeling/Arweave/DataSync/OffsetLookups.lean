import Mathlib.Data.Finset.Sort
import Arweave.DataSync.Offsets

/-!
# The newest offsets of a data root

The offsets of a data root and a size are found newest first, whatever other data roots and sizes are in the
index. An iterator visits as many of them as its limit says, and an uploaded chunk is looked up at the same
offsets.
-/

namespace Arweave.DataSync

open Lib

variable {index : SortedMap Bytes Bytes} {key : Bytes} {o cursor limit n : Nat}

/-- The recorded offsets, newest first. -/
def recordedOffsets (index : SortedMap Bytes Bytes) (dataRootKey : Bytes) : List Nat :=
  (offsetsOf index dataRootKey).toFinset.sort (· ≥ ·)

lemma recordedOffsets_pairwise : (recordedOffsets index key).Pairwise (· > ·) :=
  Finset.sortedGT_sort _ |>.pairwise

lemma mem_recordedOffsets (hkeyed : Keyed index) (hkey : key.length = 64) :
    o ∈ recordedOffsets index key ↔ HasOffset index key o := by
  rw [recordedOffsets, Finset.mem_sort, List.mem_toFinset]
  refine ⟨fun h => ?_, mem_offsetsOf hkey⟩
  obtain ⟨⟨k, v⟩, hk, hparse⟩ := List.mem_filterMap.mp h
  obtain ⟨t, ht, rfl⟩ := hkeyed k v (SortedMap.lookup_eq_some.mpr hk)
  rw [parseDataRootKey_key ht] at hparse
  split_ifs at hparse with hparts
  obtain rfl := Option.some.inj hparse
  have hof := Triple.eq_of_parts hparts.1 hparts.2
  refine ⟨ht.2.2, v, ?_⟩
  rw [← Triple.of_key, ← hof]
  exact SortedMap.lookup_eq_some.mpr hk

/-- The recorded offsets below a cursor, newest first. -/
def offsetsBelow (index : SortedMap Bytes Bytes) (key : Bytes) (cursor : Nat) : List Nat :=
  (recordedOffsets index key).filter (· < cursor)

/-- An offset that was found with those below it. -/
def foundOffsets (index : SortedMap Bytes Bytes) (key : Bytes) : Option (Nat × Bytes) → List Nat
  | none => []
  | some (o, _) => o :: offsetsBelow index key o

lemma offsetsBelow_of_isLast {r : Option (Nat × Bytes)} (hkeyed : Keyed index) (hkey : key.length = 64)
    (h : IsLast index key (· < cursor) r) :
    offsetsBelow index key cursor = foundOffsets index key r := by
  have hmem : ∀ {o c}, o ∈ offsetsBelow index key c ↔ HasOffset index key o ∧ o < c := by
    intro o c
    rw [offsetsBelow, List.mem_filter, mem_recordedOffsets hkeyed hkey, decide_eq_true_eq]
  cases r with
  | none => exact List.eq_nil_iff_forall_not_mem.mpr fun o ho => h o (hmem.mp ho).2 (hmem.mp ho).1
  | some a =>
    obtain ⟨o, path⟩ := a
    obtain ⟨hlt, ho, hmax⟩ := h
    have hfirst : (o :: offsetsBelow index key o).Pairwise (· > ·) :=
      List.pairwise_cons.mpr ⟨fun o' ho' => (hmem.mp ho').2, recordedOffsets_pairwise.filter _⟩
    refine (recordedOffsets_pairwise.filter _).eq_of_mem_iff hfirst fun o' => ?_
    rw [← offsetsBelow, hmem, foundOffsets, List.mem_cons, hmem]
    constructor
    · rintro ⟨ho', hlt'⟩
      obtain rfl | hne := (hmax o' hlt' ho').eq_or_lt
      · exact .inl rfl
      · exact .inr ⟨ho', hne⟩
    · rintro (rfl | ⟨ho', hlt'⟩)
      · exact ⟨ho, hlt⟩
      · exact ⟨ho', hlt'.trans hlt⟩

lemma offsetsBelow_zero : offsetsBelow index key 0 = [] := List.filter_eq_nil_iff.mpr fun _ _ => by simp

lemma offsetsBelow_eq (hkeyed : Keyed index) (hkey : key.length = 64) (hcursor : cursor ≤ 2 ^ 256) (hpos : cursor ≠ 0) :
    offsetsBelow index key cursor = foundOffsets index key (prevOffset index key cursor) :=
  offsetsBelow_of_isLast hkeyed hkey (isLast_prevOffset hkeyed hkey (Nat.pos_of_ne_zero hpos) hcursor)

lemma prevOffset_lt {path : Bytes} (hkeyed : Keyed index) (hkey : key.length = 64) (hcursor : cursor ≤ 2 ^ 256)
    (hpos : cursor ≠ 0) (h : prevOffset index key cursor = some (o, path)) : o < 2 ^ 256 := by
  have hlast := isLast_prevOffset hkeyed hkey (Nat.pos_of_ne_zero hpos) hcursor
  rw [h] at hlast
  exact hlast.2.1.1

lemma iterate_eq {it : OffsetIterator} (hkeyed : Keyed index) (hkey : it.dataRootKey.length = 64)
    (hcursor : it.txStartOffset ≤ 2 ^ 256) :
    iterate index limit n it =
      (offsetsBelow index it.dataRootKey it.txStartOffset).take (min n (limit + 1 - it.count)) := by
  induction n generalizing it with
  | zero => rw [Nat.zero_min, List.take_zero, iterate]
  | succ n ih =>
    rw [iterate, dataRootIndexNextV2]
    split_ifs with hcount hzero
    · rw [Nat.sub_eq_zero_of_le hcount, Nat.min_zero, List.take_zero]
    · rw [hzero, offsetsBelow_zero, List.take_nil]
    · rw [offsetsBelow_eq hkeyed hkey hcursor hzero]
      cases hprev : prevOffset index it.dataRootKey it.txStartOffset with
      | none => rw [Option.map_none, foundOffsets, List.take_nil]
      | some r =>
        obtain ⟨o, path⟩ := r
        have hmin : min (n + 1) (limit + 1 - it.count) = min n (limit + 1 - (it.count + 1)) + 1 := by omega
        dsimp only [Option.map_some]
        rw [foundOffsets, hmin, List.take_succ_cons]
        congr 1
        exact ih hkey (prevOffset_lt hkeyed hkey hcursor hzero hprev).le

lemma chunkOffsetsSynced_eq {recorded : Nat → Bool} {chunkOffset : Nat} (hkeyed : Keyed index) (hkey : key.length = 64)
    (ho : o ≤ 2 ^ 256) :
    chunkOffsetsSynced index recorded key chunkOffset o n =
      ((o :: offsetsBelow index key o).take n).all fun o' => recorded (o' + chunkOffset) := by
  induction n generalizing o with
  | zero => rw [chunkOffsetsSynced, List.take_zero, List.all_nil]
  | succ n ih =>
    rw [chunkOffsetsSynced, List.take_succ_cons, List.all_cons]
    cases recorded (o + chunkOffset) with
    | false => rfl
    | true =>
      rw [if_pos rfl, Bool.true_and]
      split_ifs with hzero
      · rw [hzero, offsetsBelow_zero, List.take_nil, List.all_nil]
      · rw [offsetsBelow_eq hkeyed hkey ho hzero]
        cases hprev : prevOffset index key o with
        | none => rw [foundOffsets, List.take_nil, List.all_nil]
        | some r => exact ih (prevOffset_lt hkeyed hkey ho hzero hprev).le

lemma recordedOffsets_eq (hkeyed : Keyed index) (hkey : key.length = 64) :
    recordedOffsets index key = foundOffsets index key (getDataRootOffset index key) := by
  have hlast := isLast_getDataRootOffset hkeyed hkey
  have hall : recordedOffsets index key = offsetsBelow index key (2 ^ 256) := by
    rw [offsetsBelow, List.filter_eq_self.mpr]
    exact fun o ho => decide_eq_true ((mem_recordedOffsets hkeyed hkey).mp ho).1
  rw [hall]
  apply offsetsBelow_of_isLast hkeyed hkey
  cases hoffset : getDataRootOffset index key with
  | none =>
    rw [hoffset] at hlast
    exact fun o _ => hlast o trivial
  | some r =>
    rw [hoffset] at hlast
    exact ⟨hlast.2.1.1, hlast.2.1, fun o' _ => hlast.2.2 o' trivial⟩

/-- The newest offset of a data root and a size is found, an iterator that starts there visits as many of the
newest offsets as its limit says and then no more, and so many of them are looked up for a chunk. -/
theorem offset_lookups_exact (index : SortedMap Bytes Bytes) (hkeyed : Keyed index) (dataRootKey : Bytes)
    (hkey : dataRootKey.length = 64) :
    (recordedOffsets index dataRootKey).Pairwise (· > ·) ∧
      (∀ o, o ∈ recordedOffsets index dataRootKey ↔ HasOffset index dataRootKey o) ∧
      (getDataRootOffset index dataRootKey).map Prod.fst = (recordedOffsets index dataRootKey).head? ∧
      ∀ o path, getDataRootOffset index dataRootKey = some (o, path) →
        (∀ limit n, limit < n → iterate index limit n (dataRootIndexIteratorV2 dataRootKey (o + 1)) =
          (recordedOffsets index dataRootKey).take limit) ∧
        ∀ recorded chunkOffset n, chunkOffsetsSynced index recorded dataRootKey chunkOffset o n =
          ((recordedOffsets index dataRootKey).take n).all fun o' => recorded (o' + chunkOffset) := by
  have heq := recordedOffsets_eq hkeyed hkey
  refine ⟨recordedOffsets_pairwise, fun o => mem_recordedOffsets hkeyed hkey, ?_, fun o path hoffset => ?_⟩
  · rw [heq]
    cases getDataRootOffset index dataRootKey <;> rfl
  · rw [hoffset] at heq
    rw [foundOffsets] at heq
    have hlast := isLast_getDataRootOffset hkeyed hkey
    rw [hoffset] at hlast
    obtain ⟨-, ho, hmax⟩ := hlast
    have hbelow : offsetsBelow index dataRootKey (o + 1) = o :: offsetsBelow index dataRootKey o :=
      offsetsBelow_of_isLast (r := some (o, path)) hkeyed hkey
        ⟨Nat.lt_succ_self o, ho, fun o' _ ho' => hmax o' trivial ho'⟩
    refine ⟨fun limit n hn => ?_, fun recorded chunkOffset n => ?_⟩
    · have hmin : min n (limit + 1 - 1) = limit := by omega
      have hvisited : iterate index limit n (dataRootIndexIteratorV2 dataRootKey (o + 1)) =
          (offsetsBelow index dataRootKey (o + 1)).take (min n (limit + 1 - 1)) :=
        iterate_eq hkeyed hkey (Nat.succ_le_of_lt ho.1)
      rw [hvisited, hmin, hbelow, heq]
    · rw [chunkOffsetsSynced_eq hkeyed hkey ho.1.le, heq]

lemma Keyed.insert {t : Triple} {v : Bytes} (hkeyed : Keyed index) (ht : t.Fits) : Keyed (index.insert t.key v) := by
  intro k v' hk
  rw [SortedMap.lookup_insert] at hk
  split_ifs at hk with heq
  · exact ⟨t, ht, heq.symm⟩
  · exact hkeyed k v' hk

lemma Keyed.foldl_insert {l : List Triple} (hkeyed : Keyed index) (hl : ∀ t ∈ l, t.Fits) :
    Keyed (l.foldl (fun index t => index.insert t.key []) index) := by
  induction l generalizing index with
  | nil => exact hkeyed
  | cons t l ih =>
    rw [List.foldl_cons]
    exact ih (hkeyed.insert (hl t List.mem_cons_self)) fun t' ht' => hl t' (List.mem_cons_of_mem _ ht')

instance decidableFits (t : Triple) : Decidable t.Fits := inferInstanceAs (Decidable (_ ∧ _ ∧ _))

/-- The data at the start of the weave and at two other offsets, and data of another size and of another data root. -/
def sampleTriples : List Triple :=
  let root := List.replicate 32 7
  [toLex (root, toLex (10, 0)), toLex (root, toLex (10, 300)), toLex (root, toLex (10, 70000)), toLex (root, toLex (11, 5)),
    toLex (8 :: List.replicate 31 7, toLex (10, 80000))]

def sampleIndex : SortedMap Bytes Bytes := sampleTriples.foldl (fun index t => index.insert t.key []) SortedMap.empty

lemma keyed_sampleIndex : Keyed sampleIndex :=
  Keyed.foldl_insert (fun k v hk => by cases hk) (by decide)

set_option maxRecDepth 10000 in
theorem offset_lookups_exact_sample :
    let key := dataRootKey (List.replicate 32 7) 10
    (getDataRootOffset sampleIndex key).map Prod.fst = some 70000 ∧
      iterate sampleIndex 2 9 (dataRootIndexIteratorV2 key 70001) = [70000, 300] ∧
      (getDataRootOffset sampleIndex key).map Prod.fst = (recordedOffsets sampleIndex key).head? := by
  intro key
  exact ⟨by decide, by decide, (offset_lookups_exact sampleIndex keyed_sampleIndex key (by decide)).2.2.1⟩

end Arweave.DataSync

import Arweave.DataSync.Tips

/-!
# The offsets of a data root

The same data may be uploaded several times. The data root index is read from the newest offset of a
data root downwards, each time for the largest key below the last one.
-/

namespace Arweave.DataSync

open Lib Wallet

/-- The offset in a key of the data root index that has the data root and the size. -/
def parseDataRootKey (dataRoot : Bytes) (txSize : Nat) (key : Bytes) : Option Nat :=
  match key.drop 32 with
  | [] => none
  | size :: rest =>
    if key.take 32 = dataRoot ∧ size.toNat ≤ rest.length ∧ Bytes.toNat (rest.take size.toNat) = txSize then
      match rest.drop size.toNat with
      | [] => none
      | offsetSize :: offset => if offset.length = offsetSize.toNat then some (Bytes.toNat offset) else none
    else none

/-- The newest offset of the data root and its path. -/
def getDataRootOffset (index : SortedMap Bytes Bytes) (dataRootKey : Bytes) : Option (Nat × Bytes) :=
  let dataRoot := dataRootKey.take 32
  let txSize := Bytes.toNat (dataRootKey.drop 32)
  match index.prev (dataRoot ++ encodeInt txSize 1 ++ [97]) with
  | none => none
  | some (key, txPath) => (parseDataRootKey dataRoot txSize key).map fun offset => (offset, txPath)

/-- The next offset below the given one and its path. -/
def prevOffset (index : SortedMap Bytes Bytes) (dataRootKey : Bytes) (txStartOffset : Nat) : Option (Nat × Bytes) :=
  let dataRoot := dataRootKey.take 32
  let txSize := Bytes.toNat (dataRootKey.drop 32)
  match index.prev (dataRootKeyV2 dataRoot txSize (txStartOffset - 1)) with
  | none => none
  | some (key, txPath) => (parseDataRootKey dataRoot txSize key).map fun offset => (offset, txPath)

/-- All of the last offsets of the data are recorded. -/
def chunkOffsetsSynced (index : SortedMap Bytes Bytes) (recorded : Nat → Bool) (dataRootKey : Bytes) (chunkOffset : Nat) :
    Nat → Nat → Bool
  | _, 0 => true
  | txStartOffset, n + 1 =>
    if recorded (txStartOffset + chunkOffset) then
      if txStartOffset = 0 then true
      else
        match prevOffset index dataRootKey txStartOffset with
        | none => true
        | some (txStartOffset2, _) => chunkOffsetsSynced index recorded dataRootKey chunkOffset txStartOffset2 n
    else false

/-- A position below the newest offset of a data root. -/
structure OffsetIterator where
  dataRootKey : Bytes
  txStartOffset : Nat
  latestTxStartOffset : Nat
  count : Nat
  deriving DecidableEq

def dataRootIndexIteratorV2 (dataRootKey : Bytes) (txStartOffset : Nat) : OffsetIterator :=
  ⟨dataRootKey, txStartOffset, txStartOffset, 1⟩

def dataRootIndexNextV2 (index : SortedMap Bytes Bytes) (it : OffsetIterator) (limit : Nat) :
    Option ((Nat × Bytes) × OffsetIterator) :=
  if it.count > limit then none
  else if it.txStartOffset = 0 then none
  else
    (prevOffset index it.dataRootKey it.txStartOffset).map fun r =>
      (r, { it with txStartOffset := r.1, count := it.count + 1 })

/-- The offsets that the iterator visits, each step counting one. -/
def iterate (index : SortedMap Bytes Bytes) (limit : Nat) : Nat → OffsetIterator → List Nat
  | 0, _ => []
  | n + 1, it =>
    match dataRootIndexNextV2 index it limit with
    | none => []
    | some ((offset, _), it2) => offset :: iterate index limit n it2

def dataRootIndexReset (it : OffsetIterator) : OffsetIterator :=
  ⟨it.dataRootKey, it.latestTxStartOffset, it.latestTxStartOffset, 1⟩

section Lookups

variable {index : SortedMap Bytes Bytes} {key : Bytes} {o cursor : Nat}

/-- The data root and the size have the offset in the index. -/
def HasOffset (index : SortedMap Bytes Bytes) (key : Bytes) (o : Nat) : Prop :=
  o < 2 ^ 256 ∧ ∃ v, index.lookup (offsetOf key o) = some v

lemma parseDataRootKey_key {t : Triple} (ht : t.Fits) (r : Bytes) (s : Nat) :
    parseDataRootKey r s t.key =
      if (ofLex t).1 = r ∧ (ofLex (ofLex t).2).1 = s then some (ofLex (ofLex t).2).2 else none := by
  obtain ⟨r', s', o'⟩ := t
  obtain ⟨hr', hs', ho'⟩ := ht
  replace hr' : r'.length = 32 := hr'
  replace hs' : s' < 2 ^ 256 := hs'
  replace ho' : o' < 2 ^ 256 := ho'
  obtain ⟨htake, size, hsize, hdrop⟩ := dataRootKeyV2_parts hr' hs' o'
  obtain ⟨offsetSize, hoffsetSize, hoffset⟩ := encodeInt_eq ho'
  change parseDataRootKey r s (dataRootKeyV2 r' s' o') = if r' = r ∧ s' = s then some o' else none
  rw [parseDataRootKey, hdrop]
  dsimp only
  rw [htake, hsize, List.length_append, List.take_append_of_le_length le_rfl, List.take_length, toNat_encodeUnsigned,
    List.drop_append_of_le_length le_rfl, List.drop_length, List.nil_append, hoffset]
  dsimp only
  rw [if_pos hoffsetSize.symm, toNat_encodeUnsigned]
  exact if_congr (and_congr_right fun _ => and_iff_right (Nat.le_add_right _ _)) rfl rfl

lemma Triple.eq_of_parts {t : Triple} (hr : (ofLex t).1 = key.take 32)
    (hs : (ofLex (ofLex t).2).1 = Bytes.toNat (key.drop 32)) : t = Triple.of key (ofLex (ofLex t).2).2 := by
  rw [Triple.of, ← hr, ← hs]
  rfl

/-- The largest offset of the data root with a property, or none if no offset has it. -/
def IsLast (index : SortedMap Bytes Bytes) (key : Bytes) (C : Nat → Prop) : Option (Nat × Bytes) → Prop
  | none => ∀ o, C o → ¬ HasOffset index key o
  | some (o, _) => C o ∧ HasOffset index key o ∧ ∀ o', C o' → HasOffset index key o' → o' ≤ o

/-- The last key up to a bound that only keys of the data root can reach from its keys. -/
lemma isLast_prev {b : Bytes} {C : Nat → Prop} (hkeyed : Keyed index) (hkey : key.length = 64)
    (hC : ∀ o < 2 ^ 256, offsetOf key o ≤ b ↔ C o)
    (hbound : ∀ t : Triple, t.Fits → t.key ≤ b → ∀ o < 2 ^ 256, offsetOf key o ≤ t.key → ∃ c, t = Triple.of key c) :
    IsLast index key C (match index.prev b with
      | none => none
      | some (k, txPath) => (parseDataRootKey (key.take 32) (Bytes.toNat (key.drop 32)) k).map fun o => (o, txPath)) := by
  have hmono := Triple.key_strictMonoOn
  cases hprev : index.prev b with
  | none =>
    rintro o ho ⟨hlt, v, hv⟩
    obtain ⟨a, -, ha, -⟩ := SortedMap.exists_prev (SortedMap.lookup_eq_some.mp hv) ((hC o hlt).mpr ho)
    rw [hprev] at ha
    cases ha
  | some e =>
    obtain ⟨k, txPath⟩ := e
    obtain ⟨hmem, hle, hmax⟩ := SortedMap.of_prev hprev
    have hk := SortedMap.lookup_eq_some.mpr hmem
    obtain ⟨t, ht, rfl⟩ := hkeyed k txPath hk
    have hlast : ∀ o, C o → HasOffset index key o → ∃ c, t = Triple.of key c ∧ o ≤ c := by
      rintro o ho ⟨hlt, v, hv⟩
      have hot : offsetOf key o ≤ t.key := hmax _ (SortedMap.lookup_eq_some.mp hv) ((hC o hlt).mpr ho)
      obtain ⟨c, rfl⟩ := hbound t ht hle o hlt hot
      refine ⟨c, rfl, ?_⟩
      by_contra hlt'
      exact absurd hot (offsetOf_lt hkey (not_le.mp hlt') hlt).not_ge
    dsimp only
    rw [parseDataRootKey_key ht]
    split_ifs with hparts
    · have hc : (ofLex (ofLex t).2).2 < 2 ^ 256 := ht.2.2
      have hkc : t.key = offsetOf key (ofLex (ofLex t).2).2 := congrArg Triple.key (Triple.eq_of_parts hparts.1 hparts.2)
      refine ⟨(hC _ hc).mp (hkc ▸ hle), ⟨hc, txPath, hkc ▸ hk⟩, fun o ho hoff => ?_⟩
      obtain ⟨c, heq, hle'⟩ := hlast o ho hoff
      have hcc : (ofLex (ofLex t).2).2 = c := congrArg (fun t : Triple => (ofLex (ofLex t).2).2) heq
      exact hcc ▸ hle'
    · intro o ho hoff
      obtain ⟨c, rfl, -⟩ := hlast o ho hoff
      exact hparts ⟨rfl, rfl⟩

lemma isLast_prevOffset (hkeyed : Keyed index) (hkey : key.length = 64) (hpos : 0 < cursor) (hcursor : cursor ≤ 2 ^ 256) :
    IsLast index key (· < cursor) (prevOffset index key cursor) := by
  have hlt : cursor - 1 < 2 ^ 256 := by omega
  have hmono := Triple.key_strictMonoOn
  apply isLast_prev hkeyed hkey
  · intro o ho
    change offsetOf key o ≤ offsetOf key (cursor - 1) ↔ _
    constructor
    · intro hle
      by_contra hge
      exact absurd hle (offsetOf_lt hkey (by omega) ho).not_ge
    · intro hoc
      obtain heq | hlt' := (show o ≤ cursor - 1 by omega).eq_or_lt
      · rw [heq]
      · exact (offsetOf_lt hkey hlt' hlt).le
  · intro t ht hle o ho hot
    have hlow := (hmono.le_iff_le (Triple.of_fits hkey ho) ht).mp hot
    have hhigh := (hmono.le_iff_le ht (Triple.of_fits hkey hlt)).mp hle
    have hnext : Triple.of key (cursor - 1) < Triple.of key cursor := by
      rw [Triple.of, Triple.of, Prod.Lex.toLex_lt_toLex, Prod.Lex.toLex_lt_toLex]
      exact Or.inr ⟨rfl, Or.inr ⟨rfl, by dsimp only; omega⟩⟩
    obtain ⟨c, -, -, rfl⟩ := lex_between.mp ⟨hlow, hhigh.trans_lt hnext⟩
    exact ⟨c, rfl⟩

/-- The byte that follows the size is above all lengths of offsets. -/
lemma isLast_getDataRootOffset (hkeyed : Keyed index) (hkey : key.length = 64) :
    IsLast index key (fun _ => True) (getDataRootOffset index key) := by
  have hmono := Triple.key_strictMonoOn
  have hzero : (0 : Nat) < 2 ^ 256 := by norm_num
  have hr : (key.take 32).length = 32 := (Triple.of_fits hkey hzero).1
  have hs : Bytes.toNat (key.drop 32) < 2 ^ 256 := (Triple.of_fits hkey hzero).2.1
  apply isLast_prev hkeyed hkey
  · intro o ho
    refine iff_true_intro (le_of_lt ?_)
    obtain ⟨size, hsize, heq⟩ := encodeInt_eq ho
    have hlen := length_encodeUnsigned_of_lt ho
    have hfirst : size < 97 := by
      rw [UInt8.lt_iff_toNat_lt]
      change _ < 97
      omega
    rw [offsetOf, dataRootKeyV2, List.take_take, Nat.min_self, heq]
    exact List.append_left_lt (List.cons_lt_cons_iff.mpr (Or.inl hfirst))
  · intro t ht hle o ho hot
    have hlow := (hmono.le_iff_le (Triple.of_fits hkey ho) ht).mp hot
    obtain ⟨r, s, c⟩ := t
    obtain ⟨hr', hs', -⟩ := ht
    replace hr' : r.length = 32 := hr'
    replace hs' : s < 2 ^ 256 := hs'
    change toLex (key.take 32, toLex (Bytes.toNat (key.drop 32), o)) ≤ toLex (r, toLex (s, c)) at hlow
    change dataRootKeyV2 r s c ≤ _ at hle
    rw [dataRootKeyV2, List.take_of_length_le hr'.le, List.append_assoc, List.append_assoc] at hle
    rw [Prod.Lex.toLex_le_toLex, Prod.Lex.toLex_le_toLex] at hlow
    obtain hroot | ⟨hroot, hsize⟩ := hlow
    · exact absurd hle (lt_of_prefixes (hr.trans hr'.symm) hroot (List.prefix_append _ _) (List.prefix_append _ _)).not_ge
    · replace hroot : key.take 32 = r := hroot
      obtain hsize | ⟨hsize, -⟩ := hsize
      · rw [hroot] at hle
        exact absurd hle (List.append_left_lt (encodeInt_append_lt hsize hs')).not_ge
      · replace hsize : Bytes.toNat (key.drop 32) = s := hsize
        refine ⟨c, ?_⟩
        rw [Triple.of, hroot, hsize]
        rfl

end Lookups

section Iteration

variable {index : SortedMap Bytes Bytes} {key : Bytes} {o limit n : Nat} {it : OffsetIterator}

/-- All offsets of a data root and a size. -/
def offsetsOf (index : SortedMap Bytes Bytes) (key : Bytes) : List Nat :=
  index.entries.filterMap fun e => parseDataRootKey (key.take 32) (Bytes.toNat (key.drop 32)) e.1

lemma mem_offsetsOf (hkey : key.length = 64) (h : HasOffset index key o) : o ∈ offsetsOf index key := by
  obtain ⟨hlt, v, hv⟩ := h
  refine List.mem_filterMap.mpr ⟨_, SortedMap.lookup_eq_some.mp hv, ?_⟩
  dsimp only
  rw [← Triple.of_key, parseDataRootKey_key (Triple.of_fits hkey hlt), if_pos ⟨rfl, rfl⟩]
  rfl

lemma mem_iterate (hkeyed : Keyed index) (hkey : it.dataRootKey.length = 64) (hcursor : it.txStartOffset ≤ 2 ^ 256)
    (hfew : ((offsetsOf index it.dataRootKey).toFinset.filter fun a => o < a ∧ a < it.txStartOffset).card < n)
    (hcount : it.count + n = limit + 1) (ho : HasOffset index it.dataRootKey o) (hlt : o < it.txStartOffset) :
    o ∈ iterate index limit n it := by
  induction n generalizing it with
  | zero => exact absurd hfew (Nat.not_lt_zero _)
  | succ n ih =>
    have hlast := isLast_prevOffset hkeyed hkey (by omega : 0 < it.txStartOffset) hcursor
    rw [iterate, dataRootIndexNextV2, if_neg (by omega), if_neg (by omega)]
    cases hprev : prevOffset index it.dataRootKey it.txStartOffset with
    | none =>
      rw [hprev] at hlast
      exact absurd ho (hlast o hlt)
    | some r =>
      obtain ⟨o1, txPath⟩ := r
      rw [hprev] at hlast
      obtain ⟨hlt1, ho1, hmax⟩ := hlast
      dsimp only [Option.map_some]
      obtain rfl | hne := (hmax o hlt ho).eq_or_lt
      · exact List.mem_cons_self
      · refine List.mem_cons_of_mem _ (ih hkey (by dsimp only; omega) ?_ (by dsimp only; omega) ho hne)
        -- the offset that was visited is not between the cursor and the offset any more
        refine lt_of_lt_of_le (Finset.card_lt_card ?_) (Nat.le_of_lt_succ hfew)
        refine Finset.ssubset_iff_subset_ne.mpr ⟨fun a ha => ?_, fun heq => ?_⟩
        · rw [Finset.mem_filter] at ha ⊢
          exact ⟨ha.1, ha.2.1, ha.2.2.trans hlt1⟩
        · have hin : o1 ∈ (offsetsOf index it.dataRootKey).toFinset.filter fun a => o < a ∧ a < it.txStartOffset := by
            rw [Finset.mem_filter, List.mem_toFinset]
            exact ⟨mem_offsetsOf hkey ho1, hne, hlt1⟩
          rw [← heq, Finset.mem_filter] at hin
          exact lt_irrefl _ hin.2.2

end Iteration

end Arweave.DataSync

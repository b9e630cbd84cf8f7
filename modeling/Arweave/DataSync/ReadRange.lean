import Mathlib.Algebra.Order.BigOperators.Group.List
import Arweave.DataSync.ChunkCache

/-!
# Local reads of ranges

A worker reads a range of a store for another store of the node. It looks the next chunk up from a cursor, sends the
chunk to be packed, and moves the cursor by the size of the chunk. After a number of messages it continues later.
-/

namespace Arweave.DataSync

open Lib Merkle

section Code

variable {Store Packing : Type}

/-- The value under the end offset of a chunk. -/
structure ChunkMetadata where
  chunkDataKey : Bytes
  txRoot : Bytes
  dataRoot : Bytes
  txPath : Bytes
  relativeOffset : Nat
  chunkSize : Nat
  deriving DecidableEq

abbrev Entry := Nat × ChunkMetadata

def Entry.start (x : Entry) : Nat := x.1 - x.2.chunkSize

/-- The chunks of a store by their end offsets. They are not empty, have at most 256 KiB and do not meet. -/
structure ChunksIndex where
  entries : SortedMap Nat ChunkMetadata
  nonempty : ∀ x ∈ entries.entries, 0 < x.2.chunkSize
  size_le : ∀ x ∈ entries.entries, x.2.chunkSize ≤ dataChunkSize ∧ x.2.chunkSize ≤ x.1
  apart : entries.entries.Pairwise fun x y => x.1 ≤ Entry.start y

/-- The number of keys with one prefix, for keys of 256 bits and prefixes of 232. -/
def prefixSpaceSize : Nat := 2 ^ (256 - 232)

/-- The smallest key from the given one on that has the same prefix or, if there is none, the next prefix. -/
def getNextByPrefix2 {V : Type} (db : SortedMap Nat V) (key : Nat) : Option (Nat × V) :=
  (db.entries.find? fun e => key ≤ e.1 ∧ e.1 / prefixSpaceSize = key / prefixSpaceSize).or
    (db.entries.find? fun e =>
      (key / prefixSpaceSize + 1) * prefixSpaceSize ≤ e.1 ∧ e.1 / prefixSpaceSize = key / prefixSpaceSize + 1)

def getChunkByByte (index : ChunksIndex) (byte : Nat) : Option Entry := getNextByPrefix2 index.entries byte

/-- The values of the chunk data store. The chunk may be in the chunk storage instead. -/
inductive ChunkData where
  | chunk (chunk dataPath : Bytes)
  | dataPath (dataPath : Bytes)

inductive KvReply where
  | not_found
  | ok (value : ChunkData)
  | error

inductive ReadReply where
  | not_found
  | error
  | ok (chunk dataPath : Bytes)

/-- What a read of a range works with. The lists of the node do not change while it runs. -/
structure ReadJob (Store Packing : Type) where
  index : ChunksIndex
  chunkDataDB : Bytes → KvReply
  chunkStorageGet : Int → Option (Int × Bytes)
  isRecorded : Nat → Option Packing
  unpacked : Packing
  targetStoreID : Store
  skipSmall : Bool

def readChunk (job : ReadJob Store Packing) (offset : Nat) (chunkDataKey : Bytes) : ReadReply :=
  match job.chunkDataDB chunkDataKey with
  | .not_found => .not_found
  | .ok (.chunk chunk dataPath) => .ok chunk dataPath
  | .ok (.dataPath dataPath) =>
    match job.chunkStorageGet (offset - 1) with
    | none => .not_found
    | some (_, chunk) => .ok chunk dataPath
  | .error => .error

/-- The messages to the servers of the two stores. -/
inductive ReadMessage (Store Packing : Type) where
  | invalidateBadDataRecord (start absoluteOffset : Nat)
  | packAndStoreChunk (args : PackArgs Store Packing)

variable [DecidableEq Packing]

def packArgs (job : ReadJob Store Packing) (x : Entry) (packing : Packing) (chunk dataPath : Bytes) :
    PackArgs Store Packing where
  dataRoot := x.2.dataRoot
  absoluteOffset := x.1
  txPath := x.2.txPath
  txRoot := x.2.txRoot
  dataPath := dataPath
  packing := packing
  offset := x.2.relativeOffset
  chunkSize := x.2.chunkSize
  chunk := chunk
  unpackedChunk := if packing = job.unpacked then some chunk else none
  originStoreID := some job.targetStoreID
  originChunkDataKey := some x.2.chunkDataKey

def skip (job : ReadJob Store Packing) (x : Entry) : Prop :=
  job.skipSmall ∧ x.1 ≤ strictDataSplitThreshold ∧ x.2.chunkSize < dataChunkSize

instance decidableSkip (job : ReadJob Store Packing) (x : Entry) : Decidable (skip job x) :=
  inferInstanceAs (Decidable (_ ∧ _ ∧ _))

/-- The message about a chunk, if there is one. -/
def chunkMessage (job : ReadJob Store Packing) (start : Nat) (x : Entry) : Option (ReadMessage Store Packing) :=
  if skip job x then none
  else
    match readChunk job x.1 x.2.chunkDataKey with
    | .not_found => some (.invalidateBadDataRecord start x.1)
    | .error => none
    | .ok chunk dataPath =>
      match job.isRecorded x.1 with
      | some packing => some (.packAndStoreChunk (packArgs job x packing chunk dataPath))
      | none => none

lemma mem_of_getNextByPrefix2 {V : Type} {db : SortedMap Nat V} {key : Nat} {e : Nat × V}
    (h : getNextByPrefix2 db key = some e) : e ∈ db.entries ∧ key ≤ e.1 := by
  rw [getNextByPrefix2, Option.or_eq_some_iff] at h
  obtain hfind | ⟨-, hfind⟩ := h
  · have hp := List.find?_some hfind
    rw [decide_eq_true_eq] at hp
    exact ⟨List.mem_of_find?_eq_some hfind, hp.1⟩
  · have hp := List.find?_some hfind
    rw [decide_eq_true_eq] at hp
    have hpos : 0 < prefixSpaceSize := by decide
    have hkey := Nat.lt_div_mul_add hpos (a := key)
    rw [add_mul, one_mul] at hp
    exact ⟨List.mem_of_find?_eq_some hfind, by omega⟩

lemma lt_jump (start : Nat) : start < (start / prefixSpaceSize + 2) * prefixSpaceSize := by
  have hpos : 0 < prefixSpaceSize := by decide
  have hstart := Nat.lt_div_mul_add hpos (a := start)
  rw [add_mul]
  omega

/-- `?READ_RANGE_MESSAGES_PER_BATCH` -/
def readRangeMessagesPerBatch : Nat := 40

/-- The messages of a batch, and the cursor with which the read goes on later, if it does. -/
def readRange2 (job : ReadJob Store Packing) (messagesRemaining start stop : Nat) :
    List (ReadMessage Store Packing) × Option Nat :=
  if messagesRemaining = 0 then ([], some start)
  else if _ : start ≥ stop then ([], none)
  else
    match _ : getChunkByByte job.index (start + 1) with
    | none => readRange2 job messagesRemaining ((start / prefixSpaceSize + 2) * prefixSpaceSize) stop
    | some x =>
      if x.1 > stop then ([], none)
      else
        match chunkMessage job start x with
        | none => readRange2 job messagesRemaining (start + x.2.chunkSize) stop
        | some message =>
          let (messages, cursor) := readRange2 job (messagesRemaining - 1) (start + x.2.chunkSize) stop
          (message :: messages, cursor)
termination_by stop - start
decreasing_by
  · have := lt_jump start
    omega
  · have := job.index.nonempty x (mem_of_getNextByPrefix2 ‹_›).1
    omega
  · have := job.index.nonempty x (mem_of_getNextByPrefix2 ‹_›).1
    omega

lemma le_of_readRange2 {job : ReadJob Store Packing} {messagesRemaining start stop cursor : Nat}
    (h : (readRange2 job messagesRemaining start stop).2 = some cursor) : start ≤ cursor := by
  fun_induction readRange2 job messagesRemaining start stop with
  | case1 start => exact (Option.some.inj h).le
  | case2 messagesRemaining start hpos hge => cases h
  | case3 messagesRemaining start hpos hlt hnone ih => exact (lt_jump start).le.trans (ih h)
  | case4 messagesRemaining start hpos hlt x hx hgt => cases h
  | case5 messagesRemaining start hpos hlt x hx hle hnone ih => exact (Nat.le_add_right _ _).trans (ih h)
  | case6 messagesRemaining start hpos hlt x hx hle message hmessage messages cursor' heq ih =>
    rw [heq] at ih
    exact (Nat.le_add_right _ _).trans (ih h)

lemma lt_of_readRange2 {job : ReadJob Store Packing} {messagesRemaining start stop cursor : Nat}
    (h : (readRange2 job messagesRemaining start stop).2 = some cursor) (hpos : messagesRemaining ≠ 0) :
    start < cursor ∧ start < stop := by
  rw [readRange2, if_neg hpos] at h
  split_ifs at h with hge
  refine ⟨?_, not_le.mp hge⟩
  split at h
  · exact (lt_jump start).trans_le (le_of_readRange2 h)
  · rename_i x hx
    have hsize := job.index.nonempty x (mem_of_getNextByPrefix2 hx).1
    split_ifs at h
    split at h
    · have := le_of_readRange2 h
      omega
    · have := le_of_readRange2 h
      omega

/-- All messages of a read with enough disk space and room in the chunk cache. -/
def readRange (job : ReadJob Store Packing) (start stop : Nat) : List (ReadMessage Store Packing) :=
  if start ≥ stop then []
  else
    match _ : (readRange2 job readRangeMessagesPerBatch start stop).2 with
    | none => (readRange2 job readRangeMessagesPerBatch start stop).1
    | some cursor => (readRange2 job readRangeMessagesPerBatch start stop).1 ++ readRange job cursor stop
termination_by stop - start
decreasing_by
  have := lt_of_readRange2 ‹_› (by decide)
  omega

end Code

section Lookup

variable {index : ChunksIndex} {c : Nat} {x y : Entry}

lemma getChunkByByte_spec (h : getChunkByByte index (c + 1) = some x) :
    x ∈ index.entries.entries ∧ c < x.1 ∧ ∀ y ∈ index.entries.entries, c < y.1 → x.1 ≤ y.1 := by
  obtain ⟨hmem, hle⟩ := mem_of_getNextByPrefix2 h
  refine ⟨hmem, hle, fun y hy hlt => ?_⟩
  have hpos : 0 < prefixSpaceSize := by decide
  have hnear := Nat.div_le_div_right (c := prefixSpaceSize) (show c + 1 ≤ y.1 from hlt)
  rw [getChunkByByte, getNextByPrefix2, Option.or_eq_some_iff] at h
  obtain hfind | ⟨hnone, hfind⟩ := h
  · have hp := List.find?_some hfind
    rw [decide_eq_true_eq] at hp
    obtain heq | hgt := hnear.eq_or_lt
    · exact SortedMap.le_of_find? hfind hy (by simpa using ⟨hlt, heq.symm⟩)
    · rw [← hp.2] at hgt
      exact (Nat.lt_of_div_lt_div hgt).le
  · have hp := List.find?_some hfind
    rw [decide_eq_true_eq] at hp
    have hother := List.find?_eq_none.mp hnone y hy
    rw [decide_eq_true_eq, not_and] at hother
    have hgt := lt_of_le_of_ne hnear (Ne.symm (hother hlt))
    obtain heq | hgt := Nat.eq_or_lt_of_le hgt
    · refine SortedMap.le_of_find? hfind hy ?_
      rw [decide_eq_true_eq]
      exact ⟨(Nat.le_div_iff_mul_le hpos).mp heq.le, heq.symm⟩
    · have hdiv : x.1 / prefixSpaceSize < y.1 / prefixSpaceSize := hp.2.trans_lt hgt
      exact (Nat.lt_of_div_lt_div hdiv).le

lemma prefix_of_getChunkByByte (h : getChunkByByte index (c + 1) = some x) :
    x.1 / prefixSpaceSize ≤ (c + 1) / prefixSpaceSize + 1 := by
  rw [getChunkByByte, getNextByPrefix2, Option.or_eq_some_iff] at h
  obtain hfind | ⟨-, hfind⟩ := h
  · have hp := List.find?_some hfind
    rw [decide_eq_true_eq] at hp
    exact hp.2.le.trans (Nat.le_succ _)
  · have hp := List.find?_some hfind
    rw [decide_eq_true_eq] at hp
    exact hp.2.le

lemma exists_getChunkByByte (hy : y ∈ index.entries.entries) (hlt : c < y.1)
    (hnear : y.1 / prefixSpaceSize ≤ (c + 1) / prefixSpaceSize + 1) : ∃ x, getChunkByByte index (c + 1) = some x := by
  have hpos : 0 < prefixSpaceSize := by decide
  by_contra hnone
  rw [← Option.ne_none_iff_exists', not_not, getChunkByByte, getNextByPrefix2, Option.or_eq_none_iff] at hnone
  have hsame := List.find?_eq_none.mp hnone.1 y hy
  have hnext := List.find?_eq_none.mp hnone.2 y hy
  rw [decide_eq_true_eq, not_and] at hsame hnext
  have hge := Nat.div_le_div_right (c := prefixSpaceSize) (show c + 1 ≤ y.1 from hlt)
  have hne := hsame hlt
  have heq : y.1 / prefixSpaceSize = (c + 1) / prefixSpaceSize + 1 := by omega
  exact hnext ((Nat.le_div_iff_mul_le hpos).mp heq.ge) heq

end Lookup

section Visits

variable {Store Packing : Type} [DecidableEq Packing] {index : ChunksIndex} {c start stop : Nat} {x y : Entry}

/-- The chunks that a read comes to, each with the cursor. -/
def visits (index : ChunksIndex) (start stop : Nat) : List (Nat × Entry) :=
  if _ : start ≥ stop then []
  else
    match _ : getChunkByByte index (start + 1) with
    | none => visits index ((start / prefixSpaceSize + 2) * prefixSpaceSize) stop
    | some x => if x.1 > stop then [] else (start, x) :: visits index (start + x.2.chunkSize) stop
termination_by stop - start
decreasing_by
  · have := lt_jump start
    omega
  · have := index.nonempty x (mem_of_getNextByPrefix2 ‹_›).1
    omega

lemma visits_of_none (hlt : ¬ start ≥ stop) (h : getChunkByByte index (start + 1) = none) :
    visits index start stop = visits index ((start / prefixSpaceSize + 2) * prefixSpaceSize) stop := by
  rw [visits, dif_neg hlt]
  split
  · rfl
  · rename_i x hx
    rw [h] at hx
    cases hx

lemma visits_of_some (hlt : ¬ start ≥ stop) (h : getChunkByByte index (start + 1) = some x) :
    visits index start stop = if x.1 > stop then [] else (start, x) :: visits index (start + x.2.chunkSize) stop := by
  rw [visits, dif_neg hlt]
  split
  · rename_i hnone
    rw [h] at hnone
    cases hnone
  · rename_i x' hx
    rw [h] at hx
    cases hx
    rfl

def messagesOf (job : ReadJob Store Packing) (start stop : Nat) : List (ReadMessage Store Packing) :=
  (visits job.index start stop).filterMap fun v => chunkMessage job v.1 v.2

lemma messagesOf_readRange2 (job : ReadJob Store Packing) (messagesRemaining start stop : Nat) :
    messagesOf job start stop = (readRange2 job messagesRemaining start stop).1 ++
      match (readRange2 job messagesRemaining start stop).2 with
      | none => []
      | some cursor => messagesOf job cursor stop := by
  fun_induction readRange2 job messagesRemaining start stop with
  | case1 start => rfl
  | case2 messagesRemaining start hpos hge =>
    rw [messagesOf, visits, dif_pos hge]
    rfl
  | case3 messagesRemaining start hpos hlt hnone ih =>
    rw [messagesOf, visits_of_none hlt hnone]
    exact ih
  | case4 messagesRemaining start hpos hlt x hx hgt =>
    rw [messagesOf, visits_of_some hlt hx, if_pos hgt]
    rfl
  | case5 messagesRemaining start hpos hlt x hx hle hnone ih =>
    rw [messagesOf, visits_of_some hlt hx, if_neg hle, List.filterMap_cons]
    simp only [hnone]
    exact ih
  | case6 messagesRemaining start hpos hlt x hx hle message hmessage messages cursor' heq ih =>
    rw [heq] at ih
    rw [messagesOf, visits_of_some hlt hx, if_neg hle, List.filterMap_cons]
    simp only [hmessage]
    exact congrArg (message :: ·) ih

lemma readRange_eq (job : ReadJob Store Packing) (start stop : Nat) : readRange job start stop = messagesOf job start stop := by
  fun_induction readRange job start stop with
  | case1 start hge =>
    rw [messagesOf, visits, dif_pos hge]
    rfl
  | case2 start hlt hnone =>
    rw [messagesOf_readRange2 job readRangeMessagesPerBatch start stop, hnone]
    exact (List.append_nil _).symm
  | case3 start hlt cursor hcursor ih =>
    rw [messagesOf_readRange2 job readRangeMessagesPerBatch start stop, hcursor, ih]

end Visits

section Coverage

variable {index : ChunksIndex} {c stop : Nat} {x y : Entry}

/-- The chunks with ends in the range, in their order. -/
def inRange (index : ChunksIndex) (start stop : Nat) : List Entry :=
  index.entries.entries.filter fun x => start < x.1 ∧ x.1 ≤ stop

lemma mem_inRange : x ∈ inRange index c stop ↔ x ∈ index.entries.entries ∧ c < x.1 ∧ x.1 ≤ stop := by
  rw [inRange, List.mem_filter, decide_eq_true_eq]

lemma inRange_sorted : (inRange index c stop).Pairwise fun x y => x.1 < y.1 := index.entries.sorted.filter _

lemma eq_of_mem_iff {l l' : List Entry} (hl : l.Pairwise fun x y => x.1 < y.1) (hl' : l'.Pairwise fun x y => x.1 < y.1)
    (h : ∀ x, x ∈ l ↔ x ∈ l') : l = l' := by
  have hperm : l.Perm l' := by
    rw [List.perm_ext_iff_of_nodup (hl.imp fun h heq => h.ne (congrArg Prod.fst heq))
      (hl'.imp fun h heq => h.ne (congrArg Prod.fst heq))]
    exact h
  refine hperm.eq_of_pairwise (fun x y _ _ hxy hyx => ?_) hl hl'
  exact absurd hxy hyx.asymm

lemma inRange_of_some (h : getChunkByByte index (c + 1) = some x) (hle : x.1 ≤ stop) :
    inRange index c stop = x :: inRange index x.1 stop := by
  obtain ⟨hmem, hlt, hmin⟩ := getChunkByByte_spec h
  refine eq_of_mem_iff inRange_sorted (List.pairwise_cons.mpr ⟨fun y hy => (mem_inRange.mp hy).2.1, inRange_sorted⟩) ?_
  intro y
  rw [List.mem_cons, mem_inRange, mem_inRange]
  constructor
  · rintro ⟨hy, hcy, hstop⟩
    obtain heq | hgt := (hmin y hy hcy).eq_or_lt
    · exact .inl (SortedMap.eq_of_mem_of_fst_eq index.entries.sorted hy hmem heq.symm)
    · exact .inr ⟨hy, hgt, hstop⟩
  · rintro (rfl | ⟨hy, hgt, hstop⟩)
    · exact ⟨hmem, hlt, hle⟩
    · exact ⟨hy, hlt.trans hgt, hstop⟩

lemma inRange_of_gt (h : getChunkByByte index (c + 1) = some x) (hgt : stop < x.1) : inRange index c stop = [] := by
  rw [List.eq_nil_iff_forall_not_mem]
  intro y hy
  obtain ⟨hmem, hlt, hle⟩ := mem_inRange.mp hy
  have := (getChunkByByte_spec h).2.2 y hmem hlt
  omega

lemma inRange_of_le (h : stop ≤ c) : inRange index c stop = [] := by
  rw [List.eq_nil_iff_forall_not_mem]
  intro y hy
  obtain ⟨-, hlt, hle⟩ := mem_inRange.mp hy
  omega

/-- Where the cursor is when a lookup finds the given end offset. It passes over a stretch without chunks by two
prefixes at a time. -/
def reach (c endOffset : Nat) : Nat :=
  if endOffset / prefixSpaceSize ≤ (c + 1) / prefixSpaceSize + 1 then c
  else (c / prefixSpaceSize + (endOffset / prefixSpaceSize - c / prefixSpaceSize) / 2 * 2) * prefixSpaceSize

/-- The cursor, moved by the sizes of the chunks, is in each of them when it is their turn. -/
def Meets : Nat → List Entry → Prop
  | _, [] => True
  | c, x :: rest => (Entry.start x ≤ reach c x.1 ∧ reach c x.1 < x.1) ∧ Meets (reach c x.1 + x.2.chunkSize) rest

instance decidableMeets : (c : Nat) → (l : List Entry) → Decidable (Meets c l)
  | _, [] => isTrue trivial
  | c, x :: rest =>
    have := decidableMeets (reach c x.1 + x.2.chunkSize) rest
    inferInstanceAs (Decidable ((_ ∧ _) ∧ _))

lemma reach_of_some (h : getChunkByByte index (c + 1) = some x) : reach c x.1 = c := if_pos (prefix_of_getChunkByByte h)

lemma le_reach (c e : Nat) : c ≤ reach c e := by
  rw [reach]
  split_ifs with hnear
  · exact le_rfl
  · have hpos : 0 < prefixSpaceSize := by decide
    have hc := Nat.lt_div_mul_add hpos (a := c)
    have hdiv : c / prefixSpaceSize ≤ (c + 1) / prefixSpaceSize := Nat.div_le_div_right (Nat.le_succ c)
    have hnext : c / prefixSpaceSize + 1 ≤ c / prefixSpaceSize + (e / prefixSpaceSize - c / prefixSpaceSize) / 2 * 2 := by
      omega
    have := Nat.mul_le_mul_right prefixSpaceSize hnext
    rw [add_mul, one_mul] at this
    omega

lemma reach_jump {e : Nat} (h : (c + 1) / prefixSpaceSize + 1 < e / prefixSpaceSize) :
    reach ((c / prefixSpaceSize + 2) * prefixSpaceSize) e = reach c e := by
  have hpos : 0 < prefixSpaceSize := by decide
  have hdiv : c / prefixSpaceSize ≤ (c + 1) / prefixSpaceSize := Nat.div_le_div_right (Nat.le_succ c)
  have hlanded : ((c / prefixSpaceSize + 2) * prefixSpaceSize + 1) / prefixSpaceSize = c / prefixSpaceSize + 2 := by
    rw [mul_comm, Nat.mul_add_div hpos, Nat.div_eq_of_lt (show 1 < prefixSpaceSize by decide), add_zero]
  rw [reach, reach, if_neg (not_le.mpr h), hlanded, Nat.mul_div_cancel _ hpos]
  split_ifs with hnear
  · have : (e / prefixSpaceSize - c / prefixSpaceSize) / 2 * 2 = 2 := by omega
    rw [this]
  · have : c / prefixSpaceSize + 2 + (e / prefixSpaceSize - (c / prefixSpaceSize + 2)) / 2 * 2 =
        c / prefixSpaceSize + (e / prefixSpaceSize - c / prefixSpaceSize) / 2 * 2 := by omega
    rw [this]

lemma prefix_of_none (h : getChunkByByte index (c + 1) = none) (hx : x ∈ index.entries.entries) (hlt : c < x.1) :
    (c + 1) / prefixSpaceSize + 1 < x.1 / prefixSpaceSize := by
  by_contra hle
  obtain ⟨x', hx'⟩ := exists_getChunkByByte hx hlt (not_lt.mp hle)
  rw [h] at hx'
  cases hx'

lemma meets_jump (h : getChunkByByte index (c + 1) = none) :
    Meets ((c / prefixSpaceSize + 2) * prefixSpaceSize) (inRange index c stop) ↔ Meets c (inRange index c stop) := by
  cases hrange : inRange index c stop with
  | nil => rfl
  | cons x rest =>
    have hx : x ∈ inRange index c stop := by rw [hrange]; exact List.mem_cons_self
    obtain ⟨hmem, hlt, -⟩ := mem_inRange.mp hx
    rw [Meets, Meets, reach_jump (prefix_of_none h hmem hlt)]

lemma inRange_eq {c' : Nat} (hle : c ≤ c') (h : ∀ x ∈ inRange index c stop, c' < x.1) :
    inRange index c' stop = inRange index c stop := by
  refine eq_of_mem_iff inRange_sorted inRange_sorted fun x => ⟨fun hx => ?_, fun hx => ?_⟩
  · obtain ⟨hmem, hlt, hstop⟩ := mem_inRange.mp hx
    exact mem_inRange.mpr ⟨hmem, hle.trans_lt hlt, hstop⟩
  · obtain ⟨hmem, -, hstop⟩ := mem_inRange.mp hx
    exact mem_inRange.mpr ⟨hmem, h x hx, hstop⟩

lemma Meets.lt {l : List Entry} (h : Meets c l) (hl : l.Pairwise fun x y => x.1 < y.1) : ∀ y ∈ l, c < y.1 := by
  cases l with
  | nil => exact fun y hy => absurd hy List.not_mem_nil
  | cons x rest =>
    have hx : c < x.1 := (le_reach c x.1).trans_lt h.1.2
    intro y hy
    obtain rfl | hy := List.mem_cons.mp hy
    · exact hx
    · exact hx.trans ((List.pairwise_cons.mp hl).1 y hy)

lemma Meets.lt_of_none (h : Meets c (inRange index c stop)) (hnone : getChunkByByte index (c + 1) = none) :
    ∀ y ∈ inRange index c stop, (c / prefixSpaceSize + 2) * prefixSpaceSize < y.1 :=
  ((meets_jump hnone).mpr h).lt inRange_sorted

lemma end_le_of_start_le (hx : x ∈ index.entries.entries) (h : Entry.start x ≤ c) : x.1 ≤ c + x.2.chunkSize := by
  have := (index.size_le x hx).2
  rw [Entry.start] at h
  omega

lemma visits_eq_of_meets (h : Meets c (inRange index c stop)) :
    (visits index c stop).map Prod.snd = inRange index c stop := by
  fun_induction visits index c stop with
  | case1 c hge => rw [inRange_of_le hge, List.map_nil]
  | case2 c hlt hnone ih =>
    have hsame := inRange_eq (lt_jump c).le (h.lt_of_none hnone)
    rw [← hsame]
    apply ih
    rw [hsame]
    exact (meets_jump hnone).mpr h
  | case3 c hlt x hx hgt => rw [inRange_of_gt hx hgt, List.map_nil]
  | case4 c hlt x hx hle ih =>
    have hmem := (getChunkByByte_spec hx).1
    rw [inRange_of_some hx (not_lt.mp hle)] at h ⊢
    rw [Meets, reach_of_some hx] at h
    have hend := end_le_of_start_le hmem h.1.1
    have hrest := inRange_eq hend (h.2.lt inRange_sorted)
    rw [List.map_cons, ih (by rw [hrest]; exact h.2), hrest]

lemma visits_spec {v : Nat × Entry} (hv : v ∈ visits index c stop) :
    c ≤ v.1 ∧ v.2 ∈ index.entries.entries ∧ v.1 < v.2.1 ∧ v.2.1 ≤ stop ∧
      ∀ y ∈ index.entries.entries, v.1 < y.1 → v.2.1 ≤ y.1 := by
  fun_induction visits index c stop with
  | case1 c hge => cases hv
  | case2 c hlt hnone ih =>
    obtain ⟨hle, hrest⟩ := ih hv
    exact ⟨(lt_jump c).le.trans hle, hrest⟩
  | case3 c hlt x hx hgt => cases hv
  | case4 c hlt x hx hle ih =>
    obtain ⟨hmem, hcx, hmin⟩ := getChunkByByte_spec hx
    obtain rfl | hv := List.mem_cons.mp hv
    · exact ⟨le_rfl, hmem, hcx, not_lt.mp hle, hmin⟩
    · obtain ⟨hle, hrest⟩ := ih hv
      exact ⟨(Nat.le_add_right _ _).trans hle, hrest⟩

lemma visits_sorted : ((visits index c stop).map fun v => v.2.1).Pairwise (· ≤ ·) := by
  fun_induction visits index c stop with
  | case1 c hge => exact List.Pairwise.nil
  | case2 c hlt hnone ih => exact ih
  | case3 c hlt x hx hgt => exact List.Pairwise.nil
  | case4 c hlt x hx hle ih =>
    rw [List.map_cons, List.pairwise_cons]
    refine ⟨fun n hn => ?_, ih⟩
    obtain ⟨v, hv, rfl⟩ := List.mem_map.mp hn
    obtain ⟨hcv, hmem, hlt', -, -⟩ := visits_spec hv
    exact (getChunkByByte_spec hx).2.2 v.2 hmem (by omega)

lemma lt_of_visits_eq {l : List Entry} (h : ((visits index c stop).map fun v => v.2.1) = l.map Prod.fst) :
    ∀ x ∈ l, c < x.1 := by
  intro x hx
  have hin : x.1 ∈ (visits index c stop).map fun v => v.2.1 := by
    rw [h]
    exact List.mem_map_of_mem hx
  obtain ⟨v, hv, heq⟩ := List.mem_map.mp hin
  obtain ⟨hcv, -, hlt, -⟩ := visits_spec hv
  omega

/-- A read that comes to each chunk of the range once has the cursor in each of them. -/
lemma meets_of_visits_eq (h : ((visits index c stop).map fun v => v.2.1) = (inRange index c stop).map Prod.fst) :
    Meets c (inRange index c stop) := by
  fun_induction visits index c stop with
  | case1 c hge =>
    rw [inRange_of_le hge]
    trivial
  | case2 c hlt hnone ih =>
    have hsame := inRange_eq (lt_jump c).le (lt_of_visits_eq h)
    rw [← meets_jump hnone, ← hsame]
    apply ih
    rw [hsame]
    exact h
  | case3 c hlt x hx hgt =>
    rw [inRange_of_gt hx hgt]
    trivial
  | case4 c hlt x hx hle ih =>
    obtain ⟨hmem, hcx, hmin⟩ := getChunkByByte_spec hx
    rw [inRange_of_some hx (not_lt.mp hle)] at h ⊢
    rw [List.map_cons, List.map_cons] at h
    have htail := (List.cons.inj h).2
    have hsize := index.nonempty x hmem
    -- the cursor is past the chunk, or the read would come to it again
    have hend : x.1 ≤ c + x.2.chunkSize := by
      by_contra hlow
      have hnear : x.1 / prefixSpaceSize ≤ (c + x.2.chunkSize + 1) / prefixSpaceSize + 1 :=
        (prefix_of_getChunkByByte hx).trans (Nat.succ_le_succ (Nat.div_le_div_right (by omega)))
      obtain ⟨x', hx'⟩ := exists_getChunkByByte hmem (not_le.mp hlow) hnear
      obtain ⟨hmem', hcx', hmin'⟩ := getChunkByByte_spec hx'
      have hkey : x'.1 = x.1 := (hmin' x hmem (not_le.mp hlow)).antisymm (hmin x' hmem' (by omega))
      rw [visits_of_some (by omega) hx', if_neg (by omega), List.map_cons] at htail
      have hin : x'.1 ∈ (inRange index x.1 stop).map Prod.fst := by rw [← htail]; exact List.mem_cons_self
      obtain ⟨y, hy, heq⟩ := List.mem_map.mp hin
      have := (mem_inRange.mp hy).2.1
      omega
    have hrest := inRange_eq hend (lt_of_visits_eq htail)
    rw [Meets, reach_of_some hx]
    refine ⟨⟨?_, hcx⟩, ?_⟩
    · rw [Entry.start]
      omega
    · rw [← hrest] at htail ⊢
      exact ih htail

end Coverage

section Once

variable {Store Packing : Type} [DecidableEq Packing] {job : ReadJob Store Packing} {index : ChunksIndex}
  {start stop : Nat} {x : Entry}

def ReadMessage.args : ReadMessage Store Packing → Option (PackArgs Store Packing)
  | .invalidateBadDataRecord _ _ => none
  | .packAndStoreChunk args => some args

/-- The message that is due for a chunk: it is not one to skip, and it is readable and recorded. -/
def dueArgs (job : ReadJob Store Packing) (x : Entry) : Option (PackArgs Store Packing) :=
  if skip job x then none
  else
    match readChunk job x.1 x.2.chunkDataKey, job.isRecorded x.1 with
    | .ok chunk dataPath, some packing => some (packArgs job x packing chunk dataPath)
    | _, _ => none

/-- Each chunk of the range is sent once, if it is due, and nothing else. A record that is invalidated is that of
an unreadable chunk of the range, and no part of it belongs to another chunk. -/
structure ReadsOnce (job : ReadJob Store Packing) (start stop : Nat) : Prop where
  sent : ((readRange job start stop).filterMap ReadMessage.args).Perm
    ((inRange job.index start stop).filterMap (dueArgs job))
  invalidated : ∀ s e, .invalidateBadDataRecord s e ∈ readRange job start stop →
    ∃ x ∈ inRange job.index start stop, x.1 = e ∧ readChunk job x.1 x.2.chunkDataKey = .not_found ∧
      ∀ y ∈ job.index.entries.entries, y ≠ x → Disjoint (Set.Ioc s e) (Set.Ioc (Entry.start y) y.1)

lemma args_chunkMessage (job : ReadJob Store Packing) (c : Nat) (x : Entry) :
    (chunkMessage job c x).bind ReadMessage.args = dueArgs job x := by
  rw [chunkMessage, dueArgs]
  split_ifs
  · rfl
  · cases readChunk job x.1 x.2.chunkDataKey with
    | not_found => rfl
    | error => rfl
    | ok chunk dataPath => cases job.isRecorded x.1 <;> rfl

lemma sent_readRange (job : ReadJob Store Packing) (start stop : Nat) :
    (readRange job start stop).filterMap ReadMessage.args =
      ((visits job.index start stop).map Prod.snd).filterMap (dueArgs job) := by
  rw [readRange_eq, messagesOf, List.filterMap_filterMap, List.filterMap_map]
  exact List.filterMap_congr fun v _ => args_chunkMessage job v.1 v.2

lemma of_chunkMessage_invalidate {c s e : Nat} (h : chunkMessage job c x = some (.invalidateBadDataRecord s e)) :
    s = c ∧ e = x.1 ∧ readChunk job x.1 x.2.chunkDataKey = .not_found := by
  rw [chunkMessage] at h
  split_ifs at h
  split at h
  · rename_i hread
    cases h
    exact ⟨rfl, rfl, hread⟩
  · cases h
  · split at h <;> cases h

lemma apart_of_ne {x y : Entry} (hx : x ∈ index.entries.entries) (hy : y ∈ index.entries.entries) (hne : y ≠ x) :
    x.1 ≤ Entry.start y ∨ y.1 ≤ Entry.start x := by
  have : Std.Symm fun x y : Entry => x.1 ≤ Entry.start y ∨ y.1 ≤ Entry.start x := ⟨fun _ _ => Or.symm⟩
  have happart : index.entries.entries.Pairwise fun x y => x.1 ≤ Entry.start y ∨ y.1 ≤ Entry.start x :=
    index.apart.imp Or.inl
  exact happart.forall hx hy hne.symm

lemma disjoint_of_next {c : Nat} {x y : Entry} (hx : x ∈ index.entries.entries) (hy : y ∈ index.entries.entries)
    (hne : y ≠ x) (hmin : ∀ y ∈ index.entries.entries, c < y.1 → x.1 ≤ y.1) :
    Disjoint (Set.Ioc c x.1) (Set.Ioc (Entry.start y) y.1) := by
  rw [Set.disjoint_left]
  rintro b ⟨hcb, hbx⟩ ⟨hyb, hby⟩
  obtain hle | hle := apart_of_ne hx hy hne
  · omega
  · have hsize := index.nonempty x hx
    have hend := hmin y hy (by omega)
    have := (index.size_le x hx).2
    rw [Entry.start] at hle
    omega

lemma readsOnce_of_meets (h : Meets start (inRange job.index start stop)) : ReadsOnce job start stop where
  sent := by
    rw [sent_readRange, visits_eq_of_meets h]
  invalidated := by
    intro s e hmessage
    rw [readRange_eq, messagesOf, List.mem_filterMap] at hmessage
    obtain ⟨v, hv, hmessage⟩ := hmessage
    obtain ⟨rfl, rfl, hread⟩ := of_chunkMessage_invalidate hmessage
    obtain ⟨hle, hmem, hlt, hstop, hmin⟩ := visits_spec hv
    refine ⟨v.2, mem_inRange.mpr ⟨hmem, by omega, hstop⟩, rfl, hread, fun y hy hne => ?_⟩
    exact disjoint_of_next hmem hy hne hmin

/-- A store with all chunks in its chunk data store and in its record. -/
def readable [Inhabited Store] [Inhabited Packing] (index : ChunksIndex) : ReadJob Store Packing where
  index := index
  chunkDataDB _ := .ok (.chunk [] [])
  chunkStorageGet _ := none
  isRecorded _ := some default
  unpacked := default
  targetStoreID := default
  skipSmall := false

lemma offset_dueArgs_readable [Inhabited Store] [Inhabited Packing] (index : ChunksIndex) (l : List Entry) :
    ((l.filterMap (dueArgs (readable index : ReadJob Store Packing))).map fun args => args.absoluteOffset.toNat) =
      l.map Prod.fst := by
  induction l with
  | nil => rfl
  | cons x l ih => exact congrArg (x.1 :: ·) ih

lemma meets_of_readsOnce [Inhabited Store] [Inhabited Packing]
    (h : ReadsOnce (readable index : ReadJob Store Packing) start stop) :
    Meets start (inRange index start stop) := by
  have hperm := h.sent.map fun args => args.absoluteOffset.toNat
  rw [sent_readRange, offset_dueArgs_readable, offset_dueArgs_readable, List.map_map] at hperm
  apply meets_of_visits_eq
  refine hperm.eq_of_pairwise (fun m n _ _ hle hge => hle.antisymm hge) visits_sorted ?_
  exact List.pairwise_map.mpr (inRange_sorted.imp fun h => h.le)

/-- A read sends each chunk of the range once, whichever of them are readable, recorded or small, exactly when the
cursor is in each of them when it is their turn. -/
theorem readRange_once_iff [Inhabited Store] [Inhabited Packing] (index : ChunksIndex) (start stop : Nat) :
    (∀ job : ReadJob Store Packing, job.index = index → ReadsOnce job start stop) ↔
      Meets start (inRange index start stop) := by
  refine ⟨fun h => meets_of_readsOnce (h (readable index) rfl), ?_⟩
  rintro h job rfl
  exact readsOnce_of_meets h

/-- A chunk of 100 bytes and, after a gap of 100 bytes, one of 300 bytes. -/
def gapped : ChunksIndex where
  entries := ⟨[(100, ⟨[], [], [], [], 0, 100⟩), (500, ⟨[], [], [], [], 0, 300⟩)], by decide⟩
  nonempty := by decide
  size_le := by decide
  apart := by decide

/-- After the gap the cursor is before the second chunk, and its size does not take it to the end. -/
theorem chunk_after_gap_sent_twice :
    let job : ReadJob Unit Unit := readable gapped
    ((readRange job 0 1000).filterMap ReadMessage.args).map (fun args => args.absoluteOffset) = [100, 500, 500] ∧
      (inRange gapped 0 1000).map Prod.fst = [100, 500] ∧ ¬ ReadsOnce job 0 1000 := by
  intro job
  have hlast : visits gapped 700 1000 = [] := by
    rw [visits_of_none (by decide) (by decide), visits, dif_pos (by decide)]
  refine ⟨?_, by decide, fun h => absurd (meets_of_readsOnce h) (by decide)⟩
  rw [sent_readRange]
  change ((((visits gapped 0 1000).map Prod.snd).filterMap (dueArgs job)).map fun args => args.absoluteOffset) = _
  rw [visits_of_some (by decide) rfl, if_neg (by decide), visits_of_some (by decide) rfl, if_neg (by decide),
    visits_of_some (by decide) rfl, if_neg (by decide)]
  change ((((_ :: _ :: _ :: visits gapped 700 1000).map Prod.snd).filterMap (dueArgs job)).map _) = _
  rw [hlast]
  decide

end Once

end Arweave.DataSync

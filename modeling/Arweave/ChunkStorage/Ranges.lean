import Arweave.ChunkStorage.Slots

/-!
# Reads of ranges of chunks

The chunks of a range are read slot by slot, file by file. How many slots are read of a file follows from the first
recorded interval there. A cut takes chunks out of the record and leaves them in their slots, so what a read returns
depends on the slots, and on where the chunks begin in them.
-/

namespace Arweave.ChunkStorage

open Lib Intervals EtsIntervals SyncRecord IntervalStore

/-- `ar_sync_record:get_next_synced_interval/4` without a bound. -/
def getNextSyncedInterval (t : EtsIntervals.Table) (offset : Int) : Option (Int × Int) := t.next offset

/-- The number of chunks from a bucket on in its file. -/
def chunkCountBeforeBorder (bucketStart : Int) : Int :=
  let sizeBeforeBorder := floorInt bucketStart chunkGroupSize + chunkGroupSize - bucketStart
  sizeBeforeBorder.tdiv dataChunkSize + if sizeBeforeBorder.tmod dataChunkSize = 0 then 0 else 1

lemma lt_floorInt_add (bucketStart : Int) : bucketStart < floorInt bucketStart chunkGroupSize + chunkGroupSize := by
  have hlt : bucketStart.tmod chunkGroupSize < chunkGroupSize := Int.tmod_lt_of_pos _ (by decide)
  rw [floorInt]
  omega

lemma chunkCountBeforeBorder_pos (bucketStart : Int) : 0 < chunkCountBeforeBorder bucketStart := by
  have hsize : 0 < floorInt bucketStart chunkGroupSize + chunkGroupSize - bucketStart :=
    sub_pos.mpr (lt_floorInt_add bucketStart)
  rw [chunkCountBeforeBorder, Int.tdiv_eq_ediv_of_nonneg hsize.le, Int.tmod_eq_emod_of_nonneg hsize.le]
  simp only [dataChunkSize]
  omega

/-- The chunks of a range by their ends. A slot that is cut off is a failed match. -/
def getRange (st : State) (start size : Int) : Option (List (Int × Bytes)) :=
  match getNextSyncedInterval st.record.table start with
  | none => some []
  | some (_, intervalStart) =>
    if _ : start + size > intervalStart then
      let start2 := max start intervalStart
      let size2 := start + size - start2
      let bucketStart := start2 - (start2 - intervalStart).tmod dataChunkSize
      let leftBorder := floorInt bucketStart chunkGroupSize
      let stop := start2 + size2
      let lastBucketStart := (stop - 1) - ((stop - 1) - intervalStart).tmod dataChunkSize
      if _ : lastBucketStart ≥ leftBorder + chunkGroupSize then
        let chunkCount := chunkCountBeforeBorder bucketStart
        let startAfterBorder := bucketStart + chunkCount * dataChunkSize
        let sizeAfterBorder := size2 - chunkCount * dataChunkSize + (start2 - bucketStart)
        do pure ((← getChunks st start2 bucketStart leftBorder chunkCount.toNat) ++
          (← getRange st startAfterBorder sizeAfterBorder))
      else
        let chunkCount := (lastBucketStart - bucketStart).tdiv dataChunkSize + 1
        getChunks st start2 bucketStart leftBorder chunkCount.toNat
    else some []
termination_by size.toNat
decreasing_by
  rename_i hguard hborder
  have hge : start ≤ start2 := le_max_left _ _
  have hstart : 0 ≤ start2 - intervalStart := by omega
  have hstop : 0 ≤ stop - 1 - intervalStart := by omega
  have hleft : bucketStart < leftBorder + chunkGroupSize := lt_floorInt_add bucketStart
  have hcount : 262144 ≤ chunkCount * dataChunkSize := le_mul_of_one_le_left (by decide) (chunkCountBeforeBorder_pos bucketStart)
  have hbucket : bucketStart = start2 - (start2 - intervalStart) % 262144 :=
    congrArg (start2 - ·) (Int.tmod_eq_emod_of_nonneg hstart)
  have hlast : lastBucketStart = stop - 1 - (stop - 1 - intervalStart) % 262144 :=
    congrArg (stop - 1 - ·) (Int.tmod_eq_emod_of_nonneg hstop)
  have hsize : stop = start + size := add_sub_cancel _ _
  have hafter : sizeAfterBorder = start + size - start2 - chunkCount * dataChunkSize + (start2 - bucketStart) := rfl
  have hless : sizeAfterBorder.toNat < size.toNat := by
    clear_value start2 bucketStart lastBucketStart stop chunkCount sizeAfterBorder leftBorder
    omega
  exact hless

section Plan

variable {live : Chunks} {held : Slots} {e start stop : Int}

/-- The border at the end of the file of a chunk. -/
def border (e : Int) : Int := ((e - dataChunkSize) / chunkGroupSize + 1) * chunkGroupSize

/-- The last slot up to which a read goes that begins at a chunk. -/
def lastSlot (e stop : Int) : Int := (stop - 1 - e % dataChunkSize) / dataChunkSize

lemma le_border_add (e : Int) : e ≤ border e + e % dataChunkSize := by
  simp only [border, dataChunkSize, chunkGroupSize]
  omega

/-- What is read of a range: in each file the slots from the first chunk on. -/
def rangeOf (live : Chunks) (held : Slots) (start stop : Int) : List (Int × Bytes) :=
  match _ : live.next start with
  | none => []
  | some (e, _) =>
    if e - dataChunkSize < stop then
      if _ : border e + e % dataChunkSize < stop then
        readSlots held (slotNumber e) (groupSlots - slot (e - dataChunkSize)) ++
          rangeOf live held (border e + e % dataChunkSize) stop
      else readSlots held (slotNumber e) (lastSlot e stop - slotNumber e + 1).toNat
    else []
termination_by (stop - start).toNat
decreasing_by
  have hlt := SortedMap.lt_of_next ‹_›
  have hle := le_border_add e
  dsimp only at hlt
  omega

end Plan

section Refinement

variable {st : State} {live : Chunks} {held : Slots} {e start stop : Int} {chunk : Chunk} {p : Int × Int}

lemma Represents.next_interval (h : Represents st live) (hnext : live.next start = some (e, chunk))
    (hp : getNextSyncedInterval st.record.table start = some p) :
    Covers e (max start p.2) ∧ p.2 + dataChunkSize ≤ e ∧ (dataChunkSize : Int) ∣ e - p.2 := by
  have hsep := st.record.separated
  have hlive : live.lookup e = some chunk := SortedMap.lookup_eq_some.mpr (SortedMap.mem_of_next hnext)
  have hstart : start < e := SortedMap.lt_of_next hnext
  have hmem : p ∈ EtsIntervals.family st.record.table := SortedMap.mem_of_next hp
  have hp1 : start < p.1 := SortedMap.lt_of_next hp
  have hp2 := hsep.lt p hmem
  have hx : max start p.2 + 1 ∈ Set.Ioc p.2 p.1 := ⟨by omega, by omega⟩
  have hpoint : max start p.2 + 1 ∈ points (EtsIntervals.family st.record.table) := ⟨p, hmem, hx⟩
  rw [h.tiled.points_eq] at hpoint
  obtain ⟨n, ⟨c, hn⟩, hxn⟩ := hpoint
  have hxn' := Set.mem_Ioc.mp hxn
  have hle : e ≤ n := SortedMap.le_of_next hnext (SortedMap.lookup_eq_some.mp hn) (by dsimp only; omega)
  obtain rfl | hlt := hle.eq_or_lt
  · have hend := h.tiled.le_fst hsep hmem ⟨c, hn⟩ hxn hx
    exact ⟨⟨by omega, by omega⟩, h.tiled.snd_le hsep hmem ⟨c, hn⟩ (by omega),
      h.tiled.dvd_sub hsep (by decide) hmem ⟨c, hn⟩ (by omega) hend⟩
  · -- an earlier chunk would be in an earlier interval
    have hapart := h.tiled.apart e ⟨chunk, hlive⟩ n ⟨c, hn⟩ hlt
    have hsize : (0 : Int) < dataChunkSize := by decide
    have hpoint : e ∈ points (EtsIntervals.family st.record.table) := by
      rw [h.tiled.points_eq]
      exact ⟨e, ⟨chunk, hlive⟩, by omega, le_rfl⟩
    obtain ⟨b, hb, hbe⟩ := hpoint
    have hbe' := Set.mem_Ioc.mp hbe
    have hfirst : p.1 ≤ b.1 := SortedMap.le_of_next hp hb (by omega)
    by_cases heq : p = b
    · subst heq
      omega
    · have := hsep.apart p hmem b hb heq
      omega

lemma Represents.next_eq_none (h : Represents st live) :
    getNextSyncedInterval st.record.table start = none ↔ live.next start = none := by
  constructor
  · intro hnone
    cases hnext : live.next start with
    | none => rfl
    | some x =>
      have hlive : live.lookup x.1 = some x.2 := SortedMap.lookup_eq_some.mpr (SortedMap.mem_of_next hnext)
      have hsize : (0 : Int) < dataChunkSize := by decide
      have hpoint : x.1 ∈ points (EtsIntervals.family st.record.table) := by
        rw [h.tiled.points_eq]
        exact ⟨x.1, ⟨x.2, hlive⟩, by omega, le_rfl⟩
      obtain ⟨b, hb, hbe⟩ := hpoint
      have hbe' := Set.mem_Ioc.mp hbe
      have hbefore : b.1 ≤ start := SortedMap.le_of_next_eq_none hnone hb
      have hafter : start < x.1 := SortedMap.lt_of_next hnext
      omega
  · intro hnone
    cases hp : getNextSyncedInterval st.record.table start with
    | none => rfl
    | some p =>
      have hmem : p ∈ EtsIntervals.family st.record.table := SortedMap.mem_of_next hp
      have hp1 : start < p.1 := SortedMap.lt_of_next hp
      have hp2 := st.record.separated.lt p hmem
      have hpoint : p.1 ∈ points (EtsIntervals.family st.record.table) := ⟨p, hmem, hp2, le_rfl⟩
      rw [h.tiled.points_eq] at hpoint
      obtain ⟨n, ⟨c, hn⟩, hpn⟩ := hpoint
      have hpn' := Set.mem_Ioc.mp hpn
      have hbefore : n ≤ start := SortedMap.le_of_next_eq_none hnone (SortedMap.lookup_eq_some.mp hn)
      omega

section Arithmetic

variable {intervalStart : Int}

lemma bucketStart_eq (hcovers : Covers e (max start intervalStart)) (hdvd : (dataChunkSize : Int) ∣ e - intervalStart) :
    max start intervalStart - (max start intervalStart - intervalStart).tmod dataChunkSize = e - dataChunkSize := by
  rw [Int.tmod_eq_emod_of_nonneg (by omega)]
  simp only [Covers, dataChunkSize] at *
  omega

lemma lastBucketStart_eq (hdvd : (dataChunkSize : Int) ∣ e - intervalStart) (hlt : intervalStart < stop) :
    stop - 1 - (stop - 1 - intervalStart).tmod dataChunkSize = lastSlot e stop * dataChunkSize + e % dataChunkSize := by
  rw [Int.tmod_eq_emod_of_nonneg (by omega), lastSlot]
  simp only [dataChunkSize] at *
  omega

lemma floorInt_add (hle : dataChunkSize ≤ e) : floorInt (e - dataChunkSize) chunkGroupSize + chunkGroupSize = border e := by
  rw [floorInt_of_nonneg (by omega), border]
  simp only [chunkGroupSize]
  omega

lemma chunkCountBeforeBorder_eq (hle : dataChunkSize ≤ e) :
    chunkCountBeforeBorder (e - dataChunkSize) = (groupSlots - slot (e - dataChunkSize) : Nat) := by
  have hsize : 0 ≤ border e - (e - dataChunkSize) := by
    rw [← floorInt_add hle]
    exact sub_nonneg.mpr (lt_floorInt_add _).le
  rw [chunkCountBeforeBorder, floorInt_add hle, Int.tdiv_eq_ediv_of_nonneg hsize, Int.tmod_eq_emod_of_nonneg hsize]
  simp only [border, slot, groupSlots, dataChunkSize, chunkGroupSize] at *
  omega

lemma startAfterBorder_eq (hle : dataChunkSize ≤ e) :
    e - dataChunkSize + chunkCountBeforeBorder (e - dataChunkSize) * dataChunkSize = border e + e % dataChunkSize := by
  rw [chunkCountBeforeBorder_eq hle]
  simp only [border, slot, groupSlots, dataChunkSize, chunkGroupSize] at *
  omega

lemma border_le_lastBucketStart : lastSlot e stop * dataChunkSize + e % dataChunkSize ≥ border e ↔
    border e + e % dataChunkSize < stop := by
  simp only [lastSlot, border, dataChunkSize, chunkGroupSize]
  omega

lemma chunkCount_eq (hlt : e - dataChunkSize < stop) :
    (lastSlot e stop * dataChunkSize + e % dataChunkSize - (e - dataChunkSize)).tdiv dataChunkSize + 1 =
      lastSlot e stop - slotNumber e + 1 := by
  rw [Int.tdiv_eq_ediv_of_nonneg (by simp only [lastSlot, dataChunkSize] at *; omega)]
  simp only [lastSlot, slotNumber, dataChunkSize] at *
  omega

end Arithmetic

lemma Represents.exists_interval (h : Represents st live) (hnext : live.next start = some (e, chunk)) :
    ∃ p, getNextSyncedInterval st.record.table start = some p ∧ Covers e (max start p.2) ∧ p.2 + dataChunkSize ≤ e ∧
      (dataChunkSize : Int) ∣ e - p.2 := by
  obtain ⟨p, hp⟩ : ∃ p, getNextSyncedInterval st.record.table start = some p := by
    rw [← Option.ne_none_iff_exists', ne_eq, h.next_eq_none, hnext]
    exact Option.some_ne_none _
  exact ⟨p, hp, h.next_interval hnext hp⟩

/-- A read of a range reads the slots of the files from the first chunk on. -/
lemma Stored.getRange_eq (h : Stored st live held) (hstart : start < stop) :
    getRange st start (stop - start) = some (rangeOf live held start stop) := by
  fun_induction rangeOf live held start stop with
  | case1 start hnone =>
    rw [getRange, h.represents.next_eq_none.mpr hnone]
  | case2 start e chunk hnext hlt hcross ih =>
    obtain ⟨p, hp, hcovers, hle, hdvd⟩ := h.represents.exists_interval hnext
    have hlive : live.lookup e = some chunk := SortedMap.lookup_eq_some.mpr (SortedMap.mem_of_next hnext)
    have hchunk := h.represents.le e chunk hlive
    have hstop : max start p.2 + (start + (stop - start) - max start p.2) = stop := by omega
    have hafter : start + (stop - start) - max start p.2 - chunkCountBeforeBorder (e - dataChunkSize) * dataChunkSize +
        (max start p.2 - (e - dataChunkSize)) = stop - (border e + e % dataChunkSize) := by
      rw [← startAfterBorder_eq hchunk]
      omega
    have hslot := (slotNumber_eq hchunk).2.1
    rw [getRange, hp]
    dsimp only
    rw [dif_pos (by omega), hstop, bucketStart_eq hcovers hdvd, lastBucketStart_eq hdvd (by omega), floorInt_add hchunk,
      dif_pos (border_le_lastBucketStart.mpr hcross), hafter, startAfterBorder_eq hchunk, chunkCountBeforeBorder_eq hchunk,
      Int.toNat_natCast, h.getChunks_eq hlive hcovers (by omega) (by omega), ih hcross]
    rfl
  | case3 start e chunk hnext hlt hstay =>
    obtain ⟨p, hp, hcovers, hle, hdvd⟩ := h.represents.exists_interval hnext
    have hlive : live.lookup e = some chunk := SortedMap.lookup_eq_some.mpr (SortedMap.mem_of_next hnext)
    have hchunk := h.represents.le e chunk hlive
    have hstop : max start p.2 + (start + (stop - start) - max start p.2) = stop := by omega
    have hcount : 0 < (lastSlot e stop - slotNumber e + 1).toNat ∧
        slot (e - dataChunkSize) + (lastSlot e stop - slotNumber e + 1).toNat ≤ groupSlots := by
      simp only [border, lastSlot, slotNumber, slot, groupSlots, dataChunkSize, chunkGroupSize] at *
      omega
    rw [getRange, hp]
    dsimp only
    rw [dif_pos (by omega), hstop, bucketStart_eq hcovers hdvd, lastBucketStart_eq hdvd (by omega), floorInt_add hchunk,
      dif_neg (fun hcross => hstay (border_le_lastBucketStart.mp hcross)), chunkCount_eq hlt,
      h.getChunks_eq hlive hcovers hcount.1 hcount.2]
  | case4 start e chunk hnext hge =>
    obtain ⟨p, hp, ⟨hcovers, -⟩, -⟩ := h.represents.exists_interval hnext
    rw [getRange, hp]
    dsimp only
    rw [dif_neg (by omega)]

end Refinement

/-- A chunk with a byte of the range. -/
def Meets (start stop e : Int) : Prop := start < e ∧ e - dataChunkSize < stop

/-- A read of a range returns the live chunks with bytes of the range, and at most one more behind it. -/
structure RangeRead (live : Chunks) (start stop : Int) (result : List (Int × Bytes)) : Prop where
  ascending : result.Pairwise fun x y => x.1 < y.1
  isLive : ∀ x ∈ result, ∃ chunk, live.lookup x.1 = some chunk ∧ x.2 = chunk.1
  complete : ∀ e chunk, live.lookup e = some chunk → Meets start stop e → (e, chunk.1) ∈ result
  one_more : ∀ x ∈ result, ∀ y ∈ result, ¬ Meets start stop x.1 → ¬ Meets start stop y.1 → x = y
  near : ∀ x ∈ result, ¬ Meets start stop x.1 → x.1 - dataChunkSize ≤ stop + dataChunkSize - 1

/-- The live chunk is the first of its file that ends behind the offset. -/
def FirstIn (live : Chunks) (start e : Int) : Prop :=
  e ∈ ends live ∧ start < e ∧ ∀ e' ∈ ends live, start < e' → border e' = border e → e ≤ e'

/-- What the first chunk of a file has to be like. -/
structure FitsFile (live : Chunks) (held : Slots) (stop e : Int) : Prop where
  /-- No slot up to the last one that is read has a chunk that was cut. -/
  uncut : ∀ e' chunk, held.lookup (slotNumber e') = some (e', chunk) → e' ∉ ends live → border e' = border e →
    slotNumber e ≤ slotNumber e' → lastSlot e stop < slotNumber e'
  /-- The chunk at the border does not reach farther into the next file than the first chunk into its slot, unless
  the next file is not read. -/
  inOrder : ∀ e' ∈ ends live, border e' = border e → border e + e % dataChunkSize < e' →
    stop ≤ border e + e % dataChunkSize
  /-- A chunk that begins in the slot of the last byte, there or at the beginning of the next file, is reached when the
  first chunk does not reach farther into its slot than the last byte. -/
  reached : ∀ e' ∈ ends live, e ≤ e' → e' - dataChunkSize < stop → slotNumber e' = (stop - 1) / dataChunkSize →
    border e' = border e ∨ border (e' - dataChunkSize) = border e → e % dataChunkSize ≤ (stop - 1) % dataChunkSize

/-- The condition on all files. -/
def Fits (live : Chunks) (held : Slots) (start stop : Int) : Prop :=
  ∀ e, FirstIn live start e → FitsFile live held stop e

lemma forall_ends {live : Chunks} {P : Int → Prop} : (∀ e ∈ ends live, P e) ↔ ∀ p ∈ live.entries, P p.1 :=
  ⟨fun h p hp => h p.1 ⟨p.2, SortedMap.lookup_eq_some.mpr hp⟩, fun h e ⟨chunk, hlive⟩ =>
    h (e, chunk) (SortedMap.lookup_eq_some.mp hlive)⟩

lemma isSome_lookup_iff {live : Chunks} {e : Int} : (live.lookup e).isSome = true ↔ e ∈ ends live :=
  Option.isSome_iff_exists

instance decidableMemEnds (live : Chunks) (e : Int) : Decidable (e ∈ ends live) :=
  decidable_of_iff ((live.lookup e).isSome = true) isSome_lookup_iff

instance decidableFirstIn (live : Chunks) (start e : Int) : Decidable (FirstIn live start e) :=
  decidable_of_iff (e ∈ ends live ∧ start < e ∧ ∀ p ∈ live.entries, start < p.1 → border p.1 = border e → e ≤ p.1)
    (by rw [FirstIn, forall_ends])

instance decidableFitsFile (live : Chunks) (held : Slots) (stop e : Int) : Decidable (FitsFile live held stop e) :=
  decidable_of_iff
    ((∀ v ∈ held.entries, v.1 = slotNumber v.2.1 → v.2.1 ∉ ends live → border v.2.1 = border e →
        slotNumber e ≤ slotNumber v.2.1 → lastSlot e stop < slotNumber v.2.1) ∧
      (∀ p ∈ live.entries, border p.1 = border e → border e + e % dataChunkSize < p.1 →
        stop ≤ border e + e % dataChunkSize) ∧
      ∀ p ∈ live.entries, e ≤ p.1 → p.1 - dataChunkSize < stop → slotNumber p.1 = (stop - 1) / dataChunkSize →
        border p.1 = border e ∨ border (p.1 - dataChunkSize) = border e → e % dataChunkSize ≤ (stop - 1) % dataChunkSize)
    ⟨fun ⟨huncut, hinOrder, hreached⟩ =>
      { uncut := fun e' chunk hheld => huncut (slotNumber e', e', chunk) (SortedMap.lookup_eq_some.mp hheld) rfl
        inOrder := forall_ends.mpr hinOrder
        reached := forall_ends.mpr hreached },
    fun h => ⟨fun v hv heq => h.uncut v.2.1 v.2.2 (SortedMap.lookup_eq_some.mpr (heq ▸ hv)), forall_ends.mp h.inOrder,
      forall_ends.mp h.reached⟩⟩

instance decidableFits (live : Chunks) (held : Slots) (start stop : Int) : Decidable (Fits live held start stop) :=
  decidable_of_iff (∀ p ∈ live.entries, FirstIn live start p.1 → FitsFile live held stop p.1)
    ⟨fun h e hfirst => forall_ends (P := fun e => FirstIn live start e → FitsFile live held stop e) |>.mpr h e hfirst.1 hfirst,
    fun h p _ => h p.1⟩

section Reads

variable {live : Chunks} {held : Slots} {e e' start stop k : Int} {n : Nat} {chunk : Chunk} {x : Int × Bytes}

lemma mem_readSlots : x ∈ readSlots held k n ↔ ∃ j, k ≤ j ∧ j < k + n ∧ ∃ v, held.lookup j = some v ∧ x = (v.1, v.2.1) := by
  induction n generalizing k with
  | zero =>
    simp only [readSlots, List.not_mem_nil, false_iff]
    rintro ⟨j, hlo, hhi, -⟩
    omega
  | succ n ih =>
    rw [readSlots, List.mem_append, ih, Option.mem_toList, Option.map_eq_some_iff]
    constructor
    · rintro (⟨v, hv, rfl⟩ | ⟨j, hlo, hhi, hj⟩)
      · exact ⟨k, le_rfl, by omega, v, hv, rfl⟩
      · exact ⟨j, by omega, by omega, hj⟩
    · rintro ⟨j, hlo, hhi, v, hv, rfl⟩
      obtain rfl | hlt := hlo.eq_or_lt
      · exact Or.inl ⟨v, hv, rfl⟩
      · exact Or.inr ⟨j, by omega, by omega, v, hv, rfl⟩

/-- The live chunks do not overlap and are in their slots. -/
structure Slotted (live : Chunks) (held : Slots) : Prop where
  apart : ∀ e ∈ ends live, ∀ e' ∈ ends live, e < e' → e + dataChunkSize ≤ e'
  wellFormed : held.WellFormed
  live_held : ∀ e chunk, live.lookup e = some chunk → held.lookup (slotNumber e) = some (e, chunk)

lemma readSlots_sorted (h : Slotted live held) : (readSlots held k n).Pairwise fun x y => x.1 < y.1 := by
  induction n generalizing k with
  | zero => exact List.Pairwise.nil
  | succ n ih =>
    rw [readSlots]
    cases hv : held.lookup k with
    | none => exact ih
    | some v =>
      refine List.pairwise_cons.mpr ⟨fun y hy => ?_, ih⟩
      obtain ⟨j, hlo, -, w, hw, rfl⟩ := mem_readSlots.mp hy
      have hslot := (h.wellFormed k v.1 v.2 hv).2
      have hslot' := (h.wellFormed j w.1 w.2 hw).2
      simp only [slotNumber, dataChunkSize] at hslot hslot'
      dsimp only
      omega

lemma mem_slotsFrom (h : Slotted live held) :
    x ∈ readSlots held (slotNumber e) n ↔ ∃ e' chunk, held.lookup (slotNumber e') = some (e', chunk) ∧ dataChunkSize ≤ e' ∧
      slotNumber e ≤ slotNumber e' ∧ slotNumber e' < slotNumber e + n ∧ x = (e', chunk.1) := by
  rw [mem_readSlots]
  constructor
  · rintro ⟨j, hlo, hhi, ⟨e', chunk⟩, hv, rfl⟩
    obtain ⟨hle, rfl⟩ := h.wellFormed j e' chunk hv
    exact ⟨e', chunk, hv, hle, hlo, hhi, rfl⟩
  · rintro ⟨e', chunk, hv, -, hlo, hhi, rfl⟩
    exact ⟨slotNumber e', hlo, hhi, (e', chunk), hv, rfl⟩

lemma mem_fileSlots (h : Slotted live held) :
    x ∈ readSlots held (slotNumber e) (groupSlots - slot (e - dataChunkSize)) ↔
      ∃ e' chunk, held.lookup (slotNumber e') = some (e', chunk) ∧ border e' = border e ∧ slotNumber e ≤ slotNumber e' ∧
        x = (e', chunk.1) := by
  have hfile : ∀ e' : Int, dataChunkSize ≤ e' → slotNumber e ≤ slotNumber e' →
      (slotNumber e' < slotNumber e + (groupSlots - slot (e - dataChunkSize) : Nat) ↔ border e' = border e) := by
    intro e' hle' hslot
    simp only [border, slotNumber, slot, groupSlots, dataChunkSize, chunkGroupSize] at *
    omega
  rw [mem_slotsFrom h]
  constructor
  · rintro ⟨e', chunk, hv, hle', hlo, hhi, rfl⟩
    exact ⟨e', chunk, hv, (hfile e' hle' hlo).mp hhi, hlo, rfl⟩
  · rintro ⟨e', chunk, hv, hsame, hlo, rfl⟩
    have hle' := (h.wellFormed _ e' chunk hv).1
    exact ⟨e', chunk, hv, hle', hlo, (hfile e' hle' hlo).mpr hsame, rfl⟩

lemma mem_lastSlots (h : Slotted live held) (hlt : e - dataChunkSize < stop) :
    x ∈ readSlots held (slotNumber e) (lastSlot e stop - slotNumber e + 1).toNat ↔
      ∃ e' chunk, held.lookup (slotNumber e') = some (e', chunk) ∧ slotNumber e ≤ slotNumber e' ∧
        slotNumber e' ≤ lastSlot e stop ∧ x = (e', chunk.1) := by
  have hpos : slotNumber e ≤ lastSlot e stop := by
    simp only [slotNumber, lastSlot, dataChunkSize] at *
    omega
  rw [mem_slotsFrom h]
  constructor
  · rintro ⟨e', chunk, hv, -, hlo, hhi, rfl⟩
    exact ⟨e', chunk, hv, hlo, by omega, rfl⟩
  · rintro ⟨e', chunk, hv, hlo, hhi, rfl⟩
    exact ⟨e', chunk, hv, (h.wellFormed _ e' chunk hv).1, hlo, by omega, rfl⟩

end Reads

section Exactly

variable {live : Chunks} {held : Slots} {e e' start stop : Int} {chunk : Chunk} {x : Int × Bytes}

lemma Slotted.lookup_live (h : Slotted live held) (hheld : held.lookup (slotNumber e) = some (e, chunk)) (he : e ∈ ends live) :
    live.lookup e = some chunk := by
  obtain ⟨c, hlive⟩ := he
  have hsame := h.live_held e c hlive
  rw [hheld] at hsame
  cases hsame
  exact hlive

lemma Slotted.slotNumber_le_iff (h : Slotted live held) (he : e ∈ ends live) (he' : e' ∈ ends live) :
    slotNumber e ≤ slotNumber e' ↔ e ≤ e' := by
  constructor
  · intro hslot
    by_contra hlt
    have := slotNumber_lt (h.apart e' he' e he (not_le.mp hlt))
    omega
  · intro hle
    simp only [slotNumber, dataChunkSize]
    omega

lemma fitsFile_of_le (hle : stop ≤ e - dataChunkSize) : FitsFile live held stop e where
  uncut e' chunk hheld hcut hfile hslot := by
    simp only [lastSlot, slotNumber, dataChunkSize] at *
    omega
  inOrder e' he' hfile hlt := by
    have := le_border_add e
    have : (0 : Int) < dataChunkSize := by decide
    omega
  reached e' he' hlater hlt hslot hfile := by
    have : (0 : Int) < dataChunkSize := by decide
    omega

lemma firstIn_next (hnext : live.next start = some (e, chunk)) : FirstIn live start e := by
  have hlive : live.lookup e = some chunk := SortedMap.lookup_eq_some.mpr (SortedMap.mem_of_next hnext)
  refine ⟨⟨chunk, hlive⟩, SortedMap.lt_of_next hnext, fun e' ⟨c, he'⟩ hlt _ => ?_⟩
  exact SortedMap.le_of_next hnext (SortedMap.lookup_eq_some.mp he') hlt

lemma le_of_next (hnext : live.next start = some (e, chunk)) (he' : e' ∈ ends live) (hlt : start < e') : e ≤ e' := by
  obtain ⟨c, he'⟩ := he'
  exact SortedMap.le_of_next hnext (SortedMap.lookup_eq_some.mp he') hlt

lemma border_le (hle : e ≤ e') (hne : border e' ≠ border e) : border e ≤ e' - dataChunkSize := by
  simp only [border, dataChunkSize, chunkGroupSize] at *
  omega

lemma sub_lt_border (e : Int) : e - dataChunkSize < border e := by
  simp only [border, chunkGroupSize]
  omega

lemma Slotted.eq_of_slotNumber_eq (h : Slotted live held) (he : e ∈ ends live) (he' : e' ∈ ends live)
    (hslot : slotNumber e = slotNumber e') : e = e' :=
  le_antisymm ((h.slotNumber_le_iff he he').mp hslot.le) ((h.slotNumber_le_iff he' he).mp hslot.ge)

lemma border_eq_of_lastSlot (hstay : stop ≤ border e + e % dataChunkSize) (hlo : slotNumber e ≤ slotNumber e')
    (hhi : slotNumber e' ≤ lastSlot e stop) : border e' = border e := by
  simp only [border, slotNumber, lastSlot, dataChunkSize, chunkGroupSize] at *
  omega

lemma isLive_lastSlots (h : Slotted live held) (hlt : e - dataChunkSize < stop) (hstay : stop ≤ border e + e % dataChunkSize)
    (hfits : FitsFile live held stop e) (hx : x ∈ readSlots held (slotNumber e) (lastSlot e stop - slotNumber e + 1).toNat) :
    ∃ chunk, live.lookup x.1 = some chunk ∧ x.2 = chunk.1 := by
  obtain ⟨e', chunk', hheld, hlo, hhi, rfl⟩ := (mem_lastSlots h hlt).mp hx
  refine ⟨chunk', h.lookup_live hheld ?_, rfl⟩
  by_contra hcut
  have := hfits.uncut e' chunk' hheld hcut (border_eq_of_lastSlot hstay hlo hhi) hlo
  omega

lemma behind_lastSlots (h : Slotted live held) (hfirst : FirstIn live start e) (hlt : e - dataChunkSize < stop)
    (hlive : x.1 ∈ ends live) (hx : x ∈ readSlots held (slotNumber e) (lastSlot e stop - slotNumber e + 1).toNat)
    (hnot : ¬ Meets start stop x.1) : stop ≤ x.1 - dataChunkSize ∧ slotNumber x.1 = lastSlot e stop := by
  obtain ⟨e', chunk', -, hlo, hhi, rfl⟩ := (mem_lastSlots h hlt).mp hx
  have hle := (h.slotNumber_le_iff hfirst.1 hlive).mp hlo
  have hstop : stop ≤ e' - dataChunkSize := by
    by_contra hlt'
    exact hnot ⟨hfirst.2.1.trans_le hle, not_le.mp hlt'⟩
  refine ⟨hstop, le_antisymm hhi ?_⟩
  simp only [lastSlot, slotNumber, dataChunkSize] at *
  omega

lemma slotNumber_le_lastSlot (hle : e ≤ e') (hlive : e' ∈ ends live) (hstay : stop ≤ border e + e % dataChunkSize)
    (hfits : FitsFile live held stop e) (hlt : e' - dataChunkSize < stop) : slotNumber e' ≤ lastSlot e stop := by
  by_contra hmissed
  have hslot : slotNumber e' = (stop - 1) / dataChunkSize ∧ slotNumber e ≤ slotNumber (e' - dataChunkSize) ∧
      slotNumber (e' - dataChunkSize) ≤ lastSlot e stop := by
    simp only [lastSlot, slotNumber, dataChunkSize] at *
    omega
  have hdist := hfits.reached e' hlive hle hlt hslot.1 (Or.inr (border_eq_of_lastSlot hstay hslot.2.1 hslot.2.2))
  simp only [lastSlot, slotNumber, dataChunkSize] at *
  omega

lemma fits_of_rangeRead_last (h : Slotted live held) (hfirst : FirstIn live start e)
    (hmin : ∀ e' ∈ ends live, start < e' → e ≤ e') (hlt : e - dataChunkSize < stop) (hstay : stop ≤ border e + e % dataChunkSize)
    (hread : RangeRead live start stop (readSlots held (slotNumber e) (lastSlot e stop - slotNumber e + 1).toNat)) :
    Fits live held start stop := by
  have hread_le : ∀ e' ∈ ends live, Meets start stop e' → slotNumber e ≤ slotNumber e' ∧ slotNumber e' ≤ lastSlot e stop := by
    intro e' ⟨chunk', hlive'⟩ hmeets
    obtain ⟨e'', chunk'', -, hlo, hhi, heq⟩ := (mem_lastSlots h hlt).mp (hread.complete e' chunk' hlive' hmeets)
    obtain ⟨rfl, -⟩ := Prod.mk.inj heq
    exact ⟨hlo, hhi⟩
  intro e1 hfirst1
  by_cases hbehind : stop ≤ e1 - dataChunkSize
  · exact fitsFile_of_le hbehind
  · -- the first chunk of another file would not be read
    have hfile : e1 = e := by
      obtain ⟨hlo, hhi⟩ := hread_le e1 hfirst1.1 ⟨hfirst1.2.1, not_le.mp hbehind⟩
      exact (hfirst1.2.2 e hfirst.1 hfirst.2.1 (border_eq_of_lastSlot hstay hlo hhi).symm).antisymm
        (hmin e1 hfirst1.1 hfirst1.2.1)
    subst hfile
    refine ⟨fun e' chunk' hheld hcut hfile hslot => ?_, fun e' he' hfile hgt => hstay, fun e' he' hle hlt' hslot _ => ?_⟩
    · by_contra hread'
      obtain ⟨c, hlive, -⟩ := hread.isLive (e', chunk'.1)
        ((mem_lastSlots h hlt).mpr ⟨e', chunk', hheld, hslot, not_lt.mp hread', rfl⟩)
      exact hcut ⟨c, hlive⟩
    · have hhi := (hread_le e' he' ⟨hfirst.2.1.trans_le hle, hlt'⟩).2
      rw [hslot] at hhi
      simp only [lastSlot, dataChunkSize] at *
      omega

lemma rangeRead_last_of_fits (h : Slotted live held) (hfirst : FirstIn live start e)
    (hmin : ∀ e' ∈ ends live, start < e' → e ≤ e') (hlt : e - dataChunkSize < stop) (hstay : stop ≤ border e + e % dataChunkSize)
    (hfits : FitsFile live held stop e) :
    RangeRead live start stop (readSlots held (slotNumber e) (lastSlot e stop - slotNumber e + 1).toNat) where
  ascending := readSlots_sorted h
  isLive x hx := isLive_lastSlots h hlt hstay hfits hx
  complete e' chunk' hlive hmeets := by
    have hle := hmin e' ⟨chunk', hlive⟩ hmeets.1
    exact (mem_lastSlots h hlt).mpr ⟨e', chunk', h.live_held e' chunk' hlive,
      (h.slotNumber_le_iff hfirst.1 ⟨chunk', hlive⟩).mpr hle, slotNumber_le_lastSlot hle ⟨chunk', hlive⟩ hstay hfits hmeets.2, rfl⟩
  one_more x hx y hy hnot hnot' := by
    obtain ⟨c, hlive, hc⟩ := isLive_lastSlots h hlt hstay hfits hx
    obtain ⟨c', hlive', hc'⟩ := isLive_lastSlots h hlt hstay hfits hy
    have hslot := (behind_lastSlots h hfirst hlt ⟨c, hlive⟩ hx hnot).2
    have hslot' := (behind_lastSlots h hfirst hlt ⟨c', hlive'⟩ hy hnot').2
    have heq := h.eq_of_slotNumber_eq ⟨c, hlive⟩ ⟨c', hlive'⟩ (hslot.trans hslot'.symm)
    rw [heq, hlive'] at hlive
    cases hlive
    exact Prod.ext heq (hc.trans hc'.symm)
  near x hx hnot := by
    obtain ⟨c, hlive, -⟩ := isLive_lastSlots h hlt hstay hfits hx
    have hslot := (behind_lastSlots h hfirst hlt ⟨c, hlive⟩ hx hnot).2
    simp only [lastSlot, slotNumber, dataChunkSize] at *
    omega

lemma rangeRead_last_iff (h : Slotted live held) (hfirst : FirstIn live start e) (hmin : ∀ e' ∈ ends live, start < e' → e ≤ e')
    (hlt : e - dataChunkSize < stop) (hstay : stop ≤ border e + e % dataChunkSize) :
    RangeRead live start stop (readSlots held (slotNumber e) (lastSlot e stop - slotNumber e + 1).toNat) ↔
      Fits live held start stop :=
  ⟨fits_of_rangeRead_last h hfirst hmin hlt hstay,
    fun hfits => rangeRead_last_of_fits h hfirst hmin hlt hstay (hfits e hfirst)⟩

lemma rangeOf_next (hnext : live.next start = some (e, chunk)) :
    rangeOf live held start stop =
      if e - dataChunkSize < stop then
        if border e + e % dataChunkSize < stop then
          readSlots held (slotNumber e) (groupSlots - slot (e - dataChunkSize)) ++
            rangeOf live held (border e + e % dataChunkSize) stop
        else readSlots held (slotNumber e) (lastSlot e stop - slotNumber e + 1).toNat
      else [] := by
  rw [rangeOf]
  split
  · rename_i hnone
    rw [hnext] at hnone
    cases hnone
  · rename_i e' chunk' hnext'
    rw [hnext] at hnext'
    cases hnext'
    simp only [dite_eq_ite]

lemma lt_of_mem_rangeOf (h : Slotted live held) (hx : x ∈ rangeOf live held start stop) (hlive : x.1 ∈ ends live) :
    start < x.1 := by
  have hslots : ∀ {start e chunk n}, live.next start = some (e, chunk) → x ∈ readSlots held (slotNumber e) n →
      start < x.1 := by
    intro start e chunk n hnext hx
    obtain ⟨e', chunk', hheld, -, hlo, -, rfl⟩ := (mem_slotsFrom h).mp hx
    have hfirst := firstIn_next hnext
    exact hfirst.2.1.trans_le ((h.slotNumber_le_iff hfirst.1 hlive).mp hlo)
  fun_induction rangeOf live held start stop with
  | case1 start hnone => cases hx
  | case2 start e chunk hnext hlt hcross ih =>
    obtain hx | hx := List.mem_append.mp hx
    · exact hslots hnext hx
    · have hstart := (firstIn_next hnext).2.1
      have := le_border_add e
      have := ih hx
      omega
  | case3 start e chunk hnext hlt hstay => exact hslots hnext hx
  | case4 start e chunk hnext hge => cases hx

lemma mem_rangeOf_next (h : Slotted live held) (hnext : live.next start = some (e, chunk)) (hlt : e - dataChunkSize < stop) :
    (e, chunk.1) ∈ rangeOf live held start stop := by
  have hheld := h.live_held e chunk (SortedMap.lookup_eq_some.mpr (SortedMap.mem_of_next hnext))
  rw [rangeOf_next hnext, if_pos hlt]
  split_ifs with hcross
  · exact List.mem_append_left _ ((mem_fileSlots h).mpr ⟨e, chunk, hheld, rfl, le_rfl, rfl⟩)
  · refine (mem_lastSlots h hlt).mpr ⟨e, chunk, hheld, le_rfl, ?_, rfl⟩
    simp only [slotNumber, lastSlot, dataChunkSize] at *
    omega

lemma fits_next_iff (hfirst : FirstIn live start e) (hmin : ∀ e' ∈ ends live, start < e' → e ≤ e')
    (hcross : border e + e % dataChunkSize < stop) :
    Fits live held start stop ↔ FitsFile live held stop e ∧ Fits live held (border e + e % dataChunkSize) stop := by
  have hdist : 0 ≤ e % dataChunkSize ∧ e % dataChunkSize < dataChunkSize :=
    ⟨Int.emod_nonneg _ (by decide), Int.emod_lt_of_pos _ (by decide)⟩
  have hstart : start < border e + e % dataChunkSize := hfirst.2.1.trans_le (le_border_add e)
  have hlater : ∀ e' ∈ ends live, start < e' → border e' ≠ border e → border e + e % dataChunkSize < e' := by
    intro e' he' hlt hne
    have := border_le (hmin e' he' hlt) hne
    omega
  constructor
  · refine fun hfits => ⟨hfits e hfirst, fun e1 ⟨hlive1, hlt1, hmin1⟩ => hfits e1 ⟨hlive1, hstart.trans hlt1, ?_⟩⟩
    intro e' he' hlt hfile
    refine hmin1 e' he' (hlater e' he' hlt fun hsame => ?_) hfile
    have := (hfits e hfirst).inOrder e1 hlive1 (hfile.symm.trans hsame) hlt1
    omega
  · rintro ⟨hfile, hfits⟩ e1 ⟨hlive1, hlt1, hmin1⟩
    by_cases hsame : border e1 = border e
    · have heq := (hmin1 e hfirst.1 hfirst.2.1 hsame.symm).antisymm (hmin e1 hlive1 hlt1)
      rw [heq]
      exact hfile
    · exact hfits e1 ⟨hlive1, hlater e1 hlive1 hlt1 hsame, fun e' he' hlt => hmin1 e' he' (hstart.trans hlt)⟩

lemma exists_next_of_border_lt (h : Slotted live held) (he' : e' ∈ ends live) (hfile : border e' = border e)
    (hlt : border e + e % dataChunkSize < e') : ∃ chunk, live.next (border e + e % dataChunkSize) = some (e', chunk) := by
  have hdist : 0 ≤ e % dataChunkSize := Int.emod_nonneg _ (by decide)
  have hbefore := sub_lt_border e'
  obtain ⟨chunk', hlive'⟩ := he'
  cases hnext : live.next (border e + e % dataChunkSize) with
  | none =>
    have : e' ≤ border e + e % dataChunkSize := SortedMap.le_of_next_eq_none hnext (SortedMap.lookup_eq_some.mp hlive')
    omega
  | some n =>
    obtain ⟨hn, hltn, -⟩ := firstIn_next hnext
    have hle := le_of_next hnext ⟨chunk', hlive'⟩ hlt
    obtain heq | hlt' := hle.eq_or_lt
    · exact ⟨n.2, by rw [← heq]⟩
    · have := h.apart n.1 hn e' ⟨chunk', hlive'⟩ hlt'
      omega

lemma RangeRead.inOrder (h : Slotted live held) (hfirst : FirstIn live start e)
    (hmin : ∀ e' ∈ ends live, start < e' → e ≤ e') (hcross : border e + e % dataChunkSize < stop)
    (hread : RangeRead live start stop (readSlots held (slotNumber e) (groupSlots - slot (e - dataChunkSize)) ++
      rangeOf live held (border e + e % dataChunkSize) stop))
    (he' : e' ∈ ends live) (hlt : border e + e % dataChunkSize < e') : border e' ≠ border e := by
  intro hfile
  obtain ⟨chunk', hnext⟩ := exists_next_of_border_lt h he' hfile hlt
  have hbefore := sub_lt_border e'
  have hdist : 0 ≤ e % dataChunkSize := Int.emod_nonneg _ (by decide)
  have hlive' : live.lookup e' = some chunk' := SortedMap.lookup_eq_some.mpr (SortedMap.mem_of_next hnext)
  have hlo := (h.slotNumber_le_iff hfirst.1 he').mpr (hmin e' he' ((hfirst.2.1.trans_le (le_border_add e)).trans hlt))
  have hhere := (mem_fileSlots h).mpr ⟨e', chunk', h.live_held e' chunk' hlive', hfile, hlo, rfl⟩
  have hagain := mem_rangeOf_next h hnext (show e' - dataChunkSize < stop by omega)
  exact ((List.pairwise_append.mp hread.ascending).2.2 _ hhere _ hagain).false

lemma fitsFile_of_rangeRead_next (h : Slotted live held) (hfirst : FirstIn live start e)
    (hmin : ∀ e' ∈ ends live, start < e' → e ≤ e') (hcross : border e + e % dataChunkSize < stop)
    (hread : RangeRead live start stop (readSlots held (slotNumber e) (groupSlots - slot (e - dataChunkSize)) ++
      rangeOf live held (border e + e % dataChunkSize) stop)) : FitsFile live held stop e where
  uncut e' chunk' hheld hcut hfile hlo := by
    obtain ⟨c, hlive, -⟩ := hread.isLive (e', chunk'.1)
      (List.mem_append_left _ ((mem_fileSlots h).mpr ⟨e', chunk', hheld, hfile, hlo, rfl⟩))
    exact absurd ⟨c, hlive⟩ hcut
  inOrder e' he' hfile hlt := absurd hfile (hread.inOrder h hfirst hmin hcross he' hlt)
  reached e' he' hle hlt hlast hfile := by
    simp only [border, slotNumber, dataChunkSize, chunkGroupSize] at *
    omega

lemma RangeRead.rest (h : Slotted live held) (hfirst : FirstIn live start e)
    (hmin : ∀ e' ∈ ends live, start < e' → e ≤ e') (hcross : border e + e % dataChunkSize < stop)
    (hread : RangeRead live start stop (readSlots held (slotNumber e) (groupSlots - slot (e - dataChunkSize)) ++
      rangeOf live held (border e + e % dataChunkSize) stop)) :
    RangeRead live (border e + e % dataChunkSize) stop (rangeOf live held (border e + e % dataChunkSize) stop) := by
  have hstart : start < border e + e % dataChunkSize := hfirst.2.1.trans_le (le_border_add e)
  have hmeets : ∀ x ∈ rangeOf live held (border e + e % dataChunkSize) stop,
      ¬ Meets (border e + e % dataChunkSize) stop x.1 → ¬ Meets start stop x.1 := by
    intro x hx hnot hmeets
    obtain ⟨c, hlive, -⟩ := hread.isLive x (List.mem_append_right _ hx)
    exact hnot ⟨lt_of_mem_rangeOf h hx ⟨c, hlive⟩, hmeets.2⟩
  refine ⟨(List.pairwise_append.mp hread.ascending).2.1, fun x hx => hread.isLive x (List.mem_append_right _ hx), ?_, ?_, ?_⟩
  · intro e' chunk' hlive' hmeets'
    have hmem := hread.complete e' chunk' hlive' ⟨hstart.trans hmeets'.1, hmeets'.2⟩
    refine (List.mem_append.mp hmem).resolve_left fun hhere => ?_
    obtain ⟨e'', chunk'', -, hfile, -, heq⟩ := (mem_fileSlots h).mp hhere
    obtain ⟨rfl, -⟩ := Prod.mk.inj heq
    exact hread.inOrder h hfirst hmin hcross ⟨chunk', hlive'⟩ hmeets'.1 hfile
  · exact fun x hx y hy hnot hnot' => hread.one_more x (List.mem_append_right _ hx) y (List.mem_append_right _ hy)
      (hmeets x hx hnot) (hmeets y hy hnot')
  · exact fun x hx hnot => hread.near x (List.mem_append_right _ hx) (hmeets x hx hnot)

lemma isLive_fileSlots (h : Slotted live held) (hcross : border e + e % dataChunkSize < stop)
    (hfits : FitsFile live held stop e) (hx : x ∈ readSlots held (slotNumber e) (groupSlots - slot (e - dataChunkSize))) :
    ∃ chunk, live.lookup x.1 = some chunk ∧ x.2 = chunk.1 := by
  obtain ⟨e', chunk', hheld, hfile, hlo, rfl⟩ := (mem_fileSlots h).mp hx
  refine ⟨chunk', h.lookup_live hheld ?_, rfl⟩
  by_contra hcut
  have := hfits.uncut e' chunk' hheld hcut hfile hlo
  simp only [border, lastSlot, slotNumber, dataChunkSize, chunkGroupSize] at *
  omega

lemma meets_fileSlots (h : Slotted live held) (hfirst : FirstIn live start e) (hcross : border e + e % dataChunkSize < stop)
    (hlive : x.1 ∈ ends live) (hx : x ∈ readSlots held (slotNumber e) (groupSlots - slot (e - dataChunkSize))) :
    Meets start stop x.1 ∧ x.1 - dataChunkSize < border e := by
  obtain ⟨e', chunk', -, hfile, hlo, rfl⟩ := (mem_fileSlots h).mp hx
  have hle := (h.slotNumber_le_iff hfirst.1 hlive).mp hlo
  have hdist : 0 ≤ e % dataChunkSize := Int.emod_nonneg _ (by decide)
  have hbefore := sub_lt_border e'
  rw [hfile] at hbefore
  exact ⟨⟨hfirst.2.1.trans_le hle, by dsimp only; omega⟩, hbefore⟩

lemma rangeRead_next_of_fits (h : Slotted live held) (hfirst : FirstIn live start e)
    (hmin : ∀ e' ∈ ends live, start < e' → e ≤ e') (hcross : border e + e % dataChunkSize < stop)
    (hfits : FitsFile live held stop e)
    (hread : RangeRead live (border e + e % dataChunkSize) stop (rangeOf live held (border e + e % dataChunkSize) stop)) :
    RangeRead live start stop (readSlots held (slotNumber e) (groupSlots - slot (e - dataChunkSize)) ++
      rangeOf live held (border e + e % dataChunkSize) stop) := by
  have hdist : 0 ≤ e % dataChunkSize := Int.emod_nonneg _ (by decide)
  have hstart : start < border e + e % dataChunkSize := hfirst.2.1.trans_le (le_border_add e)
  have hbehind : ∀ x ∈ rangeOf live held (border e + e % dataChunkSize) stop, border e ≤ x.1 - dataChunkSize := by
    intro x hx
    obtain ⟨c, hlive, -⟩ := hread.isLive x hx
    have hlt := lt_of_mem_rangeOf h hx ⟨c, hlive⟩
    refine border_le (hmin x.1 ⟨c, hlive⟩ (hstart.trans hlt)) fun hfile => ?_
    have := hfits.inOrder x.1 ⟨c, hlive⟩ hfile hlt
    omega
  have hother : ∀ x ∈ readSlots held (slotNumber e) (groupSlots - slot (e - dataChunkSize)) ++
      rangeOf live held (border e + e % dataChunkSize) stop, ¬ Meets start stop x.1 →
      x ∈ rangeOf live held (border e + e % dataChunkSize) stop ∧ ¬ Meets (border e + e % dataChunkSize) stop x.1 := by
    intro x hx hnot
    obtain hx | hx := List.mem_append.mp hx
    · obtain ⟨c, hlive, -⟩ := isLive_fileSlots h hcross hfits hx
      exact absurd (meets_fileSlots h hfirst hcross ⟨c, hlive⟩ hx).1 hnot
    · exact ⟨hx, fun hmeets' => hnot ⟨hstart.trans hmeets'.1, hmeets'.2⟩⟩
  refine ⟨List.pairwise_append.mpr ⟨readSlots_sorted h, hread.ascending, fun x hx y hy => ?_⟩, fun x hx => ?_,
    fun e' chunk' hlive' hmeets' => ?_, fun x hx y hy hnot hnot' => ?_, fun x hx hnot => ?_⟩
  · obtain ⟨c, hlive, -⟩ := isLive_fileSlots h hcross hfits hx
    have := (meets_fileSlots h hfirst hcross ⟨c, hlive⟩ hx).2
    have := hbehind y hy
    omega
  · exact (List.mem_append.mp hx).elim (isLive_fileSlots h hcross hfits) (hread.isLive x)
  · by_cases hfile : border e' = border e
    · have hlo := (h.slotNumber_le_iff hfirst.1 ⟨chunk', hlive'⟩).mpr (hmin e' ⟨chunk', hlive'⟩ hmeets'.1)
      exact List.mem_append_left _ ((mem_fileSlots h).mpr ⟨e', chunk', h.live_held e' chunk' hlive', hfile, hlo, rfl⟩)
    · have := border_le (hmin e' ⟨chunk', hlive'⟩ hmeets'.1) hfile
      have hsmall : e % dataChunkSize < dataChunkSize := Int.emod_lt_of_pos _ (by decide)
      exact List.mem_append_right _ (hread.complete e' chunk' hlive' ⟨by omega, hmeets'.2⟩)
  · obtain ⟨hx', hnotx⟩ := hother x hx hnot
    obtain ⟨hy', hnoty⟩ := hother y hy hnot'
    exact hread.one_more x hx' y hy' hnotx hnoty
  · obtain ⟨hx', hnotx⟩ := hother x hx hnot
    exact hread.near x hx' hnotx

lemma rangeRead_next_iff (h : Slotted live held) (hfirst : FirstIn live start e)
    (hmin : ∀ e' ∈ ends live, start < e' → e ≤ e') (hcross : border e + e % dataChunkSize < stop) :
    RangeRead live start stop (readSlots held (slotNumber e) (groupSlots - slot (e - dataChunkSize)) ++
        rangeOf live held (border e + e % dataChunkSize) stop) ↔
      FitsFile live held stop e ∧
        RangeRead live (border e + e % dataChunkSize) stop (rangeOf live held (border e + e % dataChunkSize) stop) :=
  ⟨fun hread => ⟨fitsFile_of_rangeRead_next h hfirst hmin hcross hread, hread.rest h hfirst hmin hcross⟩,
    fun ⟨hfits, hread⟩ => rangeRead_next_of_fits h hfirst hmin hcross hfits hread⟩

lemma rangeRead_nil_iff (hnone : ∀ e ∈ ends live, start < e → stop ≤ e - dataChunkSize) :
    RangeRead live start stop [] ↔ Fits live held start stop := by
  refine iff_of_true ⟨List.Pairwise.nil, ?_, fun e chunk hlive hmeets => ?_, ?_, ?_⟩ fun e ⟨hlive, hlt, _⟩ =>
    fitsFile_of_le (hnone e hlive hlt)
  · exact fun x hx => absurd hx List.not_mem_nil
  · exact absurd hmeets.2 (not_lt.mpr (hnone e ⟨chunk, hlive⟩ hmeets.1))
  · exact fun x hx => absurd hx List.not_mem_nil
  · exact fun x hx => absurd hx List.not_mem_nil

lemma rangeRead_iff (h : Slotted live held) : RangeRead live start stop (rangeOf live held start stop) ↔ Fits live held start stop := by
  fun_induction rangeOf live held start stop with
  | case1 start hnone =>
    refine rangeRead_nil_iff fun e ⟨chunk, hlive⟩ hlt => ?_
    have : e ≤ start := SortedMap.le_of_next_eq_none hnone (SortedMap.lookup_eq_some.mp hlive)
    omega
  | case2 start e chunk hnext hlt hcross ih =>
    have hmin : ∀ e' ∈ ends live, start < e' → e ≤ e' := fun e' => le_of_next hnext
    rw [rangeRead_next_iff h (firstIn_next hnext) hmin hcross, ih, fits_next_iff (firstIn_next hnext) hmin hcross]
  | case3 start e chunk hnext hlt hstay =>
    exact rangeRead_last_iff h (firstIn_next hnext) (fun e' => le_of_next hnext) hlt (not_lt.mp hstay)
  | case4 start e chunk hnext hge =>
    refine rangeRead_nil_iff fun e' he' hlt => ?_
    have := le_of_next hnext he' hlt
    omega

lemma getRange_run {ops : List Op} (hallowed : Along (fun live op => some (Op.onChunks live op)) Allowed SortedMap.empty ops)
    {start size : Int} (hsize : 0 < size) :
    Slotted (ops.foldl Op.onChunks SortedMap.empty) (ops.foldl Op.onSlots SortedMap.empty) ∧
      getRange (ops.foldl Op.onStore {}) start size = some (rangeOf (ops.foldl Op.onChunks SortedMap.empty)
        (ops.foldl Op.onSlots SortedMap.empty) start (start + size)) := by
  have h := stored_empty.run hallowed
  have hread := h.getRange_eq (show start < start + size by omega)
  rw [add_sub_cancel_left] at hread
  exact ⟨⟨h.represents.tiled.apart, h.holds.wellFormed, h.live_held⟩, hread⟩

/-- Whatever chunks were put, deleted and cut, a read of a range returns the live chunks of the range in their order, and
at most one more, exactly when the first chunks of the files fit. -/
theorem getRange_live_chunks_iff (ops : List Op)
    (hallowed : Along (fun live op => some (Op.onChunks live op)) Allowed SortedMap.empty ops) (start size : Int)
    (hsize : 0 < size) :
    (∃ result, getRange (ops.foldl Op.onStore {}) start size = some result ∧
      RangeRead (ops.foldl Op.onChunks SortedMap.empty) start (start + size) result) ↔
      Fits (ops.foldl Op.onChunks SortedMap.empty) (ops.foldl Op.onSlots SortedMap.empty) start (start + size) := by
  obtain ⟨hslotted, hread⟩ := getRange_run hallowed hsize
  rw [hread, ← rangeRead_iff hslotted]
  exact ⟨fun ⟨result, heq, hresult⟩ => Option.some.inj heq ▸ hresult, fun hresult => ⟨_, rfl, hresult⟩⟩

/-- Chunks with different alignments, one of them deleted and its slot taken again. -/
theorem getRange_live_chunks_sample :
    let ops := [Op.put 600000 (by decide) (sampleChunk 1), .put 862144 (by decide) (sampleChunk 2), .delete 862144,
      .put 900000 (by decide) (sampleChunk 3), .put 1200000 (by decide) (sampleChunk 4)]
    ∃ result, getRange (ops.foldl Op.onStore {}) 400000 600000 = some result ∧
      RangeRead (ops.foldl Op.onChunks SortedMap.empty) 400000 (400000 + 600000) result := by
  intro ops
  have hcheck : checkAlong (fun live op => some (Op.onChunks live op)) (fun live op => decide (Allowed live op))
      SortedMap.empty ops = true := by decide
  have hallowed : Along (fun live op => some (Op.onChunks live op)) Allowed SortedMap.empty ops :=
    along_of_checkAlong (fun live op h => of_decide_eq_true h) hcheck
  exact (getRange_live_chunks_iff ops hallowed 400000 600000 (by decide)).mpr (by decide)

/-- Reads of ranges that miss their purpose: one returns a chunk that was cut, one leaves out the chunk that begins in
its last slot, and one returns the chunk at a border twice. -/
theorem getRange_misses_purpose :
    let cutOps := [Op.put 262144 (by decide) (sampleChunk 1), .put 524288 (by decide) (sampleChunk 2), .cut 262144]
    let lastOps := [Op.put 262151 (by decide) (sampleChunk 1), .put 786435 (by decide) (sampleChunk 2)]
    let borderOps := [Op.put 2096889859 (by decide) (sampleChunk 1), .put 2097152007 (by decide) (sampleChunk 2)]
    let cutRead := [(262144, (sampleChunk 1).1), (524288, (sampleChunk 2).1)]
    let lastRead := [(262151, (sampleChunk 1).1)]
    let borderRead := [(2096889859, (sampleChunk 1).1), (2097152007, (sampleChunk 2).1), (2097152007, (sampleChunk 2).1)]
    (getRange (cutOps.foldl Op.onStore {}) 0 524288 = some cutRead ∧
      ¬ RangeRead (cutOps.foldl Op.onChunks SortedMap.empty) 0 (0 + 524288) cutRead) ∧
    (getRange (lastOps.foldl Op.onStore {}) 0 524293 = some lastRead ∧
      ¬ RangeRead (lastOps.foldl Op.onChunks SortedMap.empty) 0 (0 + 524293) lastRead) ∧
    (getRange (borderOps.foldl Op.onStore {}) 2096627712 524388 = some borderRead ∧
      ¬ RangeRead (borderOps.foldl Op.onChunks SortedMap.empty) 2096627712 (2096627712 + 524388) borderRead) ∧
    ∀ ops, ops = cutOps ∨ ops = lastOps ∨ ops = borderOps →
      Along (fun live op => some (Op.onChunks live op)) Allowed SortedMap.empty ops := by
  intro cutOps lastOps borderOps cutRead lastRead borderRead
  have hallowed : ∀ ops, ops = cutOps ∨ ops = lastOps ∨ ops = borderOps →
      Along (fun live op => some (Op.onChunks live op)) Allowed SortedMap.empty ops := by
    intro ops hops
    refine along_of_checkAlong (c := fun live op => decide (Allowed live op)) (fun live op h => of_decide_eq_true h) ?_
    obtain rfl | rfl | rfl := hops
    · decide
    · decide
    · decide
  refine ⟨⟨?_, fun hread => ?_⟩, ⟨?_, fun hread => ?_⟩, ⟨?_, fun hread => ?_⟩, hallowed⟩
  · rw [(getRange_run (hallowed cutOps (Or.inl rfl)) (by decide)).2, rangeOf_next (e := 262144) (by rfl), if_pos (by decide),
      if_neg (by decide)]
    rfl
  · -- the second chunk was cut
    obtain ⟨chunk, hlive, -⟩ := hread.isLive (524288, (sampleChunk 2).1) (by simp [cutRead])
    cases hlive
  · rw [(getRange_run (hallowed lastOps (Or.inr (Or.inl rfl))) (by decide)).2, rangeOf_next (e := 262151) (by rfl), if_pos (by decide),
      if_neg (by decide)]
    rfl
  · -- the second chunk begins at 524291
    have hmem := hread.complete 786435 (sampleChunk 2) (by rfl) ⟨by decide, by decide⟩
    simp [lastRead] at hmem
  · rw [(getRange_run (hallowed borderOps (Or.inr (Or.inr rfl))) (by decide)).2, rangeOf_next (e := 2096889859) (by rfl),
      if_pos (by decide), if_pos (by decide), rangeOf_next (e := 2097152007) (by rfl), if_pos (by decide),
      if_pos (by decide), rangeOf]
    rfl
  · -- the slot behind the border is counted from the first chunk of each file
    have hascending := hread.ascending
    simp [borderRead] at hascending

end Exactly

end Arweave.ChunkStorage

import Arweave.Constants
import Arweave.Lib.Files
import Arweave.Lib.Runs
import Arweave.SyncRecord.Records

/-!
# Chunk storage

A chunk of 256 KiB is stored in the file of the group that it begins in, in the slot between the
multiples of 256 KiB that it begins in, behind three bytes with its distance from the slot's border.
A sync record holds the intervals of the stored chunks. To find a byte, its interval is looked up;
as the chunks of an interval follow one another, the interval gives the start of the chunk and
with it the file and the slot.
-/

namespace Arweave.ChunkStorage

open Lib Intervals EtsIntervals SyncRecord IntervalStore

def chunkGroupSize : Nat := 262144 * 8000

/-- The size of the distance in a slot. -/
def offsetSize : Nat := 3

abbrev Chunk := {b : Bytes // b.length = dataChunkSize}

/-- `ar_util:floor_int/2`. -/
def floorInt (value nearest : Int) : Int := value - value.tmod nearest

/-- The files of the store by their names, which are the keys, the keys that are known and the table
of the sync record. -/
structure State where
  files : SortedMap Int Bytes := SortedMap.empty
  fileIndex : OrdSet Int := OrdSet.empty
  record : SyncTable := SyncTable.new

def getKey (offset : Int) : Int := floorInt (offset - dataChunkSize) chunkGroupSize

/-- The position of a slot in its file. -/
def slotPosition (leftChunkBorder key : Int) : Nat :=
  let relativeOffset := leftChunkBorder - key
  (relativeOffset + offsetSize * relativeOffset.tdiv dataChunkSize).toNat

/-- Zero is stored as the chunk size, as a slot of zeros is one that was not written. -/
def chunkOffsetBinary (chunkOffset : Int) : Bytes :=
  if chunkOffset = 0 then Bytes.ofNat offsetSize dataChunkSize else Bytes.ofNat offsetSize (chunkOffset % 2 ^ 24).toNat

/-- The file after a write, which creates it. -/
def State.writeFile (st : State) (key : Int) (position : Nat) (data : Bytes) : SortedMap Int Bytes :=
  st.files.insert key (File.pwrite ((st.files.lookup key).getD []) position data)

def storeChunk (st : State) (key offset : Int) (chunk : Chunk) : SortedMap Int Bytes :=
  let startOffset := offset - dataChunkSize
  let leftChunkBorder := floorInt startOffset dataChunkSize
  let chunkOffset := startOffset - leftChunkBorder
  st.writeFile key (slotPosition leftChunkBorder key) (chunkOffsetBinary chunkOffset ++ chunk.1)

lemma sub_dataChunkSize_lt (offset : Int) : offset - dataChunkSize < offset := by
  have : (0 : Int) < dataChunkSize := by decide
  omega

def put (st : State) (offset : Int) (chunk : Chunk) : State :=
  let key := getKey offset
  { files := storeChunk st key offset chunk
    fileIndex := st.fileIndex.add key
    record := st.record.update (.add offset (offset - dataChunkSize) (sub_dataChunkSize_lt offset)) }

def zeroChunk : Bytes := Bytes.ofNat offsetSize 0 ++ List.replicate dataChunkSize 0

def deleteChunk (st : State) (offset key : Int) : SortedMap Int Bytes :=
  let startOffset := offset - dataChunkSize
  let leftChunkBorder := floorInt startOffset dataChunkSize
  st.writeFile key (slotPosition leftChunkBorder key) zeroChunk

def delete (st : State) (offset : Int) : State :=
  { st with
    files := deleteChunk st offset (getKey offset)
    record := st.record.update (.delete offset (offset - dataChunkSize) (sub_dataChunkSize_lt offset)) }

/-- Soft-deletes everything above the offset. -/
def cut (st : State) (offset : Int) : State := { st with record := st.record.update (.cut offset) }

def isOffsetValid (byte leftChunkBorder : Int) (chunkOffset : Nat) : Bool :=
  if chunkOffset = 0 then false
  else
    let diff := byte - (leftChunkBorder + (chunkOffset : Int).tmod dataChunkSize)
    diff ≥ 0 ∧ diff < dataChunkSize

/-- The chunks of a sequence of slots. A piece that is no slot matches no clause. -/
def splitBinary (bin : Bytes) (leftChunkBorder : Int) (n : Nat) : Option (List (Int × Bytes)) :=
  if bin = [] then some []
  else if bin.length < offsetSize + dataChunkSize then none
  else
    let chunkOffset := Bytes.toNat (bin.take offsetSize)
    let chunk := (bin.drop offsetSize).take dataChunkSize
    let rest := bin.drop (offsetSize + dataChunkSize)
    if chunkOffset = 0 then splitBinary rest leftChunkBorder (n + 1)
    else do
      let endOffset := leftChunkBorder + (chunkOffset : Int).tmod dataChunkSize + dataChunkSize * n
      pure ((endOffset, chunk) :: (← splitBinary rest leftChunkBorder (n + 1)))
termination_by bin.length
decreasing_by
  all_goals
    have hpos : 0 < offsetSize + dataChunkSize := by decide
    rw [List.length_drop]
    omega

/-- The read of a file. What is read is matched against three bytes and a rest. -/
def readChunk (byte start key : Int) (file : Bytes) (chunkCount : Nat) : Option (List (Int × Bytes)) :=
  let leftChunkBorder := floorInt start dataChunkSize
  let relativeOffset := leftChunkBorder - key
  let position := (relativeOffset + (offsetSize * relativeOffset).tdiv dataChunkSize).toNat
  match File.pread file position ((dataChunkSize + offsetSize) * chunkCount) with
  | none => some []
  | some bin =>
    if bin.length < offsetSize then none
    else if isOffsetValid byte leftChunkBorder (Bytes.toNat (bin.take offsetSize)) then
      splitBinary bin leftChunkBorder 1
    else some []

def getChunks (st : State) (byte start key : Int) (chunkCount : Nat) : Option (List (Int × Bytes)) :=
  if key ∈ st.fileIndex then
    match st.files.lookup key with
    | none => some []
    | some file => readChunk byte start key file chunkCount
  else some []

/-- The chunk with the byte, when there is one. The outer `none` is a failed match. -/
def get (st : State) (byte : Int) : Option (Option (Int × Bytes)) :=
  match getIntervalWithByte st.record.table (byte + 1) with
  | none => some none
  | some (_, intervalStart) =>
    let start := byte - (byte - intervalStart).tmod dataChunkSize
    let leftBorder := floorInt start chunkGroupSize
    match getChunks st byte start leftBorder 1 with
    | some [] => some none
    | some [(endOffset, chunk)] => some (some (endOffset, chunk))
    | _ => none

section Slots

variable {start start' : Int} {byte : Int}

/-- The number of the slot of a chunk in its file. -/
def slot (start : Int) : Nat := (start % chunkGroupSize / dataChunkSize).toNat

/-- What a slot holds of a chunk that begins at the offset. -/
def slotData (start : Int) (chunk : Bytes) : Bytes :=
  chunkOffsetBinary (start - floorInt start dataChunkSize) ++ chunk

lemma floorInt_of_nonneg {nearest : Int} (h : 0 ≤ start) : floorInt start nearest = start - start % nearest := by
  rw [floorInt, Int.tmod_eq_emod_of_nonneg h]

lemma slotPosition_eq (h : 0 ≤ start) :
    slotPosition (floorInt start dataChunkSize) (floorInt start chunkGroupSize) =
      slot start * (offsetSize + dataChunkSize) := by
  simp only [slotPosition, floorInt_of_nonneg h, dataChunkSize, chunkGroupSize, slot, offsetSize]
  rw [Int.tdiv_eq_ediv_of_nonneg (by omega)]
  omega

lemma readPosition_eq (h : 0 ≤ start) :
    ((floorInt start dataChunkSize - floorInt start chunkGroupSize) +
      (offsetSize * (floorInt start dataChunkSize - floorInt start chunkGroupSize)).tdiv dataChunkSize).toNat =
      slot start * (offsetSize + dataChunkSize) := by
  simp only [floorInt_of_nonneg h, dataChunkSize, chunkGroupSize, slot, offsetSize]
  rw [Int.tdiv_eq_ediv_of_nonneg (by omega)]
  omega

lemma slot_lt (h : 0 ≤ start) (hfile : floorInt start chunkGroupSize = floorInt start' chunkGroupSize)
    (hapart : start + dataChunkSize ≤ start') : slot start < slot start' := by
  have h' : 0 ≤ start' := by
    have : (0 : Int) ≤ dataChunkSize := by decide
    omega
  rw [floorInt_of_nonneg h, floorInt_of_nonneg h'] at hfile
  simp only [slot, dataChunkSize, chunkGroupSize] at *
  omega

lemma length_chunkOffsetBinary (chunkOffset : Int) : (chunkOffsetBinary chunkOffset).length = offsetSize := by
  rw [chunkOffsetBinary]
  split_ifs <;> simp

lemma toNat_chunkOffsetBinary {chunkOffset : Int} (h0 : 0 ≤ chunkOffset) (hlt : chunkOffset < dataChunkSize) :
    Bytes.toNat (chunkOffsetBinary chunkOffset) ≠ 0 ∧
      (Bytes.toNat (chunkOffsetBinary chunkOffset) : Int).tmod dataChunkSize = chunkOffset := by
  rw [chunkOffsetBinary]
  split_ifs with hzero
  · rw [Bytes.toNat_ofNat_of_lt (by decide), hzero]
    decide
  · simp only [dataChunkSize] at hlt ⊢
    rw [Bytes.toNat_ofNat_of_lt (by simp only [offsetSize]; omega), Int.tmod_eq_emod_of_nonneg (by omega)]
    omega

lemma length_slotData (start : Int) (chunk : Chunk) : (slotData start chunk.1).length = offsetSize + dataChunkSize := by
  rw [slotData, List.length_append, length_chunkOffsetBinary, chunk.2]

lemma slotData_ne_nil (chunk : Chunk) : slotData start chunk.1 ≠ [] := by
  intro hnil
  have hlen := length_slotData start chunk
  rw [hnil] at hlen
  exact absurd hlen (by decide)

lemma sub_floorInt (h : 0 ≤ start) :
    0 ≤ start - floorInt start dataChunkSize ∧ start - floorInt start dataChunkSize < dataChunkSize := by
  rw [floorInt_of_nonneg h]
  simp only [dataChunkSize]
  omega

lemma take_slotData (start : Int) (chunk : Bytes) :
    (slotData start chunk).take offsetSize = chunkOffsetBinary (start - floorInt start dataChunkSize) :=
  List.take_left' (length_chunkOffsetBinary _)

lemma drop_slotData (start : Int) (chunk : Bytes) : (slotData start chunk).drop offsetSize = chunk :=
  List.drop_left' (length_chunkOffsetBinary _)

lemma isOffsetValid_slot (h : 0 ≤ start) (hstart : start ≤ byte) (hend : byte < start + dataChunkSize) :
    isOffsetValid byte (floorInt start dataChunkSize)
      (Bytes.toNat (chunkOffsetBinary (start - floorInt start dataChunkSize))) = true := by
  obtain ⟨hne, hmod⟩ := toNat_chunkOffsetBinary (sub_floorInt h).1 (sub_floorInt h).2
  rw [isOffsetValid, if_neg hne, hmod]
  simp only [decide_eq_true_eq]
  omega

lemma readChunk_eq {file : Bytes} {chunk : Chunk} (h : 0 ≤ start)
    (hfile : File.Contains file (slot start * (offsetSize + dataChunkSize)) (slotData start chunk.1))
    (hstart : start ≤ byte) (hend : byte < start + dataChunkSize) :
    readChunk byte start (floorInt start chunkGroupSize) file 1 = some [(start + dataChunkSize, chunk.1)] := by
  have hread := hfile.pread (slotData_ne_nil chunk)
  have hlen := length_slotData start chunk
  obtain ⟨hne, hmod⟩ := toNat_chunkOffsetBinary (sub_floorInt h).1 (sub_floorInt h).2
  have hdrop : ((slotData start chunk.1).drop offsetSize).take dataChunkSize = chunk.1 := by
    rw [drop_slotData, List.take_of_length_le (by rw [chunk.2])]
  have hrest : (slotData start chunk.1).drop (offsetSize + dataChunkSize) = [] :=
    List.drop_eq_nil_of_le hlen.le
  have hvalid := isOffsetValid_slot h hstart hend
  have hsplit : splitBinary (slotData start chunk.1) (floorInt start dataChunkSize) 1 =
      some [(start + dataChunkSize, chunk.1)] := by
    rw [splitBinary, if_neg (slotData_ne_nil chunk), if_neg (by omega), take_slotData, hdrop, hrest, if_neg hne, hmod,
      splitBinary, if_pos rfl]
    simp only [Option.pure_def, Option.bind_eq_bind, Option.bind_some, Option.some.injEq, List.cons.injEq,
      Prod.mk.injEq, and_true]
    omega
  rw [hlen, Nat.add_comm] at hread
  simp only [readChunk, readPosition_eq h, Nat.mul_one, Nat.add_comm offsetSize] at hread ⊢
  rw [hread]
  simp only [take_slotData, hvalid, if_true, hsplit]
  rw [if_neg (by omega)]

end Slots

/-- What the storage is for: the live chunks by their end offsets. -/
abbrev Chunks := SortedMap Int Chunk

/-- The bytes of a chunk are bytes of the weave, so that its end is at least its size. -/
inductive Op
  | put (offset : Int) (hle : dataChunkSize ≤ offset) (chunk : Chunk)
  | delete (offset : Int)
  | cut (offset : Int)

def Op.onStore (st : State) : Op → State
  | .put offset _ chunk => ChunkStorage.put st offset chunk
  | .delete offset => ChunkStorage.delete st offset
  | .cut offset => ChunkStorage.cut st offset

def Op.onChunks (live : Chunks) : Op → Chunks
  | .put offset _ chunk => live.insert offset chunk
  | .delete offset => live.erase offset
  | .cut offset => live.filterKeys (· ≤ offset)

/-- A chunk that is put overlaps no other live chunk, a chunk that is deleted is live, and a cut is
not inside a live chunk. -/
def Allowed (live : Chunks) : Op → Prop
  | .put offset _ _ => ∀ e chunk, live.lookup e = some chunk → e ≠ offset →
      e + dataChunkSize ≤ offset ∨ offset + dataChunkSize ≤ e
  | .delete offset => ∃ chunk, live.lookup offset = some chunk
  | .cut offset => ∀ e chunk, live.lookup e = some chunk → e ≤ offset ∨ offset ≤ e - dataChunkSize

instance (live : Chunks) (op : Op) : Decidable (Allowed live op) :=
  match op with
  | .put offset _ _ =>
    decidable_of_iff (∀ p ∈ live.entries, p.1 ≠ offset → p.1 + dataChunkSize ≤ offset ∨ offset + dataChunkSize ≤ p.1)
      (by simp only [Allowed, SortedMap.lookup_eq_some, Prod.forall])
  | .delete offset =>
    decidable_of_iff ((live.lookup offset).isSome = true) (by simp only [Allowed, Option.isSome_iff_exists])
  | .cut offset =>
    decidable_of_iff (∀ p ∈ live.entries, p.1 ≤ offset ∨ offset ≤ p.1 - dataChunkSize)
      (by simp only [Allowed, SortedMap.lookup_eq_some, Prod.forall])

/-- The byte is in the chunk with the given end. -/
def Covers (e byte : Int) : Prop := e - dataChunkSize ≤ byte ∧ byte < e

instance (e byte : Int) : Decidable (Covers e byte) := inferInstanceAs (Decidable (_ ∧ _))

section Refinement

variable {st : State} {live : Chunks} {e e' offset byte : Int} {chunk : Chunk} {op : Op} {ops : List Op}

/-- The end offsets of the live chunks. -/
def ends (live : Chunks) : Set Int := {e | ∃ chunk, live.lookup e = some chunk}

/-- The chunk is in its slot. -/
def InSlot (st : State) (e : Int) (chunk : Chunk) : Prop :=
  getKey e ∈ st.fileIndex ∧ ∃ file, st.files.lookup (getKey e) = some file ∧
    File.Contains file (slot (e - dataChunkSize) * (offsetSize + dataChunkSize)) (slotData (e - dataChunkSize) chunk.1)

/-- The record holds the bytes of the live chunks, and every live chunk is in its slot. -/
structure Represents (st : State) (live : Chunks) : Prop where
  tiled : Tiled (ends live) dataChunkSize (EtsIntervals.family st.record.table)
  le : ∀ e chunk, live.lookup e = some chunk → dataChunkSize ≤ e
  inSlot : ∀ e chunk, live.lookup e = some chunk → InSlot st e chunk

lemma Represents.get_eq_some (h : Represents st live) (hlive : live.lookup e = some chunk) (hbyte : Covers e byte) :
    get st byte = some (some (e, chunk.1)) := by
  have hsize : (0 : Int) < dataChunkSize := by decide
  obtain ⟨hstart, hend⟩ := hbyte
  have hmem : byte + 1 ∈ points (EtsIntervals.family st.record.table) := by
    rw [h.tiled.points_eq]
    exact ⟨e, ⟨chunk, hlive⟩, by omega, by omega⟩
  obtain ⟨a, ha, hlo, hhi⟩ := hmem
  have hinterval : getIntervalWithByte st.record.table (byte + 1) = some a :=
    (getIntervalWithByte_eq_some st.record.separated).mpr ⟨ha, hlo, hhi⟩
  have hle : e ≤ a.1 := h.tiled.le_fst st.record.separated ha ⟨chunk, hlive⟩ ⟨by omega, by omega⟩ ⟨hlo, hhi⟩
  obtain ⟨k, hk⟩ := h.tiled.dvd_sub st.record.separated hsize ha ⟨chunk, hlive⟩ (by omega) hle
  -- the interval is in phase with its chunks
  have hphase : byte - (byte - a.2).tmod dataChunkSize = e - dataChunkSize := by
    rw [Int.tmod_eq_emod_of_nonneg (by omega)]
    simp only [dataChunkSize] at *
    omega
  obtain ⟨hkey, file, hfile, hslot⟩ := h.inSlot e chunk hlive
  have hnonneg : 0 ≤ e - dataChunkSize := sub_nonneg.mpr (h.le e chunk hlive)
  rw [getKey] at hkey hfile
  simp only [get, hinterval, hphase, getChunks, if_pos hkey, hfile, readChunk_eq hnonneg hslot hstart (by omega),
    Int.sub_add_cancel]

lemma Represents.get_eq_none (h : Represents st live)
    (hnone : ∀ e chunk, live.lookup e = some chunk → ¬ Covers e byte) : get st byte = some none := by
  have hnot : byte + 1 ∉ points (EtsIntervals.family st.record.table) := by
    rw [h.tiled.points_eq]
    rintro ⟨e, ⟨chunk, hlive⟩, hlo, hhi⟩
    exact hnone e chunk hlive ⟨by omega, by omega⟩
  rw [get, (getIntervalWithByte_eq_none st.record.separated).mpr hnot]

lemma InSlot.writeFile {record : SyncTable} {keys : OrdSet Int} {data : Bytes} (h : InSlot st e chunk)
    (hle : dataChunkSize ≤ e) (hle' : dataChunkSize ≤ e') (hapart : e + dataChunkSize ≤ e' ∨ e' + dataChunkSize ≤ e)
    (hdata : data.length = offsetSize + dataChunkSize) (hkeys : ∀ key ∈ st.fileIndex, key ∈ keys) :
    InSlot ⟨st.writeFile (getKey e')
      (slotPosition (floorInt (e' - dataChunkSize) dataChunkSize) (getKey e')) data, keys, record⟩ e chunk := by
  obtain ⟨hkey, file, hfile, hslot⟩ := h
  refine ⟨hkeys _ hkey, ?_⟩
  simp only [State.writeFile, SortedMap.lookup_insert]
  split_ifs with hsame
  · refine ⟨_, rfl, ?_⟩
    rw [← hsame, hfile, Option.getD_some, hsame, getKey, slotPosition_eq (by omega)]
    refine hslot.pwrite (slotData_ne_nil chunk) ?_
    rw [length_slotData, hdata, ← Nat.succ_mul, ← Nat.succ_mul]
    obtain hbefore | hafter := hapart
    · exact Or.inl (Nat.mul_le_mul_right _ (slot_lt (by omega) hsame (by omega)))
    · exact Or.inr (Nat.mul_le_mul_right _ (slot_lt (by omega) hsame.symm (by omega)))
  · exact ⟨file, hfile, hslot⟩

lemma Represents.mem_bytes (h : Represents st live) {x : Int} :
    x ∈ bytes st.record ↔ ∃ e ∈ ends live, e - dataChunkSize < x ∧ x ≤ e := by
  have hx : x ∈ bytes st.record ↔ x ∈ points (EtsIntervals.family st.record.table) := Iff.rfl
  rw [hx, h.tiled.points_eq]
  rfl

lemma Represents.put (h : Represents st live) (hle : dataChunkSize ≤ offset)
    (hallowed : Allowed live (.put offset hle chunk)) :
    Represents (put st offset chunk) (live.insert offset chunk) where
  tiled := by
    constructor
    · rintro n ⟨c, hn⟩ m ⟨d, hm⟩ hlt
      rw [SortedMap.lookup_insert] at hn hm
      split_ifs at hn hm with hn' hm' hm'
      · omega
      · subst hn'
        have := hallowed m d hm (by omega)
        omega
      · subst hm'
        have := hallowed n c hn (by omega)
        omega
      · exact h.tiled.apart n ⟨c, hn⟩ m ⟨d, hm⟩ hlt
    · ext x
      change x ∈ bytes (update st.record _) ↔ _
      rw [mem_bytes_add, h.mem_bytes]
      constructor
      · rintro (hx | ⟨e, ⟨c, he⟩, hx⟩)
        · exact ⟨offset, ⟨chunk, by rw [SortedMap.lookup_insert, if_pos rfl]⟩, hx⟩
        · by_cases heq : e = offset
          · exact ⟨e, ⟨chunk, by rw [SortedMap.lookup_insert, if_pos heq]⟩, hx⟩
          · exact ⟨e, ⟨c, by rw [SortedMap.lookup_insert, if_neg heq, he]⟩, hx⟩
      · rintro ⟨e, ⟨c, he⟩, hx⟩
        rw [SortedMap.lookup_insert] at he
        split_ifs at he with heq
        · subst heq
          exact Or.inl hx
        · exact Or.inr ⟨e, ⟨c, he⟩, hx⟩
  le e c he := by
    rw [SortedMap.lookup_insert] at he
    split_ifs at he with heq
    · exact heq ▸ hle
    · exact h.le e c he
  inSlot e c he := by
    rw [SortedMap.lookup_insert] at he
    split_ifs at he with heq
    · cases he
      subst heq
      refine ⟨OrdSet.mem_add.mpr (Or.inl rfl), _, by rw [ChunkStorage.put, storeChunk, State.writeFile,
        SortedMap.lookup_insert, if_pos rfl], ?_⟩
      rw [getKey, slotPosition_eq (by omega)]
      exact File.contains_pwrite
    · have hapart := hallowed e c he heq
      exact (h.inSlot e c he).writeFile (h.le e c he) hle (by omega) (length_slotData _ chunk)
        fun key hkey => OrdSet.mem_add.mpr (Or.inr hkey)

lemma Represents.delete (h : Represents st live) (hallowed : Allowed live (.delete offset)) :
    Represents (delete st offset) (live.erase offset) where
  tiled := by
    constructor
    · rintro n ⟨c, hn⟩ m ⟨d, hm⟩ hlt
      rw [SortedMap.lookup_erase] at hn hm
      split_ifs at hn hm
      exact h.tiled.apart n ⟨c, hn⟩ m ⟨d, hm⟩ hlt
    · ext x
      change x ∈ bytes (update st.record _) ↔ _
      rw [mem_bytes_delete, h.mem_bytes]
      constructor
      · rintro ⟨hnot, e, ⟨c, he⟩, hx⟩
        have hne : e ≠ offset := by
          rintro rfl
          exact hnot hx
        exact ⟨e, ⟨c, by rw [SortedMap.lookup_erase, if_neg hne, he]⟩, hx⟩
      · rintro ⟨e, ⟨c, he⟩, hx⟩
        rw [SortedMap.lookup_erase] at he
        split_ifs at he with hne
        have hx' := Set.mem_Ioc.mp hx
        refine ⟨?_, e, ⟨c, he⟩, hx⟩
        obtain hlt | hgt := lt_or_gt_of_ne hne
        · have := h.tiled.apart e ⟨c, he⟩ offset hallowed hlt
          omega
        · have := h.tiled.apart offset hallowed e ⟨c, he⟩ hgt
          omega
  le e c he := by
    rw [SortedMap.lookup_erase] at he
    split_ifs at he
    exact h.le e c he
  inSlot e c he := by
    rw [SortedMap.lookup_erase] at he
    split_ifs at he with hne
    obtain ⟨d, hoffset⟩ := hallowed
    have hapart : e + dataChunkSize ≤ offset ∨ offset + dataChunkSize ≤ e :=
      (lt_or_gt_of_ne hne).imp (h.tiled.apart e ⟨c, he⟩ offset ⟨d, hoffset⟩)
        (h.tiled.apart offset ⟨d, hoffset⟩ e ⟨c, he⟩)
    exact (h.inSlot e c he).writeFile (h.le e c he) (h.le offset d hoffset) hapart (by simp [zeroChunk])
      fun key hkey => hkey

lemma Represents.cut (h : Represents st live) (hallowed : Allowed live (.cut offset)) :
    Represents (cut st offset) (live.filterKeys (· ≤ offset)) where
  tiled := by
    constructor
    · rintro n ⟨c, hn⟩ m ⟨d, hm⟩ hlt
      rw [SortedMap.lookup_filterKeys] at hn hm
      split_ifs at hn hm
      exact h.tiled.apart n ⟨c, hn⟩ m ⟨d, hm⟩ hlt
    · ext x
      change x ∈ bytes (update st.record _) ↔ _
      rw [mem_bytes_cut, h.mem_bytes]
      constructor
      · rintro ⟨hle, e, ⟨c, he⟩, hx⟩
        have hbelow : e ≤ offset := by
          obtain hbelow | habove := hallowed e c he
          · exact hbelow
          · omega
        exact ⟨e, ⟨c, by rw [SortedMap.lookup_filterKeys, if_pos (by simpa using hbelow), he]⟩, hx⟩
      · rintro ⟨e, ⟨c, he⟩, hx⟩
        rw [SortedMap.lookup_filterKeys] at he
        split_ifs at he with hle
        have hx' := Set.mem_Ioc.mp hx
        have hle' : e ≤ offset := by simpa using hle
        exact ⟨by omega, e, ⟨c, he⟩, hx⟩
  le e c he := by
    rw [SortedMap.lookup_filterKeys] at he
    split_ifs at he
    exact h.le e c he
  inSlot e c he := by
    rw [SortedMap.lookup_filterKeys] at he
    split_ifs at he
    exact h.inSlot e c he

lemma Represents.step (h : Represents st live) (hallowed : Allowed live op) :
    Represents (op.onStore st) (op.onChunks live) := by
  cases op with
  | put offset hle chunk => exact h.put hle hallowed
  | delete offset => exact h.delete hallowed
  | cut offset => exact h.cut hallowed

lemma represents_empty : Represents {} SortedMap.empty where
  tiled := by
    constructor
    · rintro n ⟨c, hn⟩
      cases hn
    · ext x
      change x ∈ bytes (new : SyncTable) ↔ _
      rw [bytes_new]
      simp [ends]
  le e c he := by cases he
  inSlot e c he := by cases he

lemma Represents.run (h : Represents st live)
    (hallowed : Along (fun live op => some (Op.onChunks live op)) Allowed live ops) :
    Represents (ops.foldl Op.onStore st) (ops.foldl Op.onChunks live) := by
  induction ops generalizing st live with
  | nil => exact h
  | cons op ops ih =>
    obtain ⟨hfirst, hrest⟩ := along_cons.mp hallowed
    exact ih (h.step hfirst) (hrest _ rfl)

/-- Whatever chunks were put, deleted and cut, a byte of a live chunk is found with the chunk that was
put last under its end, and any other byte is not found. -/
theorem get_live_chunk (ops : List Op)
    (hallowed : Along (fun live op => some (Op.onChunks live op)) Allowed SortedMap.empty ops) (byte : Int) :
    (∀ e chunk, (ops.foldl Op.onChunks SortedMap.empty).lookup e = some chunk → Covers e byte →
      get (ops.foldl Op.onStore {}) byte = some (some (e, chunk.1))) ∧
    (get (ops.foldl Op.onStore {}) byte = some none ↔
      ∀ e chunk, (ops.foldl Op.onChunks SortedMap.empty).lookup e = some chunk → ¬ Covers e byte) := by
  have h := represents_empty.run hallowed
  refine ⟨fun e chunk hlive hbyte => h.get_eq_some hlive hbyte, fun hget e chunk hlive hbyte => ?_, h.get_eq_none⟩
  cases hget.symm.trans (h.get_eq_some hlive hbyte)

def sampleChunk (b : UInt8) : Chunk := ⟨List.replicate dataChunkSize b, List.length_replicate⟩

/-- A chunk is cut, its slot is taken by a chunk with another alignment, which is put twice, and a
neighbour is deleted. -/
theorem get_live_chunk_sample :
    let ops := [Op.put 600000 (by decide) (sampleChunk 1), .cut 300000, .put 650000 (by decide) (sampleChunk 2),
      .put 912144 (by decide) (sampleChunk 3), .put 650000 (by decide) (sampleChunk 4), .delete 912144]
    Along (fun live op => some (Op.onChunks live op)) Allowed SortedMap.empty ops ∧
      get (ops.foldl Op.onStore {}) 400000 = some (some (650000, (sampleChunk 4).1)) ∧
      (get (ops.foldl Op.onStore {}) 650000 = some none ↔
        ∀ e chunk, (ops.foldl Op.onChunks SortedMap.empty).lookup e = some chunk → ¬ Covers e 650000) := by
  intro ops
  have hcheck : checkAlong (fun live op => some (Op.onChunks live op)) (fun live op => decide (Allowed live op))
      SortedMap.empty ops = true := by decide
  have hallowed : Along (fun live op => some (Op.onChunks live op)) Allowed SortedMap.empty ops :=
    along_of_checkAlong (fun live op h => of_decide_eq_true h) hcheck
  refine ⟨hallowed, (get_live_chunk ops hallowed 400000).1 650000 (sampleChunk 4) ?_ (by decide),
    (get_live_chunk ops hallowed 650000).2⟩
  rfl

end Refinement

end Arweave.ChunkStorage

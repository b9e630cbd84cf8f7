import Arweave.ChunkStorage.Chunks

/-!
# The slots of the chunk storage

A file is a sequence of slots. A slot holds the chunk that was put into it last, also when the chunk was cut, and
nothing when the chunk was deleted. A read of a sequence of slots returns what they hold.
-/

namespace Arweave.ChunkStorage

open Lib Intervals EtsIntervals SyncRecord IntervalStore

section Held

/-- What the slots of the files hold by their numbers: chunks with their ends. -/
abbrev Slots := SortedMap Int (Int × Chunk)

/-- The number of the slot of a chunk among the slots of all files. -/
def slotNumber (e : Int) : Int := (e - dataChunkSize) / dataChunkSize

def Op.onSlots (held : Slots) : Op → Slots
  | .put offset _ chunk => held.insert (slotNumber offset) (offset, chunk)
  | .delete offset => held.erase (slotNumber offset)
  | .cut _ => held

def slotSize : Nat := offsetSize + dataChunkSize

/-- The number of slots of a file. -/
def groupSlots : Nat := 8000

def blockOf : Option (Int × Chunk) → Bytes
  | none => zeroChunk
  | some (e, chunk) => slotData (e - dataChunkSize) chunk.1

/-- The bytes of a number of slots. -/
def blocks (held : Slots) : Int → Nat → List Bytes
  | _, 0 => []
  | k, n + 1 => blockOf (held.lookup k) :: blocks held (k + 1) n

/-- The chunks in a number of slots. -/
def readSlots (held : Slots) : Int → Nat → List (Int × Bytes)
  | _, 0 => []
  | k, n + 1 => ((held.lookup k).map fun v => (v.1, v.2.1)).toList ++ readSlots held (k + 1) n

variable {held held' : Slots} {k e : Int} {n m i : Nat} {chunk : Chunk}

lemma zeroChunk_eq : zeroChunk = List.replicate slotSize 0 := by
  rw [zeroChunk, slotSize, ← List.replicate_append_replicate]
  rfl

lemma length_blockOf (v : Option (Int × Chunk)) : (blockOf v).length = slotSize := by
  cases v with
  | none => rw [blockOf, zeroChunk_eq, List.length_replicate]
  | some v => exact length_slotData _ v.2

lemma length_of_mem_blocks : ∀ b ∈ blocks held k n, b.length = slotSize := by
  induction n generalizing k with
  | zero => exact fun b hb => absurd hb List.not_mem_nil
  | succ n ih =>
    intro b hb
    obtain rfl | hb := List.mem_cons.mp hb
    · exact length_blockOf _
    · exact ih b hb

@[simp] lemma length_blocks : (blocks held k n).length = n := by
  induction n generalizing k with
  | zero => rfl
  | succ n ih => rw [blocks, List.length_cons, ih]

lemma blocks_add : blocks held k (n + m) = blocks held k n ++ blocks held (k + n) m := by
  induction n generalizing k with
  | zero => simp [blocks]
  | succ n ih =>
    have hnext : k + (n + 1 : Nat) = k + 1 + n := by
      push_cast
      ring
    rw [Nat.add_right_comm, blocks, ih, hnext]
    rfl

lemma blocks_congr (h : ∀ i, k ≤ i → i < k + n → held.lookup i = held'.lookup i) : blocks held k n = blocks held' k n := by
  induction n generalizing k with
  | zero => rfl
  | succ n ih =>
    rw [blocks, blocks, h k le_rfl (by omega), ih fun i hlo hhi => h i (by omega) (by omega)]

lemma blocks_of_none (h : ∀ i, k ≤ i → i < k + n → held.lookup i = none) :
    blocks held k n = List.replicate n (List.replicate slotSize 0) := by
  induction n generalizing k with
  | zero => rfl
  | succ n ih =>
    rw [blocks, h k le_rfl (by omega), ih fun i hlo hhi => h i (by omega) (by omega), blockOf, zeroChunk_eq,
      List.replicate_succ]

lemma drop_blocks (h : m ≤ n) : (blocks held k n).drop m = blocks held (k + m) (n - m) := by
  obtain ⟨j, rfl⟩ := Nat.exists_eq_add_of_le h
  rw [blocks_add, List.drop_left' length_blocks, Nat.add_sub_cancel_left]

lemma take_blocks : (blocks held k n).take m = blocks held k (min m n) := by
  obtain hle | hle := le_total m n
  · obtain ⟨j, rfl⟩ := Nat.exists_eq_add_of_le hle
    rw [blocks_add, List.take_left' length_blocks, Nat.min_eq_left hle]
  · rw [List.take_of_length_le (by rw [length_blocks]; exact hle), Nat.min_eq_right hle]

lemma pwrite_blocks (hnone : ∀ j, k + n ≤ j → j < k + i → held.lookup j = none)
    (hsame : ∀ j, j ≠ k + i → held'.lookup j = held.lookup j) :
    File.pwrite (blocks held k n).flatten (i * slotSize) (blockOf (held'.lookup (k + i))) =
      (blocks held' k (max n (i + 1))).flatten := by
  rw [File.pwrite_flatten length_of_mem_blocks (length_blockOf _), length_blocks, take_blocks]
  congr 1
  have hbefore : blocks held' k i = blocks held k (min i n) ++ List.replicate (i - n) (List.replicate slotSize 0) := by
    rw [blocks_congr fun j hlo hhi => hsame j (by omega)]
    obtain hle | hle := le_total i n
    · rw [Nat.min_eq_left hle, Nat.sub_eq_zero_of_le hle, List.replicate_zero, List.append_nil]
    · obtain ⟨j, rfl⟩ := Nat.exists_eq_add_of_le hle
      rw [blocks_add, Nat.min_eq_right hle, Nat.add_sub_cancel_left,
        blocks_of_none fun l hlo hhi => hnone l hlo (by push_cast; omega)]
  have hafter : (blocks held k n).drop (i + 1) = blocks held' (k + i + 1) (max n (i + 1) - (i + 1)) := by
    obtain hle | hle := le_total (i + 1) n
    · rw [drop_blocks hle, Nat.max_eq_left hle]
      push_cast
      rw [← add_assoc]
      exact blocks_congr fun j hlo hhi => (hsame j (by omega)).symm
    · rw [List.drop_of_length_le (by rw [length_blocks]; exact hle), Nat.max_eq_right hle, Nat.sub_self]
      rfl
  have hlen : max n (i + 1) = i + (max n (i + 1) - (i + 1) + 1) := by omega
  rw [← hbefore, hafter]
  conv_rhs => rw [hlen, blocks_add, blocks]

lemma readSlots_of_none (h : ∀ i, k ≤ i → i < k + n → held.lookup i = none) : readSlots held k n = [] := by
  induction n generalizing k with
  | zero => rfl
  | succ n ih =>
    rw [readSlots, h k le_rfl (by omega), ih fun i hlo hhi => h i (by omega) (by omega)]
    rfl

lemma readSlots_add : readSlots held k (n + m) = readSlots held k n ++ readSlots held (k + n) m := by
  induction n generalizing k with
  | zero => simp [readSlots]
  | succ n ih =>
    have hnext : k + (n + 1 : Nat) = k + 1 + n := by
      push_cast
      ring
    rw [Nat.add_right_comm, readSlots, ih, hnext, readSlots, List.append_assoc]

/-- The chunks in the slots have their ends there. -/
def Slots.WellFormed (held : Slots) : Prop :=
  ∀ k e chunk, held.lookup k = some (e, chunk) → dataChunkSize ≤ e ∧ slotNumber e = k

lemma splitBinary_append {b rest : Bytes} (hb : b.length = slotSize) (leftChunkBorder : Int) (N : Nat) :
    splitBinary (b ++ rest) leftChunkBorder N =
      if Bytes.toNat (b.take offsetSize) = 0 then splitBinary rest leftChunkBorder (N + 1)
      else (splitBinary rest leftChunkBorder (N + 1)).map fun chunks =>
        (leftChunkBorder + (Bytes.toNat (b.take offsetSize) : Int).tmod dataChunkSize + dataChunkSize * N,
          b.drop offsetSize) :: chunks := by
  have hoffset : offsetSize ≤ b.length := by rw [hb]; decide
  have hne : b ++ rest ≠ [] := by
    intro hnil
    rw [(List.append_eq_nil_iff.mp hnil).1] at hoffset
    exact absurd hoffset (by decide)
  have hlong : ¬ (b ++ rest).length < offsetSize + dataChunkSize := by
    rw [List.length_append, hb, slotSize]
    omega
  have hchunk : ((b ++ rest).drop offsetSize).take dataChunkSize = b.drop offsetSize := by
    rw [List.drop_append_of_le_length hoffset]
    exact List.take_left' (by rw [List.length_drop, hb]; rfl)
  have hrest : (b ++ rest).drop (offsetSize + dataChunkSize) = rest := List.drop_left' hb
  rw [splitBinary, if_neg hne, if_neg hlong, hchunk, hrest, List.take_append_of_le_length hoffset]
  dsimp only
  split_ifs
  · rfl
  · cases splitBinary rest leftChunkBorder (N + 1) <;> rfl

lemma splitBinary_blocks (hheld : held.WellFormed) {leftChunkBorder : Int} {N : Nat}
    (hborder : leftChunkBorder + dataChunkSize * N = (k + 1) * dataChunkSize) :
    splitBinary (blocks held k n).flatten leftChunkBorder N = some (readSlots held k n) := by
  induction n generalizing k N with
  | zero =>
    rw [blocks, List.flatten_nil, splitBinary, if_pos rfl]
    rfl
  | succ n ih =>
    have hnext := ih (k := k + 1) (N := N + 1) (by push_cast; rw [mul_add, ← add_assoc, hborder]; ring)
    rw [blocks, List.flatten_cons, splitBinary_append (length_blockOf _), hnext, readSlots]
    cases hslot : held.lookup k with
    | none =>
      rw [if_pos (by rw [blockOf, zeroChunk_eq]; decide)]
      rfl
    | some v =>
      obtain ⟨e, chunk⟩ := v
      obtain ⟨hle, rfl⟩ := hheld k e chunk hslot
      have hdist := sub_floorInt (sub_nonneg.mpr hle)
      obtain ⟨hne, hmod⟩ := toNat_chunkOffsetBinary hdist.1 hdist.2
      have hend : leftChunkBorder + ((e - dataChunkSize) - floorInt (e - dataChunkSize) dataChunkSize) + dataChunkSize * N =
          e := by
        rw [floorInt_of_nonneg (by omega)]
        simp only [slotNumber, dataChunkSize] at *
        omega
      simp only [blockOf, take_slotData, drop_slotData, if_neg hne, hmod, hend]
      rfl

end Held

section Stored

variable {st : State} {live : Chunks} {held held' : Slots} {e e' byte : Int} {chunk : Chunk} {op : Op} {ops : List Op}

lemma slotNumber_eq (hle : dataChunkSize ≤ e) :
    getKey e / dataChunkSize + slot (e - dataChunkSize) = slotNumber e ∧ slot (e - dataChunkSize) < groupSlots ∧
      0 ≤ getKey e ∧ getKey e % chunkGroupSize = 0 := by
  rw [getKey, floorInt_of_nonneg (by omega)]
  simp only [slot, slotNumber, groupSlots, dataChunkSize, chunkGroupSize] at *
  omega

lemma slotNumber_lt (h : e + dataChunkSize ≤ e') : slotNumber e < slotNumber e' := by
  simp only [slotNumber, dataChunkSize] at *
  omega

/-- The files are what the slots hold, with no chunks in the slots behind the end of a file. -/
structure Holds (st : State) (held : Slots) : Prop where
  wellFormed : held.WellFormed
  files : ∀ key : Int, 0 ≤ key → key % chunkGroupSize = 0 → ∃ n, n ≤ groupSlots ∧
    (st.files.lookup key).getD [] = (blocks held (key / dataChunkSize) n).flatten ∧
      ∀ k : Int, key / dataChunkSize + n ≤ k → k < key / dataChunkSize + groupSlots → held.lookup k = none

lemma Holds.writeFile (h : Holds st held) (hheld : held'.WellFormed) (hle : dataChunkSize ≤ e)
    (hsame : ∀ k, k ≠ slotNumber e → held'.lookup k = held.lookup k) {data : Bytes}
    (hdata : data = blockOf (held'.lookup (slotNumber e))) (keys : OrdSet Int) (record : SyncTable) :
    Holds ⟨st.writeFile (getKey e) (slotPosition (floorInt (e - dataChunkSize) dataChunkSize) (getKey e)) data, keys,
      record⟩ held' where
  wellFormed := hheld
  files key hkey hgroup := by
    obtain ⟨n, hn, hfile, hnone⟩ := h.files key hkey hgroup
    obtain ⟨hnumber, hslot, -, hgroup'⟩ := slotNumber_eq hle
    by_cases hsameKey : key = getKey e
    · subst hsameKey
      refine ⟨max n (slot (e - dataChunkSize) + 1), by omega, ?_, fun k hlo hhi => ?_⟩
      · have hpos : slotPosition (floorInt (e - dataChunkSize) dataChunkSize) (getKey e) =
            slot (e - dataChunkSize) * slotSize := slotPosition_eq (by omega)
        rw [State.writeFile, SortedMap.lookup_insert, if_pos rfl, Option.getD_some, hfile, hpos, hdata, ← hnumber]
        rw [← hnumber] at hsame
        exact pwrite_blocks (fun j hlo hhi => hnone j hlo (by omega)) hsame
      · rw [hsame k (by omega)]
        exact hnone k (by omega) hhi
    · have hother : ∀ k : Int, key / dataChunkSize ≤ k → k < key / dataChunkSize + groupSlots → k ≠ slotNumber e := by
        intro k hlo hhi heq
        simp only [chunkGroupSize, groupSlots, dataChunkSize] at *
        omega
      refine ⟨n, hn, ?_, fun k hlo hhi => ?_⟩
      · rw [State.writeFile, SortedMap.lookup_insert, if_neg hsameKey, hfile,
          blocks_congr fun k hlo hhi => hsame k (hother k hlo (by omega))]
      · rw [hsame k (hother k (by omega) hhi)]
        exact hnone k hlo hhi

/-- The record has the live chunks, the files have what the slots hold, and the live chunks are in their slots. -/
structure Stored (st : State) (live : Chunks) (held : Slots) : Prop where
  represents : Represents st live
  holds : Holds st held
  live_held : ∀ e chunk, live.lookup e = some chunk → held.lookup (slotNumber e) = some (e, chunk)

lemma Stored.put (h : Stored st live held) (hle : dataChunkSize ≤ e) (hallowed : Allowed live (.put e hle chunk)) :
    Stored (put st e chunk) (live.insert e chunk) (held.insert (slotNumber e) (e, chunk)) where
  represents := h.represents.put hle hallowed
  holds := by
    refine h.holds.writeFile ?_ hle (fun k hk => by rw [SortedMap.lookup_insert, if_neg hk]) ?_ _ _
    · intro k e' chunk' hk
      rw [SortedMap.lookup_insert] at hk
      split_ifs at hk with heq
      · cases hk
        exact ⟨hle, heq.symm⟩
      · exact h.holds.wellFormed k e' chunk' hk
    · rw [SortedMap.lookup_insert, if_pos rfl]
      rfl
  live_held e' chunk' hlive := by
    rw [SortedMap.lookup_insert] at hlive
    split_ifs at hlive with heq
    · cases hlive
      rw [heq, SortedMap.lookup_insert, if_pos rfl]
    · have hne : slotNumber e' ≠ slotNumber e := (hallowed e' chunk' hlive heq).elim (fun h => (slotNumber_lt h).ne)
        fun h => (slotNumber_lt h).ne'
      rw [SortedMap.lookup_insert, if_neg hne]
      exact h.live_held e' chunk' hlive

lemma Stored.delete (h : Stored st live held) (hallowed : Allowed live (.delete e)) :
    Stored (delete st e) (live.erase e) (held.erase (slotNumber e)) where
  represents := h.represents.delete hallowed
  holds := by
    obtain ⟨chunk, hlive⟩ := hallowed
    refine h.holds.writeFile ?_ (h.represents.le e chunk hlive) (fun k hk => by rw [SortedMap.lookup_erase, if_neg hk])
      ?_ _ _
    · intro k e' chunk' hk
      rw [SortedMap.lookup_erase] at hk
      split_ifs at hk
      exact h.holds.wellFormed k e' chunk' hk
    · rw [SortedMap.lookup_erase, if_pos rfl]
      rfl
  live_held e' chunk' hlive := by
    rw [SortedMap.lookup_erase] at hlive
    split_ifs at hlive with hne
    have hslot : slotNumber e' ≠ slotNumber e := by
      obtain hlt | hgt := lt_or_gt_of_ne hne
      · exact (slotNumber_lt (h.represents.tiled.apart e' ⟨chunk', hlive⟩ e hallowed hlt)).ne
      · exact (slotNumber_lt (h.represents.tiled.apart e hallowed e' ⟨chunk', hlive⟩ hgt)).ne'
    rw [SortedMap.lookup_erase, if_neg hslot]
    exact h.live_held e' chunk' hlive

lemma Stored.cut (h : Stored st live held) (hallowed : Allowed live (.cut e)) :
    Stored (cut st e) (live.filterKeys (· ≤ e)) held where
  represents := h.represents.cut hallowed
  holds := ⟨h.holds.wellFormed, h.holds.files⟩
  live_held e' chunk' hlive := by
    rw [SortedMap.lookup_filterKeys] at hlive
    split_ifs at hlive
    exact h.live_held e' chunk' hlive

lemma Stored.step (h : Stored st live held) (hallowed : Allowed live op) :
    Stored (op.onStore st) (op.onChunks live) (op.onSlots held) := by
  cases op with
  | put offset hle chunk => exact h.put hle hallowed
  | delete offset => exact h.delete hallowed
  | cut offset => exact h.cut hallowed

lemma stored_empty : Stored {} SortedMap.empty SortedMap.empty where
  represents := represents_empty
  holds :=
    { wellFormed := fun k e chunk hk => by cases hk
      files := fun key hkey hgroup => ⟨0, Nat.zero_le _, rfl, fun k hlo hhi => rfl⟩ }
  live_held e chunk hlive := by cases hlive

lemma Stored.run (h : Stored st live held)
    (hallowed : Along (fun live op => some (Op.onChunks live op)) Allowed live ops) :
    Stored (ops.foldl Op.onStore st) (ops.foldl Op.onChunks live) (ops.foldl Op.onSlots held) := by
  induction ops generalizing st live held with
  | nil => exact h
  | cons op ops ih =>
    obtain ⟨hfirst, hrest⟩ := along_cons.mp hallowed
    exact ih (h.step hfirst) (hrest _ rfl)

/-- A read that begins at the slot of a live chunk with the byte returns what is in the slots. -/
lemma Stored.getChunks_eq (h : Stored st live held) (hlive : live.lookup e = some chunk) (hbyte : Covers e byte)
    {count : Nat} (hpos : 0 < count) (hcount : slot (e - dataChunkSize) + count ≤ groupSlots) :
    getChunks st byte (e - dataChunkSize) (floorInt (e - dataChunkSize) chunkGroupSize) count =
      some (readSlots held (slotNumber e) count) := by
  have hle := h.represents.le e chunk hlive
  obtain ⟨hkey, file, hfile, -⟩ := h.represents.inSlot e chunk hlive
  obtain ⟨hnumber, hslot, hnonneg, hgroup⟩ := slotNumber_eq hle
  obtain ⟨n, hn, hblocks, hnone⟩ := h.holds.files (getKey e) hnonneg hgroup
  have hheld := h.live_held e chunk hlive
  rw [hfile, Option.getD_some] at hblocks
  have hlt : slot (e - dataChunkSize) < n := by
    by_contra hge
    rw [hnone (slotNumber e) (by omega) (by omega)] at hheld
    cases hheld
  rw [getKey] at hkey hfile
  rw [getChunks, if_pos hkey, hfile, hblocks]
  dsimp only
  obtain ⟨m, hm⟩ : ∃ m, min count (n - slot (e - dataChunkSize)) = m + 1 := ⟨_, (Nat.sub_add_cancel (by omega)).symm⟩
  have hlength : ∀ b ∈ blocks held (getKey e / dataChunkSize) n, b.length = slotSize := length_of_mem_blocks
  have hread := File.pread_flatten hlength (by decide) (by rw [length_blocks]; exact hlt) count
  rw [drop_blocks hlt.le, take_blocks, hnumber, hm, Nat.mul_comm count] at hread
  have htake : (blocks held (slotNumber e) (m + 1)).flatten.take offsetSize =
      chunkOffsetBinary (e - dataChunkSize - floorInt (e - dataChunkSize) dataChunkSize) := by
    rw [blocks, hheld, List.flatten_cons, List.take_append_of_le_length (by rw [length_blockOf]; decide)]
    exact take_slotData _ _
  have hlong : ¬ (blocks held (slotNumber e) (m + 1)).flatten.length < offsetSize := by
    rw [File.length_flatten length_of_mem_blocks, length_blocks, Nat.succ_mul, slotSize]
    omega
  have hsplit : splitBinary (blocks held (slotNumber e) (m + 1)).flatten (floorInt (e - dataChunkSize) dataChunkSize) 1 =
      some (readSlots held (slotNumber e) (m + 1)) := by
    apply splitBinary_blocks h.holds.wellFormed
    rw [floorInt_of_nonneg (by omega)]
    simp only [slotNumber, dataChunkSize]
    omega
  -- the slots behind the end of the file hold nothing
  have hslots : readSlots held (slotNumber e) count = readSlots held (slotNumber e) (m + 1) := by
    obtain ⟨j, rfl⟩ := Nat.exists_eq_add_of_le (show m + 1 ≤ count by omega)
    have hrest : readSlots held (slotNumber e + (m + 1 : Nat)) j = [] :=
      readSlots_of_none fun k hlo hhi => hnone k (by omega) (by omega)
    rw [readSlots_add, hrest, List.append_nil]
  have hposition := readPosition_eq (show 0 ≤ e - dataChunkSize by omega)
  have hvalid := isOffsetValid_slot (by omega) hbyte.1 (show byte < e - dataChunkSize + dataChunkSize by have := hbyte.2; omega)
  have hsize : slotSize * count = (dataChunkSize + offsetSize) * count := by rw [slotSize, Nat.add_comm]
  rw [hsize] at hread
  change File.pread _ (slot (e - dataChunkSize) * (offsetSize + dataChunkSize)) _ = _ at hread
  rw [hslots, readChunk, hposition, hread]
  dsimp only
  rw [if_neg hlong, htake, if_pos hvalid, hsplit]

end Stored

end Arweave.ChunkStorage

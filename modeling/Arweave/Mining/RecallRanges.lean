import Arweave.Lib.Base64
import Arweave.Intervals.Set
import Arweave.Mining.Worker

/-!
# Reading recall ranges

A thread of the mining server reads the recall ranges that start in its partition from its store. When it has
read the chunks of a range it goes over them nonce by nonce. The threads are started with the server, for the
partitions of the storage modules and of the default store.
-/

namespace Arweave.Mining

open Lib Intervals

section Code

variable {α : Type}

/-- `?DATA_CHUNK_SIZE` -/
def recallChunkSize : Int := 262144

/-- What the worker is told about a nonce. -/
inductive RecallEvent (α : Type) where
  | skipped (nonce : Nat)
  | recallChunk (chunk : α) (nonce : Nat)
  deriving DecidableEq

/-- The chunks come with their end offsets. -/
def readRange (rangeStart : Int) (nonceMax nonce : Nat) (chunkOffsets : List (Int × α)) : List (RecallEvent α) :=
  if nonce > nonceMax then []
  else
    match chunkOffsets with
    | [] => .skipped nonce :: readRange rangeStart nonceMax (nonce + 1) []
    | (endOffset, chunk) :: rest =>
      if rangeStart + nonce * recallChunkSize < endOffset - recallChunkSize then
        .skipped nonce :: readRange rangeStart nonceMax (nonce + 1) ((endOffset, chunk) :: rest)
      else if rangeStart + nonce * recallChunkSize ≥ endOffset then readRange rangeStart nonceMax nonce rest
      else .recallChunk chunk nonce :: readRange rangeStart nonceMax (nonce + 1) rest
termination_by nonceMax + 1 - nonce + chunkOffsets.length

end Code

section Nonces

variable {α : Type} {rangeStart byte : Int} {nonceMax nonce : Nat} {chunks : List (Int × α)} {c d : Int × α}

/-- The chunk has the byte. -/
def Covers (c : Int × α) (byte : Int) : Prop := c.1 - recallChunkSize ≤ byte ∧ byte < c.1

instance decidableCovers (c : Int × α) (byte : Int) : Decidable (Covers c byte) := inferInstanceAs (Decidable (_ ∧ _))

/-- The chunks are in the order of their end offsets and do not meet. -/
def Apart (chunks : List (Int × α)) : Prop := chunks.Pairwise fun c d => c.1 ≤ d.1 - recallChunkSize

/-- The first byte of a nonce. -/
def nonceByte (rangeStart : Int) (nonce : Nat) : Int := rangeStart + nonce * recallChunkSize

/-- The chunk with the first byte of the nonce, or none. -/
def eventOf (rangeStart : Int) (chunks : List (Int × α)) (nonce : Nat) : RecallEvent α :=
  match chunks.find? fun c => Covers c (nonceByte rangeStart nonce) with
  | none => .skipped nonce
  | some c => .recallChunk c.2 nonce

def RecallEvent.chunk? : RecallEvent α → Option α
  | .skipped _ => none
  | .recallChunk chunk _ => some chunk

lemma eventOf_cons_of_not (h : ¬ Covers c (nonceByte rangeStart nonce)) :
    eventOf rangeStart (c :: chunks) nonce = eventOf rangeStart chunks nonce := by
  rw [eventOf, List.find?_cons_of_neg (by simpa using h), eventOf]

lemma eventOf_of_above (h : ∀ c ∈ chunks, nonceByte rangeStart nonce < c.1 - recallChunkSize) :
    eventOf rangeStart chunks nonce = .skipped nonce := by
  rw [eventOf, List.find?_eq_none.mpr]
  intro c hc
  have := h c hc
  simp [Covers, this.not_ge]

lemma nonceByte_lt {n m : Nat} (h : n < m) : nonceByte rangeStart n + recallChunkSize ≤ nonceByte rangeStart m := by
  have hle : ((n : Int) + 1) * recallChunkSize ≤ m * recallChunkSize := by
    apply Int.mul_le_mul_of_nonneg_right
    · exact_mod_cast h
    · decide
  rw [nonceByte, nonceByte]
  have hsplit : ((n : Int) + 1) * recallChunkSize = n * recallChunkSize + recallChunkSize := by ring
  omega

/-- From a nonce on, every nonce gets one event. -/
lemma readRange_eq (hchunks : Apart chunks) :
    readRange rangeStart nonceMax nonce chunks =
      (List.range' nonce (nonceMax + 1 - nonce)).map (eventOf rangeStart chunks) := by
  fun_induction readRange rangeStart nonceMax nonce chunks with
  | case1 nonce chunks hgt => rw [Nat.sub_eq_zero_of_le hgt, List.range'_zero, List.map_nil]
  | case2 nonce hle ih =>
    have hsucc : nonceMax + 1 - nonce = nonceMax + 1 - (nonce + 1) + 1 := by omega
    rw [ih hchunks, hsucc, List.range'_succ, List.map_cons]
    rfl
  | case3 nonce hle endOffset chunk rest hbelow ih =>
    have hsucc : nonceMax + 1 - nonce = nonceMax + 1 - (nonce + 1) + 1 := by omega
    have habove : ∀ c ∈ (endOffset, chunk) :: rest, nonceByte rangeStart nonce < c.1 - recallChunkSize := by
      intro c hc
      obtain rfl | hc := List.mem_cons.mp hc
      · exact hbelow
      · have hsize : 0 < recallChunkSize := by decide
        have hend := (List.pairwise_cons.mp hchunks).1 c hc
        have hfirst : nonceByte rangeStart nonce < endOffset - recallChunkSize := hbelow
        dsimp only at hend
        omega
    rw [ih hchunks, hsucc, List.range'_succ, List.map_cons, eventOf_of_above habove]
  | case4 nonce hle endOffset chunk rest hnot hge ih =>
    -- the chunk ends before the nonce, and before all later ones
    rw [ih (List.pairwise_cons.mp hchunks).2]
    refine List.map_congr_left fun m hm => (eventOf_cons_of_not fun hcovers => ?_).symm
    obtain heq | hlt := (List.mem_range'_1.mp hm).1.eq_or_lt
    · rw [← heq] at hcovers
      exact absurd hcovers.2 (not_lt.mpr hge)
    · have hsize : 0 < recallChunkSize := by decide
      have hlater : nonceByte rangeStart nonce + recallChunkSize ≤ nonceByte rangeStart m := nonceByte_lt hlt
      have hend : nonceByte rangeStart nonce ≥ endOffset := hge
      have := hcovers.2
      dsimp only at this
      omega
  | case5 nonce hle endOffset chunk rest hnot hlt ih =>
    have hsucc : nonceMax + 1 - nonce = nonceMax + 1 - (nonce + 1) + 1 := by omega
    have hcovers : Covers (endOffset, chunk) (nonceByte rangeStart nonce) := ⟨not_lt.mp hnot, not_le.mp hlt⟩
    have hfirst : eventOf rangeStart ((endOffset, chunk) :: rest) nonce = .recallChunk chunk nonce := by
      rw [eventOf, List.find?_cons_of_pos (by simpa using hcovers)]
    rw [ih (List.pairwise_cons.mp hchunks).2, hsucc, List.range'_succ, List.map_cons, hfirst]
    refine congrArg _ (List.map_congr_left fun m hm => (eventOf_cons_of_not fun hcovers' => ?_).symm)
    have hlater : nonceByte rangeStart nonce + recallChunkSize ≤ nonceByte rangeStart m :=
      nonceByte_lt (List.mem_range'_1.mp hm).1
    have hstart := hcovers.1
    have hend := hcovers'.2
    omega

lemma delivered_sublist :
    ((readRange rangeStart nonceMax nonce chunks).filterMap RecallEvent.chunk?).Sublist (chunks.map Prod.snd) := by
  fun_induction readRange rangeStart nonceMax nonce chunks with
  | case1 nonce chunks hgt => exact List.nil_sublist _
  | case2 nonce hle ih => exact ih
  | case3 nonce hle endOffset chunk rest hbelow ih => exact ih
  | case4 nonce hle endOffset chunk rest hnot hge ih => exact ih.cons _
  | case5 nonce hle endOffset chunk rest hnot hlt ih => exact ih.cons_cons _

/-- Every nonce of the range gets one event in the order of the nonces: the chunk with its first byte when there is
one. No chunk is delivered for two nonces. -/
theorem readRange_answers (rangeStart : Int) (nonceMax : Nat) (chunks : List (Int × α)) (hchunks : Apart chunks) :
    readRange rangeStart nonceMax 0 chunks = (List.range (nonceMax + 1)).map (eventOf rangeStart chunks) ∧
      ((readRange rangeStart nonceMax 0 chunks).filterMap RecallEvent.chunk?).Sublist (chunks.map Prod.snd) := by
  refine ⟨?_, delivered_sublist⟩
  rw [readRange_eq hchunks, List.range_eq_range', Nat.sub_zero]

/-- A chunk that ends before the range, one in it that is not aligned with the nonces, and one behind it. -/
theorem readRange_answers_sample :
    let chunks : List (Int × Nat) := [(300000, 1), (700000, 2), (2000000, 3)]
    readRange 400000 2 0 chunks = [.skipped 0, .recallChunk 2 1, .skipped 2] ∧
      readRange 400000 2 0 chunks = (List.range 3).map (eventOf 400000 chunks) := by
  intro chunks
  exact ⟨by decide +kernel, (readRange_answers 400000 2 chunks (by unfold Apart; decide)).1⟩

end Nonces

section Threads

/-- `?PARTITION_NUMBER` -/
def partitionNumber (offset : Int) : Int := offset.tdiv partitionSize

inductive ModulePacking where
  | spora26 (addr : Bytes)
  | other (name : String)
  deriving DecidableEq

def ModulePacking.string : ModulePacking → String
  | .spora26 addr => String.ofList ((Base64.encode addr).map fun c => Char.ofNat c.toNat)
  | .other name => name

structure StorageModule where
  bucketSize : Nat
  bucket : Nat
  packing : ModulePacking

def StorageModule.id (m : StorageModule) : String :=
  if m.bucketSize = partitionSize then "storage_module_" ++ toString m.bucket ++ "_" ++ m.packing.string
  else "storage_module_" ++ toString m.bucketSize ++ "_" ++ toString m.bucket ++ "_" ++ m.packing.string

/-- A thread is known by its partition, its mining address and its store. -/
abbrev ThreadKey := Int × Bytes × String

def startIoThread (partitionNumber : Int) (miningAddress : Bytes) (storeId : String) (threads : List ThreadKey) :
    List ThreadKey :=
  if (partitionNumber, miningAddress, storeId) ∈ threads then threads
  else (partitionNumber, miningAddress, storeId) :: threads

def startIoThreads (rangeStart rangeEnd : Int) (miningAddress : Bytes) (storeId : String) (threads : List ThreadKey) :
    List ThreadKey :=
  if rangeStart ≥ rangeEnd then threads
  else
    startIoThreads (rangeStart + partitionSize) rangeEnd miningAddress storeId
      (startIoThread (partitionNumber rangeStart) miningAddress storeId threads)
termination_by (rangeEnd - rangeStart).toNat
decreasing_by
  have : (0 : Int) < partitionSize := by decide
  omega

/-- The threads started with the server: for the modules packed with the mining address, then for the sync record
of the default store. -/
def init (miningAddr : Bytes) (storageModules : List StorageModule) (syncRecord : IntervalSet) : List ThreadKey :=
  let threads := storageModules.foldl (fun acc m =>
    if m.packing = .spora26 miningAddr then
      startIoThreads (m.bucket * m.bucketSize) ((m.bucket + 1) * m.bucketSize) miningAddr m.id acc
    else acc) []
  syncRecord.elems.foldl (fun acc p => startIoThreads (ofLex p).2 (ofLex p).1 miningAddr "default" acc) threads

variable {addr : Bytes} {storeId : String} {threads : List ThreadKey} {key : ThreadKey} {n s e : Int}
  {modules : List StorageModule} {record : IntervalSet}

lemma partitionSize_pos : (0 : Int) < partitionSize := by decide

lemma partitionNumber_eq (h : 0 ≤ n) : partitionNumber n = n / partitionSize := Int.tdiv_eq_ediv_of_nonneg h

lemma mem_startIoThread : key ∈ startIoThread n addr storeId threads ↔ key = (n, addr, storeId) ∨ key ∈ threads := by
  rw [startIoThread]
  split
  · next hmem => exact ⟨Or.inr, fun h => h.elim (fun heq => heq ▸ hmem) id⟩
  · rw [List.mem_cons]

lemma mem_startIoThreads :
    key ∈ startIoThreads s e addr storeId threads ↔
      key ∈ threads ∨ ∃ k : Nat, s + k * partitionSize < e ∧
        key = (partitionNumber (s + k * partitionSize), addr, storeId) := by
  have hpos := partitionSize_pos
  fun_induction startIoThreads s e addr storeId threads with
  | case1 s threads hge =>
    refine ⟨Or.inl, fun h => h.resolve_right ?_⟩
    rintro ⟨k, hk, -⟩
    have := Int.mul_nonneg (Int.natCast_nonneg k) hpos.le
    omega
  | case2 s threads hlt ih =>
    refine ih.trans ?_
    rw [mem_startIoThread, or_comm (a := key = _), or_assoc]
    refine or_congr_right ⟨?_, ?_⟩
    · rintro (rfl | ⟨k, hk, rfl⟩)
      · exact ⟨0, by simpa using hlt, by simp⟩
      · have hnext : s + partitionSize + k * partitionSize = s + (k + 1 : Nat) * partitionSize := by push_cast; ring
        rw [hnext] at hk ⊢
        exact ⟨k + 1, hk, rfl⟩
    · rintro ⟨k, hk, rfl⟩
      cases k with
      | zero => exact .inl (by simp)
      | succ k =>
        have hnext : s + (k + 1 : Nat) * partitionSize = s + partitionSize + k * partitionSize := by push_cast; ring
        rw [hnext] at hk ⊢
        exact .inr ⟨k, hk, rfl⟩

lemma mem_startIoThreads_iff (hs : 0 ≤ s) :
    (n, addr, storeId) ∈ startIoThreads s e addr storeId threads ↔
      (n, addr, storeId) ∈ threads ∨ s / partitionSize ≤ n ∧ s % partitionSize + n * partitionSize < e := by
  have hpos := partitionSize_pos
  have hsplit := Int.emod_add_ediv_mul s partitionSize
  rw [mem_startIoThreads]
  refine or_congr_right ⟨?_, fun ⟨hle, hlt⟩ => ?_⟩
  · rintro ⟨k, hk, heq⟩
    have hn : n = s / partitionSize + k := by
      have hnonneg : 0 ≤ s + k * partitionSize := add_nonneg hs (Int.mul_nonneg (Int.natCast_nonneg k) hpos.le)
      rw [(Prod.mk.inj heq).1, partitionNumber_eq hnonneg, Int.add_mul_ediv_right _ _ hpos.ne']
    refine ⟨by omega, ?_⟩
    rw [hn, add_mul]
    omega
  · obtain ⟨k, rfl⟩ := Int.le.dest hle
    have hplace : s + k * partitionSize = s % partitionSize + (s / partitionSize + k) * partitionSize := by
      rw [add_mul]
      omega
    have hnonneg : 0 ≤ s + k * partitionSize := add_nonneg hs (Int.mul_nonneg (Int.natCast_nonneg k) hpos.le)
    refine ⟨k, hplace ▸ hlt, ?_⟩
    rw [partitionNumber_eq hnonneg, Int.add_mul_ediv_right _ _ hpos.ne']

/-- A range with its store. -/
abbrev StoreRange := String × Int × Int

/-- From its start the range reaches the partition in steps of the partition size. -/
def Steps (r : StoreRange) (partition : Int) : Prop :=
  r.2.1 / partitionSize ≤ partition ∧ r.2.1 % partitionSize + partition * partitionSize < r.2.2

instance decidableSteps (r : StoreRange) (partition : Int) : Decidable (Steps r partition) :=
  inferInstanceAs (Decidable (_ ∧ _))

/-- The ranges of the modules packed with the mining address, and those of the sync record. -/
def servedRanges (miningAddr : Bytes) (storageModules : List StorageModule) (syncRecord : IntervalSet) : List StoreRange :=
  (storageModules.filter fun m => m.packing = .spora26 miningAddr).map (fun m =>
    (m.id, (m.bucket * m.bucketSize : Int), ((m.bucket + 1) * m.bucketSize : Int))) ++
  syncRecord.elems.map fun p => ("default", (ofLex p).2, (ofLex p).1)

lemma init_eq : init addr modules record =
    (servedRanges addr modules record).foldl (fun acc r => startIoThreads r.2.1 r.2.2 addr r.1 acc) [] := by
  rw [servedRanges, List.foldl_append, List.foldl_map, List.foldl_map, List.foldl_filter, init]
  simp only [decide_eq_true_eq]

/-- The offsets of the sync record are offsets of the weave. -/
def InWeave (record : IntervalSet) : Prop := ∀ p ∈ family record, 0 ≤ p.2

lemma servedRanges_nonneg (hrecord : InWeave record) : ∀ r ∈ servedRanges addr modules record, 0 ≤ r.2.1 := by
  intro r hr
  rw [servedRanges, List.mem_append, List.mem_map, List.mem_map] at hr
  obtain ⟨m, -, rfl⟩ | ⟨p, hp, rfl⟩ := hr
  · exact Int.mul_nonneg (Int.natCast_nonneg _) (Int.natCast_nonneg _)
  · exact hrecord (ofLex p) hp

lemma mem_startAll {ranges : List StoreRange} (hranges : ∀ r ∈ ranges, 0 ≤ r.2.1) :
    (n, addr, storeId) ∈ ranges.foldl (fun acc r => startIoThreads r.2.1 r.2.2 addr r.1 acc) threads ↔
      (n, addr, storeId) ∈ threads ∨
        ∃ r ∈ ranges, r.1 = storeId ∧ Steps r n := by
  induction ranges generalizing threads with
  | nil => simp
  | cons r rest ih =>
    obtain ⟨hr, hrest⟩ := List.forall_mem_cons.mp hranges
    rw [List.foldl_cons, ih hrest, List.exists_mem_cons_iff, ← or_assoc]
    refine or_congr_left ?_
    by_cases hstore : r.1 = storeId
    · rw [hstore, mem_startIoThreads_iff hr]
      exact or_congr_right ⟨fun h => ⟨rfl, h⟩, fun h => h.2⟩
    · rw [mem_startIoThreads]
      refine or_congr_right ⟨?_, fun h => absurd h.1 hstore⟩
      rintro ⟨k, -, heq⟩
      exact absurd (Prod.mk.inj (Prod.mk.inj heq).2).2.symm hstore

/-- Every partition with a byte of a range has a thread for the store of the range. -/
def PartitionsServed (miningAddr : Bytes) (storageModules : List StorageModule) (syncRecord : IntervalSet) : Prop :=
  ∀ r ∈ servedRanges miningAddr storageModules syncRecord, ∀ byte, r.2.1 ≤ byte → byte < r.2.2 →
    (partitionNumber byte, miningAddr, r.1) ∈ init miningAddr storageModules syncRecord

/-- The partition of the last byte of every range is reached from a range of the same store. -/
def LastReached (ranges : List StoreRange) : Prop :=
  ∀ r ∈ ranges, r.2.1 < r.2.2 → ∃ r' ∈ ranges, r'.1 = r.1 ∧ Steps r' ((r.2.2 - 1) / partitionSize)

instance decidableLastReached (ranges : List StoreRange) : Decidable (LastReached ranges) :=
  inferInstanceAs (Decidable (∀ r ∈ ranges, _ → ∃ r' ∈ ranges, _))

lemma mem_init (hrecord : InWeave record) :
    (n, addr, storeId) ∈ init addr modules record ↔
      ∃ r ∈ servedRanges addr modules record, r.1 = storeId ∧ Steps r n := by
  rw [init_eq, mem_startAll (servedRanges_nonneg hrecord)]
  exact ⟨fun h => h.resolve_left List.not_mem_nil, Or.inr⟩

lemma steps_of_lt {r : StoreRange} (hle : r.2.1 / partitionSize ≤ n) (hlt : n < (r.2.2 - 1) / partitionSize) :
    Steps r n := by
  have hpos := partitionSize_pos
  have hplace := Int.emod_lt_of_pos r.2.1 hpos
  have hlast := Int.mul_le_mul_of_nonneg_right hlt hpos.le
  have hbyte := Int.ediv_mul_le (r.2.2 - 1) hpos.ne'
  rw [add_mul, one_mul] at hlast
  exact ⟨hle, by omega⟩

/-- A range that starts at another place of a partition than it ends may have no thread for its last partition. -/
theorem partitionsServed_iff (addr : Bytes) (modules : List StorageModule) (record : IntervalSet)
    (hrecord : InWeave record) :
    PartitionsServed addr modules record ↔ LastReached (servedRanges addr modules record) := by
  have hpos := partitionSize_pos
  constructor
  · intro h r hr hlt
    have hnonneg := servedRanges_nonneg hrecord r hr
    have hlast := h r hr (r.2.2 - 1) (by omega) (by omega)
    rw [partitionNumber_eq (by omega)] at hlast
    exact (mem_init hrecord).mp hlast
  · intro h r hr byte hge hlt
    have hnonneg := servedRanges_nonneg hrecord r hr
    rw [partitionNumber_eq (hnonneg.trans hge)]
    refine (mem_init hrecord).mpr ?_
    obtain hbefore | heq := (Int.ediv_le_ediv hpos (show byte ≤ r.2.2 - 1 by omega)).lt_or_eq
    · exact ⟨r, hr, rfl, steps_of_lt (Int.ediv_le_ediv hpos hge) hbefore⟩
    · rw [heq]
      exact h r hr (by omega)

/-- A module and an unpacked one. -/
def sampleModules (bucketSize bucket : Nat) : List StorageModule :=
  [⟨bucketSize, bucket, .spora26 [1]⟩, ⟨3600000000000, 5, .other "unpacked"⟩]

/-- The default store has the bytes before a border of partitions. -/
def sampleRecord : IntervalSet := new.add (toLex (3600000000000, 3500000000000))

lemma inWeave_sampleRecord : InWeave sampleRecord := by
  rw [InWeave, sampleRecord, family_add, family_new]
  rintro p (rfl | hp)
  · decide
  · exact hp.elim

theorem partitionsServed_iff_sample : PartitionsServed [1] (sampleModules 4000000000000 0) sampleRecord :=
  (partitionsServed_iff [1] (sampleModules 4000000000000 0) sampleRecord inWeave_sampleRecord).mpr (by decide)

/-- A module from 2 TB to 4 TB has no thread for the partition that begins at 3.6 TB. -/
theorem module_across_border_not_served : ¬ PartitionsServed [1] (sampleModules 2000000000000 1) sampleRecord := by
  intro h
  have hthread := h ("storage_module_2000000000000_1_AQ", 2000000000000, 4000000000000) (by decide) 3900000000000
    (by decide) (by decide)
  obtain ⟨r, hr, -, hsteps⟩ := (mem_init inWeave_sampleRecord).mp hthread
  have hnone : ∀ r ∈ servedRanges [1] (sampleModules 2000000000000 1) sampleRecord,
      ¬ Steps r (partitionNumber 3900000000000) := by decide
  exact hnone r hr hsteps

end Threads

end Arweave.Mining

import Arweave.Lib.Ranges
import Arweave.Merkle.Descent

/-!
# Layouts of the weave

The data of a block is described by two levels of trees: a tree over the transactions of the block
and, for every transaction with data, a tree over its chunks. Together they place every chunk at its
offsets in the weave. The chunks of different places do not overlap.
-/

namespace Arweave.Merkle.Layout

/-- The chunks of a layout follow one another within its bounds. -/
lemma chunks_spec {t : Layout} {lo hi : Nat} (h : t.Spans lo hi) :
    (∀ x ∈ t.chunks lo hi, lo ≤ x.start ∧ x.start ≤ x.stop ∧ x.stop ≤ hi) ∧
      (t.chunks lo hi).Pairwise fun x y => x.stop ≤ y.start := by
  induction t generalizing lo hi with
  | leaf b data note =>
    refine ⟨fun x hx => ?_, List.pairwise_singleton _ _⟩
    cases List.mem_singleton.mp hx
    exact ⟨le_rfl, h.2, le_rfl⟩
  | branch b l r note ihl ihr =>
    obtain ⟨h1, h2, hl, hr⟩ := h
    have hbl := l.base_le lo
    have hbr := r.base_le note
    obtain ⟨hinl, hpairl⟩ := ihl hl
    obtain ⟨hinr, hpairr⟩ := ihr hr
    have hleft : ∀ x ∈ (l.chunks (lo - l.base lo) (note - l.base lo)).map (Chunk.shift (l.base lo)),
        lo ≤ x.start ∧ x.start ≤ x.stop ∧ x.stop ≤ note := by
      intro x hx
      obtain ⟨y, hy, rfl⟩ := List.mem_map.mp hx
      have := hinl y hy
      simp only [Chunk.shift]
      omega
    have hright : ∀ x ∈ (r.chunks (note - r.base note) (hi - r.base note)).map (Chunk.shift (r.base note)),
        note ≤ x.start ∧ x.start ≤ x.stop ∧ x.stop ≤ hi := by
      intro x hx
      obtain ⟨y, hy, rfl⟩ := List.mem_map.mp hx
      have := hinr y hy
      simp only [Chunk.shift]
      omega
    have hshift : ∀ {base : Nat} {xs : List Chunk}, (xs.Pairwise fun x y => x.stop ≤ y.start) →
        (xs.map (Chunk.shift base)).Pairwise fun x y => x.stop ≤ y.start := by
      intro base xs hxs
      rw [List.pairwise_map]
      exact hxs.imp fun hxy => by simp only [Chunk.shift]; omega
    simp only [chunks]
    refine ⟨fun x hx => ?_, List.pairwise_append.mpr ⟨hshift hpairl, hshift hpairr, fun x hx y hy => ?_⟩⟩
    · obtain hx | hx := List.mem_append.mp hx
      · have := hleft x hx
        omega
      · have := hright x hx
        omega
    · have := hleft x hx
      have := hright y hy
      omega

end Arweave.Merkle.Layout

namespace Arweave.Poa

open Lib Merkle

/-- The data of a block: where it starts, the tree over its transactions and the trees over their data.
Chunks are identified by hashes. The place of a transaction without data has an identifier of another
length and no tree. -/
structure DataBlock (H : Digest 32) where
  start : Nat
  size : Nat
  txTree : Layout
  dataTree : Chunk → Option Layout
  spans : txTree.Spans 0 size
  unmarked : ∀ u ∈ txTree.subtrees, u.rebased = false
  data_spans : ∀ x ∈ txTree.chunks 0 size, ∀ t, dataTree x = some t → x.data = t.id H ∧ t.Spans 0 (x.stop - x.start)
  data_ids : ∀ x ∈ txTree.chunks 0 size, ∀ t, dataTree x = some t → ∀ c ∈ t.chunks 0 (x.stop - x.start), c.data.length = 32
  no_data : ∀ x ∈ txTree.chunks 0 size, dataTree x = none → x.data.length ≠ 32

namespace DataBlock

variable {H : Digest 32} {b : DataBlock H} {x y : Chunk}

/-- The chunks of a transaction at their offsets in the weave. -/
def txChunks (b : DataBlock H) (x : Chunk) : List Chunk :=
  match b.dataTree x with
  | none => []
  | some t => (t.chunks 0 (x.stop - x.start)).map (Chunk.shift (b.start + x.start))

def chunks (b : DataBlock H) : List Chunk := (b.txTree.chunks 0 b.size).flatMap b.txChunks

lemma txChunks_spec (hx : x ∈ b.txTree.chunks 0 b.size) :
    (∀ c ∈ b.txChunks x, b.start + x.start ≤ c.start ∧ c.start ≤ c.stop ∧ c.stop ≤ b.start + x.stop) ∧
      (b.txChunks x).Pairwise fun c d => c.stop ≤ d.start := by
  rw [txChunks]
  cases ht : b.dataTree x with
  | none => exact ⟨by simp, List.Pairwise.nil⟩
  | some t =>
    obtain ⟨hin, hpair⟩ := Layout.chunks_spec (b.data_spans x hx t ht).2
    have hle := ((Layout.chunks_spec b.spans).1 x hx).2.1
    refine ⟨fun c hc => ?_, ?_⟩
    · obtain ⟨y, hy, rfl⟩ := List.mem_map.mp hc
      have := hin y hy
      simp only [Chunk.shift]
      omega
    · rw [List.pairwise_map]
      exact hpair.imp fun h => by simp only [Chunk.shift]; omega

lemma chunks_spec : (∀ c ∈ b.chunks, b.start ≤ c.start ∧ c.stop ≤ b.start + b.size) ∧
    b.chunks.Pairwise fun c d => c.stop ≤ d.start := by
  obtain ⟨hin, hpair⟩ := Layout.chunks_spec b.spans
  constructor
  · intro c hc
    obtain ⟨x, hx, hc⟩ := List.mem_flatMap.mp hc
    have := hin x hx
    have := (txChunks_spec hx).1 c hc
    omega
  · rw [chunks, List.pairwise_flatMap]
    refine ⟨fun x hx => (txChunks_spec hx).2, hpair.imp_of_mem ?_⟩
    intro x y hx hy hxy c hc d hd
    have := (txChunks_spec hx).1 c hc
    have := (txChunks_spec hy).1 d hd
    omega

end DataBlock

/-- The first byte of the bucket of a byte, counted from the threshold. -/
def bucketStart (T byte : Nat) : Nat := T + (byte - T) / dataChunkSize * dataChunkSize

/-- Blocks one after another. Above the threshold they start at multiples of 256 KiB from it. A chunk has
at most 256 KiB, and above the threshold it covers the first byte of the bucket in which it ends. -/
structure DataLayout (H : Digest 32) (T : Nat) where
  blocks : List (DataBlock H)
  ordered : blocks.Pairwise fun b c => b.start + b.size ≤ c.start
  aligned : ∀ b ∈ blocks, T ≤ b.start → dataChunkSize ∣ b.start - T
  nonempty : ∀ c ∈ blocks.flatMap DataBlock.chunks, c.start < c.stop
  size_le : ∀ c ∈ blocks.flatMap DataBlock.chunks, c.stop ≤ c.start + dataChunkSize
  covers : ∀ c ∈ blocks.flatMap DataBlock.chunks, T < c.stop → c.start ≤ bucketStart T (c.stop - 1)

namespace DataLayout

variable {H : Digest 32} {T : Nat} {L : DataLayout H T} {b : DataBlock H} {c d : Chunk} {n : Nat}

def chunks (L : DataLayout H T) : List Chunk := L.blocks.flatMap DataBlock.chunks

lemma chunks_pairwise : L.chunks.Pairwise fun c d => c.stop ≤ d.start := by
  rw [chunks, List.pairwise_flatMap]
  refine ⟨fun b _ => DataBlock.chunks_spec.2, L.ordered.imp ?_⟩
  intro b b' hbb c hc d hd
  have := DataBlock.chunks_spec.1 c hc
  have := DataBlock.chunks_spec.1 d hd
  omega

lemma eq_of_mem (hc : c ∈ L.chunks) (hd : d ∈ L.chunks) (hcn : c.start ≤ n ∧ n < c.stop) (hdn : d.start ≤ n ∧ n < d.stop) :
    c = d := by
  by_contra hne
  have := related_of_pairwise chunks_pairwise hc hd hne
  omega

/-- The index of all chunks by their end offsets. -/
def index (L : DataLayout H T) : SortedMap Nat Chunk := L.chunks.foldl (fun m c => m.insert c.stop c) SortedMap.empty

lemma mem_index {e : Nat × Chunk} : e ∈ L.index.entries ↔ e.2 ∈ L.chunks ∧ e.2.stop = e.1 := by
  obtain ⟨k, c⟩ := e
  have hagree : ∀ c ∈ L.chunks, ∀ d ∈ L.chunks, c.stop = d.stop → c = d := by
    intro c hc d hd heq
    have hc' := L.nonempty c hc
    have hd' := L.nonempty d hd
    exact eq_of_mem (n := c.stop - 1) hc hd (by omega) (by omega)
  rw [← SortedMap.lookup_eq_some, index, SortedMap.lookup_foldl_insert hagree]
  simp only [SortedMap.lookup_empty, reduceCtorEq, and_false, or_false]
  constructor
  · rintro ⟨d, hd, rfl, rfl⟩
    exact ⟨hd, rfl⟩
  · rintro ⟨hc, rfl⟩
    exact ⟨c, hc, rfl, rfl⟩

end DataLayout

end Arweave.Poa

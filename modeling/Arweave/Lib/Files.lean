import Arweave.Lib.Bytes

/-!
# Files

A file is the list of its bytes. Writing at a position beyond the end fills the gap with zeros, and
reading stops at the end. A file of blocks of one size is written and read by blocks.
-/

namespace Arweave.Lib.File

/-- The bytes of the file from the position on are replaced by the data. -/
def pwrite (f : Bytes) (pos : Nat) (data : Bytes) : Bytes :=
  f.take pos ++ List.replicate (pos - f.length) 0 ++ data ++ f.drop (pos + data.length)

/-- At most `len` bytes from the position on, or the end of the file. -/
def pread (f : Bytes) (pos len : Nat) : Option Bytes :=
  if f.length ≤ pos then none else some ((f.drop pos).take len)

/-- The data stands at the position. -/
def Contains (f : Bytes) (pos : Nat) (data : Bytes) : Prop := (f.drop pos).take data.length = data

variable {f data data' : Bytes} {pos pos' : Nat}

lemma length_take_append_replicate : (f.take pos ++ List.replicate (pos - f.length) 0).length = pos := by
  rw [List.length_append, List.length_take, List.length_replicate]
  omega

lemma contains_pwrite : Contains (pwrite f pos data) pos data := by
  rw [Contains, pwrite, List.append_assoc, List.drop_left' length_take_append_replicate, List.take_left]

lemma Contains.length_le (h : Contains f pos data) (hne : data ≠ []) : pos + data.length ≤ f.length := by
  have hlen := congrArg List.length h
  have hpos := List.length_pos_of_ne_nil hne
  rw [List.length_take, List.length_drop] at hlen
  omega

lemma Contains.pwrite (h : Contains f pos data) (hne : data ≠ [])
    (hapart : pos + data.length ≤ pos' ∨ pos' + data'.length ≤ pos) : Contains (pwrite f pos' data') pos data := by
  have hlen := h.length_le hne
  obtain hbefore | hafter := hapart
  · rw [Contains, File.pwrite, List.append_assoc, List.append_assoc, List.drop_append_of_le_length
      (by rw [List.length_take]; omega), List.take_append_of_le_length
      (by rw [List.length_drop, List.length_take]; omega), List.drop_take, List.take_take,
      Nat.min_eq_left (by omega)]
    exact h
  · have hpos' : (f.take pos' ++ List.replicate (pos' - f.length) 0 ++ data').length = pos' + data'.length := by
      rw [List.length_append, length_take_append_replicate]
    rw [Contains, File.pwrite, List.drop_append, List.drop_eq_nil_of_le (by omega), hpos', List.drop_drop,
      List.nil_append, Nat.add_sub_of_le hafter]
    exact h

lemma Contains.pread (h : Contains f pos data) (hne : data ≠ []) : pread f pos data.length = some data := by
  have hlen := h.length_le hne
  have hpos := List.length_pos_of_ne_nil hne
  rw [File.pread, if_neg (by omega), h]

section Blocks

variable {w : Nat} {blocks : List Bytes}

lemma length_flatten (hw : ∀ b ∈ blocks, b.length = w) : blocks.flatten.length = blocks.length * w := by
  rw [List.length_flatten, List.map_congr_left hw, List.map_const', List.sum_replicate_nat]

lemma drop_flatten (hw : ∀ b ∈ blocks, b.length = w) (n : Nat) : blocks.flatten.drop (n * w) = (blocks.drop n).flatten := by
  induction n generalizing blocks with
  | zero => rw [Nat.zero_mul, List.drop_zero, List.drop_zero]
  | succ n ih =>
    cases blocks with
    | nil => rw [List.drop_nil, List.flatten_nil, List.drop_nil]
    | cons b blocks =>
      have hb := hw b List.mem_cons_self
      rw [List.flatten_cons, Nat.succ_mul, Nat.add_comm, ← List.drop_drop, List.drop_left' hb, List.drop_succ_cons]
      exact ih fun b hb => hw b (List.mem_cons_of_mem _ hb)

lemma take_flatten (hw : ∀ b ∈ blocks, b.length = w) (n : Nat) : blocks.flatten.take (n * w) = (blocks.take n).flatten := by
  induction n generalizing blocks with
  | zero => rw [Nat.zero_mul, List.take_zero, List.take_zero, List.flatten_nil]
  | succ n ih =>
    cases blocks with
    | nil => rw [List.take_nil, List.flatten_nil, List.take_nil]
    | cons b blocks =>
      have hb := hw b List.mem_cons_self
      have htail := ih fun b hb => hw b (List.mem_cons_of_mem _ hb)
      rw [List.flatten_cons, Nat.succ_mul, Nat.add_comm, ← hb, List.take_length_add_append, hb, htail,
        List.take_succ_cons, List.flatten_cons]

lemma pwrite_flatten (hw : ∀ b ∈ blocks, b.length = w) (hdata : data.length = w) (n : Nat) :
    pwrite blocks.flatten (n * w) data =
      (blocks.take n ++ List.replicate (n - blocks.length) (List.replicate w 0) ++ data :: blocks.drop (n + 1)).flatten := by
  have hgap : List.replicate (n * w - blocks.flatten.length) (0 : UInt8) =
      (List.replicate (n - blocks.length) (List.replicate w 0)).flatten := by
    rw [length_flatten hw, List.flatten_replicate_replicate, Nat.sub_mul]
  have hend : n * w + data.length = (n + 1) * w := by rw [hdata, Nat.succ_mul]
  rw [pwrite, hgap, hend, take_flatten hw, drop_flatten hw, List.flatten_append, List.flatten_append, List.flatten_cons,
    List.append_assoc]

lemma pread_flatten (hw : ∀ b ∈ blocks, b.length = w) (hpos : 0 < w) {n : Nat} (hn : n < blocks.length) (count : Nat) :
    pread blocks.flatten (n * w) (count * w) = some ((blocks.drop n).take count).flatten := by
  have hlen : n * w < blocks.flatten.length := by
    rw [length_flatten hw]
    exact Nat.mul_lt_mul_of_pos_right hn hpos
  rw [pread, if_neg (not_le.mpr hlen), drop_flatten hw, take_flatten fun b hb => hw b (List.mem_of_mem_drop hb)]

end Blocks

end Arweave.Lib.File

import Arweave.BlockIndex.Updates

/-!
# Queries of the block index

What the walks over a table return, in terms of the list that the table represents. A walk is at
a position of the list: its next key is the key of that position.
-/

namespace Arweave.BlockIndex

open Lib

variable {t : Table} {l bi : List Element} {e : Element} {i n : Nat} {h : Bytes}

lemma drop_of_getElem? (he : l[i]? = some e) : l.drop i = e :: l.drop (i + 1) := by
  obtain ⟨hi, rfl⟩ := List.getElem?_eq_some_iff.mp he
  exact List.drop_eq_getElem_cons hi

lemma drop_of_getElem?_none (he : l[i]? = none) : l.drop i = [] :=
  List.drop_eq_nil_of_le (List.getElem?_eq_none_iff.mp he)

/-- The element at a height. -/
def atHeight (l : List Element) (height : Int) : Option Element := if height < 0 then none else l[height.toNat]?

lemma atHeight_eq_some {height : Int} : atHeight l height = some e ↔ 0 ≤ height ∧ l[height.toNat]? = some e := by
  rw [atHeight, Option.ite_none_left_eq_some, not_lt]

/-- The elements up to the first one with the hash, all of them when there is none. -/
def upTo (l : List Element) (h : Bytes) : List Element := l.take (l.findIdx (·.h = h) + 1)

@[simp] lemma upTo_nil : upTo [] h = [] := rfl

lemma upTo_cons : upTo (e :: l) h = if e.h = h then [e] else e :: upTo l h := by
  rw [upTo, upTo, List.findIdx_cons]
  by_cases heq : e.h = h
  · simp [heq]
  · simp [heq]

/-- The offset at which a block starts. -/
def blockStart (l : List Element) : Nat → Nat
  | 0 => 0
  | i + 1 => ((l[i]?).map (·.weaveSize)).getD 0

/-- The block at the height covers the offset. -/
def Covers (l : List Element) (offset : Int) (i : Nat) : Prop := ∃ e ∈ l[i]?, blockStart l i ≤ offset ∧ offset < e.weaveSize

/-- The size of the weave after the last block. -/
def weaveSize (l : List Element) : Nat := (l.getLast?.map (·.weaveSize)).getD 0

namespace Represents

lemma next_entry (ht : Represents t l) (he : l[i]? = some e) : t.next (e.entry i) = t.elems[i + 1]? :=
  OrdSet.next_of_getElem? (ht.getElem?_some he)

lemma getElem?_none (ht : Represents t l) (he : l[i]? = none) : t.elems[i]? = none := by
  rw [ht.getElem?, he]
  rfl

lemma getListLoop_eq (ht : Represents t l) :
    t.getListLoop n bi t.elems[i]? (i - 1) = some (((l.drop i).take n).reverse ++ bi) := by
  induction n generalizing i bi with
  | zero => simp [Table.getListLoop]
  | succ n ih =>
    cases he : l[i]? with
    | none => simp [ht.getElem?_none he, Table.getListLoop, drop_of_getElem?_none he]
    | some e =>
      have hnext := @ih (e :: bi) (i + 1)
      rw [Nat.cast_add_one, add_sub_cancel_right] at hnext
      simp only [ht.getElem?_some he, Table.getListLoop, ht.next_entry he, element_entry,
        height_entry, sub_add_cancel, if_true]
      rw [hnext, drop_of_getElem? he, List.take_succ_cons, List.reverse_cons, List.append_assoc]
      rfl

lemma getList_eq (ht : Represents t l) (height : Int) : t.getList height = some (l.take (height + 1).toNat).reverse := by
  have hloop := @getListLoop_eq t l [] 0 (height + 1).toNat ht
  rw [List.drop_zero, List.append_nil] at hloop
  rw [Table.getList, OrdSet.smallest_eq_getElem?, sub_neg_eq_add]
  exact hloop

lemma getListByHashLoop_eq (ht : Represents t l) (hn : l.length ≤ i + n) :
    t.getListByHashLoop h n bi t.elems[i]? (i - 1) = some ((upTo (l.drop i) h).reverse ++ bi) := by
  induction n generalizing i bi with
  | zero =>
    have he : l[i]? = none := List.getElem?_eq_none hn
    simp [ht.getElem?_none he, Table.getListByHashLoop, drop_of_getElem?_none he]
  | succ n ih =>
    cases he : l[i]? with
    | none => simp [ht.getElem?_none he, Table.getListByHashLoop, drop_of_getElem?_none he]
    | some e =>
      have hnext := @ih (e :: bi) (i + 1) (by omega)
      rw [Nat.cast_add_one, add_sub_cancel_right] at hnext
      simp only [ht.getElem?_some he, Table.getListByHashLoop, ht.next_entry he, element_entry,
        height_entry, h_entry, sub_add_cancel, if_true]
      rw [hnext, drop_of_getElem? he, upTo_cons]
      by_cases heq : e.h = h
      · rw [if_pos heq, if_pos heq]
        rfl
      · rw [if_neg heq, if_neg heq, List.reverse_cons, List.append_assoc]
        rfl

lemma getListByHash_eq (ht : Represents t l) (h : Bytes) : t.getListByHash h = some (upTo l h).reverse := by
  have hloop := @getListByHashLoop_eq t l [] 0 l.length h ht (by omega)
  rw [List.drop_zero, List.append_nil] at hloop
  rw [Table.getListByHash, OrdSet.smallest_eq_getElem?, ht.length_eq]
  exact hloop

lemma slot_eq (ht : Represents t l) (height : Int) : t.slot height = (atHeight l height).map (·.entry height.toNat) := by
  rw [Table.slot, atHeight]
  split_ifs with hneg
  · rfl
  · exact ht.getElem?

lemma getElementByHeight_eq (ht : Represents t l) (height : Int) :
    t.getElementByHeight height = some (atHeight l height) := by
  rw [Table.getElementByHeight, ht.slot_eq]
  cases he : atHeight l height with
  | none => rfl
  | some e => exact if_pos (Int.toNat_of_nonneg (atHeight_eq_some.mp he).1)

lemma getRange2_eq (ht : Represents t l) : t.getRange2 n t.elems[i]? = (l.drop i).take n := by
  induction n generalizing i with
  | zero => simp [Table.getRange2]
  | succ n ih =>
    cases he : l[i]? with
    | none => simp [ht.getElem?_none he, Table.getRange2, drop_of_getElem?_none he]
    | some e =>
      rw [ht.getElem?_some he, Table.getRange2, ht.next_entry he, ih, drop_of_getElem? he, List.take_succ_cons]
      rfl

lemma getRange_eq (ht : Represents t l) {first last : Int} (hle : first ≤ last) :
    t.getRange first last =
      (atHeight l first).map fun _ => ((l.take (last + 1).toNat).drop first.toNat).reverse := by
  rw [Table.getRange, if_neg (not_lt.mpr hle), ht.slot_eq]
  cases he : atHeight l first with
  | none => rfl
  | some e =>
    obtain ⟨hnonneg, he⟩ := atHeight_eq_some.mp he
    have hlen : (last + 1).toNat = first.toNat + ((last - first).toNat + 1) := by omega
    simp only [Option.map_some, ht.next_entry he, ht.getRange2_eq, element_entry, hlen]
    rw [List.drop_take, Nat.add_sub_cancel_left, drop_of_getElem? he, List.take_succ_cons]

lemma memberLoop_eq (ht : Represents t l) (he : l[i]? = some e) (hn : i < n) :
    t.memberLoop h n (some (e.entry i)) = some ((l.take (i + 1)).any (·.h = h)) := by
  induction n generalizing i e with
  | zero => omega
  | succ n ih =>
    have hsplit : l.take (i + 1) = l.take i ++ [e] := by rw [List.take_add_one, he, Option.toList_some]
    rw [Table.memberLoop, h_entry, hsplit, List.any_append]
    by_cases heq : e.h = h
    · simp [heq]
    · rw [if_neg heq]
      cases i with
      | zero =>
        rw [OrdSet.prev_of_getElem?_zero (ht.getElem?_some he)]
        simp [Table.memberLoop, heq]
      | succ i =>
        have hi := (List.getElem?_eq_some_iff.mp he).1
        have hprev : l[i]? = some l[i] := List.getElem?_eq_getElem (by omega)
        rw [OrdSet.prev_of_getElem? (ht.getElem?_some he), ht.getElem?_some hprev, ih hprev (by omega)]
        simp [heq]

lemma member_eq (ht : Represents t l) (h : Bytes) : t.member h = some (l.any (·.h = h)) := by
  rw [Table.member, ht.last_eq, List.getLast?_eq_getElem?]
  cases he : l[l.length - 1]? with
  | none =>
    have hlen := List.getElem?_eq_none_iff.mp he
    have hnil : l = [] := List.length_eq_zero_iff.mp (by omega)
    rw [hnil, ht.length_eq, hnil]
    rfl
  | some e =>
    have hlen := (List.getElem?_eq_some_iff.mp he).1
    rw [Option.map_some, ht.length_eq, ht.memberLoop_eq he hlen, Nat.sub_add_cancel (by omega), List.take_length]

lemma nextOffset_eq (ht : Represents t l) {offset : Int} (hbefore : ∀ j < i, ∀ e ∈ l[j]?, (e.weaveSize : Int) ≤ offset)
    (hat : ∀ e ∈ l[i]?, offset < e.weaveSize) : t.nextOffset offset = t.elems[i]? := by
  apply OrdSet.find?_eq_getElem?
  · intro j hj y hy
    rw [Option.mem_def, ht.getElem?, Option.map_eq_some_iff] at hy
    obtain ⟨e, he, rfl⟩ := hy
    exact decide_eq_false (not_lt.mpr (hbefore j hj e he))
  · intro y hy
    rw [Option.mem_def, ht.getElem?, Option.map_eq_some_iff] at hy
    obtain ⟨e, he, rfl⟩ := hy
    exact decide_eq_true (hat e he)

end Represents

section Bounds

variable {offset : Int}

lemma Nondecreasing.le_of_lt {j : Nat} {e' : Element} (hl : Nondecreasing l) (he : l[i]? = some e) (he' : l[j]? = some e')
    (hij : i < j) : e.weaveSize ≤ e'.weaveSize := by
  obtain ⟨hi, rfl⟩ := List.getElem?_eq_some_iff.mp he
  obtain ⟨hj, rfl⟩ := List.getElem?_eq_some_iff.mp he'
  exact List.pairwise_iff_getElem.mp hl i j hi hj hij

lemma weaveSize_le_of_covers (hl : Nondecreasing l) {j : Nat} (hcovers : Covers l offset i) (hj : j < i)
    (he : l[j]? = some e) : (e.weaveSize : Int) ≤ offset := by
  obtain ⟨e', he', hstart, -⟩ := hcovers
  cases i with
  | zero => omega
  | succ i =>
    have hi := (List.getElem?_eq_some_iff.mp he').1
    have hprev : l[i]? = some l[i] := List.getElem?_eq_getElem (by omega)
    rw [blockStart, hprev, Option.map_some, Option.getD_some] at hstart
    rcases Nat.lt_succ_iff_lt_or_eq.mp hj with hlt | rfl
    · have hle := hl.le_of_lt he hprev hlt
      omega
    · rw [hprev, Option.some.injEq] at he
      rw [← he]
      exact hstart

lemma Covers.unique (hl : Nondecreasing l) {j : Nat} (hi : Covers l offset i) (hj : Covers l offset j) : i = j := by
  obtain ⟨e, he, -, hlt⟩ := id hi
  obtain ⟨e', he', -, hlt'⟩ := id hj
  rcases Nat.lt_trichotomy i j with hij | hij | hij
  · have hle := weaveSize_le_of_covers hl hj hij he
    omega
  · exact hij
  · have hle := weaveSize_le_of_covers hl hi hij he'
    omega

lemma exists_covers (hnonneg : 0 ≤ offset) (hlt : offset < weaveSize l) : ∃ i, Covers l offset i := by
  induction l using List.reverseRecOn with
  | nil =>
    rw [weaveSize] at hlt
    exact absurd hnonneg (not_le.mpr hlt)
  | append_singleton l e ih =>
    rw [weaveSize, List.getLast?_concat] at hlt
    by_cases hbefore : offset < weaveSize l
    · obtain ⟨i, e', he', hstart, hend⟩ := ih hbefore
      have hi := (List.getElem?_eq_some_iff.mp he').1
      refine ⟨i, e', ?_, ?_, hend⟩
      · rw [List.getElem?_append_left hi]
        exact he'
      · cases i with
        | zero => exact hstart
        | succ i =>
          rw [blockStart, List.getElem?_append_left (by omega)]
          exact hstart
    · refine ⟨l.length, e, List.getElem?_concat_length, ?_, hlt⟩
      cases hlen : l.length with
      | zero => exact hnonneg
      | succ n =>
        rw [weaveSize, List.getLast?_eq_getElem?, hlen, Nat.add_sub_cancel] at hbefore
        rw [blockStart, List.getElem?_append_left (by omega)]
        exact not_lt.mp hbefore

lemma Represents.getBlockBounds_eq (ht : Represents t l) (hl : Nondecreasing l) (hcovers : Covers l offset i)
    (he : l[i]? = some e) : t.getBlockBounds offset = some (blockStart l i, e.weaveSize, e.txRoot) := by
  have hnext : t.nextOffset offset = t.elems[i]? := by
    apply ht.nextOffset_eq
    · exact fun j hj e' he' => weaveSize_le_of_covers hl hcovers hj he'
    · intro e' he'
      obtain ⟨e'', he'', -, hlt⟩ := hcovers
      rw [Option.mem_unique he' he'']
      exact hlt
  rw [Table.getBlockBounds, hnext, ht.getElem?_some he]
  cases i with
  | zero => rfl
  | succ i =>
    have hi := (List.getElem?_eq_some_iff.mp he).1
    have hprev : l[i]? = some l[i] := List.getElem?_eq_getElem (by omega)
    simp only [height_entry, Nat.add_one_ne_zero, if_false, OrdSet.prev_of_getElem? (ht.getElem?_some he),
      ht.getElem?_some hprev, blockStart, hprev]
    rfl

lemma Represents.getBlockBounds_eq_none (ht : Represents t l) (hl : Nondecreasing l) (hge : weaveSize l ≤ offset) :
    t.getBlockBounds offset = none := by
  have hnext : t.nextOffset offset = none := by
    rw [← ht.getElem?_none (List.getElem?_eq_none le_rfl)]
    apply ht.nextOffset_eq
    · intro j hj e he
      have hlast : l[l.length - 1]? = some l[l.length - 1] := List.getElem?_eq_getElem (by omega)
      rw [weaveSize, List.getLast?_eq_getElem?, hlast, Option.map_some, Option.getD_some] at hge
      rcases Nat.lt_or_ge j (l.length - 1) with hlt | hge'
      · have hle := hl.le_of_lt he hlast hlt
        omega
      · obtain rfl : j = l.length - 1 := by omega
        rw [Option.mem_unique he hlast]
        exact hge
    · intro e he
      rw [List.getElem?_eq_none le_rfl] at he
      cases he
  rw [Table.getBlockBounds, hnext]

end Bounds

end Arweave.BlockIndex

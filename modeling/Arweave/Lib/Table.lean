import Arweave.Lib.Sorted

/-!
# Ordered tables

A table that is walked by asking for the next or the previous key, which need not be a key of
the table. The key at position `i` is followed by the one at position `i + 1`.
-/

namespace Arweave.Lib.OrdSet

variable {α : Type*} [LinearOrder α] {s : OrdSet α} {x y : α} {i : Nat}

/-- The smallest key above the given one. -/
def next (s : OrdSet α) (x : α) : Option α := s.elems.find? (x < ·)

/-- The largest key below the given one. -/
def prev (s : OrdSet α) (x : α) : Option α := (s.elems.filter (· < x)).getLast?

def last (s : OrdSet α) : Option α := s.elems.getLast?

lemma smallest_eq_getElem? : s.smallest = s.elems[0]? := List.head?_eq_getElem?

lemma lt_of_getElem? {j : Nat} (hx : s.elems[i]? = some x) (hy : s.elems[j]? = some y) (hij : i < j) : x < y := by
  obtain ⟨hi, rfl⟩ := List.getElem?_eq_some_iff.mp hx
  obtain ⟨hj, rfl⟩ := List.getElem?_eq_some_iff.mp hy
  exact List.pairwise_iff_getElem.mp s.sorted i j hi hj hij

omit [LinearOrder α] in
lemma find?_eq_getElem? {l : List α} {p : α → Bool} (hbefore : ∀ j < i, ∀ y ∈ l[j]?, p y = false)
    (hat : ∀ y ∈ l[i]?, p y = true) : l.find? p = l[i]? := by
  induction l generalizing i with
  | nil => rfl
  | cons z l ih =>
    cases i with
    | zero => exact List.find?_cons_of_pos (hat z rfl)
    | succ i =>
      rw [List.find?_cons_of_neg (by simpa using hbefore 0 (Nat.zero_lt_succ i) z rfl), List.getElem?_cons_succ]
      exact ih (fun j hj y hy => hbefore (j + 1) (by omega) y hy) fun y hy => hat y hy

lemma next_of_getElem? (hx : s.elems[i]? = some x) : s.next x = s.elems[i + 1]? := by
  refine find?_eq_getElem? ?_ ?_
  · intro j hj y hy
    rw [decide_eq_false_iff_not, not_lt]
    rcases Nat.lt_succ_iff_lt_or_eq.mp hj with hlt | rfl
    · exact (lt_of_getElem? hy hx hlt).le
    · rw [Option.mem_def, hx, Option.some.injEq] at hy
      exact hy.ge
  · intro y hy
    exact decide_eq_true (lt_of_getElem? hx hy (Nat.lt_succ_self i))

lemma prev_of_getElem? (hx : s.elems[i + 1]? = some x) : s.prev x = s.elems[i]? := by
  have hbelow : (s.elems.take (i + 1)).filter (· < x) = s.elems.take (i + 1) := by
    rw [List.filter_eq_self]
    intro y hy
    obtain ⟨j, hj⟩ := List.mem_iff_getElem?.mp hy
    rw [List.getElem?_take, Option.ite_none_right_eq_some] at hj
    exact decide_eq_true (lt_of_getElem? hj.2 hx hj.1)
  have habove : (s.elems.drop (i + 1)).filter (· < x) = [] := by
    rw [List.filter_eq_nil_iff]
    intro y hy
    obtain ⟨j, hj⟩ := List.mem_iff_getElem?.mp hy
    rw [List.getElem?_drop] at hj
    rw [decide_eq_true_eq, not_lt]
    rcases Nat.eq_zero_or_pos j with rfl | hpos
    · rw [Nat.add_zero, hx, Option.some.injEq] at hj
      exact hj.le
    · exact (lt_of_getElem? hx hj (by omega)).le
  have hfilter : s.elems.filter (· < x) = s.elems.take (i + 1) := by
    rw [← List.take_append_drop (i + 1) s.elems, List.filter_append, List.take_append_drop, hbelow, habove,
      List.append_nil]
  have hi := (List.getElem?_eq_some_iff.mp hx).1
  rw [prev, hfilter, List.getLast?_take]
  simp [List.getElem?_eq_getElem (show i < s.elems.length by omega)]

lemma prev_of_getElem?_zero (hx : s.elems[0]? = some x) : s.prev x = none := by
  have hnil : s.elems.filter (· < x) = [] := by
    rw [List.filter_eq_nil_iff]
    intro y hy
    rw [decide_eq_true_eq, not_lt]
    exact smallest_le (smallest_eq_getElem?.trans hx) hy
  rw [prev, hnil]
  rfl

lemma elems_add_of_forall_lt (h : ∀ y ∈ s, y < x) : (s.add x).elems = s.elems ++ [x] := by
  have hbelow : s.elems.filter (· < x) = s.elems := by
    rw [List.filter_eq_self]
    exact fun y hy => decide_eq_true (h y hy)
  have habove : s.elems.filter (x < ·) = [] := by
    rw [List.filter_eq_nil_iff]
    intro y hy
    rw [decide_eq_true_eq]
    exact (h y hy).not_gt
  rw [add]
  simp only [hbelow, habove]

lemma le_last (h : s.last = some x) (hy : y ∈ s) : y ≤ x := by
  obtain ⟨l, hl⟩ := List.getLast?_eq_some_iff.mp h
  have hsorted := s.sorted
  rw [hl, List.pairwise_append] at hsorted
  rw [← mem_elems, hl, List.mem_append, List.mem_singleton] at hy
  rcases hy with hy | rfl
  · exact (hsorted.2.2 y hy x (List.mem_singleton_self x)).le
  · exact le_rfl

lemma elems_erase_last (h : s.last = some x) : (s.erase x).elems = s.elems.dropLast := by
  obtain ⟨l, hl⟩ := List.getLast?_eq_some_iff.mp h
  have hnot : x ∉ l := by
    have hnodup := s.nodup
    rw [hl, List.nodup_append] at hnodup
    exact fun hx => hnodup.2.2 x hx x (List.mem_singleton_self x) rfl
  have hinit : l.filter (· ≠ x) = l := by
    rw [List.filter_eq_self]
    intro y hy
    apply decide_eq_true
    rintro rfl
    exact hnot hy
  rw [erase]
  simp only [hl, List.filter_append, List.dropLast_concat, hinit]
  simp

lemma elems_erase_smallest (h : s.smallest = some x) : s.elems = x :: (s.erase x).elems := by
  obtain ⟨rest, hrest⟩ := List.head?_eq_some_iff.mp h
  have hsorted := s.sorted
  rw [hrest, List.pairwise_cons] at hsorted
  have htail : rest.filter (· ≠ x) = rest := by
    rw [List.filter_eq_self]
    exact fun y hy => decide_eq_true (hsorted.1 y hy).ne'
  rw [erase]
  simp only [hrest]
  rw [List.filter_cons_of_neg (by simp), htail]

end Arweave.Lib.OrdSet

namespace Arweave.Lib.SortedMap

variable {K V : Type*} [LinearOrder K] {m m' : SortedMap K V} {k k' : K} {a b : K × V}

/-- The entry with the smallest key above the given one. -/
def next (m : SortedMap K V) (k : K) : Option (K × V) := m.entries.find? (k < ·.1)

/-- The number of keys above the given one. -/
def above (m : SortedMap K V) (k : K) : Nat := (m.entries.filter (k < ·.1)).length

lemma mem_of_next (h : m.next k = some a) : a ∈ m.entries := List.mem_of_find?_eq_some h

lemma lt_of_next (h : m.next k = some a) : k < a.1 := by simpa using List.find?_some h

lemma le_of_next (h : m.next k = some a) (hb : b ∈ m.entries) (hk : k < b.1) : a.1 ≤ b.1 :=
  le_of_find? h hb (decide_eq_true hk)

lemma le_of_next_eq_none (h : m.next k = none) (hb : b ∈ m.entries) : b.1 ≤ k := by
  simpa using List.find?_eq_none.mp h b hb

lemma above_lt_above (hsub : ∀ b ∈ m'.entries, k' < b.1 → b ∈ m.entries ∧ k < b.1) (ha : a ∈ m.entries)
    (hk : k < a.1) (hgone : a ∈ m'.entries → ¬ k' < a.1) : m'.above k' < m.above k := by
  have hnot : a ∉ m'.entries.filter (k' < ·.1) := by
    intro hmem
    obtain ⟨hmem, hlt⟩ := List.mem_filter.mp hmem
    exact hgone hmem (by simpa using hlt)
  have hsubset : a :: m'.entries.filter (k' < ·.1) ⊆ m.entries.filter (k < ·.1) := by
    intro b hb
    rw [List.mem_filter, decide_eq_true_eq]
    rcases List.mem_cons.mp hb with rfl | hb
    · exact ⟨ha, hk⟩
    · obtain ⟨hb, hlt⟩ := List.mem_filter.mp hb
      exact hsub b hb (by simpa using hlt)
  exact (List.subperm_of_subset (List.nodup_cons.mpr ⟨hnot, m'.nodup.filter _⟩) hsubset).length_le

end Arweave.Lib.SortedMap

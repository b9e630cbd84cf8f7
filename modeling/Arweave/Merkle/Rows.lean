import Arweave.Merkle.Layout

/-!
# Rows of layouts

The generator works on rows of nodes. `pairRow` and `assemble` are the same steps on
layouts, and `assembleOrder` is the flat list that they leave: the steps keep the offsets
that a row covers and the chunks in it, and the flat list holds exactly the subtrees of
the row. Looking a node up by its identifier then finds a node with the same contents,
although possibly with the other rebase flag.
-/

namespace Arweave.Merkle
open Arweave.Lib

namespace Layout

/-- The branch over two neighbours of a row, the first of which starts at `shift`. -/
def join (l r : Layout) (shift : Nat) : Layout := .branch false l r (l.base shift + l.maxNote)

def pairRow : List Layout → Nat → List Layout
  | [], _ => []
  | [t], _ => [t]
  | l :: r :: rest, shift => join l r shift :: pairRow rest (join l r shift).maxNote

lemma length_pairRow (row : List Layout) (shift : Nat) :
    (pairRow row shift).length = (row.length + 1) / 2 := by
  fun_induction pairRow row shift with
  | case1 => rfl
  | case2 => simp
  | case3 l r rest shift ih =>
    simp only [List.length_cons, ih]
    omega

/-- The rows up to the root. -/
def assemble (row : List Layout) : Option Layout :=
  match row with
  | [] => none
  | [t] => some t
  | l :: r :: rest => assemble (pairRow (l :: r :: rest) 0)
termination_by row.length
decreasing_by
  rw [length_pairRow]
  simp only [List.length_cons]
  omega

/-- The flat list after these rows; every new row goes to the front. -/
def assembleOrder (row order : List Layout) : List Layout :=
  match row with
  | [] => order
  | [_] => order
  | l :: r :: rest =>
    let newRow := pairRow (l :: r :: rest) 0
    assembleOrder newRow (newRow ++ order)
termination_by row.length
decreasing_by
  rw [length_pairRow]
  simp only [List.length_cons]
  omega

/-- The layouts of the row cover the offsets from `lo` to `hi` one after the other. -/
def RowSpans : List Layout → Nat → Nat → Prop
  | [], lo, hi => lo = hi
  | t :: rest, lo, hi => lo ≤ t.base lo + t.maxNote ∧ t.Spans (lo - t.base lo) t.maxNote ∧
      RowSpans rest (t.base lo + t.maxNote) hi

def rowChunks : List Layout → Nat → List Chunk
  | [], _ => []
  | t :: rest, lo => (t.chunks (lo - t.base lo) t.maxNote).map (Chunk.shift (t.base lo)) ++
      rowChunks rest (t.base lo + t.maxNote)

lemma maxNote_join (l r : Layout) (shift : Nat) : (join l r shift).maxNote =
    r.base (l.base shift + l.maxNote) + r.maxNote := by
  simp only [join, maxNote, base]
  split_ifs <;> omega

@[simp] lemma base_join (l r : Layout) (shift lo : Nat) : (join l r shift).base lo = 0 := rfl

lemma RowSpans.pairRow {row : List Layout} {lo hi : Nat} (h : RowSpans row lo hi) :
    RowSpans (pairRow row lo) lo hi ∧ rowChunks (Layout.pairRow row lo) lo = rowChunks row lo := by
  fun_induction Layout.pairRow row lo with
  | case1 => exact ⟨h, rfl⟩
  | case2 => exact ⟨h, rfl⟩
  | case3 l r rest lo ih =>
    obtain ⟨h1, hl, h2, hr, hrest⟩ := h
    have hmax := maxNote_join l r lo
    rw [← hmax] at hrest h2
    obtain ⟨ih1, ih2⟩ := ih hrest
    have hbr := r.base_le (l.base lo + l.maxNote)
    refine ⟨⟨?_, ⟨h1, ?_, ?_, ?_⟩, ?_⟩, ?_⟩
    · rw [base_join, zero_add]
      exact h1.trans h2
    · exact h2
    · simpa using hl
    · rw [hmax, Nat.add_sub_cancel_left]
      exact hr
    · simpa using ih1
    · rw [hmax] at ih2
      simp only [rowChunks, base_join, Nat.sub_zero, zero_add, Chunk.map_shift_zero, hmax, ih2]
      simp [join, chunks, List.append_assoc]

lemma RowSpans.assemble {row : List Layout} {t : Layout} {hi : Nat} (h : RowSpans row 0 hi)
    (ht : assemble row = some t) : t.Spans 0 hi ∧ t.chunks 0 hi = rowChunks row 0 := by
  fun_induction Layout.assemble row with
  | case1 => cases ht
  | case2 u =>
    obtain rfl := Option.some.inj ht
    obtain ⟨-, hspan, hlast⟩ := h
    simp only [RowSpans, base, ite_self, zero_add] at hlast hspan
    subst hlast
    simpa [rowChunks, base] using hspan
  | case3 l r rest ih =>
    obtain ⟨hrow, hchunks⟩ := h.pairRow
    rw [← hchunks]
    exact ih hrow ht

lemma assemble_isSome {row : List Layout} (h : row ≠ []) : ∃ t, assemble row = some t := by
  fun_induction assemble row with
  | case1 => exact absurd rfl h
  | case2 t => exact ⟨t, rfl⟩
  | case3 l r rest ih => exact ih (by simp [pairRow])

end Layout

open Layout

variable {H : Digest 32}

lemma generateNode_toNode (l r : Layout) (shift : Nat) :
    generateNode H (l.toNode H) (r.toNode H) shift =
      ((join l r shift).toNode H, (join l r shift).maxNote) := by
  have hnote : (if l.rebased then shift + l.maxNote else l.maxNote) = l.base shift + l.maxNote := by
    unfold base
    split_ifs <;> omega
  have hjoin : (join l r shift).toNode H = ⟨nodeHash H (l.id H) (r.id H) (l.base shift + l.maxNote),
      .branch (l.id H) (r.id H), l.base shift + l.maxNote, (join l r shift).maxNote, false⟩ := rfl
  rw [hjoin]
  simp only [generateNode, toNode_isRebased, toNode_max, toNode_id, hnote]
  rfl

lemma generateRow_toNode (row : List Layout) (shift : Nat) :
    generateRow H (row.map (toNode H)) shift = (pairRow row shift).map (toNode H) := by
  fun_induction pairRow row shift with
  | case1 => rfl
  | case2 => rfl
  | case3 l r rest shift ih => simp only [List.map_cons, generateRow, generateNode_toNode, ih]

/-- The flat list holds exactly the subtrees of the row. -/
structure Lists (order row : List Layout) : Prop where
  complete : ∀ t ∈ row, ∀ u ∈ t.subtrees, u ∈ order
  sound : ∀ u ∈ order, ∃ t ∈ row, u ∈ t.subtrees
  height_le : ∀ t ∈ row, t.height ≤ order.length

lemma mem_pairRow (row : List Layout) (shift : Nat) :
    (∀ t ∈ pairRow row shift, t ∈ row ∨ ∃ l ∈ row, ∃ r ∈ row, ∃ x, t = join l r x) ∧
    (∀ t ∈ row, ∃ u ∈ pairRow row shift, t ∈ u.subtrees) := by
  fun_induction pairRow row shift with
  | case1 => simp
  | case2 t =>
    simp only [List.mem_singleton]
    exact ⟨fun u hu => .inl hu, fun u hu => ⟨t, rfl, hu ▸ t.mem_subtrees_self⟩⟩
  | case3 l r rest shift ih =>
    obtain ⟨ih1, ih2⟩ := ih
    simp only [List.mem_cons]
    refine ⟨?_, ?_⟩
    · rintro t (rfl | ht)
      · exact .inr ⟨l, .inl rfl, r, .inr (.inl rfl), shift, rfl⟩
      · rcases ih1 t ht with h | ⟨a, ha, b, hb, x, rfl⟩
        · exact .inl (.inr (.inr h))
        · exact .inr ⟨a, .inr (.inr ha), b, .inr (.inr hb), x, rfl⟩
    · rintro t (rfl | rfl | ht)
      · exact ⟨_, .inl rfl, by simp [join, subtrees, mem_subtrees_self]⟩
      · exact ⟨_, .inl rfl, by simp [join, subtrees, mem_subtrees_self]⟩
      · obtain ⟨u, hu, hsub⟩ := ih2 t ht
        exact ⟨u, .inr hu, hsub⟩

lemma mem_subtrees_of_assemble {row : List Layout} {t u : Layout} (h : assemble row = some t)
    (hu : u ∈ row) : u ∈ t.subtrees := by
  fun_induction assemble row generalizing u with
  | case1 => cases h
  | case2 v =>
    obtain rfl := Option.some.inj h
    obtain rfl := List.mem_singleton.mp hu
    exact mem_subtrees_self _
  | case3 l r rest ih =>
    obtain ⟨v, hv, huv⟩ := (mem_pairRow (l :: r :: rest) 0).2 u hu
    exact subtrees_trans (ih h hv) huv

lemma subtree_of_assemble {row : List Layout} {t u : Layout} (h : assemble row = some t)
    (hu : u ∈ t.subtrees) :
    (∃ s ∈ row, u ∈ s.subtrees) ∨ ∃ l r note, u = .branch false l r note := by
  fun_induction assemble row with
  | case1 => cases h
  | case2 v =>
    obtain rfl := Option.some.inj h
    exact .inl ⟨v, by simp, hu⟩
  | case3 l r rest ih =>
    rcases ih h with ⟨s, hs, hus⟩ | hbranch
    · rcases (mem_pairRow (l :: r :: rest) 0).1 s hs with hs | ⟨a, ha, b, hb, x, rfl⟩
      · exact .inl ⟨s, hs, hus⟩
      · simp only [join, subtrees, List.mem_cons, List.mem_append] at hus
        rcases hus with rfl | hus | hus
        · exact .inr ⟨_, _, _, rfl⟩
        · exact .inl ⟨a, ha, hus⟩
        · exact .inl ⟨b, hb, hus⟩
    · exact .inr hbranch

lemma Lists.pairRow {order row : List Layout} (h : Lists order row) (hrow : row ≠ []) (shift : Nat) :
    Lists (Layout.pairRow row shift ++ order) (Layout.pairRow row shift) := by
  obtain ⟨hnew, hold⟩ := mem_pairRow row shift
  have hpos : 0 < (Layout.pairRow row shift).length := by
    rw [length_pairRow]
    have := List.length_pos_iff.mpr hrow
    omega
  refine ⟨?_, ?_, ?_⟩
  · intro t ht u hu
    rcases hnew t ht with h' | ⟨l, hl, r, hr, x, rfl⟩
    · exact List.mem_append_right _ (h.complete t h' u hu)
    · simp only [join, subtrees, List.mem_cons, List.mem_append] at hu
      rcases hu with rfl | hu | hu
      · exact List.mem_append_left _ ht
      · exact List.mem_append_right _ (h.complete l hl u hu)
      · exact List.mem_append_right _ (h.complete r hr u hu)
  · intro u hu
    rcases List.mem_append.mp hu with hu | hu
    · exact ⟨u, hu, u.mem_subtrees_self⟩
    · obtain ⟨t, ht, hut⟩ := h.sound u hu
      obtain ⟨v, hv, htv⟩ := hold t ht
      exact ⟨v, hv, subtrees_trans htv hut⟩
  · intro t ht
    rw [List.length_append]
    rcases hnew t ht with h' | ⟨l, hl, r, hr, x, rfl⟩
    · exact (h.height_le t h').trans (Nat.le_add_left _ _)
    · have h1 := h.height_le l hl
      have h2 := h.height_le r hr
      simp only [join, height]
      omega

lemma generateAllRows_spec (H : Digest 32) {row order : List Layout} (h : Lists order row)
    (hrow : row ≠ []) :
    ∃ t, assemble row = some t ∧ Lists (assembleOrder row order) [t] ∧
      generateAllRows H (row.map (toNode H)) (order.map (toNode H)) =
        some (t.id H, (assembleOrder row order).map (toNode H)) := by
  fun_induction assembleOrder row order with
  | case1 => exact absurd rfl hrow
  | case2 order t =>
    refine ⟨t, by rw [assemble], h, ?_⟩
    rw [List.map_singleton, generateAllRows, toNode_id]
  | case3 order l r rest newRow ih =>
    obtain ⟨t, hasm, hlists, hrows⟩ := ih (h.pairRow (by simp) 0) (by simp [newRow, Layout.pairRow])
    refine ⟨t, by rw [assemble, hasm], hlists, ?_⟩
    have hmap := @generateRow_toNode H (l :: r :: rest) 0
    simp only [List.map_cons] at hmap ⊢
    rw [generateAllRows, hmap, ← List.map_append, hrows]

/-- The list of nodes holds exactly the nodes of the layout. -/
structure Represents (H : Digest 32) (tree : List Node) (t : Layout) : Prop where
  complete : ∀ u ∈ t.subtrees, u.toNode H ∈ tree
  sound : ∀ n ∈ tree, ∃ u ∈ t.subtrees, n = u.toNode H
  height_le : t.height ≤ tree.length

lemma Lists.represents {order : List Layout} {t : Layout} (h : Lists order [t]) :
    Represents H (order.map (toNode H)) t := by
  refine ⟨fun u hu => List.mem_map_of_mem (h.complete t (by simp) u hu), fun n hn => ?_, ?_⟩
  · obtain ⟨u, hu, rfl⟩ := List.mem_map.mp hn
    obtain ⟨t', ht', hut⟩ := h.sound u hu
    obtain rfl := List.mem_singleton.mp ht'
    exact ⟨u, hut, rfl⟩
  · rw [List.length_map]
    exact h.height_le t (by simp)

section Lookup

variable {tree : List Node} {t : Layout}

lemma Represents.strings_mem (h : Represents H tree t) {u : Layout} (hu : u ∈ t.subtrees) :
    ∀ x ∈ (u.toNode H).strings H, x ∈ treeStrings H tree := by
  intro x hx
  exact List.mem_flatMap.mpr ⟨_, h.complete u hu, hx⟩

lemma Represents.eq_of_id_eq (h : Represents H tree t) (hH : H.CollisionFree (treeStrings H tree))
    (hnote : ∀ u ∈ t.subtrees, u.note < 256 ^ noteSize) {u v : Layout} (hu : u ∈ t.subtrees)
    (hv : v ∈ t.subtrees) (hid : u.id H = v.id H) :
    (u.toNode H).body = (v.toNode H).body ∧ u.note = v.note := by
  have hsu := h.strings_mem hu
  have hsv := h.strings_mem hv
  have hnu := hnote u hu
  have hnv := hnote v hv
  cases u <;> cases v
  · obtain ⟨rfl, rfl⟩ := leafHash_inj hH hnu hnv hsu hsv hid
    exact ⟨rfl, rfl⟩
  · exact absurd hid (leafHash_ne_nodeHash hH hsu hsv)
  · exact absurd hid.symm (leafHash_ne_nodeHash hH hsv hsu)
  · obtain ⟨hl, hr, rfl⟩ := nodeHash_inj hH hnu hnv hsu hsv hid
    exact ⟨by simp only [toNode, hl, hr], rfl⟩

lemma Represents.getNode (h : Represents H tree t) (hH : H.CollisionFree (treeStrings H tree))
    (hnote : ∀ u ∈ t.subtrees, u.note < 256 ^ noteSize) {u : Layout} (hu : u ∈ t.subtrees) :
    ∃ v ∈ t.subtrees, Merkle.getNode (u.id H) tree = some (v.toNode H) ∧ v.id H = u.id H ∧
      (v.toNode H).body = (u.toNode H).body ∧ v.note = u.note := by
  have hfind : (Merkle.getNode (u.id H) tree).isSome := by
    rw [Merkle.getNode, List.find?_isSome]
    exact ⟨u.toNode H, h.complete u hu, by simp⟩
  obtain ⟨n, hn⟩ := Option.isSome_iff_exists.mp hfind
  obtain ⟨v, hv, rfl⟩ := h.sound n (List.mem_of_find?_eq_some hn)
  have hid : v.id H = u.id H := by simpa using List.find?_some hn
  exact ⟨v, hv, hn, hid, h.eq_of_id_eq hH hnote hv hu hid⟩

end Lookup

end Arweave.Merkle

import Arweave.Merkle.Routing

/-!
# From elements to layouts

`layoutRow` gives the first row of layouts for a list of elements and `nodeOrder` the flat
list of all layouts. `generateTree` ends in the assembled row: its root is the identifier
of the layout and its nodes are those of the flat list. A nested list is marked by the
identifier of its root, which by collision freeness no other node of that list has.
-/

namespace Arweave.Merkle
open Arweave.Lib Layout

/-- The layouts of the elements of a list; a nested list must not be empty. -/
def layoutRow : List Element → Option (List Layout)
  | [] => some []
  | .leaf data offset :: rest => do
    let row ← layoutRow rest
    some (.leaf false data offset :: row)
  | .list elements :: rest => do
    let sub ← layoutRow elements
    let t ← assemble sub
    let row ← layoutRow rest
    some (t.mark :: row)
termination_by elements => sizeOf elements

/-- The layout `u` in a nested list with the root `t`. -/
def markAs (t u : Layout) : Layout := if u.erase = t.erase then u.mark else u

/-- The flat list of the layouts, in the order of the nodes: leaves go to the front and
nested lists to the end. -/
def nodeOrder : List Element → List Layout → List Layout → Option (List Layout)
  | [], stack, order => some (assembleOrder stack order)
  | .leaf data offset :: rest, stack, order =>
    nodeOrder rest (stack ++ [.leaf false data offset]) (.leaf false data offset :: order)
  | .list elements :: rest, stack, order => do
    let sub ← layoutRow elements
    let t ← assemble sub
    let subOrder ← nodeOrder elements [] []
    nodeOrder rest (stack ++ [t.mark]) (order ++ subOrder.map (markAs t))
termination_by elements => sizeOf elements

variable {H : Digest 32}

lemma generateAllRows_mono {row tree tree' : List Node} {root : Bytes}
    (h : generateAllRows H row tree = some (root, tree')) : ∀ n ∈ tree, n ∈ tree' := by
  fun_induction generateAllRows H row tree with
  | case1 => cases h
  | case2 tree n =>
    cases h
    exact fun n hn => hn
  | case3 tree l r rest newRow ih =>
    exact fun n hn => ih h n (List.mem_append_right _ hn)

lemma generateTreeFrom_mono {elements : List Element} {stack tree tree' : List Node} {root : Bytes}
    (hstack : stack ≠ [])
    (h : generateTreeFrom H elements stack tree = some (root, tree')) : ∀ n ∈ tree, n ∈ tree' := by
  induction elements generalizing stack tree with
  | nil =>
    obtain ⟨n, rest, rfl⟩ := List.exists_cons_of_ne_nil hstack
    rw [generateTreeFrom] at h
    exact generateAllRows_mono h
  | cons e rest ih =>
    cases e with
    | leaf data offset =>
      rw [generateTreeFrom] at h
      exact fun n hn => ih (by simp) h n (List.mem_cons_of_mem _ hn)
    | list elements =>
      simp only [generateTreeFrom, Option.bind_eq_bind, Option.bind_eq_some_iff] at h
      obtain ⟨⟨subRoot, subTree⟩, -, n, -, h⟩ := h
      exact fun n hn => ih (by simp) h n (List.mem_append_left _ hn)

lemma strings_markRebased (rootID : Bytes) (n : Node) :
    (markRebased rootID n).strings H = n.strings H := by
  unfold markRebased
  split_ifs <;> rfl

lemma treeStrings_subset {tree tree' : List Node} (h : ∀ n ∈ tree, n ∈ tree') :
    ∀ x ∈ treeStrings H tree, x ∈ treeStrings H tree' := by
  intro x hx
  obtain ⟨n, hn, hxn⟩ := List.mem_flatMap.mp hx
  exact List.mem_flatMap.mpr ⟨n, h n hn, hxn⟩

lemma treeStrings_markRebased (rootID : Bytes) (tree : List Node) :
    treeStrings H (tree.map (markRebased rootID)) = treeStrings H tree := by
  simp only [treeStrings, List.flatMap_map, strings_markRebased]

lemma toNode_mark (t : Layout) : t.mark.toNode H = { t.toNode H with isRebased := true } := by
  cases t <;> simp [mark, toNode, maxNote]

lemma mem_subtrees_mark {t u : Layout} :
    u ∈ t.mark.subtrees ↔ u = t.mark ∨ (u ∈ t.subtrees ∧ u.height < t.height) := by
  cases t with
  | leaf b data note =>
    simp only [mark, subtrees, List.mem_singleton]
    refine ⟨.inl, ?_⟩
    rintro (h | ⟨rfl, h⟩)
    · exact h
    · simp at h
  | branch b l r note =>
    simp only [mark, subtrees, List.mem_cons, List.mem_append]
    refine or_congr_right ⟨fun h => ⟨.inr h, ?_⟩, ?_⟩
    · rcases h with h | h <;> have := height_subtree_le h <;> simp only [height] <;> omega
    · rintro ⟨rfl | h, hlt⟩
      · simp at hlt
      · exact h

lemma subtree_eq_or_height_lt {t u : Layout} (h : u ∈ t.subtrees) : u = t ∨ u.height < t.height := by
  cases t with
  | leaf b data note => exact .inl (by simpa [subtrees] using h)
  | branch b l r note =>
    simp only [subtrees, List.mem_cons, List.mem_append] at h
    rcases h with h | h | h
    · exact .inl h
    · exact .inr (by have := height_subtree_le h; simp only [height]; omega)
    · exact .inr (by have := height_subtree_le h; simp only [height]; omega)

lemma erase_eq_iff_of_subtree {t u : Layout} (hu : u ∈ t.subtrees) : u.erase = t.erase ↔ u = t := by
  refine ⟨fun h => ?_, fun h => h ▸ rfl⟩
  rcases subtree_eq_or_height_lt hu with rfl | hlt
  · rfl
  · have := congrArg height h
    rw [height_erase, height_erase] at this
    omega

lemma Lists.mark {order : List Layout} {t : Layout} (h : Lists order [t]) :
    Lists (order.map (markAs t)) [t.mark] := by
  have hroot : markAs t t = t.mark := if_pos rfl
  have hbelow : ∀ u ∈ t.subtrees, u.height < t.height → markAs t u = u := by
    intro u hu hlt
    refine if_neg fun herase => ?_
    rw [(erase_eq_iff_of_subtree hu).mp herase] at hlt
    exact absurd hlt (lt_irrefl _)
  refine ⟨?_, ?_, ?_⟩
  · simp only [List.mem_singleton, forall_eq]
    intro u hu
    rcases mem_subtrees_mark.mp hu with rfl | ⟨hu, hlt⟩
    · exact List.mem_map.mpr ⟨t, h.complete t (by simp) t t.mem_subtrees_self, hroot⟩
    · exact List.mem_map.mpr ⟨u, h.complete t (by simp) u hu, hbelow u hu hlt⟩
  · intro v hv
    obtain ⟨u, hu, rfl⟩ := List.mem_map.mp hv
    obtain ⟨t', ht', hut⟩ := h.sound u hu
    obtain rfl := List.mem_singleton.mp ht'
    refine ⟨_, List.mem_singleton_self _, ?_⟩
    rcases subtree_eq_or_height_lt hut with rfl | hlt
    · rw [hroot]
      exact mem_subtrees_self _
    · rw [hbelow u hut hlt]
      exact mem_subtrees_mark.mpr (.inr ⟨hut, hlt⟩)
  · simp only [List.mem_singleton, forall_eq, height_mark, List.length_map]
    exact h.height_le t (by simp)

lemma Lists.append {order order' row row' : List Layout} (h : Lists order row)
    (h' : Lists order' row') : Lists (order ++ order') (row ++ row') := by
  refine ⟨?_, ?_, ?_⟩
  · intro t ht u hu
    rcases List.mem_append.mp ht with ht | ht
    · exact List.mem_append_left _ (h.complete t ht u hu)
    · exact List.mem_append_right _ (h'.complete t ht u hu)
  · intro u hu
    rcases List.mem_append.mp hu with hu | hu
    · obtain ⟨t, ht, hut⟩ := h.sound u hu
      exact ⟨t, List.mem_append_left _ ht, hut⟩
    · obtain ⟨t, ht, hut⟩ := h'.sound u hu
      exact ⟨t, List.mem_append_right _ ht, hut⟩
  · intro t ht
    rw [List.length_append]
    rcases List.mem_append.mp ht with ht | ht
    · exact (h.height_le t ht).trans (Nat.le_add_right _ _)
    · exact (h'.height_le t ht).trans (Nat.le_add_left _ _)

lemma Lists.leaf (data : Bytes) (offset : Nat) :
    Lists [.leaf false data offset] [.leaf false data offset] := by
  refine ⟨?_, ?_, ?_⟩ <;> simp [subtrees, height]

lemma Lists.nil : Lists [] [] := by
  refine ⟨?_, ?_, ?_⟩ <;> simp

lemma Lists.perm {order order' row : List Layout} (h : Lists order row) (hp : order.Perm order') :
    Lists order' row :=
  ⟨fun t ht u hu => hp.mem_iff.mp (h.complete t ht u hu), fun u hu => h.sound u (hp.mem_iff.mpr hu),
    fun t ht => (h.height_le t ht).trans hp.length_eq.le⟩

lemma map_markRebased {order : List Layout} {t : Layout} (h : Lists order [t])
    (hH : H.CollisionFree (treeStrings H (order.map (toNode H))))
    (hnote : ∀ u ∈ t.subtrees, u.note < 256 ^ noteSize) :
    (order.map (toNode H)).map (markRebased (t.id H)) = (order.map (markAs t)).map (toNode H) := by
  rw [List.map_map, List.map_map]
  refine List.map_congr_left fun u hu => ?_
  obtain ⟨t', ht', hut⟩ := h.sound u hu
  obtain rfl := List.mem_singleton.mp ht'
  rw [Function.comp_apply, Function.comp_apply, markAs, markRebased, toNode_id]
  by_cases herase : u.erase = t'.erase
  · rw [if_pos (id_congr H herase), if_pos herase, toNode_mark]
    simp only [toNode_id]
  · rw [if_neg herase, if_neg fun hid => herase ?_]
    exact h.represents.erase_eq_of_id_eq hH hnote hut t'.mem_subtrees_self hid

/-- The tree of a list of elements consists of the nodes of its layout. -/
theorem generateTreeFrom_spec {elements : List Element} {row acc order : List Layout}
    {tree : List Node} {root : Bytes} (hrow : layoutRow elements = some row)
    (hacc : Lists order acc) (hne : acc ++ row ≠ [])
    (hnote : ∀ t ∈ row, ∀ u ∈ t.subtrees, u.note < 256 ^ noteSize)
    (h : generateTreeFrom H elements (acc.map (toNode H)) (order.map (toNode H)) = some (root, tree))
    (hH : H.CollisionFree (treeStrings H tree)) :
    ∃ t order', assemble (acc ++ row) = some t ∧ nodeOrder elements acc order = some order' ∧
      Lists order' [t] ∧ root = t.id H ∧ tree = order'.map (toNode H) := by
  fun_induction layoutRow elements generalizing row acc order tree root with
  | case1 =>
    obtain rfl := Option.some.inj hrow
    rw [List.append_nil] at hne ⊢
    obtain ⟨t, hasm, hlists, hrows⟩ := generateAllRows_spec H hacc hne
    obtain ⟨u, acc, rfl⟩ := List.exists_cons_of_ne_nil hne
    rw [List.map_cons, generateTreeFrom, ← List.map_cons, hrows] at h
    cases h
    exact ⟨t, _, hasm, by rw [nodeOrder], hlists, rfl, rfl⟩
  | case2 data offset rest ih =>
    simp only [Option.bind_eq_bind, Option.bind_eq_some_iff, Option.some.injEq] at hrow
    obtain ⟨row, hrow, rfl⟩ := hrow
    have hacc' : Lists (.leaf false data offset :: order) (acc ++ [.leaf false data offset]) :=
      (hacc.append (.leaf data offset)).perm List.perm_append_comm
    rw [generateTreeFrom, show generateLeaf H data offset = (Layout.leaf false data offset).toNode H
      from rfl, ← List.map_singleton, ← List.map_append, ← List.map_cons] at h
    rw [List.append_cons] at hne ⊢
    rw [nodeOrder]
    exact ih hrow hacc' hne (fun t ht => hnote t (by simp [ht])) h hH
  | case3 elements rest ihsub ihrest =>
    simp only [Option.bind_eq_bind, Option.bind_eq_some_iff, Option.some.injEq] at hrow
    obtain ⟨sub, hsub, t, ht, row, hrow, rfl⟩ := hrow
    simp only [generateTreeFrom, Option.bind_eq_bind, Option.bind_eq_some_iff] at h
    obtain ⟨⟨subRoot, subTree⟩, hgen, n, hget, h⟩ := h
    have hmono := generateTreeFrom_mono (by simp) h
    have hHsub : H.CollisionFree (treeStrings H subTree) := by
      rw [← treeStrings_markRebased subRoot]
      exact hH.mono (treeStrings_subset fun n hn => hmono n (List.mem_append_right _ hn))
    have hnotet : ∀ u ∈ t.subtrees, u.note < 256 ^ noteSize := by
      intro u hu
      rcases subtree_eq_or_height_lt hu with rfl | hlt
      · rw [← note_mark]
        exact hnote _ (by simp) _ (mem_subtrees_self _)
      · exact hnote _ (by simp) u (mem_subtrees_mark.mpr (.inr ⟨hu, hlt⟩))
    have hsubne : [] ++ sub ≠ [] := by
      rintro hnil
      rw [List.nil_append] at hnil
      simp [hnil, assemble] at ht
    obtain ⟨t', subOrder, ht', horder, hlists, rfl, rfl⟩ := ihsub hsub .nil hsubne
      (fun s hs u hu => hnotet u (subtrees_trans (mem_subtrees_of_assemble ht hs) hu)) hgen hHsub
    obtain rfl : t' = t := Option.some.inj (ht'.symm.trans ht)
    rw [map_markRebased hlists hHsub hnotet] at hget h
    have hroot : n = t'.mark.toNode H := by
      have hHmark : H.CollisionFree (treeStrings H ((subOrder.map (markAs t')).map (toNode H))) := by
        rw [← map_markRebased hlists hHsub hnotet, treeStrings_markRebased]
        exact hHsub
      obtain ⟨v, hv, hgetv, hid, -⟩ := hlists.mark.represents.getNode hHmark (hnote _ (by simp))
        (mem_subtrees_self _)
      rw [id_mark, hget] at hgetv
      rw [Option.some.inj hgetv]
      rcases mem_subtrees_mark.mp hv with rfl | ⟨hv, hlt⟩
      · rfl
      · rw [id_mark] at hid
        exact absurd hid
          (hlists.represents.id_ne_of_height_lt hHsub hnotet hv (mem_subtrees_self _) hlt)
    rw [hroot, ← List.map_singleton, ← List.map_append, ← List.map_append] at h
    rw [List.append_cons] at hne ⊢
    have hnode : nodeOrder (.list elements :: rest) acc order =
        nodeOrder rest (acc ++ [t'.mark]) (order ++ subOrder.map (markAs t')) := by
      simp [nodeOrder, hsub, ht, horder]
    rw [hnode]
    exact ihrest hrow (hacc.append hlists.mark) hne (fun t ht => hnote t (by simp [ht])) h hH

end Arweave.Merkle

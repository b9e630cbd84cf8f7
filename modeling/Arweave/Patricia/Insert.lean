import Arweave.Patricia.Update

/-!
# Insertion

An insertion splits an edge, adds a leaf, or does one after the other. Both changes keep the
links of the tree, and a split keeps its contents.
-/

namespace Arweave.Patricia
open Arweave.Lib

variable {V : Type} {tree tree' : Tree V} {key : Bytes}

section Leaf

variable {parent : Key} {p : Node V} {k s : Bytes} {v : V}

/-- A leaf below an existing node. -/
def Tree.addLeaf (tree : Tree V) (parent : Key) (p : Node V) (k s : Bytes) (v : V) : Tree V :=
  (tree.put (.bin k) ⟨some parent, .empty, none, s, some v⟩).put parent
    { p with children := p.children.add k, hash := none }

/-- The key of the leaf is free and continues the full key of the parent. -/
structure FreeLeaf (tree : Tree V) (parent : Key) (p : Node V) (k s : Bytes) : Prop where
  node : tree.node parent = some p
  free : tree.node (.bin k) = none
  child : ChildKey parent p k
  notEmpty : parent ≠ .bin []
  suffix : k = [] → s = []

lemma FreeLeaf.ne (hf : FreeLeaf tree parent p k s) : parent ≠ .bin k := by
  intro he
  have hp := hf.node
  rw [he, hf.free] at hp
  cases hp

lemma addLeaf_node_cases {j : Key} {n' : Node V}
    (hj : (tree.addLeaf parent p k s v).node j = some n') :
    (j = parent ∧ n' = { p with children := p.children.add k, hash := none }) ∨
    (j = .bin k ∧ n' = ⟨some parent, .empty, none, s, some v⟩) ∨
    (j ≠ parent ∧ j ≠ .bin k ∧ tree.node j = some n') := by
  rw [Tree.addLeaf, Tree.put_node, Tree.put_node] at hj
  split_ifs at hj with h1 h2
  · cases hj
    exact .inl ⟨h1, rfl⟩
  · cases hj
    exact .inr (.inl ⟨h2, rfl⟩)
  · exact .inr (.inr ⟨h1, h2, hj⟩)

lemma FreeLeaf.node_leaf (hf : FreeLeaf tree parent p k s) :
    (tree.addLeaf parent p k s v).node (.bin k) = some ⟨some parent, .empty, none, s, some v⟩ := by
  rw [Tree.addLeaf, Tree.put_node, if_neg hf.ne.symm, Tree.put_node, if_pos rfl]

lemma addLeaf_node_parent : (tree.addLeaf parent p k s v).node parent =
    some { p with children := p.children.add k, hash := none } := by
  rw [Tree.addLeaf, Tree.put_node, if_pos rfl]

lemma FreeLeaf.node_other (hf : FreeLeaf tree parent p k s) {j : Key} {n : Node V}
    (hj : tree.node j = some n) : ∃ n', (tree.addLeaf parent p k s v).node j = some n' ∧
      n'.parent = n.parent ∧ n'.suffix = n.suffix ∧ n'.value = n.value := by
  rw [Tree.addLeaf, Tree.put_node, Tree.put_node]
  by_cases h1 : j = parent
  · rw [h1, hf.node] at hj
    cases hj
    exact ⟨_, if_pos h1, rfl, rfl, rfl⟩
  · have h2 : j ≠ .bin k := by
      intro h2
      rw [h2, hf.free] at hj
      cases hj
    exact ⟨n, by rw [if_neg h1, if_neg h2, hj], rfl, rfl, rfl⟩

lemma FreeLeaf.hasParent (hf : FreeLeaf tree parent p k s) {c : Bytes} {q : Key} :
    (∃ cn, (tree.addLeaf parent p k s v).node (.bin c) = some cn ∧ cn.parent = some q) ↔
      (c = k ∧ q = parent) ∨ ∃ cn, tree.node (.bin c) = some cn ∧ cn.parent = some q := by
  constructor
  · rintro ⟨cn, hcn, hq⟩
    rcases addLeaf_node_cases hcn with ⟨hc, rfl⟩ | ⟨hc, rfl⟩ | ⟨-, -, hc⟩
    · exact .inr ⟨p, by rw [hc, hf.node], hq⟩
    · exact .inl ⟨Key.bin.inj hc, (Option.some.inj hq).symm⟩
    · exact .inr ⟨cn, hc, hq⟩
  · rintro (⟨rfl, rfl⟩ | ⟨cn, hcn, hq⟩)
    · exact ⟨_, hf.node_leaf, rfl⟩
    · obtain ⟨cn', hcn', hp', -⟩ := hf.node_other (v := v) hcn
      exact ⟨cn', hcn', hp'.trans hq⟩

lemma FreeLeaf.linked (hf : FreeLeaf tree parent p k s) (h : Linked tree) :
    Linked (tree.addLeaf parent p k s v) where
  root := by
    obtain ⟨r, hr, hp, hv⟩ := h.root
    obtain ⟨r', hr', hp', -, hv'⟩ := hf.node_other (v := v) hr
    exact ⟨r', hr', hp'.trans hp, hv'.trans hv⟩
  parent j n' hn' := by
    have hpar : ∃ q qn, n'.parent = some q ∧ tree.node q = some qn ∧ ChildKey q qn j := by
      rcases addLeaf_node_cases hn' with ⟨hj, rfl⟩ | ⟨hj, rfl⟩ | ⟨-, -, hj⟩
      · exact h.parent j p (by rw [hj, hf.node])
      · rw [Key.bin.inj hj]
        exact ⟨parent, p, rfl, hf.node, hf.child⟩
      · exact h.parent j n' hj
    obtain ⟨q, qn, hq, hqn, hck⟩ := hpar
    obtain ⟨qn', hqn', -, hs, -⟩ := hf.node_other (v := v) hqn
    refine ⟨q, qn', hq, hqn', ?_⟩
    cases q with
    | root => exact hck
    | bin q =>
      rw [ChildKey, hs]
      exact hck
  children q qn' c hqn' := by
    rw [hf.hasParent]
    rcases addLeaf_node_cases hqn' with ⟨rfl, rfl⟩ | ⟨rfl, rfl⟩ | ⟨hq, hqk, hqn⟩
    · rw [OrdSet.mem_add, h.children _ p c hf.node]
      simp
    · simp only [OrdSet.not_mem_empty, false_iff, not_or, not_exists, not_and]
      refine ⟨fun _ he => hf.ne he.symm, fun cn hcn hp => ?_⟩
      obtain ⟨q, qn, hq, hqn, -⟩ := h.parent c cn hcn
      rw [hp] at hq
      cases hq
      rw [hf.free] at hqn
      cases hqn
    · rw [h.children q qn' c hqn]
      simp [hq]
  empty n' hn' := by
    rcases addLeaf_node_cases hn' with ⟨hj, rfl⟩ | ⟨hj, rfl⟩ | ⟨-, -, hj⟩
    · exact absurd hj.symm hf.notEmpty
    · exact ⟨hf.suffix (Key.bin.inj hj).symm, fun c => OrdSet.not_mem_empty⟩
    · exact h.empty n' hj

lemma FreeLeaf.wellFormed (hf : FreeLeaf tree parent p k s) (h : WellFormed tree) :
    WellFormed (tree.addLeaf parent p k s v) where
  toLinked := hf.linked h.toLinked
  inner j n' hn' hempty := by
    rcases addLeaf_node_cases hn' with ⟨-, rfl⟩ | ⟨-, rfl⟩ | ⟨-, -, hj⟩
    · exact absurd (OrdSet.mem_add.mpr (.inl rfl)) (OrdSet.isEmpty_iff.mp hempty k)
    · rfl
    · exact h.inner j n' hj hempty

lemma FreeLeaf.holds (hf : FreeLeaf tree parent p k s) (h : Linked tree) (key' : Bytes) (w : V) :
    Holds (tree.addLeaf parent p k s v) key' w ↔
      if key' = k ++ s then v = w else Holds tree key' w := by
  have hl := hf.linked (v := v) h
  split_ifs with he
  · constructor
    · intro hw
      exact hl.holds_unique ⟨k, _, hf.node_leaf, he.symm, rfl⟩ hw
    · rintro rfl
      exact ⟨k, _, hf.node_leaf, he.symm, rfl⟩
  · constructor
    · rintro ⟨j, n', hn', hfull, hw⟩
      rcases addLeaf_node_cases hn' with ⟨hj, rfl⟩ | ⟨hj, rfl⟩ | ⟨-, -, hj⟩
      · exact ⟨j, p, by rw [hj, hf.node], hfull, hw⟩
      · cases hj
        exact absurd hfull.symm he
      · exact ⟨j, n', hj, hfull, hw⟩
    · rintro ⟨j, n, hn, hfull, hw⟩
      obtain ⟨n', hn', -, hs, hv⟩ := hf.node_other (v := v) hn
      exact ⟨j, n', hn', by rw [hs, hfull], hv.trans hw⟩

lemma FreeLeaf.get_eq (hf : FreeLeaf tree parent p k s) (h : Linked tree) : get (k ++ s) tree = none := by
  rw [Option.eq_none_iff_forall_ne_some]
  intro v hv
  obtain ⟨j, n, hn, hfull, -⟩ := (get_eq_some_iff h).mp hv
  have hl := hf.linked (v := v) h
  obtain ⟨n', hn', -, hs, -⟩ := hf.node_other (v := v) hn
  obtain rfl := hl.full_injective hn' hf.node_leaf (by rw [hs, hfull])
  rw [hf.free] at hn
  cases hn

lemma FreeLeaf.kept (hf : FreeLeaf tree parent p k s) :
    Kept tree (tree.addLeaf parent p k s v) (k ++ s) := by
  have hparent : (parent.full p).Above (.bin (k ++ s)) := by
    cases parent with
    | root => trivial
    | bin q =>
      obtain ⟨b, hb⟩ := hf.child
      refine ⟨?_, fun hnil => ?_⟩
      · rw [hb, List.append_assoc]
        exact List.prefix_append _ _
      · exact absurd (by rw [(List.append_eq_nil_iff.mp hnil).1]) hf.notEmpty
  intro j n' hn' hnot
  rcases addLeaf_node_cases hn' with ⟨rfl, rfl⟩ | ⟨rfl, rfl⟩ | ⟨-, -, hj⟩
  · exfalso
    apply hnot
    cases j with
    | root => trivial
    | bin q => exact hparent
  · exact absurd (Key.Above.refl _) hnot
  · exact Kept.refl tree _ j n' hj hnot

lemma FreeLeaf.update (hf : FreeLeaf tree parent p k s) (h : WellFormed tree) :
    ∃ tree', invalidateHash p.parent ((tree.addLeaf parent p k s v).setSize (tree.size + 1)) =
      some tree' ∧ Update tree tree' (k ++ s) (some v) := by
  set tree2 := (tree.addLeaf parent p k s v).setSize (tree.size + 1) with htree2
  have h2 : WellFormed tree2 := (hf.wellFormed h).setSize
  have hleaf : tree2.node (.bin k) = some ⟨some parent, .empty, none, s, some v⟩ := hf.node_leaf
  have hinv := h2.toLinked.invalidateHash_parent (k := parent) addLeaf_node_parent rfl
  refine ⟨_, hinv, ?_⟩
  have hsame : tree2.clear (·.Above parent) = tree2.clear (·.Above (.bin k)) := by
    apply clear_congr
    intro j n hj hhash
    rw [h2.toLinked.above_iff hleaf rfl hj, or_iff_right]
    rintro rfl
    rw [hleaf] at hj
    cases hj
    exact hhash rfl
  rw [hsame]
  apply Update.of_clear h2 hleaf rfl
  · intro key' w hne
    have := hf.holds (v := v) h.toLinked key' w
    rwa [if_neg hne] at this
  · simp [hf.get_eq h.toLinked, htree2]
  · exact hf.kept

end Leaf

section Split

variable {k common rest : Bytes} {b : UInt8} {n : Node V}

/-- The tree in which some nodes have another parent. -/
def Tree.reparent (tree : Tree V) (children : List Bytes) (key : Bytes) : Tree V where
  node
    | .root => tree.node .root
    | .bin c =>
      if c ∈ children then (tree.node (.bin c)).map ({ · with parent := some (.bin key) })
      else tree.node (.bin c)
  size := tree.size

lemma updateChildrenParent_eq {children : OrdSet Bytes} (hc : ∀ c ∈ children, (tree.node (.bin c)).isSome) :
    updateChildrenParent key children tree = some (tree.reparent children.elems key) := by
  have hlist : ∀ (l : List Bytes) (tree : Tree V), (∀ c ∈ l, (tree.node (.bin c)).isSome) →
      l.foldlM (fun acc child => do
        let n ← acc.node (.bin child)
        some (acc.put (.bin child) { n with parent := some (.bin key) })) tree =
      some (tree.reparent l key) := by
    intro l
    induction l with
    | nil =>
      intro tree _
      simp only [List.foldlM_nil, Option.pure_def, Option.some.injEq]
      ext1
      · funext j
        cases j <;> simp [Tree.reparent]
      · rfl
    | cons c l ih =>
      intro tree hc
      obtain ⟨n, hn⟩ := Option.isSome_iff_exists.mp (hc c (by simp))
      rw [List.foldlM_cons]
      simp only [Option.bind_eq_bind] at ih ⊢
      rw [hn, Option.bind_some, Option.bind_some, ih]
      · congr 1
        ext1
        · funext j
          cases j with
          | root => simp [Tree.reparent]
          | bin j =>
            by_cases hjc : j = c
            · simp [Tree.reparent, hjc, hn]
            · simp [Tree.reparent, hjc]
        · rfl
      · intro d hd
        rw [Tree.put_node]
        split_ifs
        · rfl
        · exact hc d (by simp [hd])
  exact hlist children.elems tree hc

/-- A pivot without a value on the edge of a node. -/
def Tree.splitEdge (tree : Tree V) (k common : Bytes) (b : UInt8) (rest : Bytes) (n : Node V) : Tree V :=
  ((tree.put (.bin k) ⟨n.parent, .ofList [k ++ common ++ [b]], none, common, none⟩).put
    (.bin (k ++ common ++ [b])) { n with parent := some (.bin k), suffix := rest }).reparent
      n.children.elems (k ++ common ++ [b])

lemma splitEdge_node_other {j : Key} (hjk : j ≠ .bin k) (hj : j ≠ .bin (k ++ common ++ [b]))
    (hc : ∀ c ∈ n.children, j ≠ .bin c) :
    (tree.splitEdge k common b rest n).node j = tree.node j := by
  cases j with
  | root => simp [Tree.splitEdge, Tree.reparent]
  | bin j =>
    have hc' : j ∉ n.children.elems := fun h => hc j h rfl
    simp only [Tree.splitEdge, Tree.reparent, hc', if_false, Tree.put_node, hjk, hj]

/-- The edge that is split. -/
structure Splits (tree : Tree V) (k common : Bytes) (b : UInt8) (rest : Bytes) (n : Node V) : Prop where
  linked : Linked tree
  node : tree.node (.bin k) = some n
  suffix : n.suffix = common ++ b :: rest

namespace Splits

variable (hs : Splits tree k common b rest n)
include hs

lemma ne_nil : k ≠ [] := by
  rintro rfl
  have := (hs.linked.empty n hs.node).1
  rw [hs.suffix] at this
  simp at this

lemma free : tree.node (.bin (k ++ common ++ [b])) = none := by
  rw [Option.eq_none_iff_forall_ne_some]
  intro m hm
  obtain ⟨d, hd⟩ := hs.linked.chain hs.node hm (by simp [List.append_assoc]) (by simp) hs.ne_nil
  have := hd.length_le
  rw [hs.suffix] at this
  simp only [List.length_append, List.length_cons] at this
  omega

lemma child {c : Bytes} (hc : c ∈ n.children) :
    (∃ cn, tree.node (.bin c) = some cn ∧ cn.parent = some (.bin k)) ∧
      ∃ d, c = k ++ common ++ [b] ++ rest ++ [d] := by
  obtain ⟨cn, hcn, hp⟩ := (hs.linked.children _ n c hs.node).mp hc
  refine ⟨⟨cn, hcn, hp⟩, ?_⟩
  obtain ⟨p, pn, hp', hpn, hck⟩ := hs.linked.parent c cn hcn
  rw [hp] at hp'
  cases hp'
  rw [hs.node] at hpn
  cases hpn
  obtain ⟨d, hd⟩ := hck
  refine ⟨d, ?_⟩
  rw [hd, hs.suffix]
  simp

lemma child_ne {c : Bytes} (hc : c ∈ n.children) : c ≠ k ∧ c ≠ k ++ common ++ [b] := by
  obtain ⟨-, d, rfl⟩ := hs.child hc
  constructor
  · intro he
    have := congrArg List.length he
    simp at this
  · intro he
    have := congrArg List.length he
    simp at this

lemma node_pivot : (tree.splitEdge k common b rest n).node (.bin k) =
    some ⟨n.parent, .ofList [k ++ common ++ [b]], none, common, none⟩ := by
  have hk : k ∉ n.children.elems := fun hk => (hs.child_ne hk).1 rfl
  have hne : k ≠ k ++ common ++ [b] := by simp
  simp only [Tree.splitEdge, Tree.reparent, hk, if_false, Tree.put_node, Key.bin.injEq, hne, if_true]

lemma node_moved : (tree.splitEdge k common b rest n).node (.bin (k ++ common ++ [b])) =
    some { n with parent := some (.bin k), suffix := rest } := by
  have hk : k ++ common ++ [b] ∉ n.children.elems := fun hk => (hs.child_ne hk).2 rfl
  simp only [Tree.splitEdge, Tree.reparent, hk, if_false, Tree.put_node, if_true]

lemma node_child {c : Bytes} {cn : Node V} (hc : c ∈ n.children) (hcn : tree.node (.bin c) = some cn) :
    (tree.splitEdge k common b rest n).node (.bin c) =
      some { cn with parent := some (.bin (k ++ common ++ [b])) } := by
  have hc' : c ∈ n.children.elems := hc
  obtain ⟨h1, h2⟩ := hs.child_ne hc
  simp only [Tree.splitEdge, Tree.reparent, hc', if_true, Tree.put_node, Key.bin.injEq, h1, h2, if_false,
    hcn, Option.map_some]

lemma node_cases {j : Key} {n' : Node V} (hj : (tree.splitEdge k common b rest n).node j = some n') :
    (j = .bin k ∧ n' = ⟨n.parent, .ofList [k ++ common ++ [b]], none, common, none⟩) ∨
    (j = .bin (k ++ common ++ [b]) ∧ n' = { n with parent := some (.bin k), suffix := rest }) ∨
    (∃ c cn, c ∈ n.children ∧ j = .bin c ∧ tree.node (.bin c) = some cn ∧
      n' = { cn with parent := some (.bin (k ++ common ++ [b])) }) ∨
    (j ≠ .bin k ∧ j ≠ .bin (k ++ common ++ [b]) ∧ (∀ c ∈ n.children, j ≠ .bin c) ∧
      tree.node j = some n') := by
  by_cases h1 : j = .bin k
  · rw [h1, hs.node_pivot] at hj
    exact .inl ⟨h1, (Option.some.inj hj).symm⟩
  by_cases h2 : j = .bin (k ++ common ++ [b])
  · rw [h2, hs.node_moved] at hj
    exact .inr (.inl ⟨h2, (Option.some.inj hj).symm⟩)
  by_cases h3 : ∃ c ∈ n.children, j = .bin c
  · obtain ⟨c, hc, rfl⟩ := h3
    obtain ⟨⟨cn, hcn, -⟩, -⟩ := hs.child hc
    rw [hs.node_child hc hcn] at hj
    exact .inr (.inr (.inl ⟨c, cn, hc, rfl, hcn, (Option.some.inj hj).symm⟩))
  · have hc : ∀ c ∈ n.children, j ≠ .bin c := fun c hc he => h3 ⟨c, hc, he⟩
    rw [splitEdge_node_other h1 h2 hc] at hj
    exact .inr (.inr (.inr ⟨h1, h2, hc, hj⟩))

lemma exists_node {j : Key} {m : Node V} (hm : tree.node j = some m) (hjk : j ≠ .bin k) :
    ∃ m', (tree.splitEdge k common b rest n).node j = some m' ∧ m'.children = m.children ∧
      m'.suffix = m.suffix ∧ m'.value = m.value ∧ ((∀ c ∈ n.children, j ≠ .bin c) → m' = m) := by
  have hj : j ≠ .bin (k ++ common ++ [b]) := by
    rintro rfl
    rw [hs.free] at hm
    cases hm
  by_cases hc : ∃ c ∈ n.children, j = .bin c
  · obtain ⟨c, hc, rfl⟩ := hc
    exact ⟨_, hs.node_child hc hm, rfl, rfl, rfl, fun h => absurd rfl (h c hc)⟩
  · have hc : ∀ c ∈ n.children, j ≠ .bin c := fun c hc' he => hc ⟨c, hc', he⟩
    exact ⟨m, (splitEdge_node_other hjk hj hc).trans hm, rfl, rfl, rfl, fun _ => rfl⟩

lemma hasParent {c : Bytes} {p : Key} :
    (∃ cn, (tree.splitEdge k common b rest n).node (.bin c) = some cn ∧ cn.parent = some p) ↔
      (c ∈ n.children ∧ p = .bin (k ++ common ++ [b])) ∨ (c = k ++ common ++ [b] ∧ p = .bin k) ∨
      (c ∉ n.children ∧ ∃ cn, tree.node (.bin c) = some cn ∧ cn.parent = some p) := by
  constructor
  · rintro ⟨cn', hcn', hp⟩
    rcases hs.node_cases hcn' with ⟨hj, rfl⟩ | ⟨hj, rfl⟩ | ⟨d, dn, hd, hj, -, rfl⟩ | ⟨-, -, hc, hj⟩
    · cases hj
      exact .inr (.inr ⟨fun hk => (hs.child_ne hk).1 rfl, n, hs.node, hp⟩)
    · exact .inr (.inl ⟨Key.bin.inj hj, (Option.some.inj hp).symm⟩)
    · rw [Key.bin.inj hj]
      exact .inl ⟨hd, (Option.some.inj hp).symm⟩
    · exact .inr (.inr ⟨fun h => hc c h rfl, cn', hj, hp⟩)
  · rintro (⟨hc, rfl⟩ | ⟨rfl, rfl⟩ | ⟨hc, cn, hcn, hp⟩)
    · obtain ⟨⟨cn, hcn, -⟩, -⟩ := hs.child hc
      exact ⟨_, hs.node_child hc hcn, rfl⟩
    · exact ⟨_, hs.node_moved, rfl⟩
    · by_cases hck : c = k
      · subst hck
        rw [hs.node] at hcn
        cases hcn
        exact ⟨_, hs.node_pivot, hp⟩
      · obtain ⟨cn', hcn', -, -, -, hsame⟩ := hs.exists_node hcn (by simpa using hck)
        have := hsame fun d hd he => hc (Key.bin.inj he ▸ hd)
        exact ⟨cn', hcn', by rw [this, hp]⟩

lemma linked_splitEdge : Linked (tree.splitEdge k common b rest n) where
  root := by
    obtain ⟨r, hr, hp, hv⟩ := hs.linked.root
    exact ⟨r, (splitEdge_node_other (by simp) (by simp) (by simp)).trans hr, hp, hv⟩
  parent j n' hn' := by
    have hold : ∀ {m : Node V}, tree.node (.bin j) = some m → m.parent ≠ some (.bin k) →
        ∃ q qn, m.parent = some q ∧ (tree.splitEdge k common b rest n).node q = some qn ∧
          ChildKey q qn j := by
      intro m hm hne
      obtain ⟨q, qn, hq, hqn, hck⟩ := hs.linked.parent j m hm
      obtain ⟨qn', hqn', -, hsuf, -⟩ := hs.exists_node hqn fun he => hne (he ▸ hq)
      refine ⟨q, qn', hq, hqn', ?_⟩
      cases q with
      | root => exact hck
      | bin q =>
        rw [ChildKey, hsuf]
        exact hck
    rcases hs.node_cases hn' with ⟨hj, rfl⟩ | ⟨hj, rfl⟩ | ⟨c, cn, hc, hj, -, rfl⟩ | ⟨-, -, hc, hj⟩
    · cases hj
      apply hold hs.node
      intro hp
      exact (hs.child_ne ((hs.linked.children _ n k hs.node).mpr ⟨n, hs.node, hp⟩)).1 rfl
    · rw [Key.bin.inj hj]
      exact ⟨_, _, rfl, hs.node_pivot, b, rfl⟩
    · obtain ⟨-, d, hd⟩ := hs.child hc
      rw [Key.bin.inj hj]
      exact ⟨_, _, rfl, hs.node_moved, d, hd⟩
    · apply hold hj
      intro hp
      exact hc j ((hs.linked.children _ n j hs.node).mpr ⟨n', hj, hp⟩) rfl
  children q qn' c hqn' := by
    rw [hs.hasParent]
    have hparent : ∀ {cn : Node V}, tree.node (.bin c) = some cn → cn.parent ≠ some (.bin (k ++ common ++ [b])) := by
      intro cn hcn hp
      obtain ⟨q, qn, hq, hqn, -⟩ := hs.linked.parent c cn hcn
      rw [hp] at hq
      cases hq
      rw [hs.free] at hqn
      cases hqn
    have hne : Key.bin k ≠ .bin (k ++ common ++ [b]) := by simp
    rcases hs.node_cases hqn' with ⟨rfl, rfl⟩ | ⟨rfl, rfl⟩ | hq
    · rw [OrdSet.mem_ofList, List.mem_singleton, ← hs.linked.children _ n c hs.node]
      simp
    · simp only [hne.symm, and_true, and_false, false_or]
      constructor
      · exact .inl
      · rintro (hc | ⟨-, cn, hcn, hp⟩)
        · exact hc
        · exact absurd hp (hparent hcn)
    · have hold : q ≠ .bin k ∧ q ≠ .bin (k ++ common ++ [b]) ∧ ∃ qn, tree.node q = some qn ∧
          qn.children = qn'.children := by
        rcases hq with ⟨d, dn, hd, rfl, hdn, rfl⟩ | ⟨h1, h2, -, hqn⟩
        · exact ⟨by simpa using (hs.child_ne hd).1, by simpa using (hs.child_ne hd).2, dn, hdn, rfl⟩
        · exact ⟨h1, h2, qn', hqn, rfl⟩
      obtain ⟨h1, h2, qn, hqn, hch⟩ := hold
      rw [← hch, hs.linked.children q qn c hqn]
      simp only [h1, h2, and_false, false_or]
      constructor
      · rintro ⟨cn, hcn, hp⟩
        refine ⟨fun hc => ?_, cn, hcn, hp⟩
        obtain ⟨⟨cn2, hcn2, hp2⟩, -⟩ := hs.child hc
        rw [hcn] at hcn2
        cases hcn2
        rw [hp] at hp2
        exact h1 (Option.some.inj hp2)
      · exact And.right
  empty n' hn' := by
    rcases hs.node_cases hn' with ⟨hj, -⟩ | ⟨hj, -⟩ | ⟨c, cn, hc, hj, -⟩ | ⟨-, -, -, hj⟩
    · exact absurd (Key.bin.inj hj).symm hs.ne_nil
    · simp at hj
    · obtain ⟨-, d, rfl⟩ := hs.child hc
      simp at hj
    · exact hs.linked.empty n' hj

lemma holds {key' : Bytes} {w : V} :
    Holds (tree.splitEdge k common b rest n) key' w ↔ Holds tree key' w := by
  constructor
  · rintro ⟨j, n', hn', hfull, hw⟩
    rcases hs.node_cases hn' with ⟨-, rfl⟩ | ⟨hj, rfl⟩ | ⟨c, cn, -, hj, hcn, rfl⟩ | ⟨-, -, -, hj⟩
    · cases hw
    · cases hj
      refine ⟨k, n, hs.node, ?_, hw⟩
      rw [← hfull, hs.suffix]
      simp
    · cases hj
      exact ⟨j, cn, hcn, hfull, hw⟩
    · exact ⟨j, n', hj, hfull, hw⟩
  · rintro ⟨j, m, hm, hfull, hw⟩
    by_cases hjk : j = k
    · subst hjk
      rw [hs.node] at hm
      cases hm
      refine ⟨_, _, hs.node_moved, ?_, hw⟩
      rw [← hfull, hs.suffix]
      simp
    · obtain ⟨m', hm', -, hsuf, hv, -⟩ := hs.exists_node hm (by simpa using hjk)
      exact ⟨j, m', hm', by rw [hsuf, hfull], hv.trans hw⟩

lemma wellFormed (h : WellFormed tree) : WellFormed (tree.splitEdge k common b rest n) where
  toLinked := hs.linked_splitEdge
  inner j n' hn' hempty := by
    rcases hs.node_cases hn' with ⟨-, rfl⟩ | ⟨-, rfl⟩ | ⟨c, cn, -, -, hcn, rfl⟩ | ⟨-, -, -, hj⟩
    · exact absurd (OrdSet.mem_ofList.mpr (List.mem_singleton.mpr rfl)) (OrdSet.isEmpty_iff.mp hempty _)
    · exact h.inner k n hs.node hempty
    · exact h.inner c cn hcn hempty
    · exact h.inner j n' hj hempty

lemma kept (hkey : k ++ common <+: key) : Kept tree (tree.splitEdge k common b rest n) key := by
  intro j n' hn' hnot
  rcases hs.node_cases hn' with ⟨rfl, rfl⟩ | ⟨rfl, rfl⟩ | ⟨c, cn, -, rfl, hcn, rfl⟩ | ⟨-, -, -, hj⟩
  · exact absurd ⟨hkey, fun hnil => absurd (List.append_eq_nil_iff.mp hnil).1 hs.ne_nil⟩ hnot
  · refine ⟨.bin k, n, hs.node, ⟨by simp [List.append_assoc], fun hnil => absurd hnil hs.ne_nil⟩, ?_, rfl,
      rfl, rfl⟩
    simp [Key.full, hs.suffix]
  · exact ⟨.bin c, cn, hcn, Key.Above.refl _, rfl, rfl, rfl, rfl⟩
  · exact Kept.refl tree key j n' hj hnot

end Splits

lemma Splits.update {v : Option V} (hs : Splits tree k common b rest n) (hkey : k ++ common <+: key)
    (hu : Update (tree.splitEdge k common b rest n) tree' key v) : Update tree tree' key v where
  wellFormed := hu.wellFormed
  holds key' w := by rw [hu.holds, hs.holds]
  size := by
    have hget : get key (tree.splitEdge k common b rest n) = get key tree := by
      ext w
      rw [get_eq_some_iff hs.linked_splitEdge, get_eq_some_iff hs.linked, hs.holds]
    rw [hu.size, hget]
    rfl
  cleared := hu.cleared
  kept := (hs.kept hkey).trans hu.kept

end Split

section Insert

variable {k : Bytes} {n : Node V} {v : V}

lemma insertValue_update (h : WellFormed tree) (hk : tree.node (.bin k) = some n) :
    ∃ tree', insertValue k v n tree = some tree' ∧ Update tree tree' (k ++ n.suffix) (some v) := by
  set n2 : Node V := { n with hash := none, value := some v } with hn2
  set size2 := if n.value.isNone then tree.size + 1 else tree.size with hsize2
  set tree2 := (tree.put (.bin k) n2).setSize size2 with htree2
  have h2 : WellFormed tree2 := (h.putValue (m := n2) hk rfl rfl rfl fun _ => rfl).setSize
  have hk2 : tree2.node (.bin k) = some n2 := by simp [htree2]
  refine ⟨_, h2.toLinked.invalidateHash_parent (n := n2) hk2 rfl, ?_⟩
  apply Update.of_clear h2 hk2 rfl
  · intro key' w hne
    have := h.toLinked.holds_putValue (m := n2) hk rfl key' w
    rwa [if_neg hne] at this
  · rw [h.toLinked.get_eq hk rfl, htree2, Tree.setSize_size, hsize2]
    cases n.value <;> simp [hn2]
  · exact Kept.put (Key.Above.refl _)

lemma insertPivot_update {s rest : Bytes} {b : UInt8} (h : WellFormed tree)
    (hs : Splits tree k s b rest n) :
    ∃ tree', insertPivot k s (b :: rest) v n tree = some tree' ∧ Update tree tree' (k ++ s) (some v) := by
  set n2 : Node V := ⟨n.parent, .ofList [k ++ s ++ [b]], none, s, some v⟩ with hn2
  set tree2 := ((tree.splitEdge k s b rest n).put (.bin k) n2).setSize (tree.size + 1) with htree2
  have hsplit := hs.wellFormed h
  have h2 : WellFormed tree2 := (hsplit.putValue (m := n2) hs.node_pivot rfl rfl rfl fun _ => rfl).setSize
  have hk2 : tree2.node (.bin k) = some n2 := by simp [htree2]
  have hcode : insertPivot k s (b :: rest) v n tree = invalidateHash n.parent tree2 := by
    have hreparent : updateChildrenParent (k ++ s ++ [b]) n.children
        (((tree.put (.bin k) n2).put (.bin (k ++ s ++ [b]))
          { n with parent := some (.bin k), suffix := rest }).setSize (tree.size + 1)) = some tree2 := by
      rw [updateChildrenParent_eq]
      · congr 1
        ext1
        · funext j
          cases j with
          | root => simp [htree2, Tree.reparent, Tree.splitEdge]
          | bin j =>
            by_cases hj : j = k
            · have hjc : k ∉ n.children.elems := fun hk => (hs.child_ne hk).1 rfl
              have hne : k ≠ k ++ s ++ [b] := by simp
              simp only [hj, htree2, Tree.reparent, Tree.setSize_node, Tree.put_node, hjc, if_false,
                Key.bin.injEq, hne, if_true]
            · simp only [htree2, Tree.reparent, Tree.splitEdge, Tree.setSize_node, Tree.put_node,
                Key.bin.injEq, hj, if_false]
        · rfl
      · intro c hc
        obtain ⟨⟨cn, hcn, -⟩, -⟩ := hs.child hc
        obtain ⟨h1, h2⟩ := hs.child_ne hc
        simp only [Tree.setSize_node, Tree.put_node, Key.bin.injEq, h1, h2, if_false, hcn,
          Option.isSome_some]
    rw [insertPivot]
    simp only [stripHead, Option.bind_eq_bind, Option.bind_some]
    rw [← hn2, hreparent, Option.bind_some]
  rw [hcode]
  refine ⟨_, h2.toLinked.invalidateHash_parent (n := n2) hk2 rfl, ?_⟩
  apply hs.update (List.prefix_refl _)
  apply Update.of_clear h2 hk2 rfl
  · intro key' w hne
    have := hs.linked_splitEdge.holds_putValue (m := n2) hs.node_pivot rfl key' w
    rwa [if_neg hne] at this
  · rw [hs.linked_splitEdge.get_eq hs.node_pivot rfl]
    rfl
  · exact Kept.put (Key.Above.refl _)

lemma insertFork_update {common s rest : Bytes} {x y : UInt8} (h : WellFormed tree)
    (hs : Splits tree k common y rest n) (hxy : x ≠ y) :
    ∃ tree', insertFork k common (x :: s) (y :: rest) v n tree = some tree' ∧
      Update tree tree' (k ++ common ++ x :: s) (some v) := by
  set pivot : Node V := ⟨n.parent, .ofList [k ++ common ++ [y]], none, common, none⟩ with hpivot
  set tree2 := ((tree.splitEdge k common y rest n).addLeaf (.bin k) pivot (k ++ common ++ [x]) s v).setSize
    (tree.size + 1) with htree2
  have hlen : ∀ {c : Bytes}, c ∈ n.children → c ≠ k ++ common ++ [x] := by
    intro c hc he
    obtain ⟨-, d, hd⟩ := hs.child hc
    have := congrArg List.length (hd.symm.trans he)
    simp at this
  have hnew : (tree.splitEdge k common y rest n).node (.bin (k ++ common ++ [x])) = none := by
    rw [Option.eq_none_iff_forall_ne_some]
    intro m hm
    rcases hs.node_cases hm with ⟨hj, -⟩ | ⟨hj, -⟩ | ⟨c, -, hc, hj, -⟩ | ⟨-, -, -, hj⟩
    · simp at hj
    · exact hxy (by simpa using hj)
    · exact hlen hc (Key.bin.inj hj).symm
    · -- a node on the old edge would be below the split one
      obtain ⟨d, hd⟩ := hs.linked.chain hs.node hj (by simp [List.append_assoc]) (by simp) hs.ne_nil
      have := hd.length_le
      rw [hs.suffix] at this
      simp only [List.length_append, List.length_cons] at this
      omega
  have hf : FreeLeaf (tree.splitEdge k common y rest n) (.bin k) pivot (k ++ common ++ [x]) s :=
    ⟨hs.node_pivot, hnew, ⟨x, rfl⟩, by simpa using hs.ne_nil, by simp⟩
  have hcode : insertFork k common (x :: s) (y :: rest) v n tree = invalidateHash n.parent tree2 := by
    have hreparent : updateChildrenParent (k ++ common ++ [y]) n.children
        ((((tree.put (.bin (k ++ common ++ [x])) ⟨some (.bin k), .empty, none, s, some v⟩).put
          (.bin (k ++ common ++ [y])) { n with parent := some (.bin k), suffix := rest }).put (.bin k)
          ⟨n.parent, .ofList [k ++ common ++ [x], k ++ common ++ [y]], none, common, none⟩).setSize
          (tree.size + 1)) = some tree2 := by
      rw [updateChildrenParent_eq]
      · congr 1
        ext1
        · funext j
          cases j with
          | root => simp [htree2, Tree.reparent, Tree.splitEdge, Tree.addLeaf]
          | bin j =>
            by_cases hj : j = k
            · have hjc : k ∉ n.children.elems := fun hk => (hs.child_ne hk).1 rfl
              simp only [hj, htree2, Tree.reparent, Tree.setSize_node, Tree.put_node, hjc, if_false,
                if_true, Tree.addLeaf, hpivot]
              rfl
            · have hxy' : k ++ common ++ [x] ≠ k ++ common ++ [y] := by simpa using hxy
              by_cases hjx : j = k ++ common ++ [x]
              · have hjc : k ++ common ++ [x] ∉ n.children.elems := fun hc => hlen hc rfl
                have hne : k ++ common ++ [x] ≠ k := by simp
                simp only [hjx, htree2, Tree.reparent, Tree.setSize_node, Tree.put_node, hjc, if_false,
                  Key.bin.injEq, hne, hxy', if_true, Tree.addLeaf]
              · simp only [htree2, Tree.reparent, Tree.splitEdge, Tree.addLeaf, Tree.setSize_node,
                  Tree.put_node, Key.bin.injEq, hj, hjx, if_false]
        · rfl
      · intro c hc
        obtain ⟨⟨cn, hcn, -⟩, -⟩ := hs.child hc
        obtain ⟨h1, h2⟩ := hs.child_ne hc
        simp only [Tree.setSize_node, Tree.put_node, Key.bin.injEq, h1, h2, hlen hc, if_false, hcn,
          Option.isSome_some]
    rw [insertFork]
    simp only [stripHead, Option.bind_eq_bind, Option.bind_some]
    rw [hreparent, Option.bind_some]
  rw [hcode, show k ++ common ++ x :: s = k ++ common ++ [x] ++ s by simp]
  obtain ⟨tree', htree', hu⟩ := hf.update (v := v) (hs.wellFormed h)
  refine ⟨tree', htree', hs.update ?_ hu⟩
  rw [List.append_assoc _ [x]]
  exact List.prefix_append _ _

lemma insertLeaf_update {parent : Key} {p : Node V} {s : Bytes} (h : WellFormed tree)
    (hf : FreeLeaf tree parent p k s) :
    ∃ tree', insertLeaf k s v parent tree = some tree' ∧ Update tree tree' (k ++ s) (some v) := by
  have hnot : k ∉ p.children := by
    intro hc
    obtain ⟨cn, hcn, -⟩ := (h.children parent p k hf.node).mp hc
    rw [hf.free] at hcn
    cases hcn
  rw [insertLeaf]
  simp only [hf.node, OrdSet.insert_eq_some hnot, Option.bind_eq_bind, Option.bind_some]
  exact hf.update h

/-- `insert` gives the key the value and keeps the tree well-formed. -/
theorem insert_update (h : WellFormed tree) (key : Bytes) (v : V) :
    ∃ tree', insert key v tree = some tree' ∧ Update tree tree' key (some v) := by
  obtain ⟨level, parent, hpath, hstop, hsame⟩ := h.toLinked.search key
  have hkey : key.take level ++ key.drop level = key := List.take_append_drop level key
  rw [insert, hsame.insertFrom, insertFrom_eq]
  cases hn : tree.node (.bin (key.take level)) with
  | none =>
    obtain ⟨p, hp, hck⟩ := hpath.child
    have hf : FreeLeaf tree parent p (key.take level) (key.drop level) :=
      ⟨hp, hn, hck, hpath.parent, fun hnil => by
        by_contra hne
        exact hpath.take_ne_nil hne hnil⟩
    have hu := insertLeaf_update (v := v) h hf
    rwa [hkey] at hu
  | some n =>
    by_cases hsuf : key.drop level = n.suffix
    · have hu := insertValue_update (v := v) h hn
      simp only [if_pos hsuf]
      rwa [← hsuf, hkey] at hu
    · have hnot : ¬n.suffix <+: key.drop level := fun hpre => hsuf (hstop n hn hpre)
      have hcommon : commonPrefix (key.drop level) n.suffix ≠ n.suffix := by
        rwa [Ne, commonPrefix_eq_right_iff]
      simp only [if_neg hsuf, hcommon, false_and, if_false]
      rcases commonPrefix_cases (key.drop level) n.suffix with hc | hc | ⟨x, s, y, rest, hxy, hx, hy⟩
      · -- the key ends on the edge
        have hpre := commonPrefix_eq_left_iff.mp hc
        obtain ⟨t, ht⟩ := hpre
        cases t with
        | nil => exact absurd (by simpa using ht) hsuf
        | cons b rest =>
          have hs : Splits tree (key.take level) (key.drop level) b rest n := ⟨h.toLinked, hn, ht.symm⟩
          have hdrop : n.suffix.drop (key.drop level).length = b :: rest := by
            rw [← ht, List.drop_left]
          rw [hc, if_pos ⟨rfl, lt_of_prefix_of_ne ⟨_, ht⟩ hsuf⟩, hdrop]
          have hu := insertPivot_update (v := v) h hs
          rwa [hkey] at hu
      · exact absurd hc hcommon
      · -- the key leaves the edge
        set common := commonPrefix (key.drop level) n.suffix with hcdef
        have hne : common ≠ key.drop level := by
          intro he
          rw [← he] at hx
          simpa using congrArg List.length hx
        have hs : Splits tree (key.take level) common y rest n := ⟨h.toLinked, hn, hy⟩
        have hdx : (key.drop level).drop common.length = x :: s := by
          rw [hx, List.drop_left]
        have hdy : n.suffix.drop common.length = y :: rest := by
          rw [hy, List.drop_left]
        rw [if_neg (fun h => hne h.1), if_pos ⟨hne, hcommon⟩, hdx, hdy]
        have hu := insertFork_update (v := v) (s := s) h hs hxy
        rwa [List.append_assoc, ← hx, hkey] at hu

end Insert

end Arweave.Patricia

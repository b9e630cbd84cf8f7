import Arweave.Patricia.TrieHash

/-!
# The computation of hashes

`computeHashFrom` fills in the missing hashes at and below a node and collects what has to be
stored. When every cached hash is the hash of the contents below its node, and nothing is
missing below a node with a hash, the result is the hash of the contents, the tree changes
in its hashes only, and the updates describe the nodes whose hash was missing.
-/

namespace Arweave.Patricia
open Arweave.Lib

variable {V : Type} (H : Digest 48) (hashFun : Bytes → V → Bytes) (M : SortedMap Bytes V)

/-- The cached hashes are those of the contents, and there are no gaps below them. -/
structure Caches (tree : Tree V) : Prop where
  content : ∀ k n hash, tree.node k = some n → n.hash = some hash →
    hash = contentHash H hashFun M (k.full n)
  closed : ∀ k n c cn, tree.node k = some n → c ∈ n.children → tree.node (.bin c) = some cn →
    n.hash ≠ none → cn.hash ≠ none

/-- The tree with the hashes of the contents at some nodes. -/
def Tree.fill (tree : Tree V) (S : Key → Prop) [DecidablePred S] : Tree V :=
  tree.rehash fun k n => if S k then some (contentHash H hashFun M (k.full n)) else n.hash

/-- The subtrees of a node as they are stored, with their hashes and prefixes. -/
def subtrees (k : Key) (n : Node V) : List (Bytes × Bytes) :=
  (ownEntry k n).map (fun e => (hashFun e.1 e.2, k.bytes.getD [])) ++
    n.children.elems.map fun c => (contentHash H hashFun M (.bin c), c)

/-- What is stored for a node: the entry of the node, and the list of its subtrees when it has
children. -/
inductive Writes (k : Key) (n : Node V) : Bytes × Key → Entry V → Prop
  | leaf (key : Bytes) (v : V) (h : (key, v) ∈ ownEntry k n) :
      Writes k n (hashFun key v, k) (.leaf key v)
  | list (h : n.children.isEmpty = false) :
      Writes k n (contentHash H hashFun M (k.full n), k) (.list (subtrees H hashFun M k n))

/-- The updates grow by what is stored for the nodes of a set whose hash is missing. -/
structure Collects (tree : Tree V) (S : Key → Prop) (updates updates' : UpdateMap V) : Prop where
  sound : ∀ x ∈ updates', x ∈ updates ∨ ∃ j n, S j ∧ tree.node j = some n ∧ n.hash = none ∧
    Writes H hashFun M j n x.1 x.2
  complete : ∀ j n, S j → tree.node j = some n → n.hash = none → ∀ id entry,
    Writes H hashFun M j n id entry → ∃ entry', (id, entry') ∈ updates'
  keeps : ∀ x ∈ updates, ∃ entry', (x.1, entry') ∈ updates'

variable {H hashFun M} {tree : Tree V}

lemma UpdateMap.mem_put {updates : UpdateMap V} {id : Bytes × Key} {entry : Entry V}
    {x : (Bytes × Key) × Entry V} :
    x ∈ updates.put id entry ↔ x = (id, entry) ∨ x.1 ≠ id ∧ x ∈ updates := by
  simp [UpdateMap.put, and_comm]

lemma UpdateMap.put_keeps {updates : UpdateMap V} {id : Bytes × Key} {entry : Entry V}
    {x : (Bytes × Key) × Entry V} (hx : x ∈ updates) : ∃ entry', (x.1, entry') ∈ updates.put id entry := by
  by_cases h : x.1 = id
  · exact ⟨entry, mem_put.mpr (.inl (by rw [h]))⟩
  · exact ⟨x.2, mem_put.mpr (.inr ⟨h, hx⟩)⟩

section Collects

variable {S T : Key → Prop} {updates updates1 updates2 : UpdateMap V}

lemma Collects.refl (h : ∀ j n, S j → tree.node j = some n → n.hash ≠ none) :
    Collects H hashFun M tree S updates updates where
  sound _ hx := .inl hx
  complete j n hj hn hhash := absurd hhash (h j n hj hn)
  keeps x hx := ⟨x.2, hx⟩

lemma Collects.trans (h1 : Collects H hashFun M tree S updates updates1)
    (h2 : Collects H hashFun M tree T updates1 updates2) :
    Collects H hashFun M tree (fun j => S j ∨ T j) updates updates2 where
  sound x hx := by
    rcases h2.sound x hx with hx | ⟨j, n, hj, hn⟩
    · rcases h1.sound x hx with hx | ⟨j, n, hj, hn⟩
      · exact .inl hx
      · exact .inr ⟨j, n, .inl hj, hn⟩
    · exact .inr ⟨j, n, .inr hj, hn⟩
  complete j n hj hn hhash id entry hw := by
    rcases hj with hj | hj
    · obtain ⟨entry1, h1⟩ := h1.complete j n hj hn hhash id entry hw
      exact h2.keeps _ h1
    · exact h2.complete j n hj hn hhash id entry hw
  keeps x hx := by
    obtain ⟨entry1, h1⟩ := h1.keeps x hx
    exact h2.keeps (x.1, entry1) h1

lemma Collects.congr {tree' : Tree V} (h : Collects H hashFun M tree' T updates updates1)
    (hST : ∀ j n, tree.node j = some n → (S j ↔ T j))
    (hnode : ∀ j, T j → tree'.node j = tree.node j) :
    Collects H hashFun M tree S updates updates1 where
  sound x hx := by
    rcases h.sound x hx with hx | ⟨j, n, hj, hn, hw⟩
    · exact .inl hx
    · rw [hnode j hj] at hn
      exact .inr ⟨j, n, (hST j n hn).mpr hj, hn, hw⟩
  complete j n hj hn hhash id entry hw := by
    have hj := (hST j n hn).mp hj
    exact h.complete j n hj ((hnode j hj).trans hn) hhash id entry hw
  keeps := h.keeps

end Collects

section Fill

variable {S T : Key → Prop} [DecidablePred S] [DecidablePred T]

lemma Represents.rehash {f : Key → Node V → Option Bytes} (h : Represents tree M) :
    Represents (tree.rehash f) M where
  toWellFormed := h.toWellFormed.rehash
  holds key v := by rw [holds_rehash, h.holds]
  size := h.size

lemma Bounded.rehash {f : Key → Node V → Option Bytes} {L : Nat} (h : Bounded tree L) :
    Bounded (tree.rehash f) L := by
  intro k n' hn'
  obtain ⟨n, hn, rfl⟩ := rehash_node_eq_some.mp hn'
  exact h k n hn

lemma fill_fill : (tree.fill H hashFun M S).fill H hashFun M T =
    tree.fill H hashFun M fun k => S k ∨ T k := by
  rw [Tree.fill, Tree.fill, Tree.fill, rehash_rehash]
  apply rehash_congr
  intro k n _
  by_cases hS : S k <;> by_cases hT : T k <;> simp [hS, hT]

lemma fill_congr (h : ∀ k n, tree.node k = some n → (S k ↔ T k)) :
    tree.fill H hashFun M S = tree.fill H hashFun M T := by
  apply rehash_congr
  intro k n hn
  simp only [h k n hn]

lemma fill_node_of_not {k : Key} (h : ¬S k) : (tree.fill H hashFun M S).node k = tree.node k := by
  rw [Tree.fill, rehash_node]
  simp [h]

lemma Caches.fill (h : Caches H hashFun M tree)
    (hS : ∀ k n c, tree.node k = some n → c ∈ n.children → S k → S (.bin c)) :
    Caches H hashFun M (tree.fill H hashFun M S) where
  content k n' hash hn' hhash := by
    obtain ⟨n, hn, rfl⟩ := rehash_node_eq_some.mp hn'
    rw [Key.full_hash]
    dsimp only at hhash
    split_ifs at hhash with hk
    · exact (Option.some.inj hhash).symm
    · exact h.content k n hash hn hhash
  closed k n' c cn' hn' hc hcn' hhash := by
    obtain ⟨n, hn, rfl⟩ := rehash_node_eq_some.mp hn'
    obtain ⟨cn, hcn, rfl⟩ := rehash_node_eq_some.mp hcn'
    dsimp only at hhash ⊢
    by_cases hk : S k
    · rw [if_pos (hS k n c hn hc hk)]
      exact Option.some_ne_none _
    · rw [if_neg hk] at hhash
      split_ifs
      · exact Option.some_ne_none _
      · exact h.closed k n c cn hn hc hcn hhash

lemma Caches.below (h : Caches H hashFun M tree) (hl : Linked tree) {k : Key} {n : Node V}
    (hk : tree.node k = some n) (hhash : n.hash ≠ none) {j : Key} {m : Node V}
    (hj : tree.node j = some m) (hab : k.Above j) : m.hash ≠ none := by
  induction hd : j.depth using Nat.strong_induction_on generalizing j m with
  | _ d ih =>
    by_cases hkj : k = j
    · subst hkj
      rw [hk] at hj
      cases hj
      exact hhash
    · cases j with
      | root => exact absurd (Key.above_root.mp hab) hkj
      | bin j =>
        obtain ⟨p, pn, hp, hpn, -⟩ := hl.parent j m hj
        have hkp := ((hl.above_iff hj hp hk).mp hab).resolve_left hkj
        have hc : j ∈ pn.children := (hl.children p pn j hpn).mpr ⟨m, hj, hp⟩
        apply h.closed p pn j m hpn hc hj
        refine ih p.depth ?_ hpn hkp rfl
        rw [← hd]
        rcases hl.parent_cases hj with ⟨hroot, -⟩ | ⟨q, qn, b, hq, -, -, rfl⟩
        · rw [hroot] at hp
          cases hp
          simp [Key.depth]
        · rw [hq] at hp
          cases hp
          simp only [Key.depth, List.length_append, List.length_singleton]
          omega

end Fill

lemma combineHashes_eq (hashes : List (Bytes × Bytes)) :
    combineHashes H hashes = combine H (hashes.map Prod.fst) := by
  rcases hashes with _ | ⟨a, _ | ⟨b, l⟩⟩
  · rfl
  · rfl
  · rw [combineHashes, combine]
    · simp [Function.comp_def]
    · simp
    · simp

section Compute

variable {L : Nat}

lemma collects_node {k : Key} {n : Node V} (hk : tree.node k = some n) {updates updates' : UpdateMap V}
    (hsound : ∀ x ∈ updates', x ∈ updates ∨ Writes H hashFun M k n x.1 x.2)
    (hcomplete : ∀ id entry, Writes H hashFun M k n id entry → ∃ entry', (id, entry') ∈ updates')
    (hkeeps : ∀ x ∈ updates, ∃ entry', (x.1, entry') ∈ updates') (hhash : n.hash = none) :
    Collects H hashFun M tree (· = k) updates updates' where
  sound x hx := (hsound x hx).imp id fun hw => ⟨k, n, rfl, hk, hhash, hw⟩
  complete j m hj hm _ id entry hw := by
    subst hj
    rw [hk] at hm
    cases hm
    exact hcomplete id entry hw
  keeps := hkeeps

/-- The hash computation below every node, with the given fuel. -/
def Computes (H : Digest 48) (hashFun : Bytes → V → Bytes) (M : SortedMap Bytes V) (L fuel : Nat) : Prop :=
  ∀ (tree : Tree V) (k : Key) (n : Node V) (updates : UpdateMap V), Represents tree M → Bounded tree L →
    Caches H hashFun M tree → tree.node k = some n → (k = .root → n.children.isEmpty = false) →
    k.height L ≤ fuel →
    ∃ updates', computeHashFrom H hashFun fuel k tree updates =
        some (contentHash H hashFun M (k.full n), tree.fill H hashFun M (k.Above ·), updates') ∧
      Collects H hashFun M tree (k.Above ·) updates updates'

/-- The loop over the children, from the last to the first. -/
lemma Computes.children {fuel : Nat} (ih : Computes H hashFun M L fuel) (h : Represents tree M)
    (hb : Bounded tree L) (hc : Caches H hashFun M tree) {k : Key} {n : Node V}
    (hk : tree.node k = some n) (hfuel : k.height L ≤ fuel + 1) (updates : UpdateMap V) (l : List Bytes)
    (hl : ∀ c ∈ l, c ∈ n.children) (hnodup : l.Nodup) :
    ∃ updates', l.foldrM (fun child x =>
        (computeHashFrom H hashFun fuel (.bin child) x.2.1 x.2.2).bind fun y =>
          some ((y.1, child) :: x.1, y.2.1, y.2.2)) ([], tree, updates) =
        some (l.map (fun c => (contentHash H hashFun M (.bin c), c)),
          tree.fill H hashFun M (fun j => ∃ c ∈ l, (Key.bin c).Above j), updates') ∧
      Collects H hashFun M tree (fun j => ∃ c ∈ l, (Key.bin c).Above j) updates updates' := by
  induction l with
  | nil =>
    refine ⟨updates, ?_, Collects.refl (by simp)⟩
    have hself : tree.fill H hashFun M (fun j => ∃ c ∈ [], (Key.bin c).Above j) = tree := by
      apply rehash_eq_self
      intro j m _
      simp
    rw [hself]
    rfl
  | cons c l ihl =>
    obtain ⟨hcl, hnodup⟩ := List.nodup_cons.mp hnodup
    have hcn : c ∈ n.children := hl c (by simp)
    obtain ⟨cn, hcnode, -⟩ := h.toLinked.child_node hk hcn
    obtain ⟨updates1, hfold, hcol1⟩ := ihl (fun d hd => hl d (by simp [hd])) hnodup
    set tree1 := tree.fill H hashFun M (fun j => ∃ d ∈ l, (Key.bin d).Above j) with htree1
    have hnot : ∀ j, (Key.bin c).Above j → ¬∃ d ∈ l, (Key.bin d).Above j := by
      rintro j hcj ⟨d, hd, hdj⟩
      refine h.toLinked.children_disjoint hk hcn (hl d (by simp [hd])) ?_ hcj hdj
      rintro rfl
      exact hcl hd
    have hc1 : Caches H hashFun M tree1 := by
      apply hc.fill
      rintro j m d hm hd ⟨a, ha, haj⟩
      exact ⟨a, ha, haj.trans (h.toLinked.above_child hm hd)⟩
    have hnode1 : tree1.node (.bin c) = some cn :=
      (fill_node_of_not (hnot _ (Key.Above.refl _))).trans hcnode
    have hheight := hb.height_child h.toLinked hk hcn
    obtain ⟨updates2, hcompute, hcol2⟩ := ih tree1 (.bin c) cn updates1 h.rehash hb.rehash hc1 hnode1
      (by simp) (by omega)
    refine ⟨updates2, ?_, ?_⟩
    · have hfill : tree1.fill H hashFun M ((Key.bin c).Above ·) =
          tree.fill H hashFun M (fun j => ∃ d ∈ c :: l, (Key.bin d).Above j) := by
        rw [htree1, fill_fill]
        apply fill_congr
        intro j m _
        simp only [List.mem_cons, exists_eq_or_imp]
        exact or_comm
      rw [List.foldrM_cons, hfold, Option.bind_eq_bind, Option.bind_some, hcompute, Option.bind_some, hfill,
        Key.full, h.contentHash_full hcnode, List.map_cons]
    · have hcol2' : Collects H hashFun M tree ((Key.bin c).Above ·) updates1 updates2 :=
        hcol2.congr (fun _ _ _ => Iff.rfl) fun j hj => fill_node_of_not (hnot j hj)
      apply (hcol1.trans hcol2').congr
      · intro j m _
        simp only [List.mem_cons, exists_eq_or_imp]
        exact or_comm
      · intro _ _
        rfl

lemma Linked.above_iff_children (h : Linked tree) {k : Key} {n : Node V} (hk : tree.node k = some n)
    {j : Key} {m : Node V} (hj : tree.node j = some m) :
    k.Above j ↔ (∃ c ∈ n.children.elems, (Key.bin c).Above j) ∨ j = k := by
  constructor
  · intro hab
    cases j with
    | root => exact .inr (Key.above_root.mp hab).symm
    | bin j => exact (h.above_cases hk hj hab).symm.imp id Eq.symm
  · rintro (⟨c, hc, hab⟩ | rfl)
    · exact (h.above_child hk hc).trans hab
    · exact Key.Above.refl _

lemma Computes.leaf (h : Represents tree M) (hb : Bounded tree L) {k : Bytes} {n : Node V}
    (hk : tree.node (.bin k) = some n) (hhash : n.hash = none) (hempty : n.children.isEmpty = true) {v : V}
    (hv : n.value = some v) (updates : UpdateMap V) :
    contentHash H hashFun M (.bin (k ++ n.suffix)) = hashFun (k ++ n.suffix) v ∧
    tree.put (.bin k) { n with children := .empty, hash := some (hashFun (k ++ n.suffix) v) } =
      tree.fill H hashFun M ((Key.bin k).Above ·) ∧
    Collects H hashFun M tree ((Key.bin k).Above ·) updates
      (updates.put (hashFun (k ++ n.suffix) v, .bin k) (.leaf (k ++ n.suffix) v)) := by
  have hnil : n.children.elems = [] := List.isEmpty_iff.mp hempty
  have hcontent : contentHash H hashFun M (.bin (k ++ n.suffix)) = hashFun (k ++ n.suffix) v := by
    have hnode : contentHash H hashFun M ((Key.bin k).full n) = _ := h.contentHash_node hb hk
    rw [Key.full, ownEntry, hv, hnil] at hnode
    exact hnode
  have hbelow : ∀ j m, tree.node j = some m → ((Key.bin k).Above j ↔ j = .bin k) := by
    intro j m hj
    rw [h.toLinked.above_iff_children hk hj, hnil]
    simp
  refine ⟨hcontent, ?_, ?_⟩
  · have hn : { n with children := .empty, hash := some (hashFun (k ++ n.suffix) v) } =
        { n with hash := some (hashFun (k ++ n.suffix) v) } := by
      rw [show n.children = .empty from OrdSet.ext hnil]
    rw [hn, put_hash hk]
    apply rehash_congr
    intro j m hj
    by_cases hjk : j = .bin k
    · subst hjk
      rw [hk] at hj
      cases hj
      rw [if_pos rfl, if_pos (Key.Above.refl _), Key.full, hcontent]
    · rw [if_neg hjk, if_neg fun hab => hjk ((hbelow j m hj).mp hab)]
  · refine Collects.congr (T := (· = .bin k)) (collects_node hk ?_ ?_ ?_ hhash) hbelow fun _ _ => rfl
    · intro x hx
      rcases UpdateMap.mem_put.mp hx with rfl | ⟨-, hx⟩
      · exact .inr (.leaf _ _ (by simp [ownEntry, hv]))
      · exact .inl hx
    · rintro id entry (⟨key, w, hmem⟩ | hch)
      · simp only [ownEntry, hv, Option.toList_some, List.map_cons, List.map_nil, List.mem_singleton,
          Prod.mk.injEq] at hmem
        obtain ⟨rfl, rfl⟩ := hmem
        exact ⟨_, UpdateMap.mem_put.mpr (.inl rfl)⟩
      · rw [hempty] at hch
        cases hch
    · intro x hx
      exact UpdateMap.put_keeps hx

/-- The node after its children: its hash is set and its own updates are added. -/
lemma Computes.inner (h : Represents tree M) {k : Key} {n : Node V} (hk : tree.node k = some n)
    {updates updates1 updates2 : UpdateMap V}
    (hcol : Collects H hashFun M tree (fun j => ∃ c ∈ n.children.elems, (Key.bin c).Above j) updates updates1)
    (hnode : Collects H hashFun M tree (· = k) updates1 updates2) :
    (tree.fill H hashFun M fun j => ∃ c ∈ n.children.elems, (Key.bin c).Above j).put k
        { n with hash := some (contentHash H hashFun M (k.full n)) } =
      tree.fill H hashFun M (k.Above ·) ∧
    Collects H hashFun M tree (k.Above ·) updates updates2 := by
  constructor
  · have hnot : ¬∃ c ∈ n.children.elems, (Key.bin c).Above k := by
      rintro ⟨c, hc, hck⟩
      obtain ⟨cn, hcn, hp⟩ := h.toLinked.child_node hk hc
      have hkc := h.toLinked.above_child hk hc
      -- the key of a child is longer
      cases k with
      | root => exact hck
      | bin k =>
        obtain ⟨b, rfl⟩ := h.toLinked.childKey hk hc
        have := hck.1.length_le
        simp only [List.length_append, List.length_singleton] at this
        omega
    rw [put_hash ((fill_node_of_not hnot).trans hk), Tree.fill, rehash_rehash]
    apply rehash_congr
    intro j m hj
    by_cases hjk : j = k
    · subst hjk
      rw [hk] at hj
      cases hj
      rw [if_pos rfl, if_pos (Key.Above.refl _)]
    · rw [if_neg hjk]
      refine if_congr ?_ rfl rfl
      change _ ↔ k.Above j
      rw [h.toLinked.above_iff_children hk hj, or_iff_left hjk]
  · apply (hcol.trans hnode).congr
    · intro j m hj
      exact h.toLinked.above_iff_children hk hj
    · intro _ _
      rfl

lemma Caches.fill_eq_self (hc : Caches H hashFun M tree) (hl : Linked tree) {k : Key} {n : Node V}
    (hk : tree.node k = some n) (hhash : n.hash ≠ none) : tree.fill H hashFun M (k.Above ·) = tree := by
  apply rehash_eq_self
  intro j m hj
  split_ifs with hab
  · obtain ⟨hash', hhash'⟩ := Option.ne_none_iff_exists'.mp (hc.below hl hk hhash hj hab)
    rw [hhash', hc.content j m hash' hj hhash']
  · rfl

lemma collects_valueNode {k : Bytes} {n : Node V} {v : V} (hk : tree.node (.bin k) = some n) (hhash : n.hash = none)
    (hlist : n.children.isEmpty = false) (hown : ownEntry (.bin k) n = [(k ++ n.suffix, v)]) (updates : UpdateMap V) :
    Collects H hashFun M tree (· = .bin k) updates
      ((updates.put (hashFun (k ++ n.suffix) v, .bin k) (.leaf (k ++ n.suffix) v)).put
        (contentHash H hashFun M ((Key.bin k).full n), .bin k) (.list (subtrees H hashFun M (.bin k) n))) := by
  apply collects_node hk _ _ _ hhash
  · intro x hx
    rcases UpdateMap.mem_put.mp hx with rfl | ⟨-, hx⟩
    · exact .inr (.list hlist)
    · rcases UpdateMap.mem_put.mp hx with rfl | ⟨-, hx⟩
      · exact .inr (.leaf _ _ (by simp [hown]))
      · exact .inl hx
  · rintro id entry (⟨key, w, hmem⟩ | -)
    · rw [hown, List.mem_singleton, Prod.mk.injEq] at hmem
      obtain ⟨rfl, rfl⟩ := hmem
      exact UpdateMap.put_keeps (UpdateMap.mem_put.mpr (.inl rfl))
    · exact ⟨_, UpdateMap.mem_put.mpr (.inl rfl)⟩
  · intro x hx
    obtain ⟨entry1, hx⟩ := UpdateMap.put_keeps hx
    exact UpdateMap.put_keeps (x := (x.1, entry1)) hx

lemma collects_listNode {k : Key} {n : Node V} (hk : tree.node k = some n) (hhash : n.hash = none)
    (hlist : n.children.isEmpty = false) (hown : ownEntry k n = []) (updates : UpdateMap V) :
    Collects H hashFun M tree (· = k) updates
      (updates.put (contentHash H hashFun M (k.full n), k) (.list (subtrees H hashFun M k n))) := by
  apply collects_node hk _ _ _ hhash
  · intro x hx
    rcases UpdateMap.mem_put.mp hx with rfl | ⟨-, hx⟩
    · exact .inr (.list hlist)
    · exact .inl hx
  · rintro id entry (⟨key, w, hmem⟩ | -)
    · rw [hown] at hmem
      cases hmem
    · exact ⟨_, UpdateMap.mem_put.mpr (.inl rfl)⟩
  · intro x hx
    exact UpdateMap.put_keeps hx

theorem computes (fuel : Nat) : Computes H hashFun M L fuel := by
  induction fuel with
  | zero =>
    intro tree k n updates h hb hc hk _ hfuel
    have := hb.height_pos hk
    omega
  | succ fuel ih =>
    intro tree k n updates h hb hc hk hroot hfuel
    rw [computeHashFrom]
    simp only [hk, Option.bind_eq_bind, Option.bind_some]
    cases hhash : n.hash with
    | some hash =>
      have hsome : n.hash ≠ none := by simp [hhash]
      refine ⟨updates, ?_, ?_⟩
      · rw [hc.fill_eq_self h.toLinked hk hsome, ← hc.content k n hash hk hhash]
      · apply Collects.refl
        intro j m hab hj
        exact hc.below h.toLinked hk hsome hj hab
    | none =>
      by_cases hempty : n.children.isEmpty = true
      · cases k with
        | root => simp [hroot rfl] at hempty
        | bin k =>
          obtain ⟨v, hv⟩ := Option.isSome_iff_exists.mp (h.inner k n hk hempty)
          obtain ⟨hcontent, htree, hcol⟩ :=
            @Computes.leaf _ H hashFun _ _ _ h hb _ _ hk hhash hempty _ hv updates
          simp only [hempty, if_true, hv, Option.bind_some, Key.bytes, Key.full, hcontent]
          refine ⟨_, ?_, hcol⟩
          rw [← htree, hv]
      · obtain ⟨updates1, hfold, hcol⟩ := ih.children h hb hc hk hfuel updates n.children.elems
          (fun c hc => hc) (n.children.sorted.imp fun hlt => hlt.ne)
        have hcontent : contentHash H hashFun M (k.full n) = _ := h.contentHash_node hb hk
        have hlist : n.children.isEmpty = false := by simpa using hempty
        simp only [hlist, Bool.false_eq_true, if_false, hfold, Option.bind_some]
        cases hv : n.value with
        | some v =>
          cases k with
          | root =>
            obtain ⟨r, hr, -, hrv⟩ := h.root
            rw [hr] at hk
            cases hk
            rw [hrv] at hv
            cases hv
          | bin k =>
            have hown : ownEntry (.bin k) n = [(k ++ n.suffix, v)] := by simp [ownEntry, hv]
            have hsub : (hashFun (k ++ n.suffix) v, k) ::
                n.children.elems.map (fun c => (contentHash H hashFun M (.bin c), c)) =
                subtrees H hashFun M (.bin k) n := by
              rw [subtrees, hown]
              rfl
            have hdeep : DeepHash.hash H ((hashFun (k ++ n.suffix) v ::
                (n.children.elems.map fun c => (contentHash H hashFun M (.bin c), c)).map Prod.fst).map .blob) =
                contentHash H hashFun M ((Key.bin k).full n) := by
              rw [hcontent, hown, List.map_map]
              cases helems : n.children.elems with
              | nil => simp [OrdSet.isEmpty, helems] at hlist
              | cons d l => rfl
            simp only [Key.bytes, Option.bind_some, hsub, hdeep]
            obtain ⟨htree, hcol⟩ := Computes.inner h hk hcol (collects_valueNode hk hhash hlist hown updates1)
            refine ⟨_, ?_, hcol⟩
            rw [← htree, hv]
        | none =>
          have hown : ownEntry k n = [] := by
            cases k with
            | root => rfl
            | bin k => simp [ownEntry, hv]
          have hsub : n.children.elems.map (fun c => (contentHash H hashFun M (.bin c), c)) =
              subtrees H hashFun M k n := by
            rw [subtrees, hown]
            rfl
          have hdeep : combineHashes H (subtrees H hashFun M k n) =
              contentHash H hashFun M (k.full n) := by
            rw [combineHashes_eq, hcontent, ← hsub, hown, List.map_map]
            rfl
          simp only [hsub, hdeep]
          obtain ⟨htree, hcol⟩ := Computes.inner h hk hcol (collects_listNode hk hhash hlist hown updates1)
          refine ⟨_, ?_, hcol⟩
          rw [← htree, hv]

/-- `compute_hash` of a tree with values returns the hash of its contents. -/
theorem computeHash_eq (h : Represents tree M) (hb : Bounded tree L) (hc : Caches H hashFun M tree)
    {fuel : Nat} (hfuel : L + 2 ≤ fuel) (hsize : tree.size ≠ 0) :
    ∃ updates, computeHash H hashFun fuel tree =
        some (trieHash H hashFun M [], tree.fill H hashFun M (fun _ => True), updates) ∧
      Collects H hashFun M tree (fun _ => True) [] updates := by
  obtain ⟨r, hr, -⟩ := h.root
  obtain ⟨updates, hcompute, hcol⟩ := @computes _ H hashFun M L fuel tree .root r [] h hb hc hr
    (fun _ => h.children_root hsize hr) hfuel
  refine ⟨updates, ?_, hcol.congr (fun _ _ _ => Iff.rfl) fun _ _ => rfl⟩
  rw [computeHash, if_neg hsize, hcompute]
  rfl

end Compute

end Arweave.Patricia

import Arweave.Patricia.Search

/-!
# The invalidation of hashes

`invalidateHash` walks from a node to the root and drops the cached hashes on the way. In a
linked tree these are the nodes whose keys are prefixes of the key of the node, so the
result has a description without the walk, `Tree.clear`. Dropping hashes and changing
values keeps the links of the tree.
-/

namespace Arweave.Patricia
open Arweave.Lib

variable {V : Type} {tree tree' : Tree V}

/-- The node is an ancestor of the other in the order of prefixes, or the same node. The empty
key is below the root only. -/
def Key.Above : Key → Key → Prop
  | .root, _ => True
  | .bin _, .root => False
  | .bin a, .bin b => a <+: b ∧ (a = [] → b = [])

instance (j k : Key) : Decidable (j.Above k) :=
  match j, k with
  | .root, _ => isTrue trivial
  | .bin _, .root => isFalse not_false
  | .bin a, .bin b => inferInstanceAs (Decidable (a <+: b ∧ (a = [] → b = [])))

/-- The key of a node with its edge. -/
def Key.full (n : Node V) : Key → Key
  | .root => .root
  | .bin k => .bin (k ++ n.suffix)

namespace Key

variable {i j k : Key}

lemma full_congr {n n' : Node V} (h : n.suffix = n'.suffix) : k.full n = k.full n' := by
  cases k with
  | root => rfl
  | bin k => rw [full, full, h]

@[simp] lemma full_hash {n : Node V} {hash : Option Bytes} : k.full { n with hash := hash } = k.full n :=
  full_congr rfl

@[simp] lemma root_above : Key.root.Above k := trivial

@[simp] lemma above_root : j.Above .root ↔ j = .root := by
  cases j <;> simp [Above]

lemma above_bin {a b : Bytes} : (Key.bin a).Above (.bin b) ↔ a <+: b ∧ (a = [] → b = []) := Iff.rfl

lemma Above.refl (k : Key) : k.Above k := by
  cases k with
  | root => trivial
  | bin a => exact ⟨List.prefix_refl _, id⟩

lemma Above.trans (hij : i.Above j) (hjk : j.Above k) : i.Above k := by
  cases i with
  | root => trivial
  | bin a =>
    cases j with
    | root => exact hij.elim
    | bin b =>
      cases k with
      | root => exact hjk.elim
      | bin c => exact ⟨hij.1.trans hjk.1, fun h => hjk.2 (hij.2 h)⟩

end Key

/-- Two trees have the same nodes with the same links and edges. -/
def Similar (tree tree' : Tree V) : Prop :=
  ∀ k, (tree.node k).map (fun n => (n.parent, n.children, n.suffix)) =
    (tree'.node k).map (fun n => (n.parent, n.children, n.suffix))

namespace Similar

lemma symm (h : Similar tree tree') : Similar tree' tree := fun k => (h k).symm

lemma node (h : Similar tree tree') {k : Key} {n : Node V} (hn : tree.node k = some n) :
    ∃ n', tree'.node k = some n' ∧ n'.parent = n.parent ∧ n'.children = n.children ∧
      n'.suffix = n.suffix := by
  have hk := h k
  rw [hn, Option.map_some, eq_comm, Option.map_eq_some_iff] at hk
  obtain ⟨n', hn', heq⟩ := hk
  simp only [Prod.mk.injEq] at heq
  exact ⟨n', hn', heq⟩

lemma put {k : Key} {n n' : Node V} (hn : tree.node k = some n) (hp : n'.parent = n.parent)
    (hc : n'.children = n.children) (hs : n'.suffix = n.suffix) : Similar tree (tree.put k n') := by
  intro j
  rw [Tree.put_node]
  split_ifs with hj
  · rw [hj, hn, Option.map_some, Option.map_some, hp, hc, hs]
  · rfl

lemma linked (h : Similar tree tree') (hl : Linked tree)
    (hroot : ∀ n, tree'.node .root = some n → n.value = none) : Linked tree' where
  root := by
    obtain ⟨n, hn, hp, -⟩ := hl.root
    obtain ⟨n', hn', hp', -⟩ := h.node hn
    exact ⟨n', hn', hp'.trans hp, hroot n' hn'⟩
  parent k n' hn' := by
    obtain ⟨n, hn, hp, -⟩ := h.symm.node hn'
    obtain ⟨p, pn, hpar, hpn, hck⟩ := hl.parent k n hn
    obtain ⟨pn', hpn', -, -, hs⟩ := h.node hpn
    refine ⟨p, pn', hp.symm.trans hpar, hpn', ?_⟩
    cases p with
    | root => exact hck
    | bin p =>
      rw [ChildKey, hs]
      exact hck
  children p pn' c hpn' := by
    obtain ⟨pn, hpn, -, hc, -⟩ := h.symm.node hpn'
    rw [← hc, hl.children p pn c hpn]
    constructor
    · rintro ⟨cn, hcn, hpar⟩
      obtain ⟨cn', hcn', hp', -⟩ := h.node hcn
      exact ⟨cn', hcn', hp'.trans hpar⟩
    · rintro ⟨cn', hcn', hpar⟩
      obtain ⟨cn, hcn, hp', -⟩ := h.symm.node hcn'
      exact ⟨cn, hcn, hp'.trans hpar⟩
  empty n' hn' := by
    obtain ⟨n, hn, -, hc, hs⟩ := h.symm.node hn'
    rw [← hc, ← hs]
    exact hl.empty n hn

end Similar

/-- The tree with other cached hashes. -/
def Tree.rehash (tree : Tree V) (f : Key → Node V → Option Bytes) : Tree V :=
  { tree with node := fun k => (tree.node k).map fun n => { n with hash := f k n } }

section Rehash

variable {f : Key → Node V → Option Bytes} {k : Key}

@[simp] lemma rehash_size : (tree.rehash f).size = tree.size := rfl

lemma rehash_node (k : Key) :
    (tree.rehash f).node k = (tree.node k).map fun n => { n with hash := f k n } := rfl

lemma rehash_node_eq_some {n' : Node V} :
    (tree.rehash f).node k = some n' ↔ ∃ n, tree.node k = some n ∧ n' = { n with hash := f k n } := by
  rw [rehash_node, Option.map_eq_some_iff]
  simp only [eq_comm]

lemma rehash_node_of_eq {n : Node V} (h : tree.node k = some n) :
    (tree.rehash f).node k = some { n with hash := f k n } := by
  rw [rehash_node, h, Option.map_some]

lemma rehash_congr {g : Key → Node V → Option Bytes} (h : ∀ k n, tree.node k = some n → f k n = g k n) :
    tree.rehash f = tree.rehash g := by
  ext1
  · funext k
    rw [rehash_node, rehash_node]
    cases hn : tree.node k with
    | none => rfl
    | some n => rw [Option.map_some, Option.map_some, h k n hn]
  · rfl

lemma rehash_eq_self (h : ∀ k n, tree.node k = some n → f k n = n.hash) : tree.rehash f = tree := by
  rw [rehash_congr (g := fun _ n => n.hash) h]
  ext1
  · funext k
    exact Option.map_id'
  · rfl

lemma rehash_rehash {g : Key → Node V → Option Bytes} :
    (tree.rehash f).rehash g = tree.rehash fun k n => g k { n with hash := f k n } := by
  ext1
  · funext k
    rw [rehash_node, rehash_node, rehash_node, Option.map_map]
    rfl
  · rfl

lemma put_hash {n : Node V} {hash : Option Bytes} (h : tree.node k = some n) :
    tree.put k { n with hash := hash } = tree.rehash fun j m => if j = k then hash else m.hash := by
  ext1
  · funext j
    rw [Tree.put_node, rehash_node]
    split_ifs with hj
    · rw [hj, h, Option.map_some]
    · simp
  · rfl

lemma similar_rehash (tree : Tree V) (f : Key → Node V → Option Bytes) : Similar tree (tree.rehash f) := by
  intro j
  rw [rehash_node, Option.map_map]
  rfl

lemma Linked.rehash (h : Linked tree) : Linked (tree.rehash f) := by
  apply (similar_rehash tree f).linked h
  intro n' hn'
  obtain ⟨n, hn, rfl⟩ := rehash_node_eq_some.mp hn'
  obtain ⟨r, hr, -, hrv⟩ := h.root
  rw [hr] at hn
  cases hn
  exact hrv

lemma WellFormed.rehash (h : WellFormed tree) : WellFormed (tree.rehash f) where
  toLinked := h.toLinked.rehash
  inner k n' hn' hc := by
    obtain ⟨n, hn, rfl⟩ := rehash_node_eq_some.mp hn'
    exact h.inner k n hn hc

@[simp] lemma holds_rehash {key : Bytes} {v : V} : Holds (tree.rehash f) key v ↔ Holds tree key v := by
  constructor
  · rintro ⟨k, n', hn', hfull, hv⟩
    obtain ⟨n, hn, rfl⟩ := rehash_node_eq_some.mp hn'
    exact ⟨k, n, hn, hfull, hv⟩
  · rintro ⟨k, n, hn, hfull, hv⟩
    exact ⟨k, _, rehash_node_of_eq hn, hfull, hv⟩

end Rehash

/-- The tree without the cached hashes of some nodes. -/
def Tree.clear (tree : Tree V) (S : Key → Prop) [DecidablePred S] : Tree V :=
  tree.rehash fun k n => if S k then none else n.hash

section Clear

variable {S T : Key → Prop} [DecidablePred S] [DecidablePred T] {k : Key}

@[simp] lemma clear_size : (tree.clear S).size = tree.size := rfl

lemma clear_node_eq_some {n' : Node V} (h : (tree.clear S).node k = some n') :
    ∃ n, tree.node k = some n ∧ n'.parent = n.parent ∧ n'.children = n.children ∧
      n'.suffix = n.suffix ∧ n'.value = n.value ∧ (S k → n'.hash = none) ∧ (¬S k → n'.hash = n.hash) := by
  obtain ⟨n, hn, rfl⟩ := rehash_node_eq_some.mp h
  exact ⟨n, hn, rfl, rfl, rfl, rfl, fun hk => if_pos hk, fun hk => if_neg hk⟩

lemma clear_clear : (tree.clear S).clear T = tree.clear fun k => S k ∨ T k := by
  rw [Tree.clear, Tree.clear, Tree.clear, rehash_rehash]
  apply rehash_congr
  intro k n _
  by_cases hS : S k <;> by_cases hT : T k <;> simp [hS, hT]

lemma clear_congr (h : ∀ k n, tree.node k = some n → n.hash ≠ none → (S k ↔ T k)) :
    tree.clear S = tree.clear T := by
  apply rehash_congr
  intro k n hn
  by_cases hh : n.hash = none
  · rw [hh, ite_self, ite_self]
  · simp only [h k n hn hh]

lemma put_hash_none {n : Node V} (h : tree.node k = some n) :
    tree.put k { n with hash := none } = tree.clear (· = k) := put_hash h

lemma WellFormed.clear (h : WellFormed tree) : WellFormed (tree.clear S) := h.rehash

@[simp] lemma holds_clear {key : Bytes} {v : V} : Holds (tree.clear S) key v ↔ Holds tree key v :=
  holds_rehash

end Clear

namespace Linked

variable (h : Linked tree)
include h

/-- The nodes above a node are the node itself and those above its parent. -/
lemma above_iff {k : Bytes} {n : Node V} {p j : Key} {jn : Node V} (hk : tree.node (.bin k) = some n)
    (hp : n.parent = some p) (hj : tree.node j = some jn) :
    j.Above (.bin k) ↔ j = .bin k ∨ j.Above p := by
  cases j with
  | root => simp
  | bin a =>
    rw [Key.above_bin, Key.bin.injEq]
    rcases h.parent_cases hk with ⟨hroot, hle⟩ | ⟨q, qn, b, hq, hqn, hqnil, rfl⟩
    · rw [hroot] at hp
      cases hp
      simp only [Key.above_root, reduceCtorEq, or_false]
      constructor
      · rintro ⟨hpre, hnil⟩
        apply hpre.eq_of_length
        have hlen := hpre.length_le
        by_cases ha : a = []
        · rw [ha, hnil ha]
        · have := List.length_pos_iff.mpr ha
          omega
      · rintro rfl
        exact ⟨List.prefix_refl _, id⟩
    · rw [hq] at hp
      cases hp
      have hqk : q <+: q ++ qn.suffix ++ [b] := by simp [List.append_assoc]
      rw [Key.above_bin]
      constructor
      · rintro ⟨hpre, hnil⟩
        have ha : a ≠ [] := fun ha => by simpa using hnil ha
        by_cases hak : a = q ++ qn.suffix ++ [b]
        · exact .inl hak
        · refine .inr ⟨?_, fun h => absurd h ha⟩
          by_cases haq : a = q
          · rw [haq]
          · rcases List.prefix_or_prefix_of_prefix hpre hqk with hsub | hsub
            · exact hsub
            · obtain ⟨d, hd⟩ := h.chain hqn hj hsub (Ne.symm haq) hqnil
              have hlt := lt_of_le_of_ne hpre.length_le fun he => hak (hpre.eq_of_length he)
              have := hd.length_le
              simp only [List.length_append, List.length_singleton] at this hlt
              omega
      · rintro (rfl | ⟨hpre, hnil⟩)
        · exact ⟨List.prefix_refl _, id⟩
        · exact ⟨hpre.trans hqk, fun ha => absurd (hnil ha) hqnil⟩

lemma full_above {j : Key} {jn : Node V} {k : Bytes} {n : Node V} (hj : tree.node j = some jn)
    (hk : tree.node (.bin k) = some n) (hne : j ≠ .bin k) (habove : j.Above (.bin k)) :
    (j.full jn).Above (.bin k) := by
  cases j with
  | root => trivial
  | bin a =>
    obtain ⟨hpre, hnil⟩ := habove
    have hak : a ≠ k := fun h => hne (by rw [h])
    have ha : a ≠ [] := by
      intro ha
      exact hak (by rw [ha, hnil ha])
    obtain ⟨d, hd⟩ := h.chain hj hk hpre hak ha
    exact ⟨(List.prefix_append _ _).trans hd, fun hfull => absurd (List.append_eq_nil_iff.mp hfull).1 ha⟩

/-- Between nodes, being above is the same for the keys and for the full keys. -/
lemma full_above_full_iff {k : Bytes} {n : Node V} {j : Key} {jn : Node V}
    (hj : tree.node j = some jn) (hk : tree.node (.bin k) = some n) :
    (j.full jn).Above (.bin (k ++ n.suffix)) ↔ j.Above (.bin k) := by
  constructor
  · intro hfull
    cases j with
    | root => trivial
    | bin a =>
      obtain ⟨hpre, hnil⟩ := hfull
      have hak : a <+: k ++ n.suffix := (List.prefix_append _ _).trans hpre
      by_cases ha : a = []
      · subst ha
        have := hnil (h.empty jn hj).1
        exact ⟨List.nil_prefix, fun _ => (List.append_eq_nil_iff.mp this).1⟩
      · refine ⟨?_, fun h => absurd h ha⟩
        by_cases hne : a = k
        · rw [hne]
        · rcases List.prefix_or_prefix_of_prefix hak (List.prefix_append k n.suffix) with hsub | hsub
          · exact hsub
          · exfalso
            by_cases hknil : k = []
            · subst hknil
              rw [(h.empty n hk).1] at hak
              exact ha (List.prefix_nil.mp hak)
            · obtain ⟨d, hd⟩ := h.chain hk hj hsub (Ne.symm hne) hknil
              have h1 := hd.length_le
              have h2 := hak.length_le
              simp only [List.length_append, List.length_singleton] at h1 h2
              omega
  · intro habove
    by_cases hjk : j = .bin k
    · subst hjk
      rw [hk] at hj
      cases hj
      exact Key.Above.refl _
    · apply (h.full_above hj hk hjk habove).trans
      refine ⟨List.prefix_append _ _, fun hnil => ?_⟩
      subst hnil
      rw [(h.empty n hk).1, List.append_nil]

lemma invalidateHashFrom_eq (fuel : Nat) {k : Key} {n : Node V} (hk : tree.node k = some n)
    (hfuel : k.depth ≤ fuel) :
    invalidateHashFrom fuel (some k) tree = some (tree.clear (·.Above k)) := by
  induction fuel generalizing tree k n with
  | zero => cases k <;> simp [Key.depth] at hfuel
  | succ fuel ih =>
    have hstep : invalidateHashFrom (fuel + 1) (some k) tree =
        invalidateHashFrom fuel n.parent (tree.clear (· = k)) := by
      rw [invalidateHashFrom]
      simp only [hk, Option.bind_eq_bind, Option.bind_some, put_hash_none hk]
    rw [hstep]
    cases k with
    | root =>
      obtain ⟨r, hr, hp, -⟩ := h.root
      rw [hr] at hk
      cases hk
      rw [hp, invalidateHashFrom]
      congr 1
      apply clear_congr
      intro j jn _ _
      rw [Key.above_root]
    | bin k =>
      obtain ⟨p, pn, hp, hpn, -⟩ := h.parent k n hk
      have hdepth : p.depth ≤ fuel := by
        rcases h.parent_cases hk with ⟨hroot, -⟩ | ⟨q, qn, b, hq, -, -, rfl⟩
        · rw [hroot] at hp
          cases hp
          simp only [Key.depth] at hfuel ⊢
          omega
        · rw [hq] at hp
          cases hp
          simp only [Key.depth, List.length_append, List.length_singleton] at hfuel ⊢
          omega
      have hclear : Linked (tree.clear (· = Key.bin k)) := h.rehash
      rw [hp, ih hclear (rehash_node_of_eq hpn) hdepth, clear_clear]
      congr 1
      apply clear_congr
      intro j jn hj _
      exact (h.above_iff hk hp hj).symm

/-- Invalidation from the parent of a node without a hash. -/
lemma invalidateHash_parent {k : Key} {n : Node V} (hk : tree.node k = some n) (hhash : n.hash = none) :
    invalidateHash n.parent tree = some (tree.clear (·.Above k)) := by
  have hself : tree.put k { n with hash := none } = tree := by
    rw [put_hash_none hk]
    apply rehash_eq_self
    intro j jn hj
    split_ifs with hjk
    · subst hjk
      rw [hk] at hj
      cases hj
      exact hhash.symm
    · rfl
  have hunfold := h.invalidateHashFrom_eq (k.depth + 1) hk (Nat.le_succ _)
  rw [invalidateHashFrom] at hunfold
  simp only [hk, Option.bind_eq_bind, Option.bind_some, hself] at hunfold
  rw [← hunfold]
  cases hp : n.parent with
  | none => simp [invalidateHash, invalidateHashFrom]
  | some p =>
    have hpn : ∃ pn, tree.node p = some pn ∧ p.depth ≤ k.depth := by
      cases k with
      | root =>
        obtain ⟨r, hr, hrp, -⟩ := h.root
        rw [hr] at hk
        cases hk
        simp [hrp] at hp
      | bin k =>
        rcases h.parent_cases hk with ⟨hroot, -⟩ | ⟨q, qn, b, hq, hqn, -, rfl⟩
        · rw [hroot] at hp
          cases hp
          obtain ⟨r, hr, -⟩ := h.root
          exact ⟨r, hr, by simp [Key.depth]⟩
        · rw [hq] at hp
          cases hp
          refine ⟨qn, hqn, ?_⟩
          simp only [Key.depth, List.length_append, List.length_singleton]
          omega
    obtain ⟨pn, hpn, hdepth⟩ := hpn
    rw [invalidateHash, h.invalidateHashFrom_eq _ hpn hdepth]
    exact h.invalidateHashFrom_eq _ hpn (le_refl _)

end Linked

end Arweave.Patricia

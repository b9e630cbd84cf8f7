import Arweave.Patricia.Update

/-!
# Deletion

A deletion takes the value from an inner node, or removes a leaf and then the inner nodes
above it which have nothing left below them. Inner nodes with one child stay.
-/

namespace Arweave.Patricia
open Arweave.Lib

variable {V : Type} {tree tree' : Tree V} {key : Bytes}

section Delete

variable {k : Bytes} {n p : Node V} {parent : Key}

/-- The tree without a leaf. -/
def Tree.removeLeaf (tree : Tree V) (k : Bytes) (parent : Key) (p : Node V) : Tree V :=
  (tree.remove (.bin k)).put parent { p with children := p.children.erase k, hash := none }

/-- A node without children, and its parent. -/
structure Leaf (tree : Tree V) (k : Bytes) (n : Node V) (parent : Key) (p : Node V) : Prop where
  linked : Linked tree
  node : tree.node (.bin k) = some n
  empty : n.children.isEmpty = true
  hasParent : n.parent = some parent
  parent : tree.node parent = some p

namespace Leaf

variable (hf : Leaf tree k n parent p)
include hf

lemma not_parent {c : Bytes} {cn : Node V} (hc : tree.node (.bin c) = some cn) :
    cn.parent ≠ some (.bin k) := by
  intro hp
  exact OrdSet.isEmpty_iff.mp hf.empty c ((hf.linked.children _ n c hf.node).mpr ⟨cn, hc, hp⟩)

lemma ne : parent ≠ .bin k := by
  intro he
  exact hf.not_parent hf.node (he ▸ hf.hasParent)

omit hf in
lemma node_cases {j : Key} {n' : Node V} (hj : (tree.removeLeaf k parent p).node j = some n') :
    (j = parent ∧ n' = { p with children := p.children.erase k, hash := none }) ∨
    (j ≠ parent ∧ j ≠ .bin k ∧ tree.node j = some n') := by
  rw [Tree.removeLeaf, Tree.put_node, Tree.remove_node] at hj
  split_ifs at hj with h1 h2
  · cases hj
    exact .inl ⟨h1, rfl⟩
  · exact .inr ⟨h1, h2, hj⟩

lemma exists_node {j : Key} {m : Node V} (hm : tree.node j = some m) (hj : j ≠ .bin k) :
    ∃ m', (tree.removeLeaf k parent p).node j = some m' ∧ m'.parent = m.parent ∧
      m'.suffix = m.suffix ∧ m'.value = m.value := by
  rw [Tree.removeLeaf, Tree.put_node, Tree.remove_node]
  by_cases h1 : j = parent
  · rw [h1, hf.parent] at hm
    cases hm
    exact ⟨_, if_pos h1, rfl, rfl, rfl⟩
  · exact ⟨m, by rw [if_neg h1, if_neg hj, hm], rfl, rfl, rfl⟩

lemma former {j : Key} {n' : Node V} (hj : (tree.removeLeaf k parent p).node j = some n') :
    j ≠ .bin k ∧ ∃ m, tree.node j = some m ∧ m.parent = n'.parent ∧ m.suffix = n'.suffix ∧
      m.value = n'.value := by
  rcases node_cases hj with ⟨rfl, rfl⟩ | ⟨-, hne, hj⟩
  · exact ⟨hf.ne, p, hf.parent, rfl, rfl, rfl⟩
  · exact ⟨hne, n', hj, rfl, rfl, rfl⟩

lemma linked_removeLeaf : Linked (tree.removeLeaf k parent p) where
  root := by
    obtain ⟨r, hr, hp, hv⟩ := hf.linked.root
    obtain ⟨r', hr', hp', -, hv'⟩ := hf.exists_node hr (by simp)
    exact ⟨r', hr', hp'.trans hp, hv'.trans hv⟩
  parent j n' hn' := by
    obtain ⟨-, m, hm, hp, -⟩ := hf.former hn'
    obtain ⟨q, qn, hq, hqn, hck⟩ := hf.linked.parent j m hm
    obtain ⟨qn', hqn', -, hs, -⟩ := hf.exists_node hqn fun he => hf.not_parent hm (he ▸ hq)
    refine ⟨q, qn', hp.symm.trans hq, hqn', ?_⟩
    cases q with
    | root => exact hck
    | bin q =>
      rw [ChildKey, hs]
      exact hck
  children q qn' c hqn' := by
    have hparent : (∃ cn, (tree.removeLeaf k parent p).node (.bin c) = some cn ∧ cn.parent = some q) ↔
        c ≠ k ∧ ∃ cn, tree.node (.bin c) = some cn ∧ cn.parent = some q := by
      constructor
      · rintro ⟨cn', hcn', hq⟩
        obtain ⟨hne, cn, hcn, hp, -⟩ := hf.former hcn'
        exact ⟨by simpa using hne, cn, hcn, hp.trans hq⟩
      · rintro ⟨hne, cn, hcn, hq⟩
        obtain ⟨cn', hcn', hp, -⟩ := hf.exists_node hcn (by simpa using hne)
        exact ⟨cn', hcn', hp.trans hq⟩
    rw [hparent]
    rcases node_cases hqn' with ⟨rfl, rfl⟩ | ⟨hq, hqk, hqn⟩
    · rw [OrdSet.mem_erase, hf.linked.children q p c hf.parent]
    · rw [hf.linked.children q qn' c hqn, iff_and_self]
      rintro ⟨cn, hcn, hp⟩ rfl
      rw [hf.node] at hcn
      cases hcn
      rw [hf.hasParent] at hp
      exact hq (Option.some.inj hp).symm
  empty n' hn' := by
    rcases node_cases hn' with ⟨hj, rfl⟩ | ⟨-, -, hj⟩
    · obtain ⟨hs, hc⟩ := hf.linked.empty p (by rw [hj, hf.parent])
      exact ⟨hs, fun c hmem => hc c (OrdSet.mem_erase.mp hmem).2⟩
    · exact hf.linked.empty n' hj

lemma holds {key' : Bytes} {w : V} :
    Holds (tree.removeLeaf k parent p) key' w ↔ key' ≠ k ++ n.suffix ∧ Holds tree key' w := by
  constructor
  · rintro ⟨j, n', hn', hfull, hw⟩
    obtain ⟨hne, m, hm, -, hs, hv⟩ := hf.former hn'
    have hfull' : j ++ m.suffix = key' := by rw [hs, hfull]
    refine ⟨fun he => ?_, j, m, hm, hfull', hv.trans hw⟩
    exact hne (by rw [hf.linked.full_injective hm hf.node (hfull'.trans he)])
  · rintro ⟨hne, j, m, hm, hfull, hw⟩
    have hj : Key.bin j ≠ .bin k := by
      intro hj
      cases hj
      rw [hf.node] at hm
      cases hm
      exact hne hfull.symm
    obtain ⟨m', hm', -, hs, hv⟩ := hf.exists_node hm hj
    exact ⟨j, m', hm', by rw [hs, hfull], hv.trans hw⟩

lemma inner (hin : ∀ j m, tree.node (.bin j) = some m → j ≠ k → m.children.isEmpty = true → m.value.isSome)
    {j : Bytes} {m : Node V} (hm : (tree.removeLeaf k parent p).node (.bin j) = some m)
    (hj : .bin j ≠ parent) (hempty : m.children.isEmpty = true) : m.value.isSome := by
  rcases node_cases hm with ⟨rfl, -⟩ | ⟨-, hne, hm⟩
  · exact absurd rfl hj
  · exact hin j m hm (by simpa using hne) hempty

end Leaf

/-- What the removal of a leaf and of the inner nodes above it does. -/
structure Removed (tree tree' : Tree V) (k : Bytes) (n : Node V) : Prop where
  wellFormed : WellFormed tree'
  holds : ∀ key' w, Holds tree' key' w ↔ key' ≠ k ++ n.suffix ∧ Holds tree key' w
  size : tree'.size = tree.size
  node : ∀ j m', tree'.node j = some m' → ∃ m, tree.node j = some m ∧ m.suffix = m'.suffix ∧
    (j.Above (.bin k) → m'.hash = none) ∧
    (¬j.Above (.bin k) → m.hash = m'.hash ∧ m.children = m'.children ∧ m.value = m'.value)

lemma Leaf.removed_of_stays (hf : Leaf tree k n parent p)
    (hin : ∀ j m, tree.node (.bin j) = some m → j ≠ k → m.children.isEmpty = true → m.value.isSome)
    (hstay : parent = .root ∨ (p.children.erase k).isEmpty = false ∨ p.value.isSome) :
    ∃ tree', invalidateHash p.parent (tree.removeLeaf k parent p) = some tree' ∧
      Removed tree tree' k n := by
  have hl := hf.linked_removeLeaf
  set q : Node V := { p with children := p.children.erase k, hash := none } with hq
  have hp : (tree.removeLeaf k parent p).node parent = some q := by
    rw [Tree.removeLeaf, Tree.put_node, if_pos rfl]
  refine ⟨_, hl.invalidateHash_parent (k := parent) (n := q) hp rfl, ?_, fun key' w => ?_, rfl, fun j m' hm' => ?_⟩
  · apply WellFormed.clear
    refine ⟨hl, fun j m hm hempty => ?_⟩
    by_cases hj : .bin j = parent
    · subst hj
      rw [hp] at hm
      cases hm
      rcases hstay with hs | hs | hs
      · cases hs
      · rw [hs] at hempty
        cases hempty
      · exact hs
    · exact hf.inner hin hm hj hempty
  · rw [holds_clear, hf.holds]
  · obtain ⟨m2, hm2, -, hc2, hs2, hv2, hclear, hsame⟩ := clear_node_eq_some hm'
    obtain ⟨hne, m, hm, -, hs, hv⟩ := hf.former hm2
    have habove : j.Above (.bin k) ↔ j.Above parent := by
      rw [hf.linked.above_iff hf.node hf.hasParent hm, or_iff_right hne]
    refine ⟨m, hm, hs.trans hs2.symm, fun hab => hclear (habove.mp hab), fun hab => ?_⟩
    rw [habove] at hab
    rcases Leaf.node_cases hm2 with ⟨rfl, -⟩ | ⟨-, -, hm2⟩
    · exact absurd (Key.Above.refl _) hab
    · rw [hm] at hm2
      cases hm2
      exact ⟨(hsame hab).symm, hc2.symm, hv2.symm⟩

/-- `delete2` removes the leaf and the chain of inner nodes that nothing is left below. -/
lemma delete2From_removed (fuel : Nat) (hf : Leaf tree k n parent p)
    (hin : ∀ j m, tree.node (.bin j) = some m → j ≠ k → m.children.isEmpty = true → m.value.isSome)
    (hfuel : k.length < fuel) :
    ∃ tree', delete2From fuel k n.parent tree = some tree' ∧ Removed tree tree' k n := by
  induction fuel generalizing tree k n parent p with
  | zero => exact absurd hfuel (Nat.not_lt_zero _)
  | succ fuel ih =>
    rw [delete2From, hf.hasParent]
    simp only [Option.bind_eq_bind, Option.bind_some, hf.parent]
    rw [show (tree.remove (.bin k)).put parent { p with children := p.children.erase k, hash := none } =
      tree.removeLeaf k parent p from rfl]
    split
    · rename_i parentKey hempty hvalue
      have hkept : (tree.removeLeaf k (.bin parentKey) p).node (.bin parentKey) =
          some { p with children := p.children.erase k, hash := none } := by
        rw [Tree.removeLeaf, Tree.put_node, if_pos rfl]
      have hlen : parentKey.length < k.length := by
        rcases hf.linked.parent_cases hf.node with ⟨hroot, -⟩ | ⟨q, qn, b, hq, -, -, hkey⟩
        · rw [hf.hasParent] at hroot
          cases hroot
        · rw [hf.hasParent] at hq
          cases hq
          rw [hkey]
          simp only [List.length_append, List.length_singleton]
          omega
      obtain ⟨q, qn, hq, hqn, -⟩ := hf.linked_removeLeaf.parent parentKey _ hkept
      have hf2 : Leaf (tree.removeLeaf k (.bin parentKey) p) parentKey
          { p with children := p.children.erase k, hash := none } q qn :=
        ⟨hf.linked_removeLeaf, hkept, hempty, hq, hqn⟩
      obtain ⟨tree', htree', hr⟩ := ih hf2
        (fun j m hm hj he => hf.inner hin hm (by simpa using hj) he) (by omega)
      refine ⟨tree', htree', hr.wellFormed, fun key' w => ?_, hr.size, fun j m' hm' => ?_⟩
      · rw [hr.holds, hf.holds, and_iff_right_iff_imp]
        rintro ⟨-, j, m, hm, hfull, hw⟩ he
        -- the parent holds no value
        obtain rfl := hf.linked.full_injective hm hf.parent (hfull.trans he)
        rw [hf.parent] at hm
        cases hm
        rw [hvalue] at hw
        cases hw
      · obtain ⟨m2, hm2, hs2, hnone, hsame⟩ := hr.node j m' hm'
        obtain ⟨hne, m, hm, -, hs, -⟩ := hf.former hm2
        have habove : j.Above (.bin k) ↔ j.Above (.bin parentKey) := by
          rw [hf.linked.above_iff hf.node hf.hasParent hm, or_iff_right hne]
        refine ⟨m, hm, hs.trans hs2, fun hab => hnone (habove.mp hab), fun hab => ?_⟩
        rw [habove] at hab
        rcases Leaf.node_cases hm2 with ⟨rfl, -⟩ | ⟨-, -, heq⟩
        · exact absurd (Key.Above.refl _) hab
        · rw [hm] at heq
          cases heq
          exact hsame hab
    · rename_i parent _ _ _ hnot
      apply hf.removed_of_stays hin
      by_contra hno
      rw [not_or, not_or, Bool.not_eq_false, Bool.not_eq_true, Option.isSome_eq_false_iff,
        Option.isNone_iff_eq_none] at hno
      obtain ⟨hroot, hempty, hvalue⟩ := hno
      cases hparent : parent with
      | root => exact hroot hparent
      | bin q => exact hnot q hparent hempty hvalue

/-- `delete` removes the value of the key, and changes nothing when there is none. -/
theorem delete_update (h : WellFormed tree) (key : Bytes) :
    (get key tree = none ∧ delete key tree = some tree) ∨
    ∃ tree', delete key tree = some tree' ∧ Update tree tree' key none := by
  obtain ⟨level, parent, hpath, hstop, hsame⟩ := h.toLinked.search key
  have hkey : key.take level ++ key.drop level = key := List.take_append_drop level key
  rw [delete, hsame.deleteFrom, deleteFrom_eq, get, hsame.getFrom, getFrom_eq]
  cases hn : tree.node (.bin (key.take level)) with
  | none => exact .inl ⟨rfl, rfl⟩
  | some n =>
    simp only [commonPrefix_length_lt_iff]
    by_cases hpre : n.suffix <+: key.drop level
    · have hsuf : key.drop level = n.suffix := hstop n hn hpre
      rw [hsuf] at hkey
      simp only [hsuf, List.prefix_refl, not_true, if_false, if_true]
      by_cases hv : n.value = none
      · left
        simp [hv]
      · right
        have hnone : n.value.isNone = false := by
          rw [Option.isNone_eq_false_iff]
          exact Option.isSome_iff_ne_none.mpr hv
        have hget : get key tree = n.value := h.toLinked.get_eq hn hkey
        have hone : (get key tree).toList.length = 1 := by
          obtain ⟨v, hv⟩ := Option.ne_none_iff_exists'.mp hv
          rw [hget, hv]
          rfl
        simp only [hnone, Bool.false_eq_true, if_false]
        by_cases hempty : n.children.isEmpty = true
        · rw [if_pos hempty]
          obtain ⟨p, pn, hp, hpn, -⟩ := h.parent _ n hn
          have hf : Leaf (tree.setSize (tree.size - 1)) (key.take level) n p pn :=
            ⟨h.setSize.toLinked, hn, hempty, hp, hpn⟩
          obtain ⟨tree', htree', hr⟩ := delete2From_removed _ hf
            (fun j m hm _ he => h.inner j m hm he) (Nat.lt_succ_self _)
          refine ⟨tree', htree', hr.wellFormed, fun key' w => ?_, ?_, fun j m' hm' hab => ?_,
            fun j m' hm' hab => ?_⟩
          · rw [hr.holds, hkey]
            split_ifs with he
            · simp [he]
            · rw [and_iff_right he]
              rfl
          · rw [hr.size, hone]
            rfl
          · obtain ⟨m, hm, hs, hclear, -⟩ := hr.node j m' hm'
            rw [← Key.full_congr hs, ← hkey, h.toLinked.full_above_full_iff hm hn] at hab
            exact hclear hab
          · obtain ⟨m, hm, hs, -, hsame⟩ := hr.node j m' hm'
            have hfull : j.full m = j.full m' := Key.full_congr hs
            rw [← hfull, ← hkey, h.toLinked.full_above_full_iff hm hn] at hab
            exact ⟨j, m, hm, Key.Above.refl j, hfull, hsame hab⟩
        · rw [if_neg hempty]
          set n2 : Node V := { n with hash := none, value := none } with hn2
          set tree2 := (tree.setSize (tree.size - 1)).put (.bin (key.take level)) n2 with htree2
          have h2 : WellFormed tree2 :=
            h.setSize.putValue (m := n2) hn rfl rfl rfl fun he => absurd he hempty
          have hk2 : tree2.node (.bin (key.take level)) = some n2 := by simp [htree2]
          refine ⟨_, h2.toLinked.invalidateHash_parent (n := n2) hk2 rfl, ?_⟩
          apply Update.of_clear h2 hk2 hkey
          · intro key' w hne
            have := h.toLinked.holds_putValue (m := n2) hn rfl key' w
            rwa [hkey, if_neg hne] at this
          · rw [hone]
            rfl
          · apply Kept.put
            rw [show (Key.bin (key.take level)).full n2 = .bin key from congrArg Key.bin hkey]
            exact Key.Above.refl _
    · left
      simp [hpre]

end Delete

end Arweave.Patricia

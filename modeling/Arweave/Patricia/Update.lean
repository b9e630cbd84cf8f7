import Arweave.Patricia.Invalidate

/-!
# Changes of one value

`Update` is the specification of an operation that changes the value of one key: nodes above
the key lose their hash, all others keep hash, children and value, though they may have moved
down along their edge. Putting a value on an existing node is such a change.
-/

namespace Arweave.Patricia
open Arweave.Lib

variable {V : Type} {tree tree' : Tree V} {key : Bytes}

/-- The nodes that are not above the key come from nodes of the former tree with the same full
key, hash, children and value. -/
def Kept (tree tree' : Tree V) (key : Bytes) : Prop :=
  ∀ k' n', tree'.node k' = some n' → ¬(k'.full n').Above (.bin key) →
    ∃ k n, tree.node k = some n ∧ k.Above k' ∧ k.full n = k'.full n' ∧ n.hash = n'.hash ∧
      n.children = n'.children ∧ n.value = n'.value

/-- The effect of an operation that gives a key the value, or removes it. -/
structure Update (tree tree' : Tree V) (key : Bytes) (value : Option V) : Prop where
  wellFormed : WellFormed tree'
  holds : ∀ key' w, Holds tree' key' w ↔ if key' = key then value = some w else Holds tree key' w
  size : tree'.size = tree.size + value.toList.length - (get key tree).toList.length
  cleared : ∀ k' n', tree'.node k' = some n' → (k'.full n').Above (.bin key) → n'.hash = none
  kept : Kept tree tree' key

lemma Kept.refl (tree : Tree V) (key : Bytes) : Kept tree tree key := by
  intro k n hn _
  exact ⟨k, n, hn, Key.Above.refl k, rfl, rfl, rfl, rfl⟩

lemma Kept.trans {tree2 : Tree V} (h : Kept tree tree2 key) (h2 : Kept tree2 tree' key) :
    Kept tree tree' key := by
  intro k' n' hn' hab
  obtain ⟨k2, n2, hn2, habove2, hfull2, hh2, hc2, hv2⟩ := h2 k' n' hn' hab
  rw [← hfull2] at hab
  obtain ⟨k, n, hn, habove, hfull, hh, hc, hv⟩ := h k2 n2 hn2 hab
  exact ⟨k, n, hn, habove.trans habove2, hfull.trans hfull2, hh.trans hh2, hc.trans hc2, hv.trans hv2⟩

lemma Kept.put {k : Key} {n : Node V} (hab : (k.full n).Above (.bin key)) :
    Kept tree (tree.put k n) key := by
  intro k' n' hn' hnot
  rw [Tree.put_node] at hn'
  split_ifs at hn' with hk
  · cases hn'
    rw [hk] at hnot
    exact absurd hab hnot
  · exact Kept.refl tree key k' n' hn' hnot

lemma Kept.clear {k : Bytes} {n : Node V} (h : Linked tree) (hk : tree.node (.bin k) = some n)
    (hfull : k ++ n.suffix = key) : Kept tree (tree.clear (·.Above (.bin k))) key := by
  intro j jn' hj' hnot
  obtain ⟨jn, hj, -, hc, hs, hv, -, hh⟩ := clear_node_eq_some hj'
  have hsame : j.full jn = j.full jn' := Key.full_congr hs.symm
  rw [← hsame, ← hfull, h.full_above_full_iff hj hk] at hnot
  exact ⟨j, jn, hj, Key.Above.refl j, hsame, (hh hnot).symm, hc.symm, hv.symm⟩

lemma cleared_clear {k : Bytes} {n : Node V} (h : Linked tree) (hk : tree.node (.bin k) = some n)
    (hfull : k ++ n.suffix = key) : ∀ k' n', (tree.clear (·.Above (.bin k))).node k' = some n' →
      (k'.full n').Above (.bin key) → n'.hash = none := by
  intro j jn' hj' hab
  obtain ⟨jn, hj, -, -, hs, -, hh, -⟩ := clear_node_eq_some hj'
  rw [Key.full_congr hs, ← hfull, h.full_above_full_iff hj hk] at hab
  exact hh hab

lemma Linked.get_eq (h : Linked tree) {k : Bytes} {n : Node V} (hk : tree.node (.bin k) = some n)
    (hfull : k ++ n.suffix = key) : get key tree = n.value := by
  ext v
  rw [get_eq_some_iff h]
  constructor
  · rintro ⟨j, jn, hj, hjfull, hv⟩
    obtain rfl := h.full_injective hj hk (hjfull.trans hfull.symm)
    rw [hj] at hk
    cases hk
    exact hv
  · intro hv
    exact ⟨k, n, hk, hfull, hv⟩

lemma WellFormed.setSize (h : WellFormed tree) {m : Nat} : WellFormed (tree.setSize m) :=
  { h with }

lemma Update.of_clear {tree2 : Tree V} {k : Bytes} {n : Node V} (h : WellFormed tree2)
    (hk : tree2.node (.bin k) = some n) (hfull : k ++ n.suffix = key)
    (hholds : ∀ key' w, key' ≠ key → (Holds tree2 key' w ↔ Holds tree key' w))
    (hsize : tree2.size = tree.size + n.value.toList.length - (get key tree).toList.length)
    (hkept : Kept tree tree2 key) :
    Update tree (tree2.clear (·.Above (.bin k))) key n.value where
  wellFormed := h.clear
  holds key' w := by
    rw [holds_clear]
    split_ifs with he
    · rw [he, ← get_eq_some_iff h.toLinked, h.toLinked.get_eq hk hfull]
    · exact hholds key' w he
  size := hsize
  cleared := cleared_clear h.toLinked hk hfull
  kept := hkept.trans (Kept.clear h.toLinked hk hfull)

section Value

variable {k : Bytes} {n m : Node V}

lemma Linked.putValue (h : Linked tree) (hk : tree.node (.bin k) = some n) (hp : m.parent = n.parent)
    (hc : m.children = n.children) (hs : m.suffix = n.suffix) : Linked (tree.put (.bin k) m) := by
  apply (Similar.put hk hp hc hs).linked h
  intro r hr
  obtain ⟨r', hr', -, hv⟩ := h.root
  rw [Tree.put_node, if_neg (by simp), hr'] at hr
  cases hr
  exact hv

lemma WellFormed.putValue (h : WellFormed tree) (hk : tree.node (.bin k) = some n)
    (hp : m.parent = n.parent) (hc : m.children = n.children) (hs : m.suffix = n.suffix)
    (hv : n.children.isEmpty = true → m.value.isSome) : WellFormed (tree.put (.bin k) m) where
  toLinked := h.toLinked.putValue hk hp hc hs
  inner j jn hjn hempty := by
    rw [Tree.put_node] at hjn
    split_ifs at hjn with hj
    · cases hjn
      exact hv (hc ▸ hempty)
    · exact h.inner j jn hjn hempty

lemma Linked.holds_putValue (h : Linked tree) (hk : tree.node (.bin k) = some n)
    (hs : m.suffix = n.suffix) (key' : Bytes) (w : V) : Holds (tree.put (.bin k) m) key' w ↔
      if key' = k ++ n.suffix then m.value = some w else Holds tree key' w := by
  constructor
  · rintro ⟨j, jn, hjn, hfull, hw⟩
    rw [Tree.put_node] at hjn
    split_ifs at hjn with hj
    · cases hjn
      cases hj
      rw [← hfull, hs, if_pos rfl]
      exact hw
    · rw [if_neg]
      · exact ⟨j, jn, hjn, hfull, hw⟩
      · intro he
        exact hj (by rw [h.full_injective hjn hk (hfull.trans he)])
  · intro hif
    split_ifs at hif with he
    · exact ⟨k, m, by simp, by rw [hs, he], hif⟩
    · obtain ⟨j, jn, hjn, hfull, hw⟩ := hif
      refine ⟨j, jn, ?_, hfull, hw⟩
      rw [Tree.put_node, if_neg]
      · exact hjn
      · intro hj
        cases hj
        rw [hk] at hjn
        cases hjn
        exact he hfull.symm

end Value

end Arweave.Patricia

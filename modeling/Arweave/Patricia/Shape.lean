import Arweave.Patricia.Tree

/-!
# The shape of the tree

`Linked` ties the flat map together: parent pointers and child sets agree, the key of a
node continues the full key of its parent by one byte, and the keys directly below the
root have at most one byte. From this follows that of two nodes with comparable keys, the
full key of the shorter one ends before the longer one starts, so that the search along a
key visits all nodes that could hold it.
-/

namespace Arweave.Patricia
open Arweave.Lib

variable {V : Type} {tree : Tree V}

/-- The keys that a child of the given node may have. -/
def ChildKey : Key → Node V → Bytes → Prop
  | .root, _, k => k.length ≤ 1
  | .bin p, n, k => ∃ b, k = p ++ n.suffix ++ [b]

/-- Parents and children agree. The empty key is special: it is a child of the root and has
no children, since the keys it would have are those of the root. -/
structure Linked (tree : Tree V) : Prop where
  root : ∃ n, tree.node .root = some n ∧ n.parent = none ∧ n.value = none
  parent : ∀ k n, tree.node (.bin k) = some n →
    ∃ p pn, n.parent = some p ∧ tree.node p = some pn ∧ ChildKey p pn k
  children : ∀ p pn c, tree.node p = some pn →
    (c ∈ pn.children ↔ ∃ cn, tree.node (.bin c) = some cn ∧ cn.parent = some p)
  empty : ∀ n, tree.node (.bin []) = some n → n.suffix = [] ∧ ∀ c, c ∉ n.children

/-- A linked tree in which every node without children has a value. -/
structure WellFormed (tree : Tree V) : Prop extends Linked tree where
  inner : ∀ k n, tree.node (.bin k) = some n → n.children.isEmpty = true → n.value.isSome

/-- The tree holds a value under a key. -/
def Holds (tree : Tree V) (key : Bytes) (v : V) : Prop :=
  ∃ k n, tree.node (.bin k) = some n ∧ k ++ n.suffix = key ∧ n.value = some v

namespace Linked

variable (h : Linked tree)
include h

lemma parent_cases {k : Bytes} {n : Node V} (hn : tree.node (.bin k) = some n) :
    (n.parent = some .root ∧ k.length ≤ 1) ∨
    ∃ p pn b, n.parent = some (.bin p) ∧ tree.node (.bin p) = some pn ∧ p ≠ [] ∧
      k = p ++ pn.suffix ++ [b] := by
  obtain ⟨p, pn, hp, hpn, hkey⟩ := h.parent k n hn
  cases p with
  | root => exact .inl ⟨hp, hkey⟩
  | bin p =>
    obtain ⟨b, hb⟩ := hkey
    refine .inr ⟨p, pn, b, hp, hpn, ?_, hb⟩
    intro hnil
    subst hnil
    exact (h.empty pn hpn).2 k ((h.children _ pn k hpn).mpr ⟨n, hn, hp⟩)

lemma chain {k1 k2 : Bytes} {n1 n2 : Node V} (h1 : tree.node (.bin k1) = some n1)
    (h2 : tree.node (.bin k2) = some n2) (hpre : k1 <+: k2) (hne : k1 ≠ k2) (hnil : k1 ≠ []) :
    ∃ b, k1 ++ n1.suffix ++ [b] <+: k2 := by
  induction hlen : k2.length using Nat.strong_induction_on generalizing k1 k2 n1 n2 with
  | _ len ih =>
    subst hlen
    have hlt : k1.length < k2.length :=
      lt_of_le_of_ne hpre.length_le fun he => hne (hpre.eq_of_length he)
    have hpos := List.length_pos_iff.mpr hnil
    rcases h.parent_cases h2 with ⟨-, hle⟩ | ⟨p, pn, b, hp, hpn, hpnil, rfl⟩
    · omega
    · have hplt : p.length < (p ++ pn.suffix ++ [b]).length := by simp
      have hppre : p <+: p ++ pn.suffix ++ [b] := by simp [List.append_assoc]
      by_cases hk : k1 = p
      · subst hk
        rw [h1] at hpn
        cases hpn
        exact ⟨b, List.prefix_refl _⟩
      · rcases List.prefix_or_prefix_of_prefix hpre hppre with hk1p | hpk1
        · obtain ⟨c, hc⟩ := ih p.length hplt h1 hpn hk1p hk hnil rfl
          exact ⟨c, hc.trans hppre⟩
        · obtain ⟨c, hc⟩ := ih k1.length hlt hpn h1 hpk1 (Ne.symm hk) hpnil rfl
          have := hc.length_le
          simp only [List.length_append, List.length_singleton] at this hlt
          omega

lemma full_injective {k1 k2 : Bytes} {n1 n2 : Node V} (h1 : tree.node (.bin k1) = some n1)
    (h2 : tree.node (.bin k2) = some n2) (hfull : k1 ++ n1.suffix = k2 ++ n2.suffix) : k1 = k2 := by
  have key : ∀ {k1 k2 : Bytes} {n1 n2 : Node V}, tree.node (.bin k1) = some n1 →
      tree.node (.bin k2) = some n2 → k1 ++ n1.suffix = k2 ++ n2.suffix → k1 <+: k2 → k1 = k2 := by
    intro k1 k2 n1 n2 h1 h2 hfull hpre
    by_contra hne
    by_cases hnil : k1 = []
    · subst hnil
      rw [(h.empty n1 h1).1] at hfull
      simp only [List.append_nil] at hfull
      exact hne (List.append_eq_nil_iff.mp hfull.symm).1.symm
    · obtain ⟨b, hb⟩ := h.chain h1 h2 hpre hne hnil
      rw [hfull] at hb
      have := hb.length_le
      simp at this
  have hpre1 : k1 <+: k1 ++ n1.suffix := List.prefix_append _ _
  have hpre2 : k2 <+: k1 ++ n1.suffix := hfull ▸ List.prefix_append _ _
  rcases List.prefix_or_prefix_of_prefix hpre1 hpre2 with hpre | hpre
  · exact key h1 h2 hfull hpre
  · exact (key h2 h1 hfull.symm hpre).symm

lemma holds_unique {key : Bytes} {v w : V} (hv : Holds tree key v) (hw : Holds tree key w) : v = w := by
  obtain ⟨k1, n1, h1, hfull1, hv⟩ := hv
  obtain ⟨k2, n2, h2, hfull2, hw⟩ := hw
  obtain rfl := h.full_injective h1 h2 (hfull1.trans hfull2.symm)
  rw [h1] at h2
  cases h2
  rw [hv] at hw
  exact Option.some.inj hw

/-- A node that continues the full key of another lies below a child of that one. -/
lemma exists_child {p k : Bytes} {pn n : Node V} {b : UInt8} (hp : tree.node (.bin p) = some pn)
    (hk : tree.node (.bin k) = some n) (hnil : p ≠ []) (hpre : p ++ pn.suffix ++ [b] <+: k) :
    ∃ cn, tree.node (.bin (p ++ pn.suffix ++ [b])) = some cn ∧ cn.parent = some (.bin p) := by
  induction hlen : k.length using Nat.strong_induction_on generalizing k n with
  | _ len ih =>
    subst hlen
    have hle := hpre.length_le
    simp only [List.length_append, List.length_singleton] at hle
    have hppos := List.length_pos_iff.mpr hnil
    rcases h.parent_cases hk with ⟨-, hshort⟩ | ⟨q, qn, c, hq, hqn, hqnil, rfl⟩
    · omega
    · have hqpre : q ++ qn.suffix <+: q ++ qn.suffix ++ [c] := List.prefix_append _ _
      have hppre : p ++ pn.suffix <+: q ++ qn.suffix ++ [c] := (List.prefix_append _ _).trans hpre
      simp only [List.length_append, List.length_singleton] at hle
      by_cases hqp : q = p
      · subst hqp
        rw [hp] at hqn
        cases hqn
        obtain rfl : b = c := by
          have := hpre.eq_of_length (by simp)
          simpa using this
        exact ⟨n, hk, hq⟩
      · have hqk : q <+: q ++ qn.suffix ++ [c] := by simp [List.append_assoc]
        have hpk : p <+: q ++ qn.suffix ++ [c] := (List.prefix_append _ _).trans hppre
        rcases List.prefix_or_prefix_of_prefix hqk hpk with hsub | hsub
        · -- the parent lies above `p`, so its full key ends before `p` does
          obtain ⟨d, hd⟩ := h.chain hqn hp hsub hqp hqnil
          have := hd.length_le
          simp only [List.length_append, List.length_singleton] at this
          omega
        · obtain ⟨d, hd⟩ := h.chain hp hqn hsub (Ne.symm hqp) hnil
          have hd' : p ++ pn.suffix ++ [d] <+: q ++ qn.suffix ++ [c] := hd.trans hqk
          have hbd : p ++ pn.suffix ++ [b] = p ++ pn.suffix ++ [d] :=
            (List.prefix_of_prefix_length_le hpre hd' (by simp)).eq_of_length (by simp)
          rw [← hbd] at hd
          exact ih q.length (by simp) hqn hd rfl

lemma exists_first {b : UInt8} {k : Bytes} {n : Node V} (hk : tree.node (.bin (b :: k)) = some n) :
    ∃ cn, tree.node (.bin [b]) = some cn := by
  induction hlen : k.length using Nat.strong_induction_on generalizing k n with
  | _ len ih =>
    subst hlen
    rcases h.parent_cases hk with ⟨-, hle⟩ | ⟨p, pn, c, -, hpn, hpnil, hkey⟩
    · have : k = [] := by simpa using hle
      subst this
      exact ⟨n, hk⟩
    · cases p with
      | nil => exact absurd rfl hpnil
      | cons d p =>
        simp only [List.cons_append, List.cons.injEq] at hkey
        obtain ⟨rfl, rfl⟩ := hkey
        exact ih p.length (by simp) hpn rfl

lemma parent_root {k : Bytes} {n : Node V} (hk : tree.node (.bin k) = some n) :
    n.parent = some .root ↔ k.length ≤ 1 := by
  rcases h.parent_cases hk with ⟨hp, hle⟩ | ⟨p, pn, b, hp, -, hpnil, rfl⟩
  · simp [hp, hle]
  · have := List.length_pos_iff.mpr hpnil
    simp only [hp, Option.some.injEq, reduceCtorEq, List.length_append, List.length_singleton, false_iff]
    omega

end Linked

end Arweave.Patricia

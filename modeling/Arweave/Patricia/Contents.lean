import Arweave.Patricia.Insert
import Arweave.Patricia.Delete

/-!
# The contents of the tree

`Represents` relates a tree to the finite map that it stands for. The entries of the map below
a node are the entry of the node followed by the entries below its children, in ascending
order. The traversal `foldr` is a right fold over this list.
-/

namespace Arweave.Patricia
open Arweave.Lib

variable {V : Type} {tree tree' : Tree V} {M : SortedMap Bytes V}

/-- The tree is well-formed and holds the entries of the map. -/
structure Represents (tree : Tree V) (M : SortedMap Bytes V) : Prop extends WellFormed tree where
  holds : ∀ key v, Holds tree key v ↔ (key, v) ∈ M.entries
  size : tree.size = M.size

/-- A bound for the lengths of the full keys. -/
def Bounded (tree : Tree V) (L : Nat) : Prop :=
  ∀ k n, tree.node (.bin k) = some n → (k ++ n.suffix).length ≤ L

/-- The entries of a map at a key and below it. -/
def entriesUnder (M : SortedMap Bytes V) (k : Key) : List (Bytes × V) :=
  M.entries.filter fun e => k.Above (.bin e.1)

/-- The entry of a node itself. -/
def ownEntry (k : Key) (n : Node V) : List (Bytes × V) :=
  match k with
  | .root => []
  | .bin b => n.value.toList.map fun v => (b ++ n.suffix, v)

@[simp] lemma mem_entriesUnder {k : Key} {e : Bytes × V} :
    e ∈ entriesUnder M k ↔ e ∈ M.entries ∧ k.Above (.bin e.1) := by
  simp [entriesUnder]

@[simp] lemma entriesUnder_root : entriesUnder M .root = M.entries := by
  rw [entriesUnder, List.filter_eq_self]
  intro e _
  exact decide_eq_true trivial

lemma sorted_entriesUnder (k : Key) : (entriesUnder M k).Pairwise fun a b => a.1 < b.1 :=
  M.sorted.filter _

namespace Linked

variable (h : Linked tree)
include h

lemma child_node {k : Key} {n : Node V} {c : Bytes} (hk : tree.node k = some n) (hc : c ∈ n.children) :
    ∃ cn, tree.node (.bin c) = some cn ∧ cn.parent = some k :=
  (h.children k n c hk).mp hc

lemma childKey {k : Key} {n : Node V} {c : Bytes} (hk : tree.node k = some n) (hc : c ∈ n.children) :
    ChildKey k n c := by
  obtain ⟨cn, hcn, hp⟩ := h.child_node hk hc
  obtain ⟨p, pn, hp', hpn, hck⟩ := h.parent c cn hcn
  rw [hp] at hp'
  cases hp'
  rw [hk] at hpn
  cases hpn
  exact hck

lemma ne_empty_of_child {k : Key} {n : Node V} {c : Bytes} (hk : tree.node k = some n)
    (hc : c ∈ n.children) : k ≠ .bin [] := by
  rintro rfl
  exact (h.empty n hk).2 c hc

lemma above_child {k : Key} {n : Node V} {c : Bytes} (hk : tree.node k = some n) (hc : c ∈ n.children) :
    k.Above (.bin c) := by
  have hne := h.ne_empty_of_child hk hc
  have hck := h.childKey hk hc
  cases k with
  | root => trivial
  | bin p =>
    obtain ⟨b, rfl⟩ := hck
    exact ⟨by simp [List.append_assoc], fun hnil => absurd (by rw [hnil]) hne⟩

lemma ne_child {k : Key} {n : Node V} {c : Bytes} (hk : tree.node k = some n) (hc : c ∈ n.children) :
    k ≠ .bin c := by
  rintro rfl
  obtain ⟨b, hb⟩ := h.childKey hk hc
  have := congrArg List.length hb
  simp at this

lemma above_cases {k : Key} {n : Node V} {j : Bytes} {m : Node V} (hk : tree.node k = some n)
    (hj : tree.node (.bin j) = some m) (hab : k.Above (.bin j)) :
    k = .bin j ∨ ∃ c ∈ n.children, (Key.bin c).Above (.bin j) := by
  cases k with
  | root =>
    right
    cases j with
    | nil =>
      have hp := (h.parent_root hj).mpr (by simp)
      exact ⟨[], (h.children _ n _ hk).mpr ⟨m, hj, hp⟩, Key.Above.refl _⟩
    | cons b j =>
      obtain ⟨cn, hcn⟩ := h.exists_first hj
      have hp := (h.parent_root hcn).mpr (by simp)
      exact ⟨[b], (h.children _ n _ hk).mpr ⟨cn, hcn, hp⟩, by simp, by simp⟩
  | bin a =>
    by_cases haj : a = j
    · exact .inl (by rw [haj])
    · right
      obtain ⟨hpre, hnil⟩ := hab
      have ha : a ≠ [] := fun ha => haj (by rw [ha, hnil ha])
      obtain ⟨b, hb⟩ := h.chain hk hj hpre haj ha
      obtain ⟨cn, hcn, hp⟩ := h.exists_child hk hj ha hb
      exact ⟨_, (h.children _ n _ hk).mpr ⟨cn, hcn, hp⟩, hb, by simp⟩

lemma above_full_iff {k : Key} {n : Node V} {j : Bytes} {m : Node V} (hk : tree.node k = some n)
    (hj : tree.node (.bin j) = some m) : k.Above (.bin (j ++ m.suffix)) ↔ k.Above (.bin j) := by
  constructor
  · intro hab
    cases k with
    | root => trivial
    | bin a =>
      obtain ⟨hpre, hnil⟩ := hab
      refine ⟨?_, fun ha => (List.append_eq_nil_iff.mp (hnil ha)).1⟩
      by_cases haj : a = j
      · rw [haj]
      · rcases List.prefix_or_prefix_of_prefix hpre (List.prefix_append j m.suffix) with hsub | hsub
        · exact hsub
        · exfalso
          by_cases hj0 : j = []
          · subst hj0
            rw [(h.empty m hj).1] at hpre
            exact haj (List.prefix_nil.mp hpre)
          · obtain ⟨d, hd⟩ := h.chain hj hk hsub (Ne.symm haj) hj0
            have h1 := hd.length_le
            have h2 := hpre.length_le
            simp only [List.length_append, List.length_singleton] at h1 h2
            omega
  · intro hab
    apply hab.trans
    refine ⟨List.prefix_append _ _, fun hnil => ?_⟩
    subst hnil
    rw [(h.empty m hj).1, List.append_nil]

lemma children_length {k : Key} {n : Node V} (hk : tree.node k = some n) {c d : Bytes}
    (hc : c ∈ n.children) (hd : d ∈ n.children) (hcnil : c ≠ []) (hdnil : d ≠ []) : c.length = d.length := by
  have hck := h.childKey hk hc
  have hdk := h.childKey hk hd
  cases k with
  | root =>
    have hc1 : c.length ≤ 1 := hck
    have hd1 : d.length ≤ 1 := hdk
    have := List.length_pos_iff.mpr hcnil
    have := List.length_pos_iff.mpr hdnil
    omega
  | bin b =>
    obtain ⟨x, rfl⟩ := hck
    obtain ⟨y, rfl⟩ := hdk
    simp

lemma lt_child {k : Key} {n : Node V} (hk : tree.node k = some n) {c d x : Bytes} (hc : c ∈ n.children)
    (hd : d ∈ n.children) (hcd : c < d) (hx : (Key.bin c).Above (.bin x)) : x < d := by
  obtain ⟨hpre, hnil⟩ := hx
  by_cases hcnil : c = []
  · rw [hnil hcnil, ← hcnil]
    exact hcd
  · have hdnil : d ≠ [] := by
      rintro rfl
      exact absurd hcd (List.not_lt_nil _)
    exact lt_of_prefixes (h.children_length hk hc hd hcnil hdnil) hcd hpre (List.prefix_refl _)

lemma children_disjoint {k : Key} {n : Node V} (hk : tree.node k = some n) {c d : Bytes}
    (hc : c ∈ n.children) (hd : d ∈ n.children) (hne : c ≠ d) {j : Key} (hcj : (Key.bin c).Above j)
    (hdj : (Key.bin d).Above j) : False := by
  cases j with
  | root => exact hcj
  | bin j =>
    rcases lt_or_gt_of_ne hne with hlt | hlt
    · exact absurd (h.lt_child hk hc hd hlt hcj) (not_lt.mpr (le_of_isPrefix hdj.1))
    · exact absurd (h.lt_child hk hd hc hlt hdj) (not_lt.mpr (le_of_isPrefix hcj.1))

end Linked

namespace Represents

variable (h : Represents tree M)
include h

lemma get_eq (key : Bytes) : get key tree = M.lookup key := by
  ext v
  rw [get_eq_some_iff h.toLinked, h.holds, SortedMap.lookup_eq_some]

lemma mem_iff {e : Bytes × V} : e ∈ M.entries ↔
    ∃ k n, tree.node (.bin k) = some n ∧ k ++ n.suffix = e.1 ∧ n.value = some e.2 :=
  (h.holds e.1 e.2).symm

lemma mem_entriesUnder_iff {k : Key} {n : Node V} (hk : tree.node k = some n) {e : Bytes × V} :
    e ∈ entriesUnder M k ↔ e ∈ ownEntry k n ∨ ∃ c ∈ n.children, e ∈ entriesUnder M (.bin c) := by
  rw [mem_entriesUnder]
  constructor
  · rintro ⟨he, hab⟩
    obtain ⟨j, m, hj, hfull, hv⟩ := h.mem_iff.mp he
    rw [← hfull, h.toLinked.above_full_iff hk hj] at hab
    rcases h.toLinked.above_cases hk hj hab with rfl | ⟨c, hc, hcj⟩
    · rw [hj] at hk
      cases hk
      left
      simp [ownEntry, hv, hfull]
    · right
      obtain ⟨cn, hcn, -⟩ := h.toLinked.child_node hk hc
      rw [← h.toLinked.above_full_iff hcn hj, hfull] at hcj
      exact ⟨c, hc, mem_entriesUnder.mpr ⟨he, hcj⟩⟩
  · rintro (hown | ⟨c, hc, he⟩)
    · cases k with
      | root => cases hown
      | bin b =>
        simp only [ownEntry, List.mem_map, Option.mem_toList] at hown
        obtain ⟨v, hv, rfl⟩ := hown
        refine ⟨h.mem_iff.mpr ⟨b, n, hk, rfl, hv⟩, ?_⟩
        rw [h.toLinked.above_full_iff hk hk]
        exact Key.Above.refl _
    · obtain ⟨he, hab⟩ := mem_entriesUnder.mp he
      exact ⟨he, (h.toLinked.above_child hk hc).trans hab⟩

lemma full_prefix {k : Bytes} {n : Node V}
    (hk : tree.node (.bin k) = some n) {e : Bytes × V} (he : e ∈ entriesUnder M (.bin k)) :
    k ++ n.suffix <+: e.1 := by
  rcases (h.mem_entriesUnder_iff hk).mp he with hown | ⟨c, hc, he⟩
  · simp only [ownEntry, List.mem_map] at hown
    obtain ⟨v, -, rfl⟩ := hown
    exact List.prefix_refl _
  · obtain ⟨b, rfl⟩ := h.toLinked.childKey hk hc
    exact (List.prefix_append _ _).trans (mem_entriesUnder.mp he).2.1

lemma own_lt {k : Key} {n : Node V} (hk : tree.node k = some n) {c : Bytes} (hc : c ∈ n.children)
    {a e : Bytes × V} (ha : a ∈ ownEntry k n) (he : e ∈ entriesUnder M (.bin c)) : a.1 < e.1 := by
  cases k with
  | root => cases ha
  | bin b =>
    simp only [ownEntry, List.mem_map, Option.mem_toList] at ha
    obtain ⟨v, -, rfl⟩ := ha
    obtain ⟨d, rfl⟩ := h.toLinked.childKey hk hc
    obtain ⟨-, hpre, -⟩ := mem_entriesUnder.mp he
    apply lt_of_prefix_of_ne ((List.prefix_append _ _).trans hpre)
    intro heq
    have := hpre.length_le
    rw [← heq] at this
    simp at this

lemma child_lt {k : Key} {n : Node V} (hk : tree.node k = some n) {c d : Bytes} (hc : c ∈ n.children)
    (hd : d ∈ n.children) (hcd : c < d) {a e : Bytes × V} (ha : a ∈ entriesUnder M (.bin c))
    (he : e ∈ entriesUnder M (.bin d)) : a.1 < e.1 := by
  obtain ⟨-, hca⟩ := mem_entriesUnder.mp ha
  obtain ⟨-, hde, -⟩ := mem_entriesUnder.mp he
  exact (h.toLinked.lt_child hk hc hd hcd hca).trans_le (le_of_isPrefix hde)

/-- The entries below a node, in order. -/
theorem entriesUnder_eq {k : Key} {n : Node V} (hk : tree.node k = some n) :
    entriesUnder M k = ownEntry k n ++ n.children.elems.flatMap fun c => entriesUnder M (.bin c) := by
  have hanti : Std.Antisymm fun a b : Bytes × V => a.1 < b.1 := ⟨fun _ _ h h' => absurd h h'.asymm⟩
  have hirrefl : Std.Irrefl fun a b : Bytes × V => a.1 < b.1 := ⟨fun _ => lt_irrefl _⟩
  apply (sorted_entriesUnder k).eq_of_mem_iff
  · rw [List.pairwise_append, List.pairwise_flatMap]
    refine ⟨?_, ⟨fun c _ => sorted_entriesUnder _, ?_⟩, ?_⟩
    · cases k with
      | root => exact List.Pairwise.nil
      | bin b => cases hv : n.value <;> simp [ownEntry, hv]
    · apply n.children.sorted.imp_of_mem
      intro c d hc hd hcd a ha e he
      exact h.child_lt hk hc hd hcd ha he
    · intro a ha e he
      obtain ⟨c, hc, he⟩ := List.mem_flatMap.mp he
      exact h.own_lt hk hc ha he
  · intro e
    rw [List.mem_append, List.mem_flatMap]
    exact h.mem_entriesUnder_iff hk

lemma children_root (hne : tree.size ≠ 0) {n : Node V} (hn : tree.node .root = some n) :
    n.children.isEmpty = false := by
  rw [← Bool.not_eq_true]
  intro hempty
  apply hne
  have hnil : n.children.elems = [] := List.isEmpty_iff.mp hempty
  have hentries := h.entriesUnder_eq hn
  rw [entriesUnder_root, hnil] at hentries
  rw [h.size, SortedMap.size, hentries]
  rfl

end Represents

/-- A bound for the number of nodes on a path down from a node. -/
def Key.height (L : Nat) : Key → Nat
  | .root => L + 2
  | .bin k => L + 1 - k.length

lemma Bounded.height_pos {L : Nat} (hb : Bounded tree L) {k : Key} {n : Node V}
    (hk : tree.node k = some n) : 0 < k.height L := by
  cases k with
  | root => simp [Key.height]
  | bin k =>
    have := hb k n hk
    rw [List.length_append] at this
    simp only [Key.height]
    omega

lemma Bounded.height_child {L : Nat} (hb : Bounded tree L) (h : Linked tree) {k : Key} {n : Node V}
    {c : Bytes} (hk : tree.node k = some n) (hc : c ∈ n.children) :
    (Key.bin c).height L < k.height L := by
  obtain ⟨cn, hcn, -⟩ := h.child_node hk hc
  have hlen := hb c cn hcn
  rw [List.length_append] at hlen
  have hck := h.childKey hk hc
  cases k with
  | root =>
    simp only [Key.height]
    omega
  | bin k =>
    obtain ⟨b, rfl⟩ := hck
    simp only [Key.height, List.length_append, List.length_singleton] at hlen ⊢
    omega

section Fold

variable {A : Type} {f : Bytes → V → A → A} {L : Nat}

lemma foldrFrom_eq (h : Represents tree M) (hb : Bounded tree L) (fuel : Nat) {k : Key} {n : Node V}
    (hk : tree.node k = some n) (hroot : k = .root → n.children.isEmpty = false)
    (hfuel : k.height L ≤ fuel) (acc : A) :
    foldrFrom f tree fuel k acc = some ((entriesUnder M k).foldr (fun e acc => f e.1 e.2 acc) acc) := by
  induction fuel generalizing k n acc with
  | zero =>
    have := hb.height_pos hk
    omega
  | succ fuel ih =>
    have hchildren : ∀ (l : List Bytes), (∀ c ∈ l, c ∈ n.children) → ∀ acc : A,
        l.foldrM (fun child childrenAcc => foldrFrom f tree fuel (.bin child) childrenAcc) acc =
        some ((l.flatMap fun c => entriesUnder M (.bin c)).foldr (fun e acc => f e.1 e.2 acc) acc) := by
      intro l hl acc
      induction l with
      | nil => rfl
      | cons c l ihl =>
        have hc : c ∈ n.children := hl c (by simp)
        obtain ⟨cn, hcn, -⟩ := h.toLinked.child_node hk hc
        have hheight := hb.height_child h.toLinked hk hc
        rw [List.foldrM_cons, ihl fun d hd => hl d (by simp [hd])]
        simp only [Option.bind_eq_bind, Option.bind_some, List.flatMap_cons, List.foldr_append]
        exact ih hcn (by simp) (by omega) _
    rw [foldrFrom, h.entriesUnder_eq hk]
    simp only [hk, Option.bind_eq_bind, Option.bind_some]
    by_cases hempty : n.children.isEmpty = true
    · cases k with
      | root => simp [hroot rfl] at hempty
      | bin k =>
        obtain ⟨v, hv⟩ := Option.isSome_iff_exists.mp (h.inner k n hk hempty)
        have hnil : n.children.elems = [] := List.isEmpty_iff.mp hempty
        simp [hempty, hv, Key.bytes, ownEntry, hnil]
    · rw [if_neg hempty, hchildren _ (fun c hc => hc), Option.bind_some]
      cases k with
      | root =>
        obtain ⟨r, hr, -, hv⟩ := h.root
        rw [hr] at hk
        cases hk
        simp [hv, ownEntry]
      | bin k => cases hv : n.value <;> simp [Key.bytes, ownEntry, hv]

/-- `foldr` visits the entries of the map in descending order. -/
theorem foldr_eq (h : Represents tree M) (hb : Bounded tree L) {fuel : Nat} (hfuel : L + 2 ≤ fuel)
    (acc : A) : foldr f fuel acc tree = some (M.entries.foldr (fun e acc => f e.1 e.2 acc) acc) := by
  rw [foldr, isEmpty]
  by_cases hsize : tree.size = 0
  · have hnil : M.entries = [] := by
      rw [← List.length_eq_zero_iff, ← hsize, h.size]
      rfl
    simp [hsize, hnil]
  · obtain ⟨r, hr, -⟩ := h.root
    simp only [beq_iff_eq, hsize, if_false]
    rw [foldrFrom_eq h hb fuel hr (fun _ => h.children_root hsize hr) hfuel, entriesUnder_root]

end Fold

end Arweave.Patricia

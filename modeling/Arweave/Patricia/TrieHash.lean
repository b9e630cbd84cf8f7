import Arweave.Patricia.Contents

/-!
# The hash of a map

`trieHash` hashes a finite map along the plain trie of its keys, one byte a level: a node with
one part passes the hash of this part on, every other node hashes the list of its parts. No
tree is involved, so this hash depends on the map alone. Because single parts pass their
hash on, it does not see how edges are compressed, and the hash that a node of a tree should
cache is `contentHash` at its full key.
-/

namespace Arweave.Patricia
open Arweave.Lib

variable {V : Type} (H : Digest 48) (hashFun : Bytes → V → Bytes) (M : SortedMap Bytes V)

/-- The hash of a node from the hashes of its parts. -/
def combine (hashes : List Bytes) : Bytes :=
  match hashes with
  | [single] => single
  | _ => DeepHash.hash H (hashes.map .blob)

def maxLength : Nat := (M.entries.map (·.1.length)).foldr max 0

/-- The bytes with which the keys continue a prefix. -/
def branches (p : Bytes) : List UInt8 :=
  (OrdSet.ofList (M.entries.filterMap fun e =>
    if p <+: e.1 then (e.1.drop p.length).head? else none)).elems

variable {M}

lemma length_le_maxLength {e : Bytes × V} (he : e ∈ M.entries) : e.1.length ≤ maxLength M := by
  rw [maxLength]
  generalize M.entries = l at he
  induction l with
  | nil => cases he
  | cons a l ih =>
    rw [List.map_cons, List.foldr_cons]
    rcases List.mem_cons.mp he with rfl | he
    · exact le_max_left _ _
    · exact (ih he).trans (le_max_right _ _)

lemma mem_branches {p : Bytes} {b : UInt8} :
    b ∈ branches M p ↔ ∃ e ∈ M.entries, p ++ [b] <+: e.1 := by
  rw [branches, OrdSet.mem_elems, OrdSet.mem_ofList, List.mem_filterMap]
  constructor
  · rintro ⟨e, he, hb⟩
    split_ifs at hb with hpre
    obtain ⟨t, ht⟩ := hpre
    rw [← ht, List.drop_left] at hb
    cases t with
    | nil => cases hb
    | cons c t =>
      cases hb
      exact ⟨e, he, t, by rw [← ht, List.append_assoc, List.singleton_append]⟩
  · rintro ⟨e, he, t, ht⟩
    refine ⟨e, he, ?_⟩
    rw [List.append_assoc, List.singleton_append] at ht
    rw [if_pos ⟨_, ht⟩, ← ht, List.drop_left]
    rfl

lemma sorted_branches (p : Bytes) : (branches M p).Pairwise (· < ·) := OrdSet.sorted _

variable (M)

/-- The hash of the part of a map below a prefix. -/
def trieHash (p : Bytes) : Bytes :=
  combine H ((M.lookup p).toList.map (hashFun p) ++
    (branches M p).attach.map fun b => trieHash (p ++ [b.1]))
termination_by maxLength M - p.length
decreasing_by
  obtain ⟨e, he, hpre⟩ := mem_branches.mp b.2
  have h1 := length_le_maxLength he
  have h2 := hpre.length_le
  simp only [List.length_append, List.length_singleton] at h2 ⊢
  omega

/-- The hashes that are combined at a prefix. -/
def parts (p : Bytes) : List Bytes :=
  (M.lookup p).toList.map (hashFun p) ++ (branches M p).map fun b => trieHash H hashFun M (p ++ [b])

/-- The hash at a key of the tree; at the empty key it is the hash of the one entry there. -/
def contentHash : Key → Bytes
  | .root => trieHash H hashFun M []
  | .bin [] => ((M.lookup []).map (hashFun [])).getD []
  | .bin p => trieHash H hashFun M p

variable {M H hashFun}

lemma trieHash_eq (p : Bytes) : trieHash H hashFun M p = combine H (parts H hashFun M p) := by
  rw [trieHash, parts, List.attach_map_val (f := fun b => trieHash H hashFun M (p ++ [b]))]

lemma contentHash_of_ne_nil {p : Bytes} (h : p ≠ []) :
    contentHash H hashFun M (.bin p) = trieHash H hashFun M p := by
  cases p with
  | nil => exact absurd rfl h
  | cons b p => rfl

lemma lookup_eq_none_of_forall {p : Bytes} (h : ∀ e ∈ M.entries, e.1 ≠ p) : M.lookup p = none := by
  rw [Option.eq_none_iff_forall_ne_some]
  intro v hv
  exact h _ (SortedMap.lookup_eq_some.mp hv) rfl

/-- Nothing is combined along an edge that all keys share. -/
lemma trieHash_append (p s : Bytes) (h : ∀ e ∈ M.entries, p <+: e.1 → p ++ s <+: e.1) :
    trieHash H hashFun M p = trieHash H hashFun M (p ++ s) := by
  induction s generalizing p with
  | nil => rw [List.append_nil]
  | cons b s ih =>
    have hstep : ∀ e ∈ M.entries, p <+: e.1 → p ++ [b] <+: e.1 := by
      intro e he hpre
      refine List.IsPrefix.trans ?_ (h e he hpre)
      rw [List.prefix_append_right_inj]
      simp
    have hlookup : M.lookup p = none := by
      apply lookup_eq_none_of_forall
      intro e he heq
      have := (hstep e he (heq ▸ List.prefix_refl _)).length_le
      rw [heq] at this
      simp at this
    have hnext : trieHash H hashFun M p = trieHash H hashFun M (p ++ [b]) := by
      by_cases hex : ∃ e ∈ M.entries, p <+: e.1
      · have hbranches : branches M p = [b] := by
          apply (sorted_branches p).eq_of_mem_iff (List.pairwise_singleton _ _)
          intro c
          rw [mem_branches, List.mem_singleton]
          constructor
          · rintro ⟨e, he, hc⟩
            have hb := hstep e he ((List.prefix_append _ _).trans hc)
            have := (List.prefix_of_prefix_length_le hc hb (by simp)).eq_of_length (by simp)
            simpa using this
          · rintro rfl
            obtain ⟨e, he, hpre⟩ := hex
            exact ⟨e, he, hstep e he hpre⟩
        rw [trieHash_eq p, parts, hlookup, hbranches]
        rfl
      · have hempty : ∀ q, p <+: q → parts H hashFun M q = [] := by
          intro q hq
          have hno : ∀ e ∈ M.entries, ¬q <+: e.1 := fun e he hqe => hex ⟨e, he, hq.trans hqe⟩
          have hb : branches M q = [] := by
            apply List.eq_nil_iff_forall_not_mem.mpr
            intro c hc
            obtain ⟨e, he, hpre⟩ := mem_branches.mp hc
            exact hno e he ((List.prefix_append _ _).trans hpre)
          rw [parts, hb, lookup_eq_none_of_forall fun e he heq => hno e he (heq ▸ List.prefix_refl _)]
          rfl
        rw [trieHash_eq, trieHash_eq, hempty p (List.prefix_refl _), hempty _ (List.prefix_append _ _)]
    rw [hnext, ih (p ++ [b])]
    · rw [List.append_assoc, List.singleton_append]
    · intro e he hpre
      have := h e he ((List.prefix_append _ _).trans hpre)
      rwa [List.append_assoc, List.singleton_append]

lemma trieHash_congr {M' : SortedMap Bytes V} (p : Bytes)
    (h : ∀ e : Bytes × V, p <+: e.1 → (e ∈ M.entries ↔ e ∈ M'.entries)) :
    trieHash H hashFun M p = trieHash H hashFun M' p := by
  induction hm : maxLength M - p.length using Nat.strong_induction_on generalizing p with
  | _ m ih =>
    have hlookup : M.lookup p = M'.lookup p := by
      ext v
      rw [SortedMap.lookup_eq_some, SortedMap.lookup_eq_some]
      exact h (p, v) (List.prefix_refl _)
    have hbranches : branches M p = branches M' p := by
      apply (sorted_branches p).eq_of_mem_iff (sorted_branches p)
      intro b
      rw [mem_branches, mem_branches]
      apply exists_congr
      intro e
      rw [and_congr_left_iff]
      intro hpre
      exact h e ((List.prefix_append _ _).trans hpre)
    rw [trieHash_eq, trieHash_eq, parts, parts, hlookup, hbranches]
    congr 2
    apply List.map_congr_left
    intro b hb
    rw [← hbranches, mem_branches] at hb
    obtain ⟨e, he, hpre⟩ := hb
    refine ih _ ?_ (p ++ [b]) (fun e hpre => h e ((List.prefix_append _ _).trans hpre)) rfl
    have h1 := length_le_maxLength he
    have h2 := hpre.length_le
    rw [List.length_append, List.length_singleton] at h2 ⊢
    omega

lemma contentHash_congr {M' : SortedMap Bytes V} (k : Key)
    (h : ∀ e : Bytes × V, k.Above (.bin e.1) → (e ∈ M.entries ↔ e ∈ M'.entries)) :
    contentHash H hashFun M k = contentHash H hashFun M' k := by
  cases k with
  | root => exact trieHash_congr [] fun e _ => h e trivial
  | bin p =>
    by_cases hp : p = []
    · subst hp
      have hlookup : M.lookup [] = M'.lookup [] := by
        ext v
        rw [SortedMap.lookup_eq_some, SortedMap.lookup_eq_some]
        exact h ([], v) (Key.Above.refl _)
      rw [contentHash, contentHash, hlookup]
    · rw [contentHash_of_ne_nil hp, contentHash_of_ne_nil hp]
      exact trieHash_congr p fun e hpre => h e ⟨hpre, fun h => absurd h hp⟩

section Tree

variable {tree : Tree V} {L : Nat}

lemma Represents.entriesUnder_ne_nil (h : Represents tree M) (hb : Bounded tree L) {k : Bytes}
    {n : Node V} (hk : tree.node (.bin k) = some n) : entriesUnder M (.bin k) ≠ [] := by
  induction hm : (Key.bin k).height L using Nat.strong_induction_on generalizing k n with
  | _ m ih =>
    intro hnil
    rw [h.entriesUnder_eq hk, List.append_eq_nil_iff] at hnil
    by_cases hempty : n.children.isEmpty = true
    · obtain ⟨v, hv⟩ := Option.isSome_iff_exists.mp (h.inner k n hk hempty)
      simp [ownEntry, hv] at hnil
    · rw [OrdSet.isEmpty_iff, not_forall] at hempty
      obtain ⟨c, hc⟩ := hempty
      have hc := not_not.mp hc
      obtain ⟨cn, hcn, -⟩ := h.toLinked.child_node hk hc
      apply ih _ (hm ▸ hb.height_child h.toLinked hk hc) hcn rfl
      exact List.flatMap_eq_nil_iff.mp hnil.2 c hc

lemma Represents.contentHash_full (h : Represents tree M) {k : Bytes} {n : Node V}
    (hk : tree.node (.bin k) = some n) :
    contentHash H hashFun M (.bin (k ++ n.suffix)) = contentHash H hashFun M (.bin k) := by
  by_cases hnil : k = []
  · subst hnil
    rw [(h.empty n hk).1, List.append_nil]
  · rw [contentHash_of_ne_nil hnil, contentHash_of_ne_nil (by simp [hnil]), ← trieHash_append]
    intro e he hpre
    exact h.full_prefix hk (mem_entriesUnder.mpr ⟨he, hpre, fun h => absurd h hnil⟩)

lemma Represents.children_eq (h : Represents tree M) (hb : Bounded tree L) {k : Bytes} {n : Node V}
    (hk : tree.node (.bin k) = some n) (hnil : k ≠ []) :
    n.children.elems = (branches M (k ++ n.suffix)).map fun b => k ++ n.suffix ++ [b] := by
  apply n.children.sorted.eq_of_mem_iff
  · rw [List.pairwise_map]
    apply (sorted_branches _).imp
    intro b c hbc
    exact List.append_left_lt (List.Lex.rel hbc)
  · intro c
    rw [OrdSet.mem_elems, List.mem_map]
    constructor
    · intro hc
      obtain ⟨b, rfl⟩ := h.toLinked.childKey hk hc
      obtain ⟨cn, hcn, -⟩ := h.toLinked.child_node hk hc
      obtain ⟨e, he⟩ := List.exists_mem_of_ne_nil _ (h.entriesUnder_ne_nil hb hcn)
      obtain ⟨he, hpre, -⟩ := mem_entriesUnder.mp he
      exact ⟨b, mem_branches.mpr ⟨e, he, hpre⟩, rfl⟩
    · rintro ⟨b, hbr, rfl⟩
      obtain ⟨e, he, hpre⟩ := mem_branches.mp hbr
      have hke : k <+: e.1 :=
        ((List.prefix_append _ _).trans (List.prefix_append _ _)).trans hpre
      have hmem : e ∈ entriesUnder M (.bin k) := mem_entriesUnder.mpr ⟨he, hke, fun h => absurd h hnil⟩
      rcases (h.mem_entriesUnder_iff hk).mp hmem with hown | ⟨c, hc, hec⟩
      · simp only [ownEntry, List.mem_map] at hown
        obtain ⟨v, -, rfl⟩ := hown
        have := hpre.length_le
        simp at this
      · obtain ⟨d, rfl⟩ := h.toLinked.childKey hk hc
        have hd := (mem_entriesUnder.mp hec).2.1
        have := (List.prefix_of_prefix_length_le hpre hd (by simp)).eq_of_length (by simp)
        rwa [this]

lemma Represents.children_root_eq (h : Represents tree M) (hb : Bounded tree L) {n : Node V}
    (hk : tree.node .root = some n) :
    n.children.elems = (M.lookup []).toList.map (fun _ => []) ++ (branches M []).map fun b => [b] := by
  have hempty : [] ∈ n.children ↔ (M.lookup []).isSome := by
    rw [h.children _ n _ hk, ← h.get_eq]
    constructor
    · rintro ⟨cn, hcn, -⟩
      obtain ⟨hs, hc⟩ := h.empty cn hcn
      rw [h.toLinked.get_eq hcn (by rw [hs]; rfl)]
      exact h.inner [] cn hcn (OrdSet.isEmpty_iff.mpr hc)
    · intro hsome
      obtain ⟨v, hv⟩ := Option.isSome_iff_exists.mp hsome
      obtain ⟨j, m, hm, hfull, -⟩ := (get_eq_some_iff h.toLinked).mp hv
      obtain rfl := (List.append_eq_nil_iff.mp hfull).1
      exact ⟨m, hm, (h.toLinked.parent_root hm).mpr (by simp)⟩
  apply n.children.sorted.eq_of_mem_iff
  · rw [List.pairwise_append, List.pairwise_map, List.pairwise_map]
    refine ⟨?_, (sorted_branches _).imp fun hbc => List.Lex.rel hbc, ?_⟩
    · cases M.lookup [] <;> simp
    · intro a ha c hc
      obtain ⟨v, -, rfl⟩ := List.mem_map.mp ha
      obtain ⟨b, -, rfl⟩ := List.mem_map.mp hc
      exact List.Lex.nil
  · intro c
    rw [OrdSet.mem_elems, List.mem_append, List.mem_map, List.mem_map]
    cases c with
    | nil =>
      rw [hempty]
      cases M.lookup [] <;> simp
    | cons b c =>
      constructor
      · intro hc
        have hlen : (b :: c).length ≤ 1 := h.toLinked.childKey hk hc
        obtain rfl : c = [] := by simpa using hlen
        obtain ⟨cn, hcn, -⟩ := h.toLinked.child_node hk hc
        obtain ⟨e, he⟩ := List.exists_mem_of_ne_nil _ (h.entriesUnder_ne_nil hb hcn)
        obtain ⟨he, hpre, -⟩ := mem_entriesUnder.mp he
        exact .inr ⟨b, mem_branches.mpr ⟨e, he, hpre⟩, rfl⟩
      · rintro (⟨v, -, hnil⟩ | ⟨b', hbr, heq⟩)
        · cases hnil
        · cases heq
          obtain ⟨e, he, hpre⟩ := mem_branches.mp hbr
          have hmem : e ∈ entriesUnder M .root := mem_entriesUnder.mpr ⟨he, trivial⟩
          rcases (h.mem_entriesUnder_iff hk).mp hmem with hown | ⟨c, hc, hec⟩
          · cases hown
          · obtain ⟨-, hce, hcnil⟩ := mem_entriesUnder.mp hec
            have hlen : c.length ≤ 1 := h.toLinked.childKey hk hc
            cases c with
            | nil =>
              rw [hcnil rfl] at hpre
              simp at hpre
            | cons d c =>
              obtain rfl : c = [] := by simpa using hlen
              have := (List.prefix_of_prefix_length_le hpre hce (by simp)).eq_of_length (by simp)
              rw [List.nil_append] at this
              rwa [this]

/-- The hash of the contents of a node combines its own entry and the contents of its
children. -/
theorem Represents.contentHash_node (h : Represents tree M) (hb : Bounded tree L) {k : Key} {n : Node V}
    (hk : tree.node k = some n) : contentHash H hashFun M (k.full n) =
      combine H ((ownEntry k n).map (fun e => hashFun e.1 e.2) ++
        n.children.elems.map fun c => contentHash H hashFun M (.bin c)) := by
  cases k with
  | root =>
    rw [Key.full, contentHash, trieHash_eq, parts, h.children_root_eq hb hk, ownEntry, List.map_nil,
      List.nil_append, List.map_append, List.map_map, List.map_map]
    congr 2
    cases hl : M.lookup [] <;> simp [contentHash, hl]
  | bin k =>
    by_cases hnil : k = []
    · subst hnil
      obtain ⟨hs, hc⟩ := h.empty n hk
      have hnone : n.children.elems = [] := List.eq_nil_iff_forall_not_mem.mpr hc
      obtain ⟨v, hv⟩ := Option.isSome_iff_exists.mp (h.inner [] n hk (OrdSet.isEmpty_iff.mpr hc))
      have hlookup : M.lookup [] = some v := by
        rw [← h.get_eq, h.toLinked.get_eq hk (by rw [hs]; rfl), hv]
      simp [Key.full, hs, hnone, ownEntry, hv, combine, contentHash, hlookup]
    · have hlookup : M.lookup (k ++ n.suffix) = n.value := by
        rw [← h.get_eq, h.toLinked.get_eq hk rfl]
      rw [Key.full, contentHash_of_ne_nil (by simp [hnil]), trieHash_eq, parts, hlookup,
        h.children_eq hb hk hnil, ownEntry, List.map_map, List.map_map]
      congr 2
      apply List.map_congr_left
      intro b _
      exact (contentHash_of_ne_nil (by simp)).symm

end Tree

end Arweave.Patricia

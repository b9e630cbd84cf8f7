import Arweave.Patricia.TrieHash

/-!
# Binding

The hash of a map is a commitment to its entries: a leaf hash commits to one entry, and the
hash of a list of two or more parts to the entries of the parts. If leaf hashes do not collide
with each other nor with the hashes of lists, and hashes of lists do not collide, then a
hash commits to one list of entries. Nothing depends on the positions of the parts in a tree.
-/

namespace Arweave.Patricia
open Arweave.Lib

variable {V : Type} (H : Digest 48) (hashFun : Bytes → V → Bytes)

/-- The entries that a hash stands for, with the given leaves and lists of parts. -/
inductive Commits (leaves : Bytes × V → Prop) (lists : List Bytes → Prop) :
    List (Bytes × V) → Bytes → Prop
  | leaf (e : Bytes × V) (h : leaves e) : Commits leaves lists [e] (hashFun e.1 e.2)
  | node (subs : List (List (Bytes × V) × Bytes)) (h : lists (subs.map Prod.snd))
      (hsubs : ∀ s ∈ subs, Commits leaves lists s.1 s.2) :
      Commits leaves lists (subs.flatMap Prod.fst) (DeepHash.hash H ((subs.map Prod.snd).map .blob))

/-- No collisions between the given leaves and lists of parts. -/
structure Binding (leaves : Bytes × V → Prop) (lists : List Bytes → Prop) : Prop where
  leaf : ∀ e e', leaves e → leaves e' → hashFun e.1 e.2 = hashFun e'.1 e'.2 → e = e'
  list : ∀ l l', lists l → lists l' → DeepHash.hash H (l.map .blob) = DeepHash.hash H (l'.map .blob) →
    l = l'
  separate : ∀ e l, leaves e → lists l → hashFun e.1 e.2 ≠ DeepHash.hash H (l.map .blob)

variable {H hashFun} {leaves leaves' : Bytes × V → Prop} {lists lists' : List Bytes → Prop}

lemma Commits.mono {es : List (Bytes × V)} {hash : Bytes} (h : Commits H hashFun leaves lists es hash)
    (hleaves : ∀ e, leaves e → leaves' e) (hlists : ∀ l, lists l → lists' l) :
    Commits H hashFun leaves' lists' es hash := by
  induction h with
  | leaf e h => exact .leaf e (hleaves e h)
  | node subs h _ ih => exact .node subs (hlists _ h) ih

/-- A hash commits to one list of entries. -/
theorem Commits.unique (hb : Binding H hashFun leaves lists) {es es' : List (Bytes × V)} {hash : Bytes}
    (h : Commits H hashFun leaves lists es hash) (h' : Commits H hashFun leaves lists es' hash) :
    es = es' := by
  induction h generalizing es' with
  | leaf e he =>
    generalize hhash : hashFun e.1 e.2 = x at h'
    cases h' with
    | leaf e' he' => rw [hb.leaf e e' he he' hhash]
    | node subs' hl' _ => exact absurd hhash (hb.separate e _ he hl')
  | node subs hl hsubs ih =>
    generalize hhash : DeepHash.hash H ((subs.map Prod.snd).map .blob) = x at h'
    cases h' with
    | leaf e' he' => exact absurd hhash.symm (hb.separate e' _ he' hl)
    | node subs' hl' hsubs' =>
      have hsnd := hb.list _ _ hl hl' hhash
      have hsame : ∀ (l l' : List (List (Bytes × V) × Bytes)), (∀ s ∈ l, s ∈ subs) → (∀ s ∈ l', s ∈ subs') →
          l.map Prod.snd = l'.map Prod.snd → l = l' := by
        intro l
        induction l with
        | nil =>
          intro l' _ _ hmap
          exact (List.map_eq_nil_iff.mp hmap.symm).symm
        | cons s l ihl =>
          intro l' hsub hsub' hmap
          cases l' with
          | nil => cases hmap
          | cons s' l' =>
            rw [List.map_cons, List.map_cons, List.cons.injEq] at hmap
            have hfst : s.1 = s'.1 :=
              ih s (hsub s (by simp)) (hmap.1 ▸ hsubs' s' (hsub' s' (by simp)))
            rw [ihl l' (fun a ha => hsub a (by simp [ha])) (fun a ha => hsub' a (by simp [ha])) hmap.2,
              Prod.ext hfst hmap.1]
      rw [hsame subs subs' (fun s hs => hs) (fun s hs => hs) hsnd]

section Trie

variable (M : SortedMap Bytes V)

/-- The entries whose keys continue a prefix. -/
def below (p : Bytes) : List (Bytes × V) := M.entries.filter fun e => p <+: e.1

variable (H hashFun)

/-- The lists of parts that are hashed for a map. -/
def innerLists : List (List Bytes) :=
  ((M.entries.flatMap fun e => e.1.inits).map (parts H hashFun M)).filter fun l => 2 ≤ l.length

variable {M H hashFun}

@[simp] lemma mem_below {p : Bytes} {e : Bytes × V} : e ∈ below M p ↔ e ∈ M.entries ∧ p <+: e.1 := by
  simp [below]

@[simp] lemma below_nil : below M [] = M.entries := by
  rw [below, List.filter_eq_self]
  intro e _
  simp

lemma sorted_below (p : Bytes) : (below M p).Pairwise fun a b => a.1 < b.1 := M.sorted.filter _

lemma mem_innerLists {p : Bytes} {e : Bytes × V} (he : e ∈ below M p)
    (h : 2 ≤ (parts H hashFun M p).length) : parts H hashFun M p ∈ innerLists H hashFun M := by
  obtain ⟨he, hpre⟩ := mem_below.mp he
  rw [innerLists, List.mem_filter]
  refine ⟨List.mem_map_of_mem ?_, by simpa using h⟩
  exact List.mem_flatMap.mpr ⟨e, he, (List.mem_inits _ _).mpr hpre⟩

/-- The entries below a prefix: the one that ends there, and those below its branches. -/
lemma below_eq (p : Bytes) : below M p = (M.lookup p).toList.map (fun v => (p, v)) ++
    (branches M p).flatMap fun b => below M (p ++ [b]) := by
  have hanti : Std.Antisymm fun a b : Bytes × V => a.1 < b.1 := ⟨fun _ _ h h' => absurd h h'.asymm⟩
  have hirrefl : Std.Irrefl fun a b : Bytes × V => a.1 < b.1 := ⟨fun _ => lt_irrefl _⟩
  apply (sorted_below p).eq_of_mem_iff
  · rw [List.pairwise_append, List.pairwise_flatMap]
    refine ⟨?_, ⟨fun b _ => sorted_below _, ?_⟩, ?_⟩
    · cases M.lookup p <;> simp
    · apply (sorted_branches p).imp
      intro b c hbc x hx y hy
      exact lt_of_prefixes (by simp) (List.append_left_lt (List.Lex.rel hbc)) (mem_below.mp hx).2
        (mem_below.mp hy).2
    · intro x hx y hy
      obtain ⟨v, -, rfl⟩ := List.mem_map.mp hx
      obtain ⟨b, -, hy⟩ := List.mem_flatMap.mp hy
      have hpre := (mem_below.mp hy).2
      apply lt_of_prefix_of_ne ((List.prefix_append _ _).trans hpre)
      rintro rfl
      have := hpre.length_le
      simp at this
  · rintro ⟨k, v⟩
    rw [mem_below, List.mem_append, List.mem_flatMap]
    constructor
    · rintro ⟨he, t, ht⟩
      cases t with
      | nil =>
        left
        obtain rfl : p = k := by simpa using ht
        rw [← SortedMap.lookup_eq_some] at he
        simp [he]
      | cons b t =>
        have hpre : p ++ [b] <+: k := ⟨t, by rw [List.append_assoc]; exact ht⟩
        exact .inr ⟨b, mem_branches.mpr ⟨_, he, hpre⟩, mem_below.mpr ⟨he, hpre⟩⟩
    · rintro (hown | ⟨b, -, he⟩)
      · obtain ⟨w, hw, heq⟩ := List.mem_map.mp hown
        cases heq
        exact ⟨SortedMap.lookup_eq_some.mp (Option.mem_toList.mp hw), List.prefix_refl _⟩
      · obtain ⟨he, hpre⟩ := mem_below.mp he
        exact ⟨he, (List.prefix_append _ _).trans hpre⟩

/-- The hash of a map commits to its entries. -/
theorem trieHash_commits (p : Bytes) (hne : below M p ≠ []) :
    Commits H hashFun (· ∈ M.entries) (· ∈ innerLists H hashFun M) (below M p) (trieHash H hashFun M p) := by
  induction hm : maxLength M - p.length using Nat.strong_induction_on generalizing p with
  | _ m ih =>
    have hbranch : ∀ b ∈ branches M p, Commits H hashFun (· ∈ M.entries) (· ∈ innerLists H hashFun M)
        (below M (p ++ [b])) (trieHash H hashFun M (p ++ [b])) := by
      intro b hb
      obtain ⟨e, he, hpre⟩ := mem_branches.mp hb
      refine ih _ ?_ (p ++ [b]) (List.ne_nil_of_mem (mem_below.mpr ⟨he, hpre⟩)) rfl
      have h1 := length_le_maxLength he
      have h2 := hpre.length_le
      rw [List.length_append, List.length_singleton] at h2 ⊢
      omega
    -- the parts with the entries that they stand for
    set subs : List (List (Bytes × V) × Bytes) :=
      (M.lookup p).toList.map (fun v => ([(p, v)], hashFun p v)) ++
        (branches M p).map (fun b => (below M (p ++ [b]), trieHash H hashFun M (p ++ [b]))) with hsubs
    have hfst : subs.flatMap Prod.fst = below M p := by
      rw [below_eq p, hsubs, List.flatMap_append, List.flatMap_map, List.flatMap_map]
      cases M.lookup p <;> simp
    have hsnd : subs.map Prod.snd = parts H hashFun M p := by
      rw [parts, hsubs, List.map_append, List.map_map, List.map_map]
      rfl
    have hcommits : ∀ s ∈ subs,
        Commits H hashFun (· ∈ M.entries) (· ∈ innerLists H hashFun M) s.1 s.2 := by
      intro s hs
      rcases List.mem_append.mp hs with hs | hs
      · obtain ⟨v, hv, rfl⟩ := List.mem_map.mp hs
        exact .leaf (p, v) (SortedMap.lookup_eq_some.mp (Option.mem_toList.mp hv))
      · obtain ⟨b, hb, rfl⟩ := List.mem_map.mp hs
        exact hbranch b hb
    obtain ⟨e, he⟩ := List.exists_mem_of_ne_nil _ hne
    have hlist : 2 ≤ subs.length → subs.map Prod.snd ∈ innerLists H hashFun M := by
      intro hlen
      rw [hsnd]
      apply mem_innerLists he
      rwa [← hsnd, List.length_map]
    rw [trieHash_eq, ← hsnd, ← hfst]
    rw [← hfst] at hne
    clear_value subs
    cases subs with
    | nil => exact absurd rfl hne
    | cons s rest =>
      cases rest with
      | nil => simpa [combine] using hcommits s (by simp)
      | cons s' rest => exact .node _ (hlist (by simp)) hcommits

/-- Equal hashes of two maps below two prefixes mean equal entries there. -/
theorem below_eq_of_trieHash_eq {M' : SortedMap Bytes V} (hb : Binding H hashFun leaves lists)
    (hM : ∀ e ∈ M.entries, leaves e) (hM' : ∀ e ∈ M'.entries, leaves e)
    (hl : ∀ l ∈ innerLists H hashFun M, lists l) (hl' : ∀ l ∈ innerLists H hashFun M', lists l)
    {p p' : Bytes} (hne : below M p ≠ []) (hne' : below M' p' ≠ [])
    (h : trieHash H hashFun M p = trieHash H hashFun M' p') : below M p = below M' p' := by
  have hc := (trieHash_commits p hne).mono hM hl
  have hc' := (trieHash_commits p' hne').mono hM' hl'
  rw [← h] at hc'
  exact hc.unique hb hc'

lemma length_trieHash (hlen : ∀ key v, (hashFun key v).length = 48) (p : Bytes) (hne : below M p ≠ []) :
    (trieHash H hashFun M p).length = 48 := by
  have hlength : ∀ {es hash}, Commits H hashFun (· ∈ M.entries) (· ∈ innerLists H hashFun M) es hash →
      hash.length = 48 := by
    intro es hash hc
    cases hc with
    | leaf e _ => exact hlen _ _
    | node subs _ _ => exact DeepHash.length_hash _
  exact hlength (trieHash_commits p hne)

end Trie

end Arweave.Patricia

import Arweave.BlockCache.BlockTree

/-!
# The tables of the block cache agree

The children of a block are the cached blocks on top of it, the links list every cached block
with its height, and the blocks of a solution are the cached ones that have it. The removal of a
block with everything on top keeps this. While the lowest block is pruned it is without a link;
this block is `hidden`.
-/

namespace Arweave.BlockCache
open Arweave.Lib

variable {cfg : Config} {hidden : Option Bytes} {c c' : Cache} {h x y : Bytes} {e : Entry} {b : Block}
  {s : Status}

/-- The blocks and statuses of the cache. -/
def Cache.info (c : Cache) : BlockTree := fun x => (c.blocks.lookup x).map fun e => (e.block, e.status)

lemma info_of_lookup (he : c.blocks.lookup x = some e) : c.info x = some (e.block, e.status) := by
  rw [Cache.info, he]
  rfl

lemma info_eq_none : c.info x = none ↔ c.blocks.lookup x = none := Option.map_eq_none_iff

lemma exists_entry (hx : c.info x = some (b, s)) :
    ∃ e, c.blocks.lookup x = some e ∧ e.block = b ∧ e.status = s := by
  obtain ⟨e, he, heq⟩ := Option.map_eq_some_iff.mp hx
  cases heq
  exact ⟨e, he, rfl, rfl⟩

lemma updateLongestChainCache_eq (hupdate : updateLongestChainCache cfg c = some c') :
    ∃ r, c' = { c with longestChain := some r } := by
  obtain ⟨r, -, hr⟩ := Option.bind_eq_some_iff.mp hupdate
  exact ⟨r, (Option.some.inj hr).symm⟩

/-- The links and the solutions list the cached blocks. -/
structure Indexed (hidden : Option Bytes) (c : Cache) : Prop where
  links : ∀ n x, toLex (n, x) ∈ c.links ↔ hidden ≠ some x ∧ ∃ b s, c.info x = some (b, s) ∧ b.height = n
  solutions : ∀ solutionH x, x ∈ c.solutionSet solutionH ↔ ∃ b s, c.info x = some (b, s) ∧ b.hash = solutionH
  nonempty : ∀ solutionH set, c.solutions.lookup solutionH = some set → ∃ x, x ∈ set

/-- The children of a block are the cached blocks on top of it. -/
def ExactChildren (c : Cache) (x : Bytes) : Prop :=
  ∀ e, c.blocks.lookup x = some e → ∀ y, y ∈ e.children ↔ ∃ b s, c.info y = some (b, s) ∧ b.previousBlock = x

/-- The blocks that the cache is given: a hash determines the header, and heights grow by one
from a block to the next. -/
structure Headers (K : Block → Prop) : Prop where
  same : ∀ b c, K b → K c → b.indepHash = c.indepHash → b.SameHeader c
  height : ∀ b c, K b → K c → b.previousBlock = c.indepHash → b.height = c.height + 1

/-- The tables agree with each other, and the blocks are among the given ones. -/
structure Coherent (K : Block → Prop) (hidden : Option Bytes) (c : Cache) : Prop extends Indexed hidden c where
  tree : Rooted c.info
  known : ∀ x b s, c.info x = some (b, s) → K b
  children : ∀ x, ExactChildren c x

variable {K : Block → Prop}

lemma Coherent.fits (hc : Coherent K hidden c) (hK : Headers K) (hb : K b) : Fits c.info b where
  same p r hp := hK.same b p hb (hc.known _ p r hp) (hc.tree.indepHash _ p r hp).symm
  above p r hp := hK.height b p hb (hc.known _ p r hp) (hc.tree.indepHash _ p r hp).symm
  below x p r hx heq := hK.height p b (hc.known x p r hx) hb heq

lemma Coherent.headers (hc : Coherent K hidden c) : Headers fun b => ∃ x s, c.info x = some (b, s) where
  same b d := by
    rintro ⟨x, s, hx⟩ ⟨y, r, hy⟩ heq
    rw [hc.tree.indepHash x b s hx, hc.tree.indepHash y d r hy] at heq
    rw [heq, hy] at hx
    cases hx
    exact ⟨rfl, rfl, rfl, rfl, rfl⟩
  height b d := by
    rintro ⟨x, s, hx⟩ ⟨y, r, hy⟩ hprev
    rw [hc.tree.indepHash y d r hy] at hprev
    exact hc.tree.height x b s d r hx (hprev ▸ hy)

lemma Coherent.longestChain (hc : Coherent K hidden c) (r : Option LongestChain) :
    Coherent K hidden { c with longestChain := r } :=
  ⟨⟨hc.links, hc.solutions, hc.nonempty⟩, hc.tree, hc.known, hc.children⟩

/-- The entries of a set of blocks are deleted, and the links and solutions may change. -/
structure Deletes (c c' : Cache) (S : Bytes → Prop) : Prop where
  blocks : ∀ x, (S x → c'.blocks.lookup x = none) ∧ (¬S x → c'.blocks.lookup x = c.blocks.lookup x)
  tip : c'.tip = c.tip
  maxCdiff : c'.maxCdiff = c.maxCdiff
  longestChain : c'.longestChain = c.longestChain

lemma Deletes.removes {S : Bytes → Prop} (hd : Deletes c c' S) : Removes c.info c'.info S := by
  intro x
  constructor
  · intro hx
    rw [info_eq_none]
    exact (hd.blocks x).1 hx
  · intro hx
    rw [Cache.info, (hd.blocks x).2 hx]
    rfl

lemma Deletes.trans {c'' : Cache} {S S' : Bytes → Prop} (h1 : Deletes c c' S) (h2 : Deletes c' c'' S') :
    Deletes c c'' fun x => S x ∨ S' x where
  blocks x := by
    constructor
    · intro hx
      by_cases hS' : S' x
      · exact (h2.blocks x).1 hS'
      · rw [(h2.blocks x).2 hS', (h1.blocks x).1 (hx.resolve_right hS')]
    · intro hx
      rw [not_or] at hx
      rw [(h2.blocks x).2 hx.2, (h1.blocks x).2 hx.1]
  tip := h2.tip.trans h1.tip
  maxCdiff := h2.maxCdiff.trans h1.maxCdiff
  longestChain := h2.longestChain.trans h1.longestChain

lemma Deletes.congr {S S' : Bytes → Prop} (hd : Deletes c c' S) (hS : ∀ x, S x ↔ S' x) : Deletes c c' S' := by
  have heq : S = S' := funext fun x => propext (hS x)
  exact heq ▸ hd

lemma Deletes.size_le {S : Bytes → Prop} (hd : Deletes c c' S) : c'.blocks.size ≤ c.blocks.size := by
  apply SortedMap.size_le_of_lookup
  intro k v hv
  by_cases hk : S k
  · rw [(hd.blocks k).1 hk] at hv
    cases hv
  · rwa [← (hd.blocks k).2 hk]

/-- A block and everything on top can be deleted. -/
structure Removable (hidden : Option Bytes) (c : Cache) (h : Bytes) : Prop where
  indexed : Indexed hidden c
  ascending : Ascending c.info
  cached : c.info h ≠ none
  children : ∀ x, Under c.info h x → ExactChildren c x

lemma Removable.of_deletes {S : Bytes → Prop} (hr : Removable hidden c h) (hd : Deletes c c' S)
    (hi : Indexed hidden c') (hS : ∀ x, Under c.info h x → ¬S x) : Removable hidden c' h := by
  have hunder : ∀ {x}, Under c'.info h x ↔ Under c.info h x :=
    hd.removes.under_iff fun z hz _ => hS z hz
  refine ⟨hi, hd.removes.ascending hr.ascending, ?_, ?_⟩
  · rw [(hd.removes h).2 (hS h .self)]
    exact hr.cached
  · intro x hx e he y
    rw [hunder] at hx
    rw [(hd.blocks x).2 (hS x hx)] at he
    rw [hr.children x hx e he y]
    constructor
    · rintro ⟨b, s, hy, rfl⟩
      exact ⟨b, s, hd.removes.some_iff.mpr ⟨hS y (.step y b s hy hx), hy⟩, rfl⟩
    · rintro ⟨b, s, hy, hprev⟩
      exact ⟨b, s, (hd.removes.some_iff.mp hy).2, hprev⟩

lemma removeSolution_spec {solutionH : Bytes}
    (hnonempty : ∀ solutionH set, c.solutions.lookup solutionH = some set → ∃ x, x ∈ set)
    (hmem : ∀ solutionH', h ∈ c.solutionSet solutionH' ↔ solutionH' = solutionH) :
    ∃ m, removeSolution c h solutionH = some { c with solutions := m } ∧
      (∀ solutionH' x, x ∈ (m.lookup solutionH').getD .empty ↔ x ≠ h ∧ x ∈ c.solutionSet solutionH') ∧
      ∀ solutionH' set, m.lookup solutionH' = some set → ∃ x, x ∈ set := by
  have hh := (hmem solutionH).mpr rfl
  cases hset : c.solutions.lookup solutionH with
  | none => simp [Cache.solutionSet, hset] at hh
  | some set =>
    have hh' : h ∈ set := by simpa [Cache.solutionSet, hset] using hh
    -- the sets of the other solutions do not have the block
    have hother : ∀ solutionH' x, solutionH' ≠ solutionH →
        (x ∈ c.solutionSet solutionH' ↔ x ≠ h ∧ x ∈ c.solutionSet solutionH') := by
      intro solutionH' x hne
      constructor
      · intro hx
        refine ⟨?_, hx⟩
        rintro rfl
        exact hne ((hmem solutionH').mp hx)
      · exact And.right
    by_cases hlen : set.elems.length = 1
    · refine ⟨c.solutions.erase solutionH, by simp [removeSolution, hset, hlen], ?_, ?_⟩
      · intro solutionH' x
        rw [SortedMap.lookup_erase]
        split_ifs with heq
        · have hsingle : ∀ z ∈ set, z = h := by
            obtain ⟨z, hz⟩ := List.length_eq_one_iff.mp hlen
            have helem : ∀ w, w ∈ set ↔ w = z := by
              intro w
              rw [← OrdSet.mem_elems, hz, List.mem_singleton]
            intro w hw
            rw [(helem w).mp hw, ← (helem h).mp hh']
          rw [heq]
          simp only [Cache.solutionSet, hset, Option.getD_none, Option.getD_some, OrdSet.not_mem_empty,
            false_iff, not_and]
          exact fun hne hx => hne (hsingle x hx)
        · exact hother solutionH' x heq
      · intro solutionH' set' hset'
        rw [SortedMap.lookup_erase] at hset'
        split_ifs at hset'
        exact hnonempty solutionH' set' hset'
    · refine ⟨c.solutions.insert solutionH (set.erase h), by simp [removeSolution, hset, hlen], ?_, ?_⟩
      · intro solutionH' x
        rw [SortedMap.lookup_insert]
        split_ifs with heq
        · rw [heq]
          simp [Cache.solutionSet, hset]
        · exact hother solutionH' x heq
      · intro solutionH' set' hset'
        rw [SortedMap.lookup_insert] at hset'
        split_ifs at hset' with heq
        · cases hset'
          by_contra hnone
          apply hlen
          have hall : ∀ z ∈ set.elems, z = h := by
            intro z hz
            by_contra hne
            exact hnone ⟨z, OrdSet.mem_erase.mpr ⟨hne, hz⟩⟩
          exact OrdSet.length_eq_one hh' hall
        · exact hnonempty solutionH' set' hset'

lemma Indexed.mem_solutionSet (hi : Indexed hidden c) (hh : c.info h = some (b, s)) {solutionH : Bytes} :
    h ∈ c.solutionSet solutionH ↔ solutionH = b.hash := by
  rw [hi.solutions, hh]
  constructor
  · rintro ⟨d, r, heq, rfl⟩
    cases heq
    rfl
  · rintro rfl
    exact ⟨_, _, rfl, rfl⟩

lemma info_of_info_erase {m : SortedMap Bytes (OrdSet Bytes)} {v : Block × Status}
    (hx : ({ c with blocks := c.blocks.erase h, solutions := m } : Cache).info x = some v) : c.info x = some v := by
  rw [Cache.info, SortedMap.lookup_erase] at hx
  split_ifs at hx
  · cases hx
  · exact hx

/-- The tables without one block. -/
lemma Indexed.erase (hi : Indexed hidden c) (he : c.blocks.lookup h = some e) :
    ∃ c', removeSolution { c with blocks := c.blocks.erase h } h e.block.hash = some c' ∧
      Indexed hidden { c' with links := c'.links.erase (toLex (e.block.height, h)) } ∧
      Deletes c { c' with links := c'.links.erase (toLex (e.block.height, h)) } (· = h) := by
  have hh := info_of_lookup he
  obtain ⟨m, hm, hset, hne⟩ := removeSolution_spec (h := h) (c := { c with blocks := c.blocks.erase h })
    hi.nonempty fun _ => hi.mem_solutionSet hh
  set c' : Cache := { c with
    blocks := c.blocks.erase h, solutions := m, links := c.links.erase (toLex (e.block.height, h)) } with hc'
  have hdel : Deletes c c' (· = h) := by
    refine ⟨?_, rfl, rfl, rfl⟩
    intro x
    rw [hc', SortedMap.lookup_erase]
    constructor
    · intro hx
      exact if_pos hx
    · intro hx
      exact if_neg hx
  refine ⟨_, hm, ⟨?_, ?_, hne⟩, hdel⟩
  · intro n x
    change toLex (n, x) ∈ c.links.erase (toLex (e.block.height, h)) ↔
      _ ∧ ∃ b s, c'.info x = some (b, s) ∧ _
    simp only [OrdSet.mem_erase, hi.links, hdel.removes.some_iff]
    constructor
    · rintro ⟨hkey, hhidden, b, s, hx, rfl⟩
      refine ⟨hhidden, b, s, ⟨?_, hx⟩, rfl⟩
      rintro rfl
      rw [hh] at hx
      cases hx
      exact hkey rfl
    · rintro ⟨hhidden, b, s, ⟨hne, hx⟩, hheight⟩
      refine ⟨?_, hhidden, b, s, hx, hheight⟩
      intro heq
      exact hne (congrArg (fun p => (ofLex p).2) heq)
  · intro solutionH' x
    change x ∈ (m.lookup solutionH').getD .empty ↔ ∃ b s, c'.info x = some (b, s) ∧ _
    rw [hset]
    change x ≠ h ∧ x ∈ c.solutionSet solutionH' ↔ _
    simp only [hi.solutions, hdel.removes.some_iff, and_assoc, exists_and_left]

lemma Removable.under_iff (hr : Removable hidden c h) (he : c.blocks.lookup h = some e) :
    Under c.info h x ↔ x = h ∨ ∃ k ∈ e.children, Under c.info k x := by
  constructor
  · intro hu
    by_cases hx : x = h
    · exact .inl hx
    · obtain ⟨k, b, s, hk, hprev, hu⟩ := hu.exists_child hx
      exact .inr ⟨k, (hr.children h .self e he k).mpr ⟨b, s, hk, hprev⟩, hu⟩
  · rintro (rfl | ⟨k, hk, hu⟩)
    · exact .self
    · obtain ⟨b, s, hinfo, rfl⟩ := (hr.children h .self e he k).mp hk
      exact (Under.step k b s hinfo .self).trans hu

/-- A list of blocks with the same previous block, each removable. -/
lemma foldlM_remove2_spec (cfg : Config) {fuel : Nat} {p : Bytes}
    (hrec : ∀ c h, c.blocks.size ≤ fuel → Removable hidden c h → ∃ c', remove2 cfg fuel c h = some c' ∧
      Deletes c c' (Under c.info h) ∧ Indexed hidden c')
    (ks : List Bytes) (hnodup : ks.Nodup) (hi : Indexed hidden c) (hsize : c.blocks.size ≤ fuel)
    (hks : ∀ k ∈ ks, Removable hidden c k ∧ ∃ b s, c.info k = some (b, s) ∧ b.previousBlock = p) :
    ∃ c', ks.foldlM (fun c k => remove2 cfg fuel c k) c = some c' ∧
      Deletes c c' (fun x => ∃ k ∈ ks, Under c.info k x) ∧ Indexed hidden c' := by
  induction ks generalizing c with
  | nil =>
    refine ⟨c, rfl, ⟨fun x => ⟨?_, fun _ => rfl⟩, rfl, rfl, rfl⟩, hi⟩
    rintro ⟨k, hk, -⟩
    cases hk
  | cons k ks ih =>
    rw [List.nodup_cons] at hnodup
    obtain ⟨hk, b, s, hinfo, hprev⟩ := hks k (by simp)
    obtain ⟨c2, hremove, hdel, hi2⟩ := hrec c k hsize hk
    -- the other blocks are not on top of this one, nor is anything on top of both
    have hapart : ∀ k' ∈ ks, ∀ x, Under c.info k' x → ¬Under c.info k x := by
      intro k' hk' x hu' hu
      obtain ⟨-, b', s', hinfo', hprev'⟩ := hks k' (by simp [hk'])
      have hne : k' ≠ k := by
        rintro rfl
        exact hnodup.1 hk'
      exact hk.ascending.siblings_apart hinfo hinfo' (hprev.trans hprev'.symm) hne hu' hu
    obtain ⟨c', hfold, hdel', hi'⟩ := ih hnodup.2 hi2 (hdel.size_le.trans hsize) (by
      intro k' hk'
      obtain ⟨hr', b', s', hinfo', hprev'⟩ := hks k' (by simp [hk'])
      refine ⟨hr'.of_deletes hdel hi2 (hapart k' hk'), b', s', ?_, hprev'⟩
      exact hdel.removes.some_iff.mpr ⟨hapart k' hk' k' .self, hinfo'⟩)
    refine ⟨c', ?_, (hdel.trans hdel').congr ?_, hi'⟩
    · rw [List.foldlM_cons, hremove]
      exact hfold
    · intro x
      rw [List.exists_mem_cons_iff]
      apply or_congr_right
      apply exists_congr
      intro k'
      apply and_congr_right
      intro hk'
      exact hdel.removes.under_iff fun z hz _ => hapart k' hk' z hz

lemma remove2_spec (cfg : Config) (fuel : Nat) (c : Cache) (h : Bytes) (hsize : c.blocks.size ≤ fuel)
    (hr : Removable hidden c h) : ∃ c', remove2 cfg fuel c h = some c' ∧
      Deletes c c' (Under c.info h) ∧ Indexed hidden c' := by
  induction fuel generalizing c h with
  | zero =>
    obtain ⟨e, he⟩ := Option.ne_none_iff_exists'.mp fun hnone => hr.cached (info_eq_none.mpr hnone)
    have := SortedMap.size_erase_add_one he
    omega
  | succ fuel ih =>
    obtain ⟨e, he⟩ := Option.ne_none_iff_exists'.mp fun hnone => hr.cached (info_eq_none.mpr hnone)
    obtain ⟨c2, hsolution, hi, hdel⟩ := hr.indexed.erase he
    set c3 := { c2 with links := c2.links.erase (toLex (e.block.height, h)) } with hc3
    have hsize3 : c3.blocks.size ≤ fuel := by
      have hblocks : c3.blocks = c.blocks.erase h := by
        apply SortedMap.ext_lookup
        intro k
        rw [SortedMap.lookup_erase]
        split_ifs with hk
        · exact (hdel.blocks k).1 hk
        · exact (hdel.blocks k).2 hk
      have := SortedMap.size_erase_add_one he
      rw [hblocks]
      omega
    have hperm := cfg.order_perm e.children.elems
    have habove : ∀ k ∈ e.children, ∀ x, Under c.info k x → Under c.info h x ∧ x ≠ h := by
      intro k hk x hu
      obtain ⟨b, s, hinfo, hprev⟩ := (hr.children h .self e he k).mp hk
      have hkh : Under c.info h k := .step k b s hinfo (hprev ▸ .self)
      refine ⟨hkh.trans hu, ?_⟩
      rintro rfl
      have heq := hr.ascending.antisymm hinfo hu hkh
      subst heq
      exact hr.ascending.not_under_previousBlock hinfo (hprev ▸ .self)
    obtain ⟨c', hfold, hdel', hi'⟩ := foldlM_remove2_spec cfg (p := h) (fun c h => ih c h)
      (cfg.order e.children.elems) (hperm.nodup_iff.mpr e.children.nodup) hi hsize3 (by
        intro k hk
        rw [hperm.mem_iff] at hk
        obtain ⟨b, s, hinfo, hprev⟩ := (hr.children h .self e he k).mp hk
        have hk' : Removable hidden c k := by
          refine ⟨hr.indexed, hr.ascending, by simp [hinfo], ?_⟩
          intro x hx
          exact hr.children x (habove k hk x hx).1
        refine ⟨hk'.of_deletes hdel hi fun x hx => (habove k hk x hx).2, b, s, ?_, hprev⟩
        exact hdel.removes.some_iff.mpr ⟨(habove k hk k .self).2, hinfo⟩)
    refine ⟨c', ?_, (hdel.trans hdel').congr ?_, hi'⟩
    · rw [remove2, he]
      change (removeSolution { c with blocks := c.blocks.erase h } h e.block.hash).bind _ = _
      rw [hsolution]
      exact hfold
    · intro x
      rw [hr.under_iff he]
      apply or_congr_right
      apply exists_congr
      intro k
      rw [hperm.mem_iff, OrdSet.mem_elems]
      apply and_congr_right
      intro hk
      exact hdel.removes.under_iff fun z hz _ => (habove k hk z hz).2

/-- The recorded block has the maximum cumulative difficulty of the blocks with a link. -/
structure MaxOf (hidden : Option Bytes) (c : Cache) : Prop where
  cached : hidden ≠ some c.maxCdiff.2 ∧
    ∃ b s, c.info c.maxCdiff.2 = some (b, s) ∧ b.cumulativeDiff = c.maxCdiff.1
  le : ∀ x b s, c.info x = some (b, s) → hidden ≠ some x → b.cumulativeDiff ≤ c.maxCdiff.1

lemma findMaxCdiffFrom_spec {links : List (Nat ×ₗ Bytes)} {acc : Option (Nat × Bytes)} {m : Nat × Bytes}
    (hfind : findMaxCdiffFrom c links acc = some m) :
    (acc = some m ∨ ∃ link ∈ links, (ofLex link).2 = m.2 ∧
      ∃ b s, c.info m.2 = some (b, s) ∧ b.cumulativeDiff = m.1) ∧
    (∀ a ∈ acc, a.1 ≤ m.1) ∧
    ∀ link ∈ links, ∃ b s, c.info (ofLex link).2 = some (b, s) ∧ b.cumulativeDiff ≤ m.1 := by
  induction links generalizing acc with
  | nil =>
    cases acc with
    | none => cases hfind
    | some a =>
      cases hfind
      exact ⟨.inl rfl, by simp, by simp⟩
  | cons link links ih =>
    -- the accumulator after the first link, whichever it was before
    obtain ⟨e, he, a, hrest, hle, hcases⟩ : ∃ e, c.blocks.lookup (ofLex link).2 = some e ∧
        ∃ a, findMaxCdiffFrom c links (some a) = some m ∧ e.block.cumulativeDiff ≤ a.1 ∧
          (a = (e.block.cumulativeDiff, (ofLex link).2) ∧ (∀ a' ∈ acc, a'.1 ≤ a.1) ∨ acc = some a) := by
      cases acc with
      | none =>
        obtain ⟨e, he, hrest⟩ := Option.bind_eq_some_iff.mp hfind
        exact ⟨e, he, _, hrest, le_rfl, .inl ⟨rfl, by simp⟩⟩
      | some a =>
        obtain ⟨e, he, hrest⟩ := Option.bind_eq_some_iff.mp hfind
        split_ifs at hrest with hlt
        · exact ⟨e, he, _, hrest, le_rfl, .inl ⟨rfl, by simpa using hlt.le⟩⟩
        · exact ⟨e, he, a, hrest, not_lt.mp hlt, .inr rfl⟩
    obtain ⟨hm, hacc, hlinks⟩ := ih hrest
    have ham : a.1 ≤ m.1 := hacc a rfl
    refine ⟨?_, ?_, ?_⟩
    · rcases hm with heq | ⟨link', hmem, hlink'⟩
      · rcases hcases with ⟨ha, -⟩ | hacc'
        · have hma : m = (e.block.cumulativeDiff, (ofLex link).2) := (Option.some.inj heq).symm.trans ha
          rw [hma]
          exact .inr ⟨link, by simp, rfl, _, _, info_of_lookup he, rfl⟩
        · exact .inl (hacc'.trans heq)
      · exact .inr ⟨link', by simp [hmem], hlink'⟩
    · intro a' ha'
      rcases hcases with ⟨-, hle'⟩ | hacc'
      · exact (hle' a' ha').trans ham
      · rw [hacc'] at ha'
        cases ha'
        exact ham
    · intro link' hmem
      rcases List.mem_cons.mp hmem with rfl | hmem
      · exact ⟨_, _, info_of_lookup he, hle.trans ham⟩
      · exact hlinks link' hmem

lemma findMaxCdiff_spec (hi : Indexed hidden c) {m : Nat × Bytes} (hfind : findMaxCdiff c = some m) :
    MaxOf hidden { c with maxCdiff := m } := by
  obtain ⟨hm, -, hlinks⟩ := findMaxCdiffFrom_spec hfind
  constructor
  · rcases hm with hm | ⟨link, hmem, hlink, hinfo⟩
    · cases hm
    · refine ⟨?_, hinfo⟩
      change hidden ≠ some m.2
      rw [← hlink]
      exact ((hi.links (ofLex link).1 (ofLex link).2).mp hmem).1
  · intro x b s hx hhidden
    obtain ⟨b', s', hx', hle⟩ := hlinks _ ((hi.links b.height x).mpr ⟨hhidden, b, s, hx, rfl⟩)
    have heq := hx.symm.trans hx'
    cases heq
    exact hle

/-- Blocks are gone, and the others have kept everything but their children. -/
structure Removed (c c' : Cache) (S : Bytes → Prop) : Prop where
  removes : Removes c.info c'.info S
  timestamp : ∀ x e', c'.blocks.lookup x = some e' →
    ∃ e, c.blocks.lookup x = some e ∧ e'.timestamp = e.timestamp
  tip : c'.tip = c.tip

lemma Removed.trans {c'' : Cache} {S S' : Bytes → Prop} (h1 : Removed c c' S) (h2 : Removed c' c'' S') :
    Removed c c'' fun x => S x ∨ S' x where
  removes := h1.removes.trans h2.removes
  timestamp x e'' he'' := by
    obtain ⟨e', he', htime'⟩ := h2.timestamp x e'' he''
    obtain ⟨e, he, htime⟩ := h1.timestamp x e' he'
    exact ⟨e, he, htime'.trans htime⟩
  tip := h2.tip.trans h1.tip

lemma Removed.congr {S S' : Bytes → Prop} (hr : Removed c c' S) (hS : ∀ x, S x ↔ S' x) : Removed c c' S' := by
  have heq : S = S' := funext fun x => propext (hS x)
  exact heq ▸ hr

lemma exists_info_removes {S : Bytes → Prop} {P : Block → Prop} (hr : Removes c.info c'.info S) :
    (∃ b s, c'.info x = some (b, s) ∧ P b) ↔ ¬S x ∧ ∃ b s, c.info x = some (b, s) ∧ P b := by
  simp only [hr.some_iff, and_assoc, exists_and_left]

lemma MaxOf.removes {S : Bytes → Prop} (hmax : MaxOf hidden c) (hr : Removes c.info c'.info S)
    (hmaxCdiff : c'.maxCdiff = c.maxCdiff) (hcached : c'.info c.maxCdiff.2 ≠ none) : MaxOf hidden c' where
  cached := by
    obtain ⟨hhidden, b, s, hb, hcdiff⟩ := hmax.cached
    obtain ⟨v, hv⟩ := Option.ne_none_iff_exists'.mp hcached
    have hv' := (hr.some_iff.mp hv).2
    rw [hb] at hv'
    cases hv'
    rw [hmaxCdiff]
    exact ⟨hhidden, b, s, hv, hcdiff⟩
  le x b s hx hhidden := by
    rw [hmaxCdiff]
    exact hmax.le x b s (hr.some_iff.mp hx).2 hhidden

lemma exactChildren_remove {prev : Entry} (hc : Coherent K hidden c) (hh : c.info h = some (b, s))
    (hprev : c.blocks.lookup b.previousBlock = some prev) (hr : Removes c.info c'.info (Under c.info h))
    (hlower : c'.blocks.lookup b.previousBlock = some { prev with children := prev.children.erase h })
    (hother : ∀ x, x ≠ b.previousBlock → (Under c.info h x → c'.blocks.lookup x = none) ∧
      (¬Under c.info h x → c'.blocks.lookup x = c.blocks.lookup x)) (x : Bytes) : ExactChildren c' x := by
  intro e he y
  rw [exists_info_removes hr]
  by_cases hx : x = b.previousBlock
  · rw [hx, hlower] at he
    cases he
    rw [OrdSet.mem_erase, hx, hc.children _ prev hprev]
    apply and_congr_left
    rintro ⟨d, r, hy, hp⟩
    refine ⟨fun hne => hc.tree.height.not_under_sibling hh hy hp.symm hne, fun hnot heq => ?_⟩
    rw [heq] at hnot
    exact hnot .self
  · by_cases hu : Under c.info h x
    · rw [(hother x hx).1 hu] at he
      cases he
    · rw [(hother x hx).2 hu] at he
      rw [hc.children x e he, iff_and_self]
      rintro ⟨d, r, hy, rfl⟩ huy
      -- below a removed block other than the first one is a removed block
      by_cases hyh : y = h
      · rw [hyh, hh] at hy
        cases hy
        exact hx rfl
      · obtain ⟨d', r', hy', hu'⟩ := huy.cached hyh
        rw [hy] at hy'
        cases hy'
        exact hu hu'

/-- What becomes of the tables when a block is removed with everything on top. -/
lemma remove_spec (hc : Coherent K hidden c) (he : c.blocks.lookup h = some e)
    (hremove : remove cfg c h = some c') :
    Removed c c' (Under c.info h) ∧ Coherent K hidden c' ∧ (MaxOf hidden c → MaxOf hidden c') ∧
      ∃ c2, updateLongestChainCache cfg c2 = some c' := by
  have hh := info_of_lookup he
  rw [remove, he] at hremove
  obtain ⟨prev, hprev, hremove⟩ := Option.bind_eq_some_iff.mp hremove
  have hr : Removable hidden c h := ⟨hc.toIndexed, hc.tree.height, by simp [hh], fun x _ => hc.children x⟩
  obtain ⟨c2, hremove2, hdel, hi⟩ := remove2_spec cfg c.blocks.size c h le_rfl hr
  rw [hremove2, Option.bind_eq_bind, Option.bind_some, Option.bind_eq_bind] at hremove
  obtain ⟨m, hm, hupdate⟩ := Option.bind_eq_some_iff.mp hremove
  set blocks := c2.blocks.insert e.block.previousBlock { prev with children := prev.children.erase h }
    with hblocks
  obtain ⟨r, hr'⟩ := updateLongestChainCache_eq hupdate
  have hbelow : ¬Under c.info h e.block.previousBlock := hc.tree.height.not_under_previousBlock hh
  have hlookup : ∀ x, c'.blocks.lookup x = if x = e.block.previousBlock then
      some { prev with children := prev.children.erase h } else c2.blocks.lookup x := by
    intro x
    rw [hr', ← SortedMap.lookup_insert]
  -- the entry of the previous block has other children and is the same otherwise
  have hinfo : c'.info = c2.info := by
    funext x
    rw [Cache.info, hlookup]
    split_ifs with hx
    · rw [hx, info_of_lookup (((hdel.blocks _).2 hbelow).trans hprev)]
      rfl
    · rfl
  have hlower : c'.blocks.lookup e.block.previousBlock = some { prev with children := prev.children.erase h } := by
    rw [hlookup, if_pos rfl]
  have hother : ∀ x, x ≠ e.block.previousBlock → (Under c.info h x → c'.blocks.lookup x = none) ∧
      (¬Under c.info h x → c'.blocks.lookup x = c.blocks.lookup x) := by
    intro x hx
    rw [hlookup, if_neg hx]
    exact hdel.blocks x
  have hrem : Removes c.info c'.info (Under c.info h) := hinfo ▸ hdel.removes
  have hi' : Indexed hidden c' := by
    refine ⟨?_, ?_, ?_⟩
    · rw [hinfo, hr']
      exact hi.links
    · rw [hinfo, hr']
      exact hi.solutions
    · rw [hr']
      exact hi.nonempty
  refine ⟨⟨hrem, ?_, ?_⟩, ⟨hi', ?_, ?_, exactChildren_remove hc hh hprev hrem hlower hother⟩, ?_, _, hupdate⟩
  · intro x e' he'
    by_cases hx : x = e.block.previousBlock
    · rw [hx, hlower] at he'
      cases he'
      exact ⟨prev, hx ▸ hprev, rfl⟩
    · by_cases hu : Under c.info h x
      · rw [(hother x hx).1 hu] at he'
        cases he'
      · rw [(hother x hx).2 hu] at he'
        exact ⟨e', he', rfl⟩
  · rw [hr']
    exact hdel.tip
  · apply hc.tree.removes hrem
    intro x b s hx hu
    exact .step x b s hx hu
  · intro x b s hx
    exact hc.known x b s (hrem.some_iff.mp hx).2
  · intro hmax
    split_ifs at hm with hnone
    · have hmax2 := findMaxCdiff_spec hi hm
      have heq : c'.maxCdiff = m := by rw [hr']
      constructor
      · rw [hinfo, heq]
        exact hmax2.cached
      · rw [hinfo, heq]
        exact hmax2.le
    · cases hm
      apply hmax.removes hrem
      · rw [hr']
      · rw [hinfo, Ne, info_eq_none]
        simpa using hnone

end Arweave.BlockCache

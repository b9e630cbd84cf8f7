import Arweave.BlockCache.Marks

/-!
# Pruning

The lowest block is dropped after the blocks on top of it that are not on chain, with everything
above them. This goes on until the lowest block is not too deep below the tip.
-/

namespace Arweave.BlockCache
open Arweave.Lib

variable {cfg : Config} {c c' : Cache} {h x y : Bytes} {e : Entry} {b : Block} {s : Status}
  {K : Block → Prop} {t t' : BlockTree} {n : Nat} {tip : Bytes} {fork : Nat}

section DropsRoot

/-- The lowest block is dropped, below the height `n`, with the forks on top of it. -/
structure DropsRoot (n : Nat) (t t' : BlockTree) (h : Bytes) (b : Block) (S : Bytes → Prop) : Prop where
  root : t h = some (b, .onChain)
  lowest : t b.previousBlock = none
  below : b.height < n
  forks : ∀ x, S x → ∃ k d r, t k = some (d, r) ∧ d.previousBlock = h ∧ r ≠ .onChain ∧ Under t k x
  offChain : ∀ x b, t x = some (b, .onChain) → ¬S x
  removes : Removes t t' fun x => S x ∨ x = h

variable {S : Bytes → Prop}

lemma DropsRoot.keeps (hd : DropsRoot n t t' h b S) {d : Block} (hx : t x = some (d, .onChain))
    (hn : n ≤ d.height) : t' x = some (d, .onChain) := by
  apply hd.removes.some_iff.mpr ⟨_, hx⟩
  rintro (hS | rfl)
  · exact hd.offChain x d hx hS
  · have heq := hd.root
    rw [hx] at heq
    cases heq
    exact absurd hd.below (not_lt.mpr hn)

lemma DropsRoot.tipPath (hd : DropsRoot n t t' h b S) (ht : Rooted t) (hp : TipPath t tip) {d : Block}
    (htip : t tip = some (d, .onChain)) (hn : n ≤ d.height) : TipPath t' tip where
  onChain := ⟨d, hd.keeps htip hn⟩
  below x f hx := by
    obtain ⟨hnot, hx⟩ := hd.removes.some_iff.mp hx
    rw [not_or] at hnot
    apply (hp.below x f hx).congr
    intro z g r hxz hz hne hzt
    obtain rfl := ht.onChain_of_under htip hz hzt
    refine ⟨_, hd.removes.some_iff.mpr ⟨?_, hzt⟩⟩
    rintro (hS | rfl)
    · exact hd.offChain z g hzt hS
    · -- nothing is below the lowest block
      obtain ⟨g', r', hz', hu⟩ := hxz.cached hne
      have hroot := hd.root
      rw [hz'] at hroot
      cases hroot
      by_cases hxp : b.previousBlock = x
      · have hlow := hd.lowest
        rw [hxp, hx] at hlow
        cases hlow
      · obtain ⟨_, _, hp', -⟩ := hu.cached hxp
        rw [hd.lowest] at hp'
        cases hp'

end DropsRoot

section Lineage

/-- A block is an ancestor of another one by their headers, whether they are cached or not. -/
inductive Ancestor (K : Block → Prop) (x : Bytes) : Bytes → Prop
  | self : Ancestor K x x
  | step (b : Block) (hb : K b) (hprev : Ancestor K x b.previousBlock) : Ancestor K x b.indepHash

/-- Every block on chain is an ancestor of the tip, or the tip is one of it. -/
def Lineal (K : Block → Prop) (t : BlockTree) (tip : Bytes) : Prop :=
  ∀ x b, t x = some (b, .onChain) → Ancestor K x tip ∨ Ancestor K tip x

variable (hK : Headers K)

lemma ancestor_of_under (hindep : ∀ x b s, t x = some (b, s) → b.indepHash = x)
    (hknown : ∀ x b s, t x = some (b, s) → K b) (hu : Under t x y) : Ancestor K x y := by
  induction hu with
  | self => exact .self
  | step z b s hz _ ih =>
    rw [← hindep z b s hz]
    exact .step b (hknown z b s hz) ih

include hK

lemma Ancestor.height_lt {d : Block} (ha : Ancestor K x d.previousBlock) (hb : K b) (hx : b.indepHash = x)
    (hd : K d) : b.height < d.height := by
  generalize hy : d.previousBlock = y at ha
  induction ha generalizing d with
  | self =>
    have := hK.height d b hd hb (hy.trans hx.symm)
    omega
  | step f hf hprev ih =>
    have h1 := ih hf rfl
    have h2 := hK.height d f hd hf hy
    omega

omit hK in
lemma Ancestor.eq_or_previousBlock (ha : Ancestor K x y) :
    x = y ∨ ∃ b, K b ∧ b.indepHash = y ∧ Ancestor K x b.previousBlock := by
  cases ha with
  | self => exact .inl rfl
  | step b hb hprev => exact .inr ⟨b, hb, rfl, hprev⟩

lemma Ancestor.height_le {d : Block} (ha : Ancestor K x y) (hb : K b) (hx : b.indepHash = x) (hd : K d)
    (hy : d.indepHash = y) : b.height ≤ d.height := by
  rcases ha.eq_or_previousBlock with heq | ⟨f, hf, hfy, hprev⟩
  · exact (hK.same b d hb hd (by rw [hx, hy, heq])).2.2.2.2.le
  · have hlt := Ancestor.height_lt hK hprev hb hx hf
    have hsame := hK.same d f hd hf (hy.trans hfy.symm)
    rw [hsame.2.2.2.2]
    exact hlt.le

lemma Ancestor.eq_of_under (ht : Rooted t) (hknown : ∀ x b s, t x = some (b, s) → K b) {k : Bytes}
    {d : Block} {r : Status} (hk : t k = some (d, r)) (hb : K b) (hx : b.indepHash = x)
    (hheight : b.height = d.height) (hu : Under t k y) (ha : Ancestor K x y) : x = k := by
  induction hu with
  | self =>
    rcases ha.eq_or_previousBlock with heq | ⟨f, hf, hfk, hprev⟩
    · exact heq
    · exfalso
      have hsame := hK.same f d hf (hknown k d r hk) (by rw [ht.indepHash k d r hk, hfk])
      have hlt := Ancestor.height_lt hK hprev hb hx hf
      rw [hsame.2.2.2.2] at hlt
      omega
  | step z f q hz hprev ih =>
    have hlt := ht.height.height_lt hk hz hprev
    have hf := hknown z f q hz
    rcases ha.eq_or_previousBlock with heq | ⟨g, hg, hgz, hprev'⟩
    · have hsame := hK.same b f hb hf (by rw [hx, ht.indepHash z f q hz, heq])
      rw [hsame.2.2.2.2] at hheight
      omega
    · have hsame := hK.same g f hg hf (by rw [ht.indepHash z f q hz, hgz])
      exact ih (hsame.2.2.1 ▸ hprev')

/-- The tip stays in the cache, or what stays is high enough. -/
lemma DropsRoot.tip_or_high {S : Bytes → Prop} (hd : DropsRoot n t t' h b S) (ht : Rooted t) (ht' : Rooted t')
    (hknown : ∀ x b s, t x = some (b, s) → K b) (hlineal : Lineal K t tip) {d : Block} {r : Status}
    (htip : t tip = some (d, r)) (hn : n ≤ d.height) :
    t' tip = some (d, r) ∨ ∀ x f q, t' x = some (f, q) → n ≤ f.height := by
  by_cases hS : S tip
  · right
    intro x f q hx
    obtain ⟨z, g, w, hz, hroot, hu⟩ := ht'.exists_root hx
    have hon := ht'.rootOnChain z g w hz hroot
    subst hon
    obtain ⟨hnot, hz'⟩ := hd.removes.some_iff.mp hz
    rw [not_or] at hnot
    -- the new lowest block is directly on top of the old one
    have hprev : g.previousBlock = h := by
      by_contra hne
      cases hp : t g.previousBlock with
      | none => exact hnot.2 (ht.root z g _ h b _ hz' hd.root hp hd.lowest)
      | some v =>
        obtain ⟨p, u⟩ := v
        obtain rfl := ht.closed z g p u hz' hp
        have hp' := hd.removes.some_iff.mpr ⟨not_or.mpr ⟨hd.offChain _ p hp, hne⟩, hp⟩
        rw [hroot] at hp'
        cases hp'
    have hle := ht'.height.height_le hz hx hu
    obtain ⟨k, m, v, hk, hkprev, hoff, huk⟩ := hd.forks tip hS
    rcases hlineal z g hz' with ha | ha
    · exfalso
      have hzk : z = k := by
        apply Ancestor.eq_of_under hK ht hknown hk (hknown z g _ hz') (ht.indepHash z g _ hz') _ huk ha
        rw [ht.height z g _ b _ hz' (by rw [hprev, hd.root]), ht.height k m v b _ hk (by rw [hkprev, hd.root])]
      rw [← hzk, hz'] at hk
      cases hk
      exact hoff rfl
    · have := Ancestor.height_le hK ha (hknown _ d r htip) (ht.indepHash _ d r htip) (hknown z g _ hz')
        (ht.indepHash z g _ hz')
      omega
  · left
    apply hd.removes.some_iff.mpr ⟨_, htip⟩
    rintro (hS' | rfl)
    · exact hS hS'
    · have hroot := hd.root
      rw [htip] at hroot
      cases hroot
      exact absurd hd.below (not_lt.mpr hn)

end Lineage

/-- The blocks of a list that are not on chain are removed. -/
lemma removeForks_spec (ks : List Bytes) (hnodup : ks.Nodup) (hc : Coherent K (some h) c)
    (hks : ∀ k ∈ ks, ∃ d r, c.info k = some (d, r) ∧ d.previousBlock = h)
    (hremove : removeForks cfg c ks = some c') :
    Removed c c' (fun x => ∃ k ∈ ks, (∃ d r, c.info k = some (d, r) ∧ r ≠ .onChain) ∧ Under c.info k x) ∧
      Coherent K (some h) c' ∧ (MaxOf (some h) c → MaxOf (some h) c') := by
  induction ks generalizing c with
  | nil =>
    cases hremove
    refine ⟨⟨removes_none ?_, fun x e he => ⟨e, he, rfl⟩, rfl⟩, hc, id⟩
    rintro x ⟨k, hk, -⟩
    cases hk
  | cons k ks ih =>
    rw [List.nodup_cons] at hnodup
    rw [removeForks, List.foldlM_cons] at hremove
    obtain ⟨c2, hstep, hrest⟩ := Option.bind_eq_some_iff.mp hremove
    obtain ⟨e, he, hstep⟩ := Option.bind_eq_some_iff.mp hstep
    have hk := info_of_lookup he
    split_ifs at hstep with hon
    · cases hstep
      obtain ⟨hr, hc', hmax⟩ := ih hnodup.2 hc (fun k' hk' => hks k' (by simp [hk'])) hrest
      refine ⟨hr.congr ?_, hc', hmax⟩
      intro x
      rw [List.exists_mem_cons_iff]
      simp [hk, hon]
    · obtain ⟨hr, hc2, hmax, -⟩ := remove_spec hc he hstep
      obtain ⟨d, r, hd, hprev⟩ := hks k (by simp)
      -- nothing is on top of two of these blocks
      have hother : ∀ k' ∈ ks, ∀ x, Under c.info k' x → ¬Under c.info k x := by
        intro k' hk' x hu' hu
        obtain ⟨d', r', hd', hprev'⟩ := hks k' (by simp [hk'])
        have hne : k' ≠ k := by
          rintro rfl
          exact hnodup.1 hk'
        exact hc.tree.height.siblings_apart hd hd' (hprev.trans hprev'.symm) hne hu' hu
      have hsame : ∀ k' ∈ ks, c2.info k' = c.info k' := fun k' hk' =>
        (hr.removes k').2 (hother k' hk' k' .self)
      have hunder : ∀ k' ∈ ks, ∀ x, Under c2.info k' x ↔ Under c.info k' x := fun k' hk' x =>
        hr.removes.under_iff fun z hz _ => hother k' hk' z hz
      obtain ⟨hr', hc', hmax'⟩ := ih hnodup.2 hc2 (by
        intro k' hk'
        rw [hsame k' hk']
        exact hks k' (by simp [hk'])) hrest
      refine ⟨(hr.trans hr').congr ?_, hc', fun h => hmax' (hmax h)⟩
      intro x
      rw [List.exists_mem_cons_iff]
      apply or_congr
      · simp [hk, hon]
      · apply exists_congr
        intro k'
        apply and_congr_right
        intro hk'
        rw [hsame k' hk', hunder k' hk']

/-- The cumulative difficulty grows from a block to the next. -/
def Rising (K : Block → Prop) : Prop :=
  ∀ b c, K b → K c → b.previousBlock = c.indepHash → c.cumulativeDiff < b.cumulativeDiff

lemma Coherent.cumulativeDiff_lt {hidden : Option Bytes} (hc : Coherent K hidden c) (hrising : Rising K)
    (hx : c.info x = some (b, s)) {d : Block} {r : Status} (hy : c.info y = some (d, r))
    (hu : Under c.info x y) (hne : y ≠ x) : b.cumulativeDiff < d.cumulativeDiff := by
  obtain ⟨d', r', hy', hu'⟩ := hu.cached hne
  rw [hy] at hy'
  cases hy'
  apply Under.lt_of_step (f := Block.cumulativeDiff) _ hx hy hu'
  intro z f q p w hz hp
  apply hrising f p (hc.known z f q hz) (hc.known _ p w hp)
  exact (hc.tree.indepHash _ p w hp).symm

lemma lowest_of_smallest (hc : Coherent K none c) {link : Nat ×ₗ Bytes} (hsmall : c.links.smallest = some link) :
    ∃ b s, c.info (ofLex link).2 = some (b, s) ∧ b.height = (ofLex link).1 ∧ c.info b.previousBlock = none := by
  obtain ⟨-, b, s, hb, hheight⟩ := (hc.links (ofLex link).1 (ofLex link).2).mp (OrdSet.smallest_mem hsmall)
  refine ⟨b, s, hb, hheight, ?_⟩
  cases hp : c.info b.previousBlock with
  | none => rfl
  | some v =>
    obtain ⟨p, q⟩ := v
    have hlink := (hc.links p.height b.previousBlock).mpr ⟨by simp, p, q, hp, rfl⟩
    have hle := OrdSet.smallest_le hsmall hlink
    have h1 := hc.tree.height _ b s p q hb hp
    have h2 : (ofLex link).1 ≤ p.height := by
      rcases Prod.Lex.le_iff.mp hle with hlt | ⟨heq, -⟩
      · exact hlt.le
      · exact heq.le
    omega

lemma Coherent.hide (hc : Coherent K none c) (hh : c.info h = some (b, s)) :
    Coherent K (some h) { c with links := c.links.erase (toLex (b.height, h)) } := by
  refine ⟨⟨?_, hc.solutions, hc.nonempty⟩, hc.tree, hc.known, hc.children⟩
  intro n x
  change toLex (n, x) ∈ c.links.erase _ ↔ some h ≠ some x ∧ ∃ b s, c.info x = some (b, s) ∧ b.height = n
  rw [OrdSet.mem_erase, hc.links]
  constructor
  · rintro ⟨hne, -, d, r, hx, rfl⟩
    refine ⟨?_, d, r, hx, rfl⟩
    intro heq
    cases heq
    rw [hh] at hx
    cases hx
    exact hne rfl
  · rintro ⟨hne, d, r, hx, hheight⟩
    refine ⟨?_, by simp, d, r, hx, hheight⟩
    intro heq
    exact hne (congrArg (fun p => some (ofLex p).2) heq.symm)

/-- The lowest block goes when only blocks on chain are on top of it. -/
lemma Coherent.drop (hc : Coherent K (some h) c) (he : c.blocks.lookup h = some e)
    (hroot : c.info e.block.previousBlock = none)
    (hforks : ∀ x d r, c.info x = some (d, r) → d.previousBlock = h → r = .onChain)
    (hsolution : removeSolution c h e.block.hash = some c') :
    Coherent K none { c' with blocks := c'.blocks.erase h } ∧
      Removes c.info ({ c' with blocks := c'.blocks.erase h } : Cache).info (· = h) ∧
      c'.tip = c.tip ∧ c'.maxCdiff = c.maxCdiff := by
  have hh := info_of_lookup he
  obtain ⟨m, hm, hset, hne⟩ := removeSolution_spec hc.nonempty fun _ => hc.mem_solutionSet hh
  rw [hm] at hsolution
  cases hsolution
  have hlookup : ∀ x, (c.blocks.erase h).lookup x = if x = h then none else c.blocks.lookup x :=
    fun x => SortedMap.lookup_erase
  set c' : Cache := { c with blocks := c.blocks.erase h, solutions := m } with hc'
  have hrem : Removes c.info c'.info (· = h) := by
    intro x
    constructor
    · intro hx
      rw [info_eq_none, hc', hlookup, if_pos hx]
    · intro hx
      rw [Cache.info, hc', hlookup, if_neg hx]
      rfl
  refine ⟨⟨⟨?_, ?_, hne⟩, hc.tree.removes_root hh hroot hforks hrem, ?_, ?_⟩, hrem, rfl, rfl⟩
  · intro n x
    change toLex (n, x) ∈ c.links ↔ none ≠ some x ∧ ∃ b s, c'.info x = some (b, s) ∧ b.height = n
    rw [hc.links]
    simp only [hrem.some_iff]
    constructor
    · rintro ⟨hne, d, r, hx, hheight⟩
      exact ⟨by simp, d, r, ⟨fun heq => hne (heq ▸ rfl), hx⟩, hheight⟩
    · rintro ⟨-, d, r, ⟨hne, hx⟩, hheight⟩
      exact ⟨fun heq => hne (Option.some.inj heq).symm, d, r, hx, hheight⟩
  · intro solutionH x
    change x ∈ (m.lookup solutionH).getD .empty ↔ ∃ b s, c'.info x = some (b, s) ∧ b.hash = solutionH
    rw [hset, hc.solutions]
    simp only [hrem.some_iff, and_assoc, exists_and_left]
  · intro x d r hx
    exact hc.known x d r (hrem.some_iff.mp hx).2
  · intro x e' he' y
    change (c.blocks.erase h).lookup x = some e' at he'
    rw [hlookup] at he'
    split_ifs at he' with hx
    rw [hc.children x e' he']
    simp only [hrem.some_iff]
    constructor
    · rintro ⟨d, r, hy, rfl⟩
      refine ⟨d, r, ⟨?_, hy⟩, rfl⟩
      rintro rfl
      rw [hh] at hy
      cases hy
      rw [info_eq_none, he'] at hroot
      cases hroot
    · rintro ⟨d, r, ⟨-, hy⟩, hd⟩
      exact ⟨d, r, hy, hd⟩

lemma MaxOf.hide_root (hmax : MaxOf none c) (hrising : Rising K) (hc : Coherent K none c)
    (hh : c.info h = some (b, .onChain)) (hroot : c.info b.previousBlock = none)
    (habove : ∃ x d r, c.info x = some (d, r) ∧ b.height < d.height) : MaxOf (some h) c := by
  obtain ⟨x, d, r, hx, hd⟩ := habove
  have hne : x ≠ h := by
    rintro rfl
    rw [hh] at hx
    cases hx
    omega
  obtain ⟨z, f, q, hz, hzroot, hu⟩ := hc.tree.exists_root hx
  obtain rfl := hc.tree.root h b _ z f q hh hz hroot hzroot
  have hlt := hc.cumulativeDiff_lt hrising hh hx hu hne
  refine ⟨⟨fun heq => ?_, hmax.cached.2⟩, fun x b s hx _ => hmax.le x b s hx (by simp)⟩
  obtain ⟨-, g, w, hg, hcdiff⟩ := hmax.cached
  rw [← Option.some.inj heq, hh] at hg
  cases hg
  have := hmax.le x d _ hx (by simp)
  omega

lemma MaxOf.reveal (hmax : MaxOf (some h) c) (hr : Removes c.info c'.info (· = h))
    (hmaxCdiff : c'.maxCdiff = c.maxCdiff) : MaxOf none c' where
  cached := by
    obtain ⟨hhid, g, w, hg, hcdiff⟩ := hmax.cached
    rw [hmaxCdiff]
    exact ⟨by simp, g, w, hr.some_iff.mpr ⟨fun heq => hhid (heq ▸ rfl), hg⟩, hcdiff⟩
  le y g w hy _ := by
    obtain ⟨hyh, hy⟩ := hr.some_iff.mp hy
    rw [hmaxCdiff]
    exact hmax.le y g w hy fun heq => hyh (Option.some.inj heq).symm

/-- One round of pruning. -/
lemma pruneRound_spec (hc : Coherent K none c) (hh : c.info h = some (b, .onChain))
    (he : c.blocks.lookup h = some e) (hroot : c.info b.previousBlock = none) (hn : b.height < n)
    {c3 c4 : Cache}
    (hforks : removeForks cfg { c with links := c.links.erase (toLex (b.height, h)) }
      (cfg.order e.children.elems) = some c3)
    (hsolution : removeSolution c3 h e.block.hash = some c4)
    (hupdate : updateLongestChainCache cfg { c4 with blocks := c4.blocks.erase h } = some c') :
    (∃ S, DropsRoot n c.info c'.info h b S) ∧ Coherent K none c' ∧ c'.tip = c.tip ∧
      (Rising K → (∃ x d r, c.info x = some (d, r) ∧ n ≤ d.height) → MaxOf none c → MaxOf none c') := by
  have hperm := cfg.order_perm e.children.elems
  obtain ⟨e', he', rfl, -⟩ := exists_entry hh
  rw [he] at he'
  cases he'
  set c2 : Cache := { c with links := c.links.erase (toLex (e.block.height, h)) } with hc2
  have hcoh2 : Coherent K (some h) c2 := hc.hide hh
  have hkid : ∀ k, k ∈ cfg.order e.children.elems ↔ ∃ d r, c2.info k = some (d, r) ∧ d.previousBlock = h := by
    intro k
    rw [hperm.mem_iff]
    exact hc.children h e he k
  obtain ⟨hr, hcoh3, hmax3⟩ := removeForks_spec _ (hperm.nodup_iff.mpr e.children.nodup) hcoh2
    (fun k hk => (hkid k).mp hk) hforks
  set S := fun x => ∃ k ∈ cfg.order e.children.elems,
    (∃ d r, c2.info k = some (d, r) ∧ r ≠ .onChain) ∧ Under c2.info k x with hS
  -- the forks are off chain, and the lowest block is not one of them
  have hoff : ∀ x d, c.info x = some (d, .onChain) → ¬S x := by
    rintro x d hx ⟨k, hk, ⟨f, r, hf, hr⟩, hu⟩
    exact hr (hc.tree.onChain_of_under hx hu hf)
  have hh3 : c3.info h = some (e.block, .onChain) := hr.removes.some_iff.mpr ⟨hoff h e.block hh, hh⟩
  obtain ⟨e3, he3, hblock3, -⟩ := exists_entry hh3
  have hroot3 : c3.info e3.block.previousBlock = none := by
    rw [hblock3]
    by_contra hcached
    obtain ⟨v, hv⟩ := Option.ne_none_iff_exists'.mp hcached
    have hv' := (hr.removes.some_iff.mp hv).2
    change c.info e.block.previousBlock = some v at hv'
    rw [hroot] at hv'
    cases hv'
  rw [← hblock3] at hsolution
  obtain ⟨hcoh4, hrem4, htip4, hmax4⟩ := hcoh3.drop he3 hroot3 (by
    intro x d r hx hd
    obtain ⟨hnot, hx⟩ := hr.removes.some_iff.mp hx
    by_contra hr'
    exact hnot ⟨x, (hkid x).mpr ⟨d, r, hx, hd⟩, ⟨d, r, hx, hr'⟩, .self⟩) hsolution
  obtain ⟨r, hr'⟩ := updateLongestChainCache_eq hupdate
  have hinfo : c'.info = ({ c4 with blocks := c4.blocks.erase h } : Cache).info := by rw [hr']; rfl
  have hdrop : DropsRoot n c.info c'.info h e.block S := by
    refine ⟨hh, hroot, hn, ?_, hoff, ?_⟩
    · rintro x ⟨k, hk, ⟨d, r, hd, hoff'⟩, hu⟩
      obtain ⟨d', r', hd', hprev⟩ := (hkid k).mp hk
      rw [hd] at hd'
      cases hd'
      exact ⟨k, d, r, hd, hprev, hoff', hu⟩
    rw [hinfo]
    exact hr.removes.trans hrem4
  refine ⟨⟨S, hdrop⟩, ?_, ?_, ?_⟩
  · rw [hr']
    exact hcoh4.longestChain _
  · rw [hr']
    exact htip4.trans hr.tip
  · rintro hrising ⟨x, d, r', hx, hd⟩ hmax
    have hhide := hmax.hide_root hrising hc hh hroot ⟨x, d, r', hx, hn.trans_le hd⟩
    refine (hmax3 ⟨hhide.cached, hhide.le⟩).reveal ?_ ?_
    · rw [hinfo]
      exact hrem4
    · rw [hr']
      exact hmax4

/-- Any number of rounds. -/
inductive Pruned (n : Nat) : BlockTree → BlockTree → Prop
  | refl (t : BlockTree) : Pruned n t t
  | round {t t' t'' : BlockTree} (h : Bytes) (b : Block) (S : Bytes → Prop) (hdrop : DropsRoot n t t' h b S)
      (ht : Rooted t) (hrest : Pruned n t' t'') : Pruned n t t''

lemma pruneFrom_spec (hK : Headers K) (depth tipHeight fuel : Nat) (hc : Coherent K none c)
    (hprune : pruneFrom cfg depth tipHeight fuel c = some c') :
    Pruned (tipHeight - depth) c.info c'.info ∧ Coherent K none c' ∧ c'.tip = c.tip ∧
      (Rising K → Lineal K c.info c.tip →
        ((∃ d r, c.info c.tip = some (d, r) ∧ tipHeight - depth ≤ d.height) ∨
          ∀ x f q, c.info x = some (f, q) → tipHeight - depth ≤ f.height) → MaxOf none c → MaxOf none c') ∧
      (c' = c ∨ ∃ c2, updateLongestChainCache cfg c2 = some c') := by
  induction fuel generalizing c with
  | zero => cases hprune
  | succ fuel ih =>
    rw [pruneFrom] at hprune
    cases hsmall : c.links.smallest with
    | none =>
      rw [hsmall] at hprune
      cases hprune
      exact ⟨.refl _, hc, rfl, fun _ _ _ => id, .inl rfl⟩
    | some link =>
      rw [hsmall] at hprune
      simp only at hprune
      split_ifs at hprune with hdeep
      · cases hprune
        exact ⟨.refl _, hc, rfl, fun _ _ _ => id, .inl rfl⟩
      · obtain ⟨e, he, hprune⟩ := Option.bind_eq_some_iff.mp hprune
        change c.blocks.lookup (ofLex link).2 = some e at he
        split_ifs at hprune with hon
        obtain ⟨c3, hforks, hprune⟩ := Option.bind_eq_some_iff.mp hprune
        obtain ⟨c4, hsolution, hprune⟩ := Option.bind_eq_some_iff.mp hprune
        obtain ⟨c5, hupdate, hprune⟩ := Option.bind_eq_some_iff.mp hprune
        obtain ⟨b, s, hb, hheight, hroot⟩ := lowest_of_smallest hc hsmall
        have hinfo := info_of_lookup he
        rw [hb, hon] at hinfo
        cases hinfo
        have hlink : link = toLex (e.block.height, (ofLex link).2) := by
          rw [hheight]
          rfl
        have hlow : e.block.height < tipHeight - depth := by omega
        obtain ⟨⟨S, hdrop⟩, hc5, htip, hmax⟩ := pruneRound_spec (n := tipHeight - depth) hc hb he hroot hlow
          (hlink ▸ hforks) hsolution hupdate
        obtain ⟨hpruned, hc', htip', hmax', hfresh⟩ := ih hc5 hprune
        refine ⟨.round _ _ S hdrop hc.tree hpruned, hc', htip'.trans htip, ?_, ?_⟩
        · intro hrising hlineal hcases hmaxc
          -- this block is too low, so the tip is cached
          obtain ⟨d, r, hd, hn⟩ := hcases.resolve_right fun hall => absurd (hall _ _ _ hb) (not_le.mpr hlow)
          have hlineal5 : Lineal K c5.info c5.tip := by
            intro x f hx
            rw [htip]
            exact hlineal x f (hdrop.removes.some_iff.mp hx).2
          apply hmax' hrising hlineal5 _ (hmax hrising ⟨_, d, r, hd, hn⟩ hmaxc)
          rw [htip]
          rcases hdrop.tip_or_high hK hc.tree hc5.tree hc.known hlineal hd hn with hd' | hall
          · exact .inl ⟨d, r, hd', hn⟩
          · exact .inr hall
        · rcases hfresh with rfl | hfresh
          · exact .inr ⟨_, hupdate⟩
          · exact .inr hfresh

lemma Pruned.keeps (hp : Pruned n t t') (hx : t x = some (b, .onChain)) (hn : n ≤ b.height) :
    t' x = some (b, .onChain) := by
  induction hp with
  | refl t => exact hx
  | round h d S hdrop ht hrest ih => exact ih (hdrop.keeps hx hn)

lemma Pruned.tipPath (hp : Pruned n t t') (htip : TipPath t tip) (hb : t tip = some (b, .onChain))
    (hn : n ≤ b.height) : TipPath t' tip := by
  induction hp with
  | refl t => exact htip
  | round h d S hdrop ht hrest ih => exact ih (hdrop.tipPath ht htip hb hn) (hdrop.keeps hb hn)

lemma Pruned.lineal (hp : Pruned n t t') (hlineal : Lineal K t tip) : Lineal K t' tip := by
  induction hp with
  | refl t => exact hlineal
  | round h d S hdrop ht hrest ih => exact ih fun x f hx => hlineal x f (hdrop.removes.some_iff.mp hx).2

lemma Pruned.pendingOrder (hp : Pruned n t t') (horder : PendingOrder fork t) : PendingOrder fork t' := by
  induction hp with
  | refl t => exact horder
  | round h d S hdrop ht hrest ih => exact ih (horder.removes hdrop.removes)

/-- What becomes of the tables when the cache is pruned. -/
theorem prune_spec (hK : Headers K) {depth : Nat} (hc : Coherent K none c) (hprune : prune cfg c depth = some c') :
    ∃ b s, c.info c.tip = some (b, s) ∧ Pruned (b.height - depth) c.info c'.info ∧ Coherent K none c' ∧
      c'.tip = c.tip ∧ (Rising K → Lineal K c.info c.tip → MaxOf none c → MaxOf none c') ∧
      (c' = c ∨ ∃ c2, updateLongestChainCache cfg c2 = some c') := by
  obtain ⟨e, he, hprune⟩ := Option.bind_eq_some_iff.mp hprune
  have htip := info_of_lookup he
  obtain ⟨hpruned, hc', htip', hmax, hfresh⟩ := pruneFrom_spec hK depth e.block.height _ hc hprune
  refine ⟨_, _, htip, hpruned, hc', htip', ?_, hfresh⟩
  intro hrising hlineal
  exact hmax hrising hlineal (.inl ⟨_, _, htip, by omega⟩)

end Arweave.BlockCache

import Arweave.BlockCache.Validation

/-!
# What pruning keeps

Pruning ends with the blocks that are on top of a block on chain that is high enough. It does
not crash: the walk for the longest chain falls back to the record at most, and the tip always
has a link.
-/

namespace Arweave.BlockCache
open Arweave.Lib

variable {cfg : Config} {hidden : Option Bytes} {c c' : Cache} {h x y : Bytes} {e : Entry} {b : Block} {s : Status}
  {K : Block → Prop} {t t' : BlockTree} {n : Nat}

lemma walk_total {path : List (Block × Status)} (hlong : c.longestChain ≠ none) (hpath : Path c.info x path)
    (fuel n : Nat) (prevStatus : Option Status) (prevH : Bytes) (pairs : List (Bytes × List Bytes)) (count : Nat)
    (hfuel : path.length < fuel) :
    ∃ r, getLongestChainBlockTxsPairs cfg c fuel x n prevStatus prevH pairs count = some r := by
  obtain ⟨record, hrecord⟩ := Option.ne_none_iff_exists'.mp hlong
  induction hpath generalizing fuel n prevStatus prevH pairs count with
  | nil x hx =>
    obtain ⟨fuel, rfl⟩ : ∃ k, fuel = k + 1 := ⟨fuel - 1, by omega⟩
    rw [getLongestChainBlockTxsPairs, info_eq_none.mp hx, hrecord]
    split_ifs
    · exact ⟨_, rfl⟩
    · cases c.blocks.lookup prevH with
      | none => exact ⟨_, rfl⟩
      | some e => exact ⟨_, rfl⟩
    · exact ⟨_, rfl⟩
  | cons x b s path hx hprev ih =>
    obtain ⟨fuel, rfl⟩ : ∃ k, fuel = k + 1 := ⟨fuel - 1, by omega⟩
    rw [List.length_cons] at hfuel
    obtain ⟨e, he, rfl, rfl⟩ := exists_entry hx
    by_cases hn : n = 0
    · exact ⟨_, by rw [getLongestChainBlockTxsPairs, if_pos hn]⟩
    · obtain ⟨n, rfl⟩ : ∃ k, n = k + 1 := ⟨n - 1, by omega⟩
      by_cases hpending : e.status.Pending
      · rw [walk_pending he hpending]
        exact ih fuel _ _ _ _ _ (by omega)
      · by_cases hretry : prevStatus = some .onChain ∧ e.status ≠ .onChain
        · rw [walk_retry he hpending hretry]
          exact ⟨_, hrecord⟩
        · rw [walk_block he hpending fun hprev => by_contra fun hne => hretry ⟨hprev, hne⟩]
          exact ih fuel _ _ _ _ _ (by omega)

lemma update_total (cfg : Config) (ht : Ascending c.info) (hlong : c.longestChain ≠ none) :
    ∃ c', updateLongestChainCache cfg c = some c' := by
  obtain ⟨path, hpath⟩ := Path.exists_of_ascending ht c.maxCdiff.2
  have hlength := hpath.length_le ht
  obtain ⟨r, hr⟩ := @walk_total cfg _ _ _ hlong hpath (c.blocks.size + 2) cfg.storeBlocksBehindCurrent none [] [] 0
    (by omega)
  exact ⟨_, by rw [updateLongestChainCache, hr]; rfl⟩

lemma longestChain_of_update (hupdate : updateLongestChainCache cfg c = some c') : c'.longestChain ≠ none := by
  obtain ⟨r, rfl⟩ := updateLongestChainCache_eq hupdate
  simp

lemma findMaxCdiffFrom_total (links : List (Nat ×ₗ Bytes)) (acc : Option (Nat × Bytes))
    (hlinks : ∀ link ∈ links, c.blocks.lookup (ofLex link).2 ≠ none) (hne : acc = none → links ≠ []) :
    ∃ m, findMaxCdiffFrom c links acc = some m := by
  induction links generalizing acc with
  | nil =>
    obtain ⟨m, rfl⟩ := Option.ne_none_iff_exists'.mp fun hnone => hne hnone rfl
    exact ⟨m, rfl⟩
  | cons link links ih =>
    obtain ⟨e, he⟩ := Option.ne_none_iff_exists'.mp (hlinks link (by simp))
    have hrest := fun m => ih (some m) (fun link' hmem => hlinks link' (by simp [hmem])) (by simp)
    cases acc with
    | none =>
      rw [findMaxCdiffFrom, he]
      exact hrest _
    | some acc =>
      rw [findMaxCdiffFrom, he, Option.bind_eq_bind, Option.bind_some]
      split_ifs
      · exact hrest _
      · exact hrest _

lemma findMaxCdiff_total (hi : Indexed hidden c) (hx : c.info x = some (b, s)) (hhidden : hidden ≠ some x) :
    ∃ m, findMaxCdiff c = some m := by
  apply findMaxCdiffFrom_total
  · intro link hlink
    obtain ⟨-, d, r, hd, -⟩ := (hi.links (ofLex link).1 (ofLex link).2).mp hlink
    obtain ⟨e, he, -⟩ := exists_entry hd
    rw [he]
    simp
  · rintro - hnil
    have hlink := (hi.links b.height x).mpr ⟨hhidden, b, s, hx, rfl⟩
    rw [← OrdSet.mem_elems, hnil] at hlink
    cases hlink

lemma info_insert (he : c.blocks.lookup h = some e) (children : OrdSet Bytes) (maxCdiff : Nat × Bytes) :
    ({ c with maxCdiff, blocks := c.blocks.insert h { e with children } } : Cache).info = c.info := by
  funext x
  rw [Cache.info, SortedMap.lookup_insert]
  split_ifs with hx
  · rw [hx, info_of_lookup he]
    rfl
  · rfl

lemma remove_total (cfg : Config) (hc : Coherent K hidden c) (hlong : c.longestChain ≠ none)
    (hh : c.info h = some (b, s)) (hprev : c.info b.previousBlock ≠ none) {d : Block} {r : Status}
    (hx : c.info x = some (d, r)) (hhidden : hidden ≠ some x) (hstays : ¬Under c.info h x) :
    ∃ c', remove cfg c h = some c' := by
  obtain ⟨e, he, rfl, rfl⟩ := exists_entry hh
  obtain ⟨prev, hprev⟩ := Option.ne_none_iff_exists'.mp fun hnone => hprev (info_eq_none.mpr hnone)
  have hr : Removable hidden c h := ⟨hc.toIndexed, hc.tree.height, by simp [hh], fun x _ => hc.children x⟩
  obtain ⟨c2, hremove2, hdel, hi⟩ := remove2_spec cfg c.blocks.size c h le_rfl hr
  have hx2 : c2.info x = some (d, r) := hdel.removes.some_iff.mpr ⟨hstays, hx⟩
  obtain ⟨m, hm⟩ : ∃ m, (if (c2.blocks.lookup c.maxCdiff.2).isNone then findMaxCdiff c2 else some c.maxCdiff) =
      some m := by
    split_ifs
    · exact findMaxCdiff_total hi hx2 hhidden
    · exact ⟨_, rfl⟩
  have hbelow : ¬Under c.info h e.block.previousBlock := hc.tree.height.not_under_previousBlock hh
  have hprev2 : c2.blocks.lookup e.block.previousBlock = some prev := ((hdel.blocks _).2 hbelow).trans hprev
  have hlong2 : c2.longestChain ≠ none := by rwa [hdel.longestChain]
  set c3 : Cache := { c2 with
    maxCdiff := m
    blocks := c2.blocks.insert e.block.previousBlock { prev with children := prev.children.erase h } } with hc3
  have hascending : Ascending c3.info := by
    rw [hc3, info_insert hprev2]
    exact hdel.removes.ascending hc.tree.height
  obtain ⟨c', hupdate⟩ := update_total cfg hascending hlong2
  refine ⟨c', ?_⟩
  rw [remove, he]
  change (c.blocks.lookup e.block.previousBlock).bind _ = _
  rw [hprev, Option.bind_some, hremove2, Option.bind_eq_bind, Option.bind_some, Option.bind_eq_bind, hm]
  exact hupdate

lemma removeForks_cons {k : Bytes} (ks : List Bytes) (he : c.blocks.lookup k = some e) :
    removeForks cfg c (k :: ks) =
      (if e.status = .onChain then some c else remove cfg c k).bind fun c' => removeForks cfg c' ks := by
  rw [removeForks, List.foldlM_cons, he]
  rfl

lemma removeForks_total (cfg : Config) (ks : List Bytes) (hnodup : ks.Nodup) (hc : Coherent K (some h) c)
    (hlong : c.longestChain ≠ none) (hh : c.info h ≠ none)
    (hks : ∀ k ∈ ks, ∃ d r, c.info k = some (d, r) ∧ d.previousBlock = h)
    {d : Block} (hx : c.info x = some (d, .onChain)) (hne : x ≠ h) :
    ∃ c', removeForks cfg c ks = some c' ∧ c'.longestChain ≠ none := by
  induction ks generalizing c with
  | nil => exact ⟨c, rfl, hlong⟩
  | cons k ks ih =>
    rw [List.nodup_cons] at hnodup
    obtain ⟨f, r, hf, hprev⟩ := hks k (by simp)
    obtain ⟨e, he, rfl, rfl⟩ := exists_entry hf
    by_cases hon : e.status = .onChain
    · obtain ⟨c', hremove, hlong'⟩ := ih hnodup.2 hc hlong hh (fun k' hk' => hks k' (by simp [hk'])) hx
      refine ⟨c', ?_, hlong'⟩
      rw [removeForks_cons ks he, if_pos hon]
      exact hremove
    · have hstays : ¬Under c.info k x := fun hu => hon (hc.tree.onChain_of_under hx hu hf)
      have hbelow : ¬Under c.info k h := hprev ▸ hc.tree.height.not_under_previousBlock hf
      obtain ⟨c2, hremove⟩ := remove_total cfg hc hlong hf (by rwa [hprev]) hx (by simpa using hne.symm) hstays
      obtain ⟨hr, hc2, -, _, hupdate⟩ := remove_spec hc he hremove
      obtain ⟨c', hrest, hlong'⟩ := ih hnodup.2 hc2 (longestChain_of_update hupdate)
        (by rwa [(hr.removes h).2 hbelow]) (by
          intro k' hk'
          obtain ⟨f', r', hf', hprev'⟩ := hks k' (by simp [hk'])
          refine ⟨f', r', hr.removes.some_iff.mpr ⟨?_, hf'⟩, hprev'⟩
          apply hc.tree.height.siblings_apart hf hf' (hprev.trans hprev'.symm) _ .self
          rintro rfl
          exact hnodup.1 hk') (hr.removes.some_iff.mpr ⟨hstays, hx⟩)
      refine ⟨c', ?_, hlong'⟩
      rw [removeForks_cons ks he, if_neg hon, hremove]
      exact hrest

lemma pruneRound_total (cfg : Config) (hc : Coherent K none c) (hlong : c.longestChain ≠ none)
    (he : c.blocks.lookup h = some e) (hon : e.status = .onChain) {d : Block}
    (hx : c.info x = some (d, .onChain)) (hne : x ≠ h) :
    ∃ c3 c4 c5, removeForks cfg { c with links := c.links.erase (toLex (e.block.height, h)) }
        (cfg.order e.children.elems) = some c3 ∧ removeSolution c3 h e.block.hash = some c4 ∧
      updateLongestChainCache cfg { c4 with blocks := c4.blocks.erase h } = some c5 := by
  have hh := info_of_lookup he
  have hperm := cfg.order_perm e.children.elems
  set c2 : Cache := { c with links := c.links.erase (toLex (e.block.height, h)) } with hc2
  have hcoh2 : Coherent K (some h) c2 := hc.hide hh
  have hkid : ∀ k ∈ cfg.order e.children.elems, ∃ d r, c2.info k = some (d, r) ∧ d.previousBlock = h := by
    intro k hk
    rw [hperm.mem_iff] at hk
    exact (hc.children h e he k).mp hk
  have hnodup := hperm.nodup_iff.mpr e.children.nodup
  obtain ⟨c3, hforks, hlong3⟩ := removeForks_total cfg _ hnodup hcoh2 hlong (by rw [hc2]; exact hh ▸ by simp) hkid hx hne
  obtain ⟨hr, hcoh3, -⟩ := removeForks_spec _ hnodup hcoh2 hkid hforks
  have hh3 : c3.info h = some (e.block, e.status) := by
    refine hr.removes.some_iff.mpr ⟨?_, hh⟩
    rintro ⟨k, -, ⟨f, r, hf, hoff⟩, hu⟩
    rw [hon] at hh
    exact hoff (hc.tree.onChain_of_under hh hu hf)
  obtain ⟨m, hm, -⟩ := removeSolution_spec hcoh3.nonempty fun _ => hcoh3.mem_solutionSet hh3
  have hascending : Ascending ({ c3 with solutions := m, blocks := c3.blocks.erase h } : Cache).info := by
    intro x f r p q hx hp
    exact hcoh3.tree.height x f r p q (info_of_info_erase hx) (info_of_info_erase hp)
  obtain ⟨c5, hupdate⟩ := update_total cfg hascending hlong3
  exact ⟨c3, _, c5, hforks, hm, hupdate⟩

lemma length_links_lt (hi : Indexed none c) (hi' : Indexed none c') (hh : c.info h = some (b, s))
    (hsub : ∀ x v, c'.info x = some v → c.info x = some v ∧ x ≠ h) :
    c'.links.elems.length < c.links.elems.length := by
  have hlink : toLex (b.height, h) ∈ c.links := (hi.links b.height h).mpr ⟨by simp, b, s, hh, rfl⟩
  have hmem : ∀ link ∈ c'.links.elems, link ∈ c.links.elems ∧ (ofLex link).2 ≠ h := by
    intro link hlink
    obtain ⟨-, d, r, hd, hheight⟩ := (hi'.links (ofLex link).1 (ofLex link).2).mp hlink
    obtain ⟨hd, hne⟩ := hsub _ _ hd
    exact ⟨(hi.links (ofLex link).1 (ofLex link).2).mpr ⟨by simp, d, r, hd, hheight⟩, hne⟩
  have hnodup : (toLex (b.height, h) :: c'.links.elems).Nodup := by
    refine List.nodup_cons.mpr ⟨?_, c'.links.nodup⟩
    intro hmem'
    exact (hmem _ hmem').2 rfl
  have hsubset : toLex (b.height, h) :: c'.links.elems ⊆ c.links.elems := by
    intro link hlink'
    rcases List.mem_cons.mp hlink' with rfl | hlink'
    · exact hlink
    · exact (hmem link hlink').1
  exact (List.subperm_of_subset hnodup hsubset).length_le

/-- Pruning ends when the lowest block is high enough. -/
lemma pruneFrom_total (cfg : Config) (depth tipHeight fuel : Nat) (hc : Coherent K none c) (hlong : c.longestChain ≠ none)
    {d : Block} (hx : c.info x = some (d, .onChain)) (hheight : d.height = tipHeight)
    (hfuel : c.links.elems.length < fuel) :
    ∃ c', pruneFrom cfg depth tipHeight fuel c = some c' ∧
      ∀ y b s, c'.info y = some (b, s) → tipHeight - depth ≤ b.height := by
  induction fuel generalizing c with
  | zero => omega
  | succ fuel ih =>
    have hlink := (hc.links d.height x).mpr ⟨by simp, d, _, hx, rfl⟩
    obtain ⟨link, hsmall⟩ : ∃ link, c.links.smallest = some link := by
      apply Option.ne_none_iff_exists'.mp
      intro hnone
      rw [OrdSet.smallest, List.head?_eq_none_iff] at hnone
      rw [← OrdSet.mem_elems, hnone] at hlink
      cases hlink
    obtain ⟨b, s, hb, hlow, hroot⟩ := lowest_of_smallest hc hsmall
    rw [pruneFrom, hsmall]
    by_cases hdeep : tipHeight ≤ (ofLex link).1 + depth
    · refine ⟨c, if_pos hdeep, ?_⟩
      intro y f r hy
      have hle := OrdSet.smallest_le hsmall ((hc.links f.height y).mpr ⟨by simp, f, r, hy, rfl⟩)
      have : (ofLex link).1 ≤ f.height := by
        rcases Prod.Lex.le_iff.mp hle with hlt | ⟨heq, -⟩
        · exact hlt.le
        · exact heq.le
      omega
    · obtain rfl := hc.tree.rootOnChain _ _ _ hb hroot
      obtain ⟨e, he, rfl, hon⟩ := exists_entry hb
      have hne : x ≠ (ofLex link).2 := by
        intro heq
        rw [heq, hb] at hx
        cases hx
        omega
      obtain ⟨c3, c4, c5, hforks, hsolution, hupdate⟩ := pruneRound_total cfg hc hlong he hon hx hne
      obtain ⟨⟨S, hdrop⟩, hc5, -⟩ := pruneRound_spec (n := tipHeight - depth) hc hb he hroot (by omega) hforks
        hsolution hupdate
      have hfewer := length_links_lt hc.toIndexed hc5.toIndexed hb fun y v hy =>
        ⟨(hdrop.removes.some_iff.mp hy).2, fun heq => (hdrop.removes.some_iff.mp hy).1 (.inr heq)⟩
      obtain ⟨c', hprune, hhigh⟩ := ih hc5 (longestChain_of_update hupdate) (hdrop.keeps hx (by omega)) (by omega)
      refine ⟨c', ?_, hhigh⟩
      have hlink : link = toLex (e.block.height, (ofLex link).2) := by
        rw [hlow]
        rfl
      rw [← hlink] at hforks
      simp only [if_neg hdeep, he, Option.bind_eq_bind, Option.bind_some, if_pos hon]
      rw [hforks, Option.bind_some, hsolution, Option.bind_some, hupdate]
      exact hprune

section Kept

/-- The block is on a block on chain of at least this height, or is one itself. -/
def Kept (n : Nat) (t : BlockTree) (x : Bytes) : Prop :=
  ∃ a d, t a = some (d, .onChain) ∧ n ≤ d.height ∧ Under t a x

lemma Rooted.kept_iff_of_onChain (ht : Rooted t) (hx : t x = some (b, .onChain)) : Kept n t x ↔ n ≤ b.height := by
  constructor
  · rintro ⟨a, d, ha, hn, hu⟩
    exact hn.trans (ht.height.height_le ha hx hu)
  · intro hn
    exact ⟨x, b, hx, hn, .self⟩

lemma Rooted.kept_of_high (ht : Rooted t) (hx : t x = some (b, s))
    (hhigh : ∀ y c r, t y = some (c, r) → n ≤ c.height) : Kept n t x := by
  obtain ⟨z, d, r, hz, hroot, hu⟩ := ht.exists_root hx
  obtain rfl := ht.rootOnChain z d r hz hroot
  exact ⟨z, d, hz, hhigh z d _ hz, hu⟩

variable {S : Bytes → Prop}

lemma DropsRoot.keeps_above (hd : DropsRoot n t t' h b S) (ht : Rooted t) {a : Bytes} {d : Block}
    (ha : t a = some (d, .onChain)) (hne : a ≠ h) (hu : Under t a x) : ¬(S x ∨ x = h) := by
  -- nothing is below the lowest block
  have hroot : ¬Under t a h := by
    intro hah
    obtain ⟨b', s', hh, hu'⟩ := hah.cached (Ne.symm hne)
    rw [hd.root] at hh
    cases hh
    by_cases hab : b.previousBlock = a
    · have hlow := hd.lowest
      rw [hab, ha] at hlow
      cases hlow
    · obtain ⟨_, _, hp, -⟩ := hu'.cached hab
      rw [hd.lowest] at hp
      cases hp
  rintro (hS | rfl)
  · obtain ⟨k, f, r, hk, hprev, hoff, hku⟩ := hd.forks x hS
    rcases hu.linear hku with hak | hka
    · by_cases heq : k = a
      · rw [heq, ha] at hk
        cases hk
        exact hoff rfl
      · obtain ⟨f', r', hk', hah⟩ := hak.cached heq
        rw [hk] at hk'
        cases hk'
        exact hroot (hprev ▸ hah)
    · exact hoff (ht.onChain_of_under ha hka hk)
  · exact hroot hu

lemma DropsRoot.kept_iff (hd : DropsRoot n t t' h b S) (ht : Rooted t) {v : Block × Status} :
    t' x = some v ∧ Kept n t' x ↔ t x = some v ∧ Kept n t x := by
  have hne : ∀ {a d}, t a = some (d, .onChain) → n ≤ d.height → a ≠ h := by
    rintro a d ha hn rfl
    have hroot := hd.root
    rw [ha] at hroot
    cases hroot
    exact absurd hd.below (not_lt.mpr hn)
  constructor
  · rintro ⟨hx, a, d, ha, hn, hu⟩
    obtain ⟨-, ha⟩ := hd.removes.some_iff.mp ha
    refine ⟨(hd.removes.some_iff.mp hx).2, a, d, ha, hn, ?_⟩
    exact (hd.removes.under_iff fun z hz _ => hd.keeps_above ht ha (hne ha hn) hz).mp hu
  · rintro ⟨hx, a, d, ha, hn, hu⟩
    refine ⟨hd.removes.some_iff.mpr ⟨hd.keeps_above ht ha (hne ha hn) hu, hx⟩, a, d, hd.keeps ha hn, hn, ?_⟩
    exact (hd.removes.under_iff fun z hz _ => hd.keeps_above ht ha (hne ha hn) hz).mpr hu

lemma Pruned.kept_iff (hp : Pruned n t t') (ht' : Rooted t') (hhigh : ∀ y c r, t' y = some (c, r) → n ≤ c.height)
    {v : Block × Status} : t' x = some v ↔ t x = some v ∧ Kept n t x := by
  induction hp with
  | refl t => exact ⟨fun hx => ⟨hx, ht'.kept_of_high hx hhigh⟩, And.left⟩
  | round h b S hdrop ht hrest ih => rw [ih ht' hhigh, hdrop.kept_iff ht]

/-- The blocks that are kept are the same as before, and the others are gone from all tables. -/
structure Keeps (n : Nat) (c c' : Cache) : Prop where
  blocks : ∀ x, Kept n c.info x → c'.info x = c.info x
  gone : ∀ x, ¬Kept n c.info x → c'.blocks.lookup x = none ∧ (∀ height, toLex (height, x) ∉ c'.links) ∧
    ∀ solutionH, x ∉ c'.solutionSet solutionH
  onChain : ∀ x b, c.info x = some (b, .onChain) → (c'.info x = some (b, .onChain) ↔ n ≤ b.height)
  consistent : Consistent c'
  solutions : ∀ solutionH, c'.solutions.lookup solutionH ≠ none ↔
    ∃ x e, c'.blocks.lookup x = some e ∧ e.block.hash = solutionH
  tip : c'.tip = c.tip

lemma Indexed.lookup_solutions (hi : Indexed hidden c) (solutionH : Bytes) : c.solutions.lookup solutionH ≠ none ↔
    ∃ x e, c.blocks.lookup x = some e ∧ e.block.hash = solutionH := by
  constructor
  · intro hne
    obtain ⟨set, hset⟩ := Option.ne_none_iff_exists'.mp hne
    obtain ⟨x, hx⟩ := hi.nonempty solutionH set hset
    obtain ⟨b, s, hb, hhash⟩ := (hi.solutions solutionH x).mp (by rwa [Cache.solutionSet, hset])
    obtain ⟨e, he, rfl, -⟩ := exists_entry hb
    exact ⟨x, e, he, hhash⟩
  · rintro ⟨x, e, he, hhash⟩ hnone
    have hx := (hi.solutions solutionH x).mpr ⟨_, _, info_of_lookup he, hhash⟩
    rw [Cache.solutionSet, hnone] at hx
    exact OrdSet.not_mem_empty hx

lemma Coherent.keeps (hc' : Coherent K none c') (ht : Rooted c.info) (htip : c'.tip = c.tip)
    (hkept : ∀ x v, c'.info x = some v ↔ c.info x = some v ∧ Kept n c.info x) : Keeps n c c' where
  blocks x hx := by
    apply Option.ext
    intro v
    simp [hkept, hx]
  gone x hx := by
    have hnone : c'.info x = none := by
      rw [Option.eq_none_iff_forall_ne_some]
      intro v hv
      exact hx ((hkept x v).mp hv).2
    refine ⟨info_eq_none.mp hnone, ?_, ?_⟩
    · intro height hlink
      obtain ⟨-, b, s, hb, -⟩ := (hc'.links height x).mp hlink
      rw [hnone] at hb
      cases hb
    · intro solutionH hmem
      obtain ⟨b, s, hb, -⟩ := (hc'.toIndexed.solutions solutionH x).mp hmem
      rw [hnone] at hb
      cases hb
  onChain x b hx := by rw [hkept, ht.kept_iff_of_onChain hx, and_iff_right hx]
  consistent := hc'.consistent
  solutions := hc'.lookup_solutions
  tip := htip

/-- Pruning keeps the blocks on chain from the height on, with the forks on top of them. -/
theorem prune_keeps (cfg : Config) (c : Cache) (depth : Nat) (hc : Invariants c) :
    ∃ tip c', c.blocks.lookup c.tip = some tip ∧ prune cfg c depth = some c' ∧
      Keeps (tip.block.height - depth) c c' := by
  obtain ⟨d, hd⟩ := hc.tipPath.onChain
  obtain ⟨tip, htip, rfl, -⟩ := exists_entry hd
  obtain ⟨c', hprune, hhigh⟩ := pruneFrom_total cfg depth tip.block.height (c.links.elems.length + 1) hc.coherent
    hc.longestChain hd rfl (Nat.lt_succ_self _)
  have hprune' : prune cfg c depth = some c' := by
    rw [prune, htip]
    exact hprune
  -- the cached blocks have what the blocks given to a cache must have
  have hknown : Coherent (fun b => ∃ x s, c.info x = some (b, s)) none c :=
    ⟨hc.coherent.toIndexed, hc.coherent.tree, fun x b s hx => ⟨x, s, hx⟩, hc.coherent.children⟩
  obtain ⟨b, s, hb, hpruned, hc', htip', -⟩ := prune_spec hc.coherent.headers hknown hprune'
  rw [hd] at hb
  cases hb
  exact ⟨tip, c', htip, hprune', hc'.keeps hc.coherent.tree htip' fun x v => hpruned.kept_iff hc'.tree hhigh⟩

/-- Block 4 is on top of the lowest block beside the chain 1, 2, 3, and block 5 on top of block 2. -/
def forkOps : List Op :=
  [.addValidated (sampleBlock 2 9 1 2 1) (atSecond 0) 0, .addValidated (sampleBlock 3 8 2 3 2) (atSecond 0) 0,
    .markTip [3], .add (sampleBlock 4 7 1 2 1) (atSecond 0) 0, .add (sampleBlock 5 6 2 4 2) (atSecond 0) 0]

lemma forkOps_invariants : ∃ c, run sampleConfig (sampleBlock 1 1 0 1 0) 0 forkOps = some c ∧ Invariants c :=
  invariants_of_checks (by decide) (headers_of_list (by decide)) (rising_of_list (by decide)) (by decide)

/-- With depth 1 the blocks 1 and 4 go, and the fork with block 5 stays. -/
theorem prune_keeps_forkOps : ∃ c c', run sampleConfig (sampleBlock 1 1 0 1 0) 0 forkOps = some c ∧
    prune sampleConfig c 1 = some c' ∧ Keeps 1 c c' ∧
    c.blocks.entries.map Prod.fst = [[1], [2], [3], [4], [5]] ∧ c'.blocks.entries.map Prod.fst = [[2], [3], [5]] := by
  have hresult : ∀ c ∈ run sampleConfig (sampleBlock 1 1 0 1 0) 0 forkOps,
      (c.blocks.lookup c.tip).map (fun e => e.block.height) = some 2 ∧
      c.blocks.entries.map Prod.fst = [[1], [2], [3], [4], [5]] ∧
      (prune sampleConfig c 1).map (fun c' => c'.blocks.entries.map Prod.fst) = some [[2], [3], [5]] := by
    decide
  obtain ⟨c, hrun, hc⟩ := forkOps_invariants
  obtain ⟨hheight, hbefore, hafter⟩ := hresult c hrun
  obtain ⟨tip, c', htip, hprune, hkeeps⟩ := prune_keeps sampleConfig c 1 hc
  rw [htip, Option.map_some, Option.some.injEq] at hheight
  rw [hprune, Option.map_some, Option.some.injEq] at hafter
  rw [hheight] at hkeeps
  exact ⟨c, c', hrun, hprune, hkeeps, hbefore, hafter⟩

end Kept

end Arweave.BlockCache

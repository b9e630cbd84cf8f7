import Arweave.BlockCache.Coherent
import Arweave.BlockCache.Growth

/-!
# Expiry of alternative blocks

The lifetime of a block depends only on what is on top of it. So when no expired block is above
or below another block with the solution, the expired ones go, each with everything on top, and
the list that is returned has the others.
-/

namespace Arweave.BlockCache
open Arweave.Lib

variable {cfg : Config} {hidden : Option Bytes} {c c' : Cache} {h x y z : Bytes} {e : Entry} {b : Block}
  {s : Status} {K : Block → Prop} {clock : Bytes → Nat}

lemma mapM_mono {α β : Type*} {f g : α → Option β} {l : List α} {r : List β}
    (hfg : ∀ a ∈ l, ∀ v, f a = some v → g a = some v) (hf : l.mapM f = some r) : l.mapM g = some r := by
  induction l generalizing r with
  | nil => exact hf
  | cons a l ih =>
    rw [List.mapM_cons] at hf ⊢
    obtain ⟨v, hv, hf⟩ := Option.bind_eq_some_iff.mp hf
    obtain ⟨vs, hvs, hr⟩ := Option.bind_eq_some_iff.mp hf
    rw [hfg a (by simp) v hv, ih (fun a' ha' => hfg a' (by simp [ha'])) hvs]
    exact hr

lemma exists_mapM {α β : Type*} {f : α → Option β} {l : List α} (hf : ∀ a ∈ l, ∃ v, f a = some v) :
    ∃ r, l.mapM f = some r := by
  induction l with
  | nil => exact ⟨[], rfl⟩
  | cons a l ih =>
    obtain ⟨v, hv⟩ := hf a (by simp)
    obtain ⟨vs, hvs⟩ := ih fun a' ha' => hf a' (by simp [ha'])
    exact ⟨v :: vs, by rw [List.mapM_cons, hv, hvs]; rfl⟩

/-- The number of cached blocks at a height or above. -/
def Cache.heightCount (c : Cache) (n : Nat) : Nat := c.blocks.entries.countP fun p => n ≤ p.2.block.height

lemma heightCount_succ_lt (he : c.blocks.lookup x = some e) :
    c.heightCount (e.block.height + 1) < c.heightCount e.block.height := by
  have hmem := SortedMap.lookup_eq_some.mp he
  have hle : ∀ l : List (Bytes × Entry), l.countP (fun p => e.block.height + 1 ≤ p.2.block.height) ≤
      l.countP fun p => e.block.height ≤ p.2.block.height := by
    intro l
    apply List.countP_mono_left
    intro p _ hp
    simp only [decide_eq_true_eq] at hp ⊢
    omega
  obtain ⟨l, l', hl⟩ := List.append_of_mem hmem
  have h1 := hle l
  have h2 := hle l'
  simp only [Cache.heightCount, hl, List.countP_append, List.countP_cons]
  simp only [decide_eq_true_eq, le_refl, if_true, show ¬e.block.height + 1 ≤ e.block.height by omega, if_false]
  omega

lemma heightCount_le (c : Cache) (n : Nat) : c.heightCount n ≤ c.blocks.size := List.countP_le_length

lemma exists_branchLength (hc : Coherent K hidden c) (fuel : Nat) (he : c.blocks.lookup x = some e)
    (hfuel : c.heightCount e.block.height ≤ fuel) : ∃ n, branchLength c fuel x = some n := by
  induction fuel generalizing x e with
  | zero =>
    have := heightCount_succ_lt he
    omega
  | succ fuel ih =>
    rw [branchLength, he]
    by_cases hempty : e.children.isEmpty
    · exact ⟨1, by simp [hempty]⟩
    · obtain ⟨lengths, hlengths⟩ := exists_mapM (f := branchLength c fuel) (l := e.children.elems) (by
        intro k hk
        obtain ⟨b, s, hinfo, hprev⟩ := (hc.children x e he k).mp hk
        obtain ⟨e', he', rfl, -⟩ := exists_entry hinfo
        have hheight := hc.tree.height k _ _ _ _ hinfo (hprev ▸ info_of_lookup he)
        have := heightCount_succ_lt he
        exact ih he' (by rw [hheight]; omega))
      exact ⟨_, by simp [hempty, hlengths]; rfl⟩

lemma branchLength_of_agree {S : Bytes → Prop}
    (hS : ∀ x e, S x → c.blocks.lookup x = some e →
      (∃ e', c'.blocks.lookup x = some e' ∧ e'.children = e.children) ∧ ∀ k ∈ e.children, S k)
    {fuel fuel' : Nat} (hfuel : fuel ≤ fuel') {n : Nat} (hx : S x) (hlength : branchLength c fuel x = some n) :
    branchLength c' fuel' x = some n := by
  induction fuel generalizing fuel' x n with
  | zero => cases hlength
  | succ fuel ih =>
    obtain ⟨fuel', rfl⟩ : ∃ k, fuel' = k + 1 := ⟨fuel' - 1, by omega⟩
    rw [branchLength] at hlength ⊢
    obtain ⟨e, he, hlength⟩ := Option.bind_eq_some_iff.mp hlength
    obtain ⟨⟨e', he', hchildren⟩, hclosed⟩ := hS x e hx he
    rw [he']
    change (if e'.children.isEmpty then some 1 else _) = _
    rw [hchildren]
    split_ifs at hlength ⊢ with hempty
    · exact hlength
    · obtain ⟨lengths, hlengths, hn⟩ := Option.bind_eq_some_iff.mp hlength
      have hmap := mapM_mono (g := branchLength c' fuel')
        (fun k hk n hk' => ih (by omega) (hclosed k hk) hk') hlengths
      rw [hmap]
      exact hn

lemma exists_lengths (hc : Coherent K hidden c) (he : c.blocks.lookup x = some e) :
    ∃ r, e.children.elems.mapM (branchLength c (c.blocks.size + 1)) = some r := by
  apply exists_mapM
  intro k hk
  obtain ⟨b, s, hinfo, -⟩ := (hc.children x e he k).mp hk
  obtain ⟨e', he', -⟩ := exists_entry hinfo
  exact exists_branchLength hc _ he' (le_add_right (heightCount_le c _))

/-- A removal elsewhere does not change whether a block has expired. -/
lemma isExpired_of_removed {S : Bytes → Prop} (hc : Coherent K hidden c) (hc' : Coherent K hidden c')
    (hr : Removed c c' S) (hz : c.info z ≠ none) (hS : ∀ x, Under c.info z x → ¬S x) :
    isExpired c' clock z = isExpired c clock z := by
  -- the entries on top of the block, which both caches have
  have hentry : ∀ x e, Under c.info z x → c.blocks.lookup x = some e →
      (∃ e', c'.blocks.lookup x = some e' ∧ e'.children = e.children ∧ e'.status = e.status ∧
        e'.timestamp = e.timestamp) ∧ ∀ k ∈ e.children, Under c.info z k := by
    intro x e hx he
    have hinfo : c'.info x = some (e.block, e.status) := hr.removes.some_iff.mpr ⟨hS x hx, info_of_lookup he⟩
    obtain ⟨e', he', -, hstatus⟩ := exists_entry hinfo
    obtain ⟨e'', he'', htime⟩ := hr.timestamp x e' he'
    rw [he] at he''
    cases he''
    have hup : ∀ k ∈ e.children, Under c.info z k := by
      intro k hk
      obtain ⟨b, s, hk', hprev⟩ := (hc.children x e he k).mp hk
      exact .step k b s hk' (hprev ▸ hx)
    refine ⟨⟨e', he', ?_, hstatus, htime⟩, hup⟩
    apply OrdSet.ext_mem
    intro k
    rw [hc'.children x e' he', hc.children x e he]
    simp only [hr.removes.some_iff]
    constructor
    · rintro ⟨b, s, ⟨-, hk⟩, hprev⟩
      exact ⟨b, s, hk, hprev⟩
    · rintro ⟨b, s, hk, hprev⟩
      exact ⟨b, s, ⟨hS k (.step k b s hk (hprev ▸ hx)), hk⟩, hprev⟩
  obtain ⟨e, he⟩ := Option.ne_none_iff_exists'.mp fun hnone => hz (info_eq_none.mpr hnone)
  obtain ⟨⟨e', he', hchildren, hstatus, htime⟩, hclosed⟩ := hentry z e .self he
  rw [isExpired, isExpired, he, he']
  change (if e'.status = .onChain then _ else _) = if e.status = .onChain then _ else _
  rw [hstatus, hchildren, htime]
  split_ifs with hon
  · rfl
  · have hlengths : e.children.elems.mapM (branchLength c' (c'.blocks.size + 1)) =
        e.children.elems.mapM (branchLength c (c.blocks.size + 1)) := by
      obtain ⟨r, hr⟩ := exists_lengths hc he
      obtain ⟨r', hr'⟩ := exists_lengths hc' he'
      rw [hchildren] at hr'
      have hmore := mapM_mono (g := branchLength c' (c.blocks.size + 1 + (c'.blocks.size + 1))) (by
        intro k hk n hn
        refine branchLength_of_agree (S := Under c.info z) ?_ (by omega) (hclosed k hk) hn
        intro x e hx he
        obtain ⟨⟨e', he', hch, -⟩, hcl⟩ := hentry x e hx he
        exact ⟨⟨e', he', hch⟩, hcl⟩) hr
      have hmore' := mapM_mono (g := branchLength c' (c.blocks.size + 1 + (c'.blocks.size + 1))) (by
        intro k hk n hn
        refine branchLength_of_agree (S := fun _ => True) ?_ (by omega) trivial hn
        intro x e _ he
        exact ⟨⟨e, he, rfl⟩, fun _ _ => trivial⟩) hr'
      rw [hr, hr', ← hmore, ← hmore']
    rw [getAlternativeBlockLifetime, getAlternativeBlockLifetime, getForkLength, getForkLength, hlengths]

/-- The expired blocks of a list go with everything on top. -/
lemma removeExpired_spec (hs : List Bytes) (hc : Coherent K none c) (hnodup : hs.Nodup)
    (hcached : ∀ y ∈ hs, c.info y ≠ none)
    (hapart : ∀ y ∈ hs, isExpired c clock y = some true → ∀ z ∈ hs, z ≠ y →
      ¬Under c.info y z ∧ ¬Under c.info z y) {remaining : List Bytes}
    (hrun : removeExpiredAlternativeBlocks cfg clock c hs = some (c', remaining)) :
    Removed c c' (fun x => ∃ y ∈ hs, isExpired c clock y = some true ∧ Under c.info y x) ∧
      Coherent K none c' ∧ (MaxOf none c → MaxOf none c') ∧
      ∀ z, z ∈ remaining ↔ z ∈ hs ∧ isExpired c clock z ≠ some true := by
  induction hs generalizing c c' remaining with
  | nil =>
    cases hrun
    refine ⟨⟨removes_none ?_, fun x e he => ⟨e, he, rfl⟩, rfl⟩, hc, id, by simp⟩
    rintro x ⟨y, hy, -⟩
    cases hy
  | cons h hs ih =>
    rw [List.nodup_cons] at hnodup
    obtain ⟨e, he⟩ := Option.ne_none_iff_exists'.mp fun hnone => hcached h (by simp) (info_eq_none.mpr hnone)
    rw [removeExpiredAlternativeBlocks] at hrun
    obtain ⟨expired, hexpired, hrun⟩ := Option.bind_eq_some_iff.mp hrun
    cases expired with
    | true =>
      obtain ⟨c2, hremove, hrun⟩ := Option.bind_eq_some_iff.mp hrun
      obtain ⟨hr, hc2, hmax, -⟩ := remove_spec hc he hremove
      -- nothing of the rest is on top of this block or below it
      have hother : ∀ y ∈ hs, ∀ x, Under c.info y x → ¬Under c.info h x := by
        intro y hy x hyx hhx
        have hne : y ≠ h := by
          rintro rfl
          exact hnodup.1 hy
        obtain ⟨h1, h2⟩ := hapart h (by simp) hexpired y (by simp [hy]) hne
        rcases hhx.linear hyx with hu | hu
        · exact h1 hu
        · exact h2 hu
      have hsame : ∀ y ∈ hs, isExpired c2 clock y = isExpired c clock y := fun y hy =>
        isExpired_of_removed hc hc2 hr (hcached y (by simp [hy])) (hother y hy)
      have hunder : ∀ y ∈ hs, ∀ x, Under c2.info y x ↔ Under c.info y x := fun y hy x =>
        hr.removes.under_iff fun z hz _ => hother y hy z hz
      obtain ⟨hr', hc', hmax', hremaining⟩ := ih hc2 hnodup.2 (by
        intro y hy
        rw [(hr.removes y).2 (hother y hy y .self)]
        exact hcached y (by simp [hy])) (by
        intro y hy hexp z hz hne
        rw [hsame y hy] at hexp
        rw [hunder y hy, hunder z hz]
        exact hapart y (by simp [hy]) hexp z (by simp [hz]) hne) hrun
      refine ⟨(hr.trans hr').congr ?_, hc', fun h => hmax' (hmax h), ?_⟩
      · intro x
        rw [List.exists_mem_cons_iff]
        apply or_congr
        · simp [hexpired]
        · apply exists_congr
          intro y
          apply and_congr_right
          intro hy
          rw [hsame y hy, hunder y hy]
      · intro z
        rw [hremaining, List.mem_cons]
        constructor
        · rintro ⟨hz, hexp⟩
          exact ⟨.inr hz, hsame z hz ▸ hexp⟩
        · rintro ⟨rfl | hz, hexp⟩
          · exact absurd hexpired hexp
          · exact ⟨hz, hsame z hz ▸ hexp⟩
    | false =>
      obtain ⟨⟨c2, rest⟩, hrest, hsome⟩ := Option.bind_eq_some_iff.mp hrun
      cases hsome
      obtain ⟨hr, hc', hmax, hremaining⟩ := ih hc hnodup.2 (fun y hy => hcached y (by simp [hy]))
        (fun y hy hexp z hz => hapart y (by simp [hy]) hexp z (by simp [hz])) hrest
      refine ⟨hr.congr ?_, hc', hmax, ?_⟩
      · intro x
        rw [List.exists_mem_cons_iff]
        simp [hexpired]
      · intro z
        rw [List.mem_cons, hremaining, List.mem_cons]
        constructor
        · rintro (rfl | ⟨hz, hexp⟩)
          · exact ⟨.inl rfl, by simp [hexpired]⟩
          · exact ⟨.inr hz, hexp⟩
        · rintro ⟨rfl | hz, hexp⟩
          · exact .inl rfl
          · exact .inr ⟨hz, hexp⟩

/-- The block has expired and is removed when a block with the solution comes. -/
def Expires (c : Cache) (solutionH : Bytes) (clock : Bytes → Nat) (y : Bytes) : Prop :=
  y ∈ c.solutionSet solutionH ∧ isExpired c clock y = some true

/-- No expired block is on top of another block with the solution, or below it. -/
def Apart (c : Cache) (solutionH : Bytes) (clock : Bytes → Nat) : Prop :=
  ∀ y, Expires c solutionH clock y → ∀ z ∈ c.solutionSet solutionH, z ≠ y →
    ¬Under c.info y z ∧ ¬Under c.info z y

/-- The cache after the expired blocks with a solution are gone. -/
structure Expired (cfg : Config) (K : Block → Prop) (c : Cache) (solutionH : Bytes) (clock : Bytes → Nat)
    (c' : Cache) (remaining : List Bytes) : Prop where
  removed : Removed c c' fun x => ∃ y, Expires c solutionH clock y ∧ Under c.info y x
  coherent : Coherent K none c'
  max : MaxOf none c → MaxOf none c'
  remaining : ∀ z, z ∈ remaining ↔ z ∈ c'.solutionSet solutionH
  grows : Grows cfg.height26 c.info c'.info

lemma not_onChain_of_isExpired (he : c.info y = some (b, s)) (hexpired : isExpired c clock y = some true) :
    s ≠ .onChain := by
  rintro rfl
  obtain ⟨e, he, -, hstatus⟩ := exists_entry he
  rw [isExpired, he] at hexpired
  simp [hstatus] at hexpired

lemma expired_spec (hc : Coherent K none c) {solutionH : Bytes} (hapart : Apart c solutionH clock)
    {remaining : List Bytes} (hrun : removeExpiredAlternativeBlocks cfg clock c
      (cfg.order (c.solutionSet solutionH).elems) = some (c', remaining)) :
    Expired cfg K c solutionH clock c' remaining := by
  have hperm := cfg.order_perm (c.solutionSet solutionH).elems
  have hmem : ∀ y, y ∈ cfg.order (c.solutionSet solutionH).elems ↔ y ∈ c.solutionSet solutionH :=
    fun y => hperm.mem_iff
  obtain ⟨hr, hc', hmax, hremaining⟩ := removeExpired_spec _ hc (hperm.nodup_iff.mpr (OrdSet.nodup _)) (by
      intro y hy
      rw [hmem, hc.solutions] at hy
      obtain ⟨b, s, hinfo, -⟩ := hy
      simp [hinfo]) (by
      intro y hy hexp z hz
      exact hapart y ⟨(hmem y).mp hy, hexp⟩ z ((hmem z).mp hz)) hrun
  simp only [hmem] at hremaining
  replace hr : Removed c c' fun x => ∃ y, Expires c solutionH clock y ∧ Under c.info y x := by
    apply hr.congr
    intro x
    simp only [hmem, Expires, and_assoc]
  refine ⟨hr, hc', hmax, ?_, .remove _ _ hr.removes ?_ ?_⟩
  · intro z
    rw [hremaining, hc'.solutions, hc.solutions]
    simp only [hr.removes.some_iff]
    constructor
    · rintro ⟨⟨b, s, hz, hhash⟩, hexp⟩
      refine ⟨b, s, ⟨?_, hz⟩, hhash⟩
      rintro ⟨y, hy, hu⟩
      have hzmem := (hc.solutions solutionH z).mpr ⟨b, s, hz, hhash⟩
      by_cases hzy : z = y
      · exact hexp (hzy ▸ hy.2)
      · exact (hapart y hy z hzmem hzy).1 hu
    · rintro ⟨b, s, ⟨hnot, hz⟩, hhash⟩
      refine ⟨⟨b, s, hz, hhash⟩, ?_⟩
      intro hexp
      exact hnot ⟨z, ⟨(hc.solutions solutionH z).mpr ⟨b, s, hz, hhash⟩, hexp⟩, .self⟩
  · rintro x b s hx ⟨y, hy, hu⟩
    exact ⟨y, hy, .step x b s hx hu⟩
  · rintro x b hx ⟨y, hy, hu⟩
    obtain ⟨d, r, hd, -⟩ := (hc.solutions solutionH y).mp hy.1
    exact not_onChain_of_isExpired hd hy.2 (hc.tree.onChain_of_under hx hu hd)

end Arweave.BlockCache

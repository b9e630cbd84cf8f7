import Arweave.BlockCache.Additions

/-!
# The tip

The blocks below a new tip are marked as on chain, down to the first one that is already, and
the blocks of the abandoned fork are unmarked, from there upwards.
-/

namespace Arweave.BlockCache
open Arweave.Lib

variable {cfg : Config} {hidden : Option Bytes} {c c' : Cache} {h x y w : Bytes} {e : Entry} {b : Block}
  {s : Status} {K : Block → Prop}

/-- At most one block of the list is on chain; the blocks on top of it follow. -/
lemma foldlM_markOffChain (next : List Bytes → Option (List (Bytes × Entry))) (ys : List Bytes)
    (hnext : ∀ y ∈ ys, ∀ e, c.blocks.lookup y = some e → e.status = .onChain →
      ∃ rest, next e.children.elems = some rest) (acc : List (Bytes × Entry)) :
    ∃ l, ys.foldlM (fun acc h =>
      match c.blocks.lookup h with
      | some e =>
        if e.status = .onChain then do
          let rest ← next e.children.elems
          some ((h, { e with status := .validated }) :: rest)
        else
          some acc
      | none => some acc) acc = some l ∧
    ((∀ y ∈ ys, ∀ e, c.blocks.lookup y = some e → e.status ≠ .onChain) ∧ l = acc ∨
      ∃ y ∈ ys, ∃ e rest, c.blocks.lookup y = some e ∧ e.status = .onChain ∧
        next e.children.elems = some rest ∧ l = (y, { e with status := .validated }) :: rest) := by
  induction ys generalizing acc with
  | nil => exact ⟨acc, rfl, .inl ⟨by simp, rfl⟩⟩
  | cons y ys ih =>
    have ih' := ih fun z hz => hnext z (by simp [hz])
    rw [List.foldlM_cons]
    cases he : c.blocks.lookup y with
    | none =>
      obtain ⟨l, hl, hcases⟩ := ih' acc
      refine ⟨l, hl, ?_⟩
      rcases hcases with ⟨hnone, rfl⟩ | ⟨z, hz, hrest⟩
      · refine .inl ⟨?_, rfl⟩
        intro z hz e' he'
        rcases List.mem_cons.mp hz with rfl | hz
        · rw [he] at he'
          cases he'
        · exact hnone z hz e' he'
      · exact .inr ⟨z, by simp [hz], hrest⟩
    | some e =>
      by_cases hon : e.status = .onChain
      · obtain ⟨rest, hrest⟩ := hnext y (by simp) e he hon
        obtain ⟨l, hl, hcases⟩ := ih' ((y, { e with status := .validated }) :: rest)
        refine ⟨l, by simp only [hon, if_true, hrest]; exact hl, ?_⟩
        rcases hcases with ⟨-, rfl⟩ | ⟨z, hz, hz'⟩
        · exact .inr ⟨y, by simp, e, rest, he, hon, hrest, rfl⟩
        · exact .inr ⟨z, by simp [hz], hz'⟩
      · obtain ⟨l, hl, hcases⟩ := ih' acc
        refine ⟨l, by simp only [hon, if_false]; exact hl, ?_⟩
        rcases hcases with ⟨hnone, rfl⟩ | ⟨z, hz, hz'⟩
        · refine .inl ⟨?_, rfl⟩
          intro z hz e' he'
          rcases List.mem_cons.mp hz with rfl | hz
          · rw [he] at he'
            cases he'
            exact hon
          · exact hnone z hz e' he'
        · exact .inr ⟨z, by simp [hz], hz'⟩

lemma Coherent.child_entry (hc : Coherent K hidden c) (he : c.blocks.lookup x = some e) (hy : y ∈ e.children) :
    ∃ e', c.blocks.lookup y = some e' ∧ e'.block.previousBlock = x := by
  obtain ⟨d, r, hd, hprev⟩ := (hc.children x e he y).mp hy
  obtain ⟨e', he', rfl, -⟩ := exists_entry hd
  exact ⟨e', he', hprev⟩

lemma Coherent.child_onChain_unique (hc : Coherent K hidden c) (he : c.blocks.lookup x = some e) (hy : y ∈ e.children)
    (hw : w ∈ e.children) {d : Block} (hb : c.info y = some (b, .onChain)) (hd : c.info w = some (d, .onChain)) : y = w := by
  obtain ⟨f, r, hf, hp⟩ := (hc.children x e he y).mp hy
  obtain ⟨f', r', hf', hp'⟩ := (hc.children x e he w).mp hw
  rw [hb] at hf
  rw [hd] at hf'
  cases hf
  cases hf'
  exact hc.tree.single y b w d hb hd (hp.trans hp'.symm)

/-- The blocks on chain that are on top of the given ones. -/
lemma markOffChain_spec (cfg : Config) (hc : Coherent K hidden c) (fuel : Nat) (ys : List Bytes)
    (hsingle : ∀ y ∈ ys, ∀ z ∈ ys, ∀ b d, c.info y = some (b, .onChain) → c.info z = some (d, .onChain) → y = z)
    (hcached : ∀ y ∈ ys, ∃ e, c.blocks.lookup y = some e) (hpos : 0 < fuel)
    (hfuel : ∀ y ∈ ys, ∀ e, c.blocks.lookup y = some e → c.heightCount e.block.height < fuel) :
    ∃ l, markOffChain cfg c fuel ys = some l ∧
      (∀ p ∈ l, ∃ e, c.blocks.lookup p.1 = some e ∧ e.status = .onChain ∧
        p.2 = { e with status := .validated } ∧ ∃ y ∈ ys, Under c.info y p.1) ∧
      ∀ x b, c.info x = some (b, .onChain) → (∃ y ∈ ys, Under c.info y x) → ∃ p ∈ l, p.1 = x := by
  induction fuel generalizing ys with
  | zero => omega
  | succ fuel ih =>
    have hmem : ∀ y, y ∈ cfg.order ys ↔ y ∈ ys := fun y => (cfg.order_perm ys).mem_iff
    -- the children of a block on chain, one level up
    have hchildren : ∀ y ∈ ys, ∀ e, c.blocks.lookup y = some e →
        ∃ l, markOffChain cfg c fuel e.children.elems = some l ∧
          (∀ p ∈ l, ∃ e, c.blocks.lookup p.1 = some e ∧ e.status = .onChain ∧
            p.2 = { e with status := .validated } ∧ Under c.info y p.1) ∧
          ∀ x b, c.info x = some (b, .onChain) → Under c.info y x → x ≠ y → ∃ p ∈ l, p.1 = x := by
      intro y hy e he
      have hcount := heightCount_succ_lt he
      have hbound := hfuel y hy e he
      have hheight : ∀ k ∈ e.children.elems, ∀ e', c.blocks.lookup k = some e' →
          c.heightCount e'.block.height < fuel := by
        intro k hk e' he'
        obtain ⟨f, hf, hprev⟩ := hc.child_entry he hk
        cases he'.symm.trans hf
        rw [hc.tree.height k _ _ _ _ (info_of_lookup he') (hprev ▸ info_of_lookup he)]
        omega
      obtain ⟨l, hl, hsound, hcomplete⟩ := ih e.children.elems
        (fun k hk k' hk' d d' hd hd' => hc.child_onChain_unique he hk hk' hd hd')
        (fun k hk => (hc.child_entry he hk).imp fun _ hentry => hentry.1) (by omega) hheight
      refine ⟨l, hl, ?_, ?_⟩
      · intro p hp
        obtain ⟨e', he', hon, heq, k, hk, hu⟩ := hsound p hp
        obtain ⟨d, r, hd, hprev⟩ := (hc.children y e he k).mp hk
        exact ⟨e', he', hon, heq, (Under.step k d r hd (hprev ▸ .self)).trans hu⟩
      · intro x d hx hu hne
        obtain ⟨k, f, r, hk, hprev, hu⟩ := hu.exists_child hne
        exact hcomplete x d hx ⟨k, (hc.children y e he k).mpr ⟨f, r, hk, hprev⟩, hu⟩
    obtain ⟨l, hl, hcases⟩ := foldlM_markOffChain (c := c) (markOffChain cfg c fuel) (cfg.order ys) (by
      intro y hy e he _
      obtain ⟨rest, hrest, -⟩ := hchildren y ((hmem y).mp hy) e he
      exact ⟨rest, hrest⟩) []
    refine ⟨l, by rw [markOffChain]; exact hl, ?_⟩
    -- a block below a block on chain is on chain
    have hbelow : ∀ x b, c.info x = some (b, .onChain) → ∀ y ∈ ys, Under c.info y x →
        ∃ e, c.blocks.lookup y = some e ∧ e.status = .onChain := by
      intro x b hx y hy hu
      obtain ⟨e, he⟩ := hcached y hy
      exact ⟨e, he, hc.tree.onChain_of_under hx hu (info_of_lookup he)⟩
    rcases hcases with ⟨hnone, rfl⟩ | ⟨y, hy, e, rest, he, hon, hrest, rfl⟩
    · refine ⟨by simp, ?_⟩
      rintro x b hx ⟨y, hy, hu⟩
      obtain ⟨e, he, hon⟩ := hbelow x b hx y hy hu
      exact absurd hon (hnone y ((hmem y).mpr hy) e he)
    · rw [hmem] at hy
      obtain ⟨rest', hrest', hsound, hcomplete⟩ := hchildren y hy e he
      rw [hrest] at hrest'
      cases hrest'
      constructor
      · intro p hp
        rcases List.mem_cons.mp hp with rfl | hp
        · exact ⟨e, he, hon, rfl, y, hy, .self⟩
        · obtain ⟨e', he', hon', heq, hu⟩ := hsound p hp
          exact ⟨e', he', hon', heq, y, hy, hu⟩
      · rintro x b hx ⟨z, hz, hu⟩
        obtain ⟨e', he', hon'⟩ := hbelow x b hx z hz hu
        obtain rfl := hsingle y hy z hz _ _ (hon ▸ info_of_lookup he) (hon' ▸ info_of_lookup he')
        by_cases hxy : x = y
        · exact ⟨_, List.mem_cons_self, hxy.symm⟩
        · obtain ⟨p, hp, hpx⟩ := hcomplete x b hx hu hxy
          exact ⟨p, List.mem_cons_of_mem _ hp, hpx⟩

lemma markOffChain_siblings (cfg : Config) (hc : Coherent K hidden c) {prev : Entry}
    (hprev : c.blocks.lookup x = some prev) :
    ∃ l, markOffChain cfg c (c.blocks.size + 1) (prev.children.erase w).elems = some l ∧
      (∀ p ∈ l, ∃ e, c.blocks.lookup p.1 = some e ∧ e.status = .onChain ∧
        p.2 = { e with status := .validated } ∧ ∃ y ∈ prev.children, y ≠ w ∧ Under c.info y p.1) ∧
      ∀ z b, c.info z = some (b, .onChain) → (∃ y ∈ prev.children, y ≠ w ∧ Under c.info y z) →
        ∃ p ∈ l, p.1 = z := by
  have hmem : ∀ y, y ∈ (prev.children.erase w).elems ↔ y ≠ w ∧ y ∈ prev.children := by
    intro y
    rw [OrdSet.mem_elems, OrdSet.mem_erase]
  have hkid : ∀ y ∈ (prev.children.erase w).elems, y ∈ prev.children := fun y hy => ((hmem y).mp hy).2
  obtain ⟨l, hl, hsound, hcomplete⟩ := markOffChain_spec cfg hc (c.blocks.size + 1) (prev.children.erase w).elems
    (fun y hy z hz b d hb hd => hc.child_onChain_unique hprev (hkid y hy) (hkid z hz) hb hd)
    (fun y hy => (hc.child_entry hprev (hkid y hy)).imp fun _ hentry => hentry.1) (Nat.succ_pos _)
    (fun y _ e _ => Nat.lt_succ_of_le (heightCount_le c e.block.height))
  refine ⟨l, hl, ?_, ?_⟩
  · intro p hp
    obtain ⟨e, he, hon, heq, y, hy, hu⟩ := hsound p hp
    exact ⟨e, he, hon, heq, y, ((hmem y).mp hy).2, ((hmem y).mp hy).1, hu⟩
  · rintro z b hz ⟨y, hy, hne, hu⟩
    exact hcomplete z b hz ⟨y, (hmem y).mpr ⟨hne, hy⟩, hu⟩

/-- The entries of the list are those that change when a block comes on chain, except for the block's own. -/
structure Switches (c : Cache) (w : Bytes) (l : List (Bytes × Entry)) : Prop where
  sound : ∀ p ∈ l, ∃ e, c.blocks.lookup p.1 = some e ∧
    (e.status ≠ .onChain ∧ p.1 ≠ w ∧ Under c.info p.1 w ∧ p.2 = { e with status := .onChain } ∨
      e.status = .onChain ∧ ¬Under c.info p.1 w ∧ p.2 = { e with status := .validated })
  complete : ∀ x e, c.blocks.lookup x = some e → x ≠ w →
    (e.status ≠ .onChain ∧ Under c.info x w ∨ e.status = .onChain ∧ ¬Under c.info x w) → ∃ p ∈ l, p.1 = x

lemma under_iff_previousBlock (hw : c.info w = some (b, s)) :
    Under c.info x w ↔ x = w ∨ Under c.info x b.previousBlock := by
  constructor
  · intro hu
    by_cases hxw : w = x
    · exact .inl hxw.symm
    · obtain ⟨b', s', hw', hu'⟩ := hu.cached hxw
      rw [hw] at hw'
      cases hw'
      exact .inr hu'
  · rintro (rfl | hu)
    · exact .self
    · exact .step w b s hw hu

/-- The previous block is on chain: its other fork leaves the chain. -/
lemma switches_onChain (hc : Coherent K hidden c) (hw : c.info w = some (b, s)) (hs : s ≠ .onChain) {prev : Entry}
    (hprev : c.blocks.lookup b.previousBlock = some prev) (hstatus : prev.status = .onChain) {l : List (Bytes × Entry)}
    (hmark : markOffChain cfg c (c.blocks.size + 1) (prev.children.erase b.indepHash).elems = some l) : Switches c w l := by
  have hprev' : c.info b.previousBlock = some (prev.block, .onChain) := hstatus ▸ info_of_lookup hprev
  have hindep := hc.tree.indepHash w b s hw
  obtain ⟨l', hl', hsound, hcomplete⟩ := markOffChain_siblings cfg (w := b.indepHash) hc hprev
  rw [hl'] at hmark
  cases hmark
  constructor
  · intro p hp
    obtain ⟨e, he, hon, heq, y, hy, hne, hu⟩ := hsound p hp
    refine ⟨e, he, .inr ⟨hon, ?_, heq⟩⟩
    intro hpw
    obtain ⟨d, r, hd, hdprev⟩ := (hc.children _ prev hprev y).mp hy
    rw [hindep] at hne
    exact hc.tree.height.not_under_sibling hd hw hdprev hne.symm (hu.trans hpw)
  · intro x e he hxw hcases
    have hx := info_of_lookup he
    rcases hcases with ⟨hoff, hu⟩ | ⟨hon, hu⟩
    · -- everything below the previous block is on chain already
      exfalso
      apply hoff
      refine hc.tree.onChain_of_under hprev' ?_ hx
      exact ((under_iff_previousBlock hw).mp hu).resolve_left hxw
    · rw [hon] at hx
      rcases hc.tree.onChain_linear hx hprev' with hup | hup
      · exact absurd ((under_iff_previousBlock hw).mpr (.inr hup)) hu
      · have hne : x ≠ b.previousBlock := by
          rintro rfl
          exact hu ((under_iff_previousBlock hw).mpr (.inr .self))
        obtain ⟨y, d, r, hy, hyprev, hyx⟩ := hup.exists_child hne
        obtain rfl := hc.tree.onChain_of_under hx hyx hy
        refine hcomplete x _ hx ⟨y, (hc.children _ prev hprev y).mpr ⟨d, _, hy, hyprev⟩, ?_, hyx⟩
        rintro rfl
        rw [hindep, hw] at hy
        cases hy
        exact hs rfl

lemma Switches.cons (hc : Coherent K hidden c) (hw : c.info w = some (b, s)) (hs : s ≠ .onChain) {prev : Entry}
    (hprev : c.blocks.lookup b.previousBlock = some prev) (hstatus : prev.status ≠ .onChain) {l : List (Bytes × Entry)}
    (h : Switches c b.previousBlock l) :
    Switches c w ((b.previousBlock, { prev with status := .onChain }) :: l) := by
  have hnot : ¬Under c.info w b.previousBlock := hc.tree.height.not_under_previousBlock hw
  constructor
  · intro p hp
    rcases List.mem_cons.mp hp with rfl | hp
    · refine ⟨prev, hprev, .inl ⟨hstatus, ?_, (under_iff_previousBlock hw).mpr (.inr .self), rfl⟩⟩
      intro heq
      exact hnot (heq ▸ .self)
    · obtain ⟨e, he, ⟨hoff, hne, hu, heq⟩ | ⟨hon, hu, heq⟩⟩ := h.sound p hp
      · refine ⟨e, he, .inl ⟨hoff, ?_, (under_iff_previousBlock hw).mpr (.inr hu), heq⟩⟩
        intro hpw
        exact hnot (hpw ▸ hu)
      · refine ⟨e, he, .inr ⟨hon, ?_, heq⟩⟩
        rw [under_iff_previousBlock hw]
        rintro (hpw | hu')
        · have hpw' := info_of_lookup he
          rw [hpw, hw] at hpw'
          cases hpw'
          exact hs hon
        · exact hu hu'
  · intro x e he hxw hcases
    by_cases hxp : x = b.previousBlock
    · exact ⟨_, List.mem_cons_self, hxp.symm⟩
    · rw [under_iff_previousBlock hw, or_iff_right hxw] at hcases
      obtain ⟨p, hp, hpx⟩ := h.complete x e he hxp hcases
      exact ⟨p, List.mem_cons_of_mem _ hp, hpx⟩

lemma markOnChain_spec (hc : Coherent K hidden c) (fuel : Nat) (hw : c.info w = some (b, s))
    (hs : s ≠ .onChain) (hfuel : c.blocks.size < fuel + c.heightCount b.height)
    {l : List (Bytes × Entry)} (hmark : markOnChain cfg c fuel b = some l) : Switches c w l := by
  induction fuel generalizing w b s l with
  | zero => cases hmark
  | succ fuel ih =>
    rw [markOnChain] at hmark
    obtain ⟨prev, hprev, hmark⟩ := Option.bind_eq_some_iff.mp hmark
    have hprev' := info_of_lookup hprev
    cases hstatus : prev.status with
    | notValidated stage =>
      rw [hstatus] at hmark
      cases hmark
    | onChain =>
      rw [hstatus] at hmark
      exact switches_onChain hc hw hs hprev hstatus hmark
    | validated =>
      rw [hstatus] at hmark
      obtain ⟨rest, hrest, hl⟩ := Option.bind_eq_some_iff.mp hmark
      cases hl
      have hheight := hc.tree.height w b s _ _ hw hprev'
      have hcount := heightCount_succ_lt hprev
      have hvalidated : prev.status ≠ .onChain := by simp [hstatus]
      exact .cons hc hw hs hprev hvalidated (ih hprev' hvalidated (by rw [hheight] at hfuel; omega) hrest)

lemma markOnChain_onChain (hc : Coherent K hidden c) (fuel : Nat) (hw : c.info w = some (b, .onChain))
    {l : List (Bytes × Entry)} (hmark : markOnChain cfg c fuel b = some l) : l = [] := by
  cases fuel with
  | zero => cases hmark
  | succ fuel =>
    rw [markOnChain] at hmark
    obtain ⟨prev, hprev, hmark⟩ := Option.bind_eq_some_iff.mp hmark
    have hstatus := hc.tree.closed w b _ _ hw (info_of_lookup hprev)
    rw [hstatus] at hmark
    obtain ⟨l', hl', hsound, -⟩ := markOffChain_siblings cfg (w := b.indepHash) hc hprev
    rw [hl'] at hmark
    cases hmark
    rw [List.eq_nil_iff_forall_not_mem]
    intro p hp
    obtain ⟨e, he, hon, -, y, hy, hne, hu⟩ := hsound p hp
    obtain ⟨d, r, hd, hdprev⟩ := (hc.children _ prev hprev y).mp hy
    obtain rfl := hc.tree.onChain_of_under (hon ▸ info_of_lookup he) hu hd
    apply hne
    rw [hc.tree.indepHash w b _ hw]
    exact hc.tree.single y d w b hd hw hdprev

lemma lookup_insertEntries_of_not_mem {m : SortedMap Bytes Entry} {l : List (Bytes × Entry)}
    (hnone : ∀ p ∈ l, p.1 ≠ x) : (insertEntries m l).lookup x = m.lookup x := by
  induction l generalizing m with
  | nil => rfl
  | cons q l ih =>
    change (insertEntries (m.insert q.1 q.2) l).lookup x = _
    rw [ih fun p hp => hnone p (by simp [hp]), SortedMap.lookup_insert, if_neg (hnone q (by simp)).symm]

lemma lookup_insertEntries_of_mem {m : SortedMap Bytes Entry} {l : List (Bytes × Entry)}
    (hall : ∀ p ∈ l, p.1 = x → p.2 = e) (hmem : ∃ p ∈ l, p.1 = x) :
    (insertEntries m l).lookup x = some e := by
  induction l generalizing m with
  | nil =>
    obtain ⟨p, hp, -⟩ := hmem
    cases hp
  | cons q l ih =>
    by_cases hrest : ∃ p ∈ l, p.1 = x
    · exact ih (fun p hp => hall p (by simp [hp])) hrest
    · have hq : q.1 = x := by
        obtain ⟨p, hp, hpx⟩ := hmem
        rcases List.mem_cons.mp hp with rfl | hp
        · exact hpx
        · exact absurd ⟨p, hp, hpx⟩ hrest
      change (insertEntries (m.insert q.1 q.2) l).lookup x = _
      rw [lookup_insertEntries_of_not_mem fun p hp hpx => hrest ⟨p, hp, hpx⟩, SortedMap.lookup_insert,
        if_pos hq.symm, hall q (by simp) hq]

open Classical in
/-- The status under a new tip that was not on chain. -/
noncomputable def statusUnder (t : BlockTree) (h x : Bytes) (s : Status) : Status :=
  if Under t x h then .onChain else s.offChain

/-- The entries of the cache after the chain has moved to a block that was not on chain. -/
lemma lookup_markTip (hc : Coherent K hidden c) (he : c.blocks.lookup h = some e) (hs : e.status ≠ .onChain)
    {l : List (Bytes × Entry)} (hmark : markOnChain cfg c (c.blocks.size + 1) e.block = some l) (x : Bytes) :
    (insertEntries c.blocks ((h, { e with status := .onChain }) :: l)).lookup x =
      (c.blocks.lookup x).map fun e => { e with status := statusUnder c.info h x e.status } := by
  obtain ⟨hsound, hcomplete⟩ := markOnChain_spec hc (c.blocks.size + 1) (info_of_lookup he) hs (by omega) hmark
  cases hx : c.blocks.lookup x with
  | none =>
    rw [lookup_insertEntries_of_not_mem, hx]
    · rfl
    · intro p hp hpx
      rcases List.mem_cons.mp hp with rfl | hp
      · rw [← hpx, he] at hx
        cases hx
      · obtain ⟨e', he', -⟩ := hsound p hp
        rw [hpx, hx] at he'
        cases he'
  | some e' =>
    by_cases hxh : x = h
    · subst hxh
      rw [he] at hx
      cases hx
      rw [Option.map_some, statusUnder, if_pos .self]
      apply lookup_insertEntries_of_mem
      · intro p hp hpx
        rcases List.mem_cons.mp hp with rfl | hp
        · rfl
        · obtain ⟨e', he', ⟨-, hne, -⟩ | ⟨-, hu, -⟩⟩ := hsound p hp
          · exact absurd hpx hne
          · exact absurd (hpx ▸ .self) hu
      · exact ⟨_, List.mem_cons_self, rfl⟩
    · -- an entry is written exactly when its status changes
      have hvalue : ∀ p ∈ (h, { e with status := .onChain }) :: l, p.1 = x →
          p.2 = { e' with status := statusUnder c.info h x e'.status } := by
        intro p hp hpx
        rcases List.mem_cons.mp hp with rfl | hp
        · exact absurd hpx.symm hxh
        · obtain ⟨e'', he'', hcases⟩ := hsound p hp
          rw [hpx, hx] at he''
          cases he''
          rw [hpx] at hcases
          rcases hcases with ⟨-, -, hu, heq⟩ | ⟨hon, hu, heq⟩
          · rw [heq, statusUnder, if_pos hu]
          · rw [heq, statusUnder, if_neg hu, hon]
            rfl
      by_cases hmem : ∃ p ∈ (h, { e with status := .onChain }) :: l, p.1 = x
      · exact lookup_insertEntries_of_mem hvalue hmem
      · have hsame : statusUnder c.info h x e'.status = e'.status := by
          have hnot := fun hcases => hmem (by
            obtain ⟨p, hp, hpx⟩ := hcomplete x e' hx hxh hcases
            exact ⟨p, List.mem_cons_of_mem _ hp, hpx⟩)
          rw [statusUnder]
          split_ifs with hu
          · by_contra hon
            exact hnot (.inl ⟨fun heq => hon heq.symm, hu⟩)
          · cases hstatus : e'.status with
            | onChain => exact absurd (.inr ⟨hstatus, hu⟩) hnot
            | validated => rfl
            | notValidated => rfl
        rw [lookup_insertEntries_of_not_mem fun p hp hpx => hmem ⟨p, hp, hpx⟩, hx, Option.map_some, hsame]

/-- What becomes of the tables when a block is made the tip. -/
theorem markTip_spec (hc : Coherent K none c) (hmark : markTip cfg c h = some c') :
    ∃ b s, c.info h = some (b, s) ∧ c'.tip = h ∧ Relabeled K c c' ∧ Coherent K none c' ∧
      (s = .onChain → c'.info = c.info) ∧ (s ≠ .onChain → MovesTip c.info c'.info h) ∧
      ∃ c2, updateLongestChainCache cfg c2 = some c' := by
  rw [markTip] at hmark
  obtain ⟨e, he, hmark⟩ := Option.bind_eq_some_iff.mp hmark
  obtain ⟨l, hl, hupdate⟩ := Option.bind_eq_some_iff.mp hmark
  obtain ⟨r, hr⟩ := updateLongestChainCache_eq hupdate
  have hh := info_of_lookup he
  have hknown : ∀ {x e}, c.blocks.lookup x = some e → K e.block := fun hx => hc.known _ _ _ (info_of_lookup hx)
  by_cases hs : e.status = .onChain
  · obtain rfl := markOnChain_onChain hc _ (hs ▸ hh) hl
    have hblocks : c'.blocks = c.blocks := by
      rw [hr]
      change c.blocks.insert h { e with status := .onChain } = c.blocks
      rw [← hs]
      exact SortedMap.insert_of_lookup_eq_some he
    have hinfo : c'.info = c.info := by
      funext x
      rw [Cache.info, hblocks]
      rfl
    have hrel : Relabeled K c c' := by
      refine ⟨?_, ?_, by rw [hr], by rw [hr], by rw [hr]⟩
      · rw [hblocks]
        exact fun x => id
      · intro x e' he'
        rw [hblocks]
        exact ⟨e'.block, e'.status, he', .rfl, hknown he'⟩
    exact ⟨_, _, hh, by rw [hr], hrel, hc.relabel hrel (hinfo ▸ hc.tree), fun _ => hinfo,
      fun hne => absurd hs hne, _, hupdate⟩
  · have hlookup := lookup_markTip hc he hs hl
    have hblocks : ∀ x, c'.blocks.lookup x =
        (c.blocks.lookup x).map fun e => { e with status := statusUnder c.info h x e.status } := by
      intro x
      rw [hr]
      exact hlookup x
    have hmoves : MovesTip c.info c'.info h := by
      intro x
      constructor
      · intro hx
        rw [info_eq_none] at hx ⊢
        rw [hblocks, hx]
        rfl
      · intro b s hx
        obtain ⟨e', he', rfl, rfl⟩ := exists_entry hx
        have hx' : c'.info x = some (e'.block, statusUnder c.info h x e'.status) := by
          rw [Cache.info, hblocks, he']
          rfl
        constructor
        · intro hu
          rw [hx', statusUnder, if_pos hu]
        · intro hu
          rw [hx', statusUnder, if_neg hu]
    have hrel : Relabeled K c c' := by
      refine ⟨?_, ?_, by rw [hr], by rw [hr], by rw [hr]⟩
      · intro x hx
        rw [hblocks, hx]
        rfl
      · intro x e' he'
        refine ⟨e'.block, statusUnder c.info h x e'.status, ?_, .rfl, hknown he'⟩
        rw [hblocks, he']
        rfl
    exact ⟨_, _, hh, by rw [hr], hrel, hc.relabel hrel (hc.tree.movesTip hh hmoves),
      fun heq => absurd heq hs, fun _ => hmoves, _, hupdate⟩

end Arweave.BlockCache

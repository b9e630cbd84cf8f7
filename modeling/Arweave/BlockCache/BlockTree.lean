import Arweave.BlockCache.Cache

/-!
# Block trees

The cached blocks with their statuses, as a function of the hashes, form a tree over the
lowest block: heights grow along the edges, and the blocks on chain are a path from the lowest
block upwards. This is kept when a block is added to a cached one, when a block is removed with
everything above it, when the chain moves to another tip and when the lowest block is dropped.
-/

namespace Arweave.BlockCache
open Arweave.Lib

/-- The cached blocks and their statuses. -/
abbrev BlockTree := Bytes → Option (Block × Status)

def Status.Valid : Status → Prop
  | .onChain => True
  | .validated => True
  | .notValidated _ => False

/-- The block is reached from another one along the previous blocks, so it is on top of it. -/
inductive Under (t : BlockTree) (h : Bytes) : Bytes → Prop
  | self : Under t h h
  | step (x : Bytes) (b : Block) (s : Status) (hx : t x = some (b, s)) (hprev : Under t h b.previousBlock) :
      Under t h x

/-- Heights grow by one from a block to the next. -/
def Ascending (t : BlockTree) : Prop :=
  ∀ x b s p r, t x = some (b, s) → t b.previousBlock = some (p, r) → b.height = p.height + 1

/-- The blocks form a tree with the blocks on chain as a path from the lowest block. -/
structure Rooted (t : BlockTree) : Prop where
  indepHash : ∀ x b s, t x = some (b, s) → b.indepHash = x
  height : Ascending t
  root : ∀ x b s y c r, t x = some (b, s) → t y = some (c, r) → t b.previousBlock = none →
    t c.previousBlock = none → x = y
  rootOnChain : ∀ x b s, t x = some (b, s) → t b.previousBlock = none → s = .onChain
  closed : ∀ x b p r, t x = some (b, .onChain) → t b.previousBlock = some (p, r) → r = .onChain
  valid : ∀ x b s p r, t x = some (b, s) → s.Valid → t b.previousBlock = some (p, r) → r.Valid
  single : ∀ x b y c, t x = some (b, .onChain) → t y = some (c, .onChain) →
    b.previousBlock = c.previousBlock → x = y

variable {t t' : BlockTree} {h x y : Bytes} {b c : Block} {s r : Status}

namespace Under

lemma trans {z : Bytes} (hxy : Under t x y) (hyz : Under t y z) : Under t x z := by
  induction hyz with
  | self => exact hxy
  | step z b s hz _ ih => exact .step z b s hz ih

lemma linear (hx : Under t x h) (hy : Under t y h) : Under t x y ∨ Under t y x := by
  induction hx with
  | self => exact .inr hy
  | step z b s hz hprev ih =>
    cases hy with
    | self => exact .inl (.step _ b s hz hprev)
    | step _ b' s' hz' hprev' =>
      rw [hz] at hz'
      cases hz'
      exact ih hprev'

lemma cached (hu : Under t h x) (hne : x ≠ h) :
    ∃ b s, t x = some (b, s) ∧ Under t h b.previousBlock := by
  cases hu with
  | self => exact absurd rfl hne
  | step _ b s hx hprev => exact ⟨b, s, hx, hprev⟩

lemma congr (hu : Under t h x) (heq : ∀ z b s, Under t h z → Under t z x → z ≠ h → t z = some (b, s) →
    ∃ s', t' z = some (b, s')) : Under t' h x := by
  induction hu with
  | self => exact .self
  | step z b s hz hprev ih =>
    by_cases hzh : z = h
    · rw [hzh]
      exact .self
    · obtain ⟨s', hz'⟩ := heq z b s (.step z b s hz hprev) .self hzh hz
      apply Under.step z b s' hz' (ih _)
      intro w d q hw hwz
      exact heq w d q hw (.step z b s hz hwz)

lemma exists_child (hu : Under t h x) (hne : x ≠ h) :
    ∃ y b s, t y = some (b, s) ∧ b.previousBlock = h ∧ Under t y x := by
  induction hu with
  | self => exact absurd rfl hne
  | step z b s hz hprev ih =>
    by_cases hzh : b.previousBlock = h
    · exact ⟨z, b, s, hz, hzh, .self⟩
    · obtain ⟨y, c, r, hy, hprev', hu⟩ := ih hzh
      exact ⟨y, c, r, hy, hprev', .step z b s hz hu⟩

end Under

lemma Under.lt_of_step {f : Block → Nat}
    (hf : ∀ x b s p r, t x = some (b, s) → t b.previousBlock = some (p, r) → f p < f b)
    (hx : t x = some (b, s)) (hy : t y = some (c, r)) (hu : Under t x c.previousBlock) : f b < f c := by
  generalize hz : c.previousBlock = z at hu
  induction hu generalizing y c r with
  | self => exact hf y c r b s hy (by rw [hz, hx])
  | step w p q hw hprev ih =>
    have h1 := hf y c r p q hy (by rw [hz, hw])
    have h2 := ih hw rfl
    omega

namespace Ascending

variable (ht : Ascending t)
include ht

lemma height_lt (hx : t x = some (b, s)) (hy : t y = some (c, r)) (hu : Under t x c.previousBlock) :
    b.height < c.height := by
  apply Under.lt_of_step (f := Block.height) _ hx hy hu
  intro x b s p r hx hp
  have := ht x b s p r hx hp
  omega

lemma height_le (hx : t x = some (b, s)) (hy : t y = some (c, r)) (hu : Under t x y) :
    b.height ≤ c.height := by
  cases hu with
  | self =>
    rw [hx] at hy
    cases hy
    exact le_rfl
  | step _ c' r' hy' hprev =>
    rw [hy] at hy'
    cases hy'
    exact (ht.height_lt hx hy hprev).le

lemma antisymm (hx : t x = some (b, s)) (hxy : Under t x y) (hyx : Under t y x) : x = y := by
  by_contra hne
  obtain ⟨c, r, hy, hprev⟩ := hxy.cached (Ne.symm hne)
  obtain ⟨b', s', hx', hprev'⟩ := hyx.cached hne
  have h1 := ht.height_lt hx hy hprev
  have h2 := ht.height_lt hy hx' hprev'
  rw [hx] at hx'
  cases hx'
  omega

lemma not_under_previousBlock (hx : t x = some (b, s)) : ¬Under t x b.previousBlock :=
  fun hu => absurd (ht.height_lt hx hx hu) (lt_irrefl _)

lemma not_under_sibling (hx : t x = some (b, s)) (hy : t y = some (c, r))
    (hprev : b.previousBlock = c.previousBlock) (hne : y ≠ x) : ¬Under t x y := by
  intro hu
  obtain ⟨c', r', hy', hu'⟩ := hu.cached hne
  rw [hy] at hy'
  cases hy'
  exact ht.not_under_previousBlock hx (hprev ▸ hu')

lemma siblings_apart (hx : t x = some (b, s)) (hy : t y = some (c, r)) (hprev : b.previousBlock = c.previousBlock)
    (hne : y ≠ x) {z : Bytes} (hyz : Under t y z) : ¬Under t x z := by
  intro hxz
  rcases hxz.linear hyz with hu | hu
  · exact ht.not_under_sibling hx hy hprev hne hu
  · exact ht.not_under_sibling hy hx hprev.symm hne.symm hu

end Ascending

namespace Rooted

variable (ht : Rooted t)
include ht

lemma exists_root (hx : t x = some (b, s)) :
    ∃ z c r, t z = some (c, r) ∧ t c.previousBlock = none ∧ Under t z x := by
  induction hn : b.height using Nat.strong_induction_on generalizing x b s with
  | _ n ih =>
    cases hp : t b.previousBlock with
    | none => exact ⟨x, b, s, hx, hp, .self⟩
    | some pq =>
      obtain ⟨p, q⟩ := pq
      have hheight := ht.height x b s p q hx hp
      obtain ⟨z, c, r, hz, hroot, hu⟩ := ih p.height (by omega) hp rfl
      exact ⟨z, c, r, hz, hroot, .step x b s hx hu⟩

lemma onChain_of_under (hx : t x = some (b, .onChain)) (hu : Under t y x) (hy : t y = some (c, r)) :
    r = .onChain := by
  induction hu generalizing b with
  | self =>
    rw [hx] at hy
    cases hy
    rfl
  | step z d q hz hprev ih =>
    rw [hz] at hx
    cases hx
    cases hp : t d.previousBlock with
    | none =>
      by_cases hyz : d.previousBlock = y
      · rw [hyz, hy] at hp
        cases hp
      · obtain ⟨_, _, hp', -⟩ := hprev.cached hyz
        rw [hp] at hp'
        cases hp'
    | some pq =>
      obtain ⟨p, q⟩ := pq
      obtain rfl := ht.closed z d p q hz hp
      exact ih hp

lemma onChain_linear (hx : t x = some (b, .onChain)) (hy : t y = some (c, .onChain)) :
    Under t x y ∨ Under t y x := by
  obtain ⟨z, d, r, hz, hroot, hzy⟩ := ht.exists_root hy
  obtain ⟨z', d', r', hz', hroot', hzx⟩ := ht.exists_root hx
  obtain rfl := ht.root z d r z' d' r' hz hz' hroot hroot'
  induction hzx generalizing b with
  | self => exact .inl hzy
  | step w f q hw hprev ih =>
    rw [hw] at hx
    cases hx
    -- the previous block is on chain, and at most one block on top of it is
    obtain ⟨p, u, hp⟩ : ∃ p u, t f.previousBlock = some (p, u) := by
      by_cases hpz : f.previousBlock = z
      · exact ⟨d, r, hpz ▸ hz⟩
      · obtain ⟨p, u, hp, -⟩ := hprev.cached hpz
        exact ⟨p, u, hp⟩
    obtain rfl := ht.closed w f p u hw hp
    rcases ih hp with hu | hu
    · by_cases hyp : y = f.previousBlock
      · rw [hyp]
        exact .inr (.step w f _ hw .self)
      · obtain ⟨k, g, v, hk, hkp, hky⟩ := hu.exists_child hyp
        obtain rfl := ht.onChain_of_under hy hky hk
        obtain rfl := ht.single k g w f hk hw hkp
        exact .inl hky
    · exact .inr (.step w f _ hw hu)

end Rooted

/-- The tree without the blocks of a set. -/
def Removes (t t' : BlockTree) (S : Bytes → Prop) : Prop := ∀ x, (S x → t' x = none) ∧ (¬S x → t' x = t x)

lemma Removes.some_iff {S : Bytes → Prop} (hrem : Removes t t' S) {v : Block × Status} :
    t' x = some v ↔ ¬S x ∧ t x = some v := by
  by_cases hx : S x
  · simp [(hrem x).1 hx, hx]
  · simp [(hrem x).2 hx, hx]

lemma Removes.trans {t'' : BlockTree} {S S' : Bytes → Prop} (h1 : Removes t t' S) (h2 : Removes t' t'' S') :
    Removes t t'' fun x => S x ∨ S' x := by
  intro x
  constructor
  · intro hx
    by_cases hS' : S' x
    · exact (h2 x).1 hS'
    · rw [(h2 x).2 hS', (h1 x).1 (hx.resolve_right hS')]
  · intro hx
    rw [not_or] at hx
    rw [(h2 x).2 hx.2, (h1 x).2 hx.1]

lemma removes_none {S : Bytes → Prop} (hS : ∀ x, ¬S x) : Removes t t S :=
  fun x => ⟨fun hx => absurd hx (hS x), fun _ => rfl⟩

lemma Removes.under_iff {S : Bytes → Prop} (hrem : Removes t t' S) (hS : ∀ z, Under t h z → z ≠ h → ¬S z) :
    Under t' h x ↔ Under t h x := by
  constructor
  · intro hu
    apply hu.congr
    intro z b s _ _ _ hz
    exact ⟨s, (hrem.some_iff.mp hz).2⟩
  · intro hu
    apply hu.congr
    intro z b s hz _ hne hzt
    exact ⟨s, hrem.some_iff.mpr ⟨hS z hz hne, hzt⟩⟩

lemma Removes.ascending {S : Bytes → Prop} (hrem : Removes t t' S) (ht : Ascending t) : Ascending t' := by
  intro x b s p r hx hp
  exact ht x b s p r (hrem.some_iff.mp hx).2 (hrem.some_iff.mp hp).2

lemma Rooted.removes {S : Bytes → Prop} (ht : Rooted t) (hrem : Removes t t' S)
    (hS : ∀ x b s, t x = some (b, s) → S b.previousBlock → S x) : Rooted t' := by
  have hprev : ∀ {x b s}, t' x = some (b, s) → t x = some (b, s) ∧ t' b.previousBlock = t b.previousBlock := by
    intro x b s hx
    obtain ⟨hnot, hx⟩ := hrem.some_iff.mp hx
    exact ⟨hx, (hrem _).2 fun hp => hnot (hS x b s hx hp)⟩
  constructor
  · intro x b s hx
    exact ht.indepHash x b s (hprev hx).1
  · intro x b s p r hx hp
    rw [(hprev hx).2] at hp
    exact ht.height x b s p r (hprev hx).1 hp
  · intro x b s y c r hx hy hxp hyp
    rw [(hprev hx).2] at hxp
    rw [(hprev hy).2] at hyp
    exact ht.root x b s y c r (hprev hx).1 (hprev hy).1 hxp hyp
  · intro x b s hx hp
    rw [(hprev hx).2] at hp
    exact ht.rootOnChain x b s (hprev hx).1 hp
  · intro x b p r hx hp
    rw [(hprev hx).2] at hp
    exact ht.closed x b p r (hprev hx).1 hp
  · intro x b s p r hx hs hp
    rw [(hprev hx).2] at hp
    exact ht.valid x b s p r (hprev hx).1 hs hp
  · intro x b y c hx hy hxy
    exact ht.single x b y c (hprev hx).1 (hprev hy).1 hxy

lemma Rooted.removes_root (ht : Rooted t) (hh : t h = some (b, s)) (hroot : t b.previousBlock = none)
    (hforks : ∀ x c r, t x = some (c, r) → c.previousBlock = h → r = .onChain)
    (hrem : Removes t t' (· = h)) : Rooted t' := by
  have hold : ∀ {x c r}, t' x = some (c, r) → t x = some (c, r) := fun hx => (hrem.some_iff.mp hx).2
  have hne : ∀ {x c r}, t' x = some (c, r) → x ≠ h := fun hx => (hrem.some_iff.mp hx).1
  -- the new lowest block is the one on top of the dropped block
  have hlow : ∀ {x c r}, t' x = some (c, r) → t' c.previousBlock = none → c.previousBlock = h := by
    intro x c r hx hp
    by_contra hch
    rw [(hrem _).2 hch] at hp
    exact hne hx (ht.root x c r h b s (hold hx) hh hp hroot)
  constructor
  · intro x c r hx
    exact ht.indepHash x c r (hold hx)
  · intro x c r p q hx hp
    exact ht.height x c r p q (hold hx) (hold hp)
  · intro x c r y d q hx hy hxp hyp
    have hxh := hlow hx hxp
    have hyh := hlow hy hyp
    obtain rfl := hforks x c r (hold hx) hxh
    obtain rfl := hforks y d q (hold hy) hyh
    exact ht.single x c y d (hold hx) (hold hy) (hxh.trans hyh.symm)
  · intro x c r hx hp
    exact hforks x c r (hold hx) (hlow hx hp)
  · intro x c p r hx hp
    exact ht.closed x c p r (hold hx) (hold hp)
  · intro x c r p q hx hr hp
    exact ht.valid x c r p q (hold hx) hr (hold hp)
  · intro x c y d hx hy hxy
    exact ht.single x c y d (hold hx) (hold hy) hxy

/-- Two blocks with the same hash have the same header. -/
def Block.SameHeader (b c : Block) : Prop :=
  b.indepHash = c.indepHash ∧ b.hash = c.hash ∧ b.previousBlock = c.previousBlock ∧
    b.cumulativeDiff = c.cumulativeDiff ∧ b.height = c.height

/-- A block in relation to the cached ones: a cached block with its hash has its header, and
heights grow by one from a block to the next. -/
structure Fits (t : BlockTree) (b : Block) : Prop where
  same : ∀ c s, t b.indepHash = some (c, s) → b.SameHeader c
  above : ∀ p s, t b.previousBlock = some (p, s) → b.height = p.height + 1
  below : ∀ x c s, t x = some (c, s) → c.previousBlock = b.indepHash → c.height = b.height + 1

lemma Rooted.not_previousBlock (ht : Rooted t) (hfits : Fits t b) (hnew : t b.indepHash = none)
    (hprev : t b.previousBlock ≠ none) (hx : t x = some (c, s)) : c.previousBlock ≠ b.indepHash := by
  intro heq
  obtain ⟨⟨p, q⟩, hp⟩ := Option.ne_none_iff_exists'.mp hprev
  have h1 := hfits.below x c s hx heq
  have h2 := hfits.above p q hp
  -- the block would be both the lowest one and above another
  obtain ⟨z, d, r, hz, hroot, hu⟩ := ht.exists_root hp
  have h3 := ht.root x c s z d r hx hz (by rw [heq, hnew]) hroot
  subst h3
  rw [hx] at hz
  cases hz
  have := ht.height.height_le hx hp hu
  omega

lemma Rooted.insert (ht : Rooted t) (hfits : Fits t b) (hnew : t b.indepHash = none) {p : Block}
    {q : Status} (hprev : t b.previousBlock = some (p, q)) (hs : s ≠ .onChain) (hvalid : s.Valid → q.Valid) :
    Rooted (Function.update t b.indepHash (some (b, s))) := by
  have hne : b.previousBlock ≠ b.indepHash := by
    intro heq
    rw [heq, hnew] at hprev
    cases hprev
  have hself : Function.update t b.indepHash (some (b, s)) b.previousBlock = some (p, q) := by
    rw [Function.update_of_ne hne, hprev]
  -- a cached block other than the new one, and its previous block
  have hcases : ∀ {x c r}, Function.update t b.indepHash (some (b, s)) x = some (c, r) →
      (x = b.indepHash ∧ c = b ∧ r = s) ∨ (t x = some (c, r) ∧
        Function.update t b.indepHash (some (b, s)) c.previousBlock = t c.previousBlock) := by
    intro x c r hx
    by_cases hxb : x = b.indepHash
    · rw [hxb, Function.update_self, Option.some.injEq, Prod.mk.injEq] at hx
      exact .inl ⟨hxb, hx.1.symm, hx.2.symm⟩
    · rw [Function.update_of_ne hxb] at hx
      refine .inr ⟨hx, Function.update_of_ne ?_ _ _⟩
      exact ht.not_previousBlock hfits hnew (by simp [hprev]) hx
  constructor
  · intro x c r hx
    rcases hcases hx with ⟨rfl, rfl, -⟩ | ⟨hx, -⟩
    · rfl
    · exact ht.indepHash x c r hx
  · intro x c r d w hx hd
    rcases hcases hx with ⟨rfl, rfl, -⟩ | ⟨hx, hp⟩
    · rw [hself] at hd
      cases hd
      exact hfits.above p q hprev
    · rw [hp] at hd
      exact ht.height x c r d w hx hd
  · intro x c r y d w hx hy hxp hyp
    rcases hcases hx with ⟨rfl, rfl, -⟩ | ⟨hx, hp⟩
    · rw [hself] at hxp
      cases hxp
    · rcases hcases hy with ⟨rfl, rfl, -⟩ | ⟨hy, hp'⟩
      · rw [hself] at hyp
        cases hyp
      · rw [hp] at hxp
        rw [hp'] at hyp
        exact ht.root x c r y d w hx hy hxp hyp
  · intro x c r hx hxp
    rcases hcases hx with ⟨rfl, rfl, -⟩ | ⟨hx, hp⟩
    · rw [hself] at hxp
      cases hxp
    · rw [hp] at hxp
      exact ht.rootOnChain x c r hx hxp
  · intro x c d w hx hd
    rcases hcases hx with ⟨-, -, heq⟩ | ⟨hx, hp⟩
    · exact absurd heq.symm hs
    · rw [hp] at hd
      exact ht.closed x c d w hx hd
  · intro x c r d w hx hr hd
    rcases hcases hx with ⟨rfl, rfl, rfl⟩ | ⟨hx, hp⟩
    · rw [hself] at hd
      cases hd
      exact hvalid hr
    · rw [hp] at hd
      exact ht.valid x c r d w hx hr hd
  · intro x c y d hx hy hxy
    rcases hcases hx with ⟨-, -, heq⟩ | ⟨hx, -⟩
    · exact absurd heq.symm hs
    · rcases hcases hy with ⟨-, -, heq⟩ | ⟨hy, -⟩
      · exact absurd heq.symm hs
      · exact ht.single x c y d hx hy hxy

/-- The same blocks, up to the fields outside of the header, with other statuses. -/
structure Relabels (t t' : BlockTree) : Prop where
  absent : ∀ x, t x = none → t' x = none
  present : ∀ x b s, t x = some (b, s) → ∃ b' s', t' x = some (b', s') ∧ b'.SameHeader b

lemma Relabels.back (hr : Relabels t t') {s' : Status} (hx : t' x = some (b, s')) :
    ∃ c s, t x = some (c, s) ∧ b.SameHeader c := by
  cases htx : t x with
  | none =>
    rw [hr.absent x htx] at hx
    cases hx
  | some v =>
    obtain ⟨c, s⟩ := v
    obtain ⟨b', s'', hx', hsame⟩ := hr.present x c s htx
    rw [hx] at hx'
    cases hx'
    exact ⟨c, s, rfl, hsame⟩

lemma Rooted.relabels (ht : Rooted t) (hr : Relabels t t')
    (hroot : ∀ x b s, t' x = some (b, s) → t' b.previousBlock = none → s = .onChain)
    (hclosed : ∀ x b p r, t' x = some (b, .onChain) → t' b.previousBlock = some (p, r) → r = .onChain)
    (hvalid : ∀ x b s p r, t' x = some (b, s) → s.Valid → t' b.previousBlock = some (p, r) → r.Valid)
    (hsingle : ∀ x b y c, t' x = some (b, .onChain) → t' y = some (c, .onChain) →
      b.previousBlock = c.previousBlock → x = y) : Rooted t' where
  indepHash x b s hx := by
    obtain ⟨c, r, hx', hsame⟩ := hr.back hx
    rw [hsame.1]
    exact ht.indepHash x c r hx'
  height x b s p r hx hp := by
    obtain ⟨c, q, hx', -, -, hprev, -, hheight⟩ := hr.back hx
    obtain ⟨d, w, hp', -, -, -, -, hheight'⟩ := hr.back hp
    rw [hheight, hheight']
    exact ht.height x c q d w hx' (by rw [← hprev, hp'])
  root x b s y c r hx hy hxp hyp := by
    have hnone : ∀ z, t' z = none → t z = none := by
      intro z hz
      cases htz : t z with
      | none => rfl
      | some v =>
        obtain ⟨d, w⟩ := v
        obtain ⟨_, _, hz', -⟩ := hr.present z d w htz
        rw [hz] at hz'
        cases hz'
    obtain ⟨b', s', hx', -, -, hprev, -⟩ := hr.back hx
    obtain ⟨c', r', hy', -, -, hprev', -⟩ := hr.back hy
    exact ht.root x b' s' y c' r' hx' hy' (hnone _ (hprev ▸ hxp)) (hnone _ (hprev' ▸ hyp))
  rootOnChain := hroot
  closed := hclosed
  valid := hvalid
  single := hsingle

lemma Rooted.relabels_of_onChain (ht : Rooted t) (hr : Relabels t t')
    (hon : ∀ x b s b' s', t x = some (b, s) → t' x = some (b', s') → (s = .onChain ↔ s' = .onChain))
    (hvalid : ∀ x b s p r, t' x = some (b, s) → s.Valid → t' b.previousBlock = some (p, r) → r.Valid) :
    Rooted t' := by
  have hback : ∀ {x b}, t' x = some (b, .onChain) →
      ∃ c, t x = some (c, .onChain) ∧ b.previousBlock = c.previousBlock := by
    intro x b hx
    obtain ⟨c, s, hx', -, -, hprev, -⟩ := hr.back hx
    obtain rfl := (hon x c s b .onChain hx' hx).mpr rfl
    exact ⟨c, hx', hprev⟩
  apply ht.relabels hr _ _ hvalid
  · intro x b y c hx hy hxy
    obtain ⟨b', hx', hb⟩ := hback hx
    obtain ⟨c', hy', hc⟩ := hback hy
    exact ht.single x b' y c' hx' hy' (by rw [← hb, ← hc, hxy])
  · intro x b s hx hp
    obtain ⟨c, r, hx', -, -, hprev, -⟩ := hr.back hx
    rw [hprev] at hp
    cases htp : t c.previousBlock with
    | none => exact (hon x c r b s hx' hx).mp (ht.rootOnChain x c r hx' htp)
    | some v =>
      obtain ⟨d, w⟩ := v
      obtain ⟨_, _, hp', -⟩ := hr.present _ d w htp
      rw [hp] at hp'
      cases hp'
  · intro x b p r hx hp
    obtain ⟨c, hx', hprev⟩ := hback hx
    obtain ⟨d, w, hp', -⟩ := hr.back hp
    rw [hprev] at hp'
    obtain rfl := ht.closed x c d w hx' hp'
    exact (hon _ d .onChain p r hp' (hprev ▸ hp)).mp rfl

/-- The status of a block that leaves the chain. -/
def Status.offChain : Status → Status
  | .onChain => .validated
  | s => s

lemma Status.offChain_ne (s : Status) : s.offChain ≠ .onChain := by cases s <;> simp [offChain]

lemma Status.valid_offChain (s : Status) : s.offChain.Valid ↔ s.Valid := by cases s <;> rfl

/-- The chain leads to another block: the blocks below it are on chain, and no others. -/
def MovesTip (t t' : BlockTree) (h : Bytes) : Prop :=
  ∀ x, (t x = none → t' x = none) ∧ ∀ b s, t x = some (b, s) →
    (Under t x h → t' x = some (b, .onChain)) ∧ (¬Under t x h → t' x = some (b, s.offChain))

lemma MovesTip.relabels (hm : MovesTip t t' h) : Relabels t t' where
  absent x := (hm x).1
  present x b s hx := by
    by_cases hu : Under t x h
    · exact ⟨b, _, ((hm x).2 b s hx).1 hu, rfl, rfl, rfl, rfl, rfl⟩
    · exact ⟨b, _, ((hm x).2 b s hx).2 hu, rfl, rfl, rfl, rfl, rfl⟩

lemma MovesTip.back (hm : MovesTip t t' h) (hx : t' x = some (b, r)) :
    ∃ s, t x = some (b, s) ∧ ((Under t x h ∧ r = .onChain) ∨ (¬Under t x h ∧ r = s.offChain)) := by
  obtain ⟨c, s, htx, -⟩ := hm.relabels.back hx
  by_cases hu : Under t x h
  · rw [((hm x).2 c s htx).1 hu] at hx
    cases hx
    exact ⟨s, htx, .inl ⟨hu, rfl⟩⟩
  · rw [((hm x).2 c s htx).2 hu] at hx
    cases hx
    exact ⟨s, htx, .inr ⟨hu, rfl⟩⟩

lemma MovesTip.onChain_iff (hm : MovesTip t t' h) (hx : t' x = some (b, r)) : r = .onChain ↔ Under t x h := by
  obtain ⟨s, -, ⟨hu, rfl⟩ | ⟨hu, rfl⟩⟩ := hm.back hx
  · simp [hu]
  · simp [hu, s.offChain_ne]

lemma Rooted.movesTip (ht : Rooted t) (hh : t h = some (b, s)) (hm : MovesTip t t' h) : Rooted t' := by
  have hbelow : ∀ {x c p r q}, t' x = some (c, r) → Under t x h → t' c.previousBlock = some (p, q) →
      Under t c.previousBlock h := by
    intro x c p r q hx hu hp
    obtain ⟨_, hx', -⟩ := hm.back hx
    exact (Under.step x c _ hx' .self).trans hu
  apply ht.relabels hm.relabels
  · intro x c r hx hp
    obtain ⟨q, hx', -⟩ := hm.back hx
    have hroot : t c.previousBlock = none := by
      cases htp : t c.previousBlock with
      | none => rfl
      | some v =>
        obtain ⟨_, _, hp', -⟩ := hm.relabels.present _ v.1 v.2 htp
        rw [hp] at hp'
        cases hp'
    -- the lowest block is below every block
    obtain ⟨z, d, w, hz, hzroot, hu⟩ := ht.exists_root hh
    obtain rfl := ht.root x c q z d w hx' hz hroot hzroot
    exact (hm.onChain_iff hx).mpr hu
  · intro x c p r hx hp
    exact (hm.onChain_iff hp).mpr (hbelow hx ((hm.onChain_iff hx).mp rfl) hp)
  · intro x c r p q hx hr hp
    obtain ⟨s', hx', ⟨hu, rfl⟩ | ⟨hu, rfl⟩⟩ := hm.back hx
    · rw [(hm.onChain_iff hp).mpr (hbelow hx hu hp)]
      trivial
    · obtain ⟨q', hp', ⟨-, rfl⟩ | ⟨-, rfl⟩⟩ := hm.back hp
      · trivial
      · rw [Status.valid_offChain] at hr ⊢
        exact ht.valid x c s' p q' hx' hr hp'
  · intro x c y d hx hy hxy
    have hux := (hm.onChain_iff hx).mp rfl
    have huy := (hm.onChain_iff hy).mp rfl
    obtain ⟨_, hx', -⟩ := hm.back hx
    obtain ⟨_, hy', -⟩ := hm.back hy
    by_contra hne
    rcases hux.linear huy with hu | hu
    · obtain ⟨_, _, hy'', hprev⟩ := hu.cached (Ne.symm hne)
      rw [hy'] at hy''
      cases hy''
      exact ht.height.not_under_previousBlock hx' (hxy ▸ hprev)
    · obtain ⟨_, _, hx'', hprev⟩ := hu.cached hne
      rw [hx'] at hx''
      cases hx''
      exact ht.height.not_under_previousBlock hy' (hxy ▸ hprev)

end Arweave.BlockCache

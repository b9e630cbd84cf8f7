import Arweave.BlockCache.BlockTree

/-!
# Growth of a block tree

The changes to a block tree that leave the blocks on chain as they are: blocks that are not on
chain are removed with everything on top, a block is added on top of a cached one, or a cached
block is written again. They keep the tree rooted, the path to the tip, and the order in which
the blocks wait for the nonce limiter.
-/

namespace Arweave.BlockCache
open Arweave.Lib

variable {fork : Nat} {t t' t'' : BlockTree} {x y tip : Bytes} {b c : Block} {s r : Status}

/-- The block waits for the nonce limiter. -/
def Status.Pending : Status → Prop
  | .notValidated .awaitingNonceLimiterValidation => True
  | .notValidated .nonceLimiterValidationScheduled => True
  | _ => False

instance : DecidablePred Status.Pending
  | .onChain => .isFalse id
  | .validated => .isFalse id
  | .notValidated .awaitingValidation => .isFalse id
  | .notValidated .awaitingNonceLimiterValidation => .isTrue trivial
  | .notValidated .nonceLimiterValidationScheduled => .isTrue trivial
  | .notValidated .nonceLimiterValidated => .isFalse id

lemma Status.Valid.not_pending (hs : s.Valid) : ¬s.Pending := by
  cases s with
  | onChain => exact id
  | validated => exact id
  | notValidated => exact hs.elim

/-- The status of a new block, with the status of the previous block. -/
def Arrives (fork : Nat) (b : Block) (s q : Status) : Prop :=
  s = .validated ∧ q.Valid ∨ ∃ stage, s = .notValidated stage ∧ (s.Pending ↔ fork ≤ b.height)

inductive Grows (fork : Nat) (t : BlockTree) : BlockTree → Prop
  | remove (S : Bytes → Prop) (t' : BlockTree) (hrem : Removes t t' S)
      (hup : ∀ x b s, t x = some (b, s) → S b.previousBlock → S x)
      (hoff : ∀ x b, t x = some (b, .onChain) → ¬S x) : Grows fork t t'
  | insert (b : Block) (s : Status) (p : Block) (q : Status) (hfits : Fits t b)
      (hnew : t b.indepHash = none) (hprev : t b.previousBlock = some (p, q)) (hs : Arrives fork b s q) :
      Grows fork t (Function.update t b.indepHash (some (b, s)))
  | rewrite (b c : Block) (s s' : Status) (hb : t b.indepHash = some (c, s)) (hsame : b.SameHeader c)
      (hs : s' = s ∨ s ≠ .onChain ∧ s' = .validated ∧ ∀ p r, t b.previousBlock = some (p, r) → r.Valid) :
      Grows fork t (Function.update t b.indepHash (some (b, s')))

/-- Any number of such changes. -/
abbrev Growth (fork : Nat) : BlockTree → BlockTree → Prop := Relation.ReflTransGen (Grows fork)

lemma Arrives.ne_onChain {q : Status} (hs : Arrives fork b s q) : s ≠ .onChain := by
  rcases hs with ⟨rfl, -⟩ | ⟨stage, rfl, -⟩ <;> simp

lemma Arrives.valid {q : Status} (hs : Arrives fork b s q) (hvalid : s.Valid) : q.Valid := by
  rcases hs with ⟨-, hq⟩ | ⟨stage, rfl, -⟩
  · exact hq
  · exact hvalid.elim

lemma Block.SameHeader.symm (hsame : b.SameHeader c) : c.SameHeader b :=
  ⟨hsame.1.symm, hsame.2.1.symm, hsame.2.2.1.symm, hsame.2.2.2.1.symm, hsame.2.2.2.2.symm⟩

lemma Block.SameHeader.trans {d : Block} (h1 : b.SameHeader c) (h2 : c.SameHeader d) : b.SameHeader d :=
  ⟨h1.1.trans h2.1, h1.2.1.trans h2.2.1, h1.2.2.1.trans h2.2.2.1, h1.2.2.2.1.trans h2.2.2.2.1,
    h1.2.2.2.2.trans h2.2.2.2.2⟩

lemma Block.SameHeader.rfl : b.SameHeader b := ⟨.refl _, .refl _, .refl _, .refl _, .refl _⟩

lemma relabels_update (hx : t x = some (c, r)) (hsame : b.SameHeader c) :
    Relabels t (Function.update t x (some (b, s))) where
  absent y hy := by
    rw [Function.update_of_ne, hy]
    rintro rfl
    rw [hy] at hx
    cases hx
  present y d q hy := by
    by_cases hyx : y = x
    · subst hyx
      rw [hx] at hy
      cases hy
      exact ⟨b, s, Function.update_self .., hsame⟩
    · exact ⟨d, q, by rw [Function.update_of_ne hyx, hy], .rfl⟩

lemma Rooted.rewrite (ht : Rooted t) (hx : t x = some (c, r)) (hsame : b.SameHeader c)
    (hon : r = .onChain ↔ s = .onChain) (hup : r.Valid → s.Valid)
    (hprev : s.Valid → ∀ p q, t b.previousBlock = some (p, q) → q.Valid) :
    Rooted (Function.update t x (some (b, s))) := by
  apply ht.relabels_of_onChain (relabels_update hx hsame)
  · intro y d q d' q' hy hy'
    by_cases hyx : y = x
    · subst hyx
      rw [hx] at hy
      rw [Function.update_self] at hy'
      cases hy
      cases hy'
      exact hon
    · rw [Function.update_of_ne hyx, hy] at hy'
      cases hy'
      rfl
  · -- a valid block stays valid, so only the new status can matter
    intro y d q p w hy hq hp
    have hvalid : ∀ p' w', t d.previousBlock = some (p', w') → w'.Valid → w.Valid := by
      intro p' w' hp' hw'
      by_cases hpx : d.previousBlock = x
      · rw [hpx, Function.update_self] at hp
        rw [hpx, hx] at hp'
        cases hp
        cases hp'
        exact hup hw'
      · rw [Function.update_of_ne hpx, hp'] at hp
        cases hp
        exact hw'
    obtain ⟨p', w', hp', -⟩ := (relabels_update hx hsame).back hp
    by_cases hyx : y = x
    · rw [hyx, Function.update_self] at hy
      cases hy
      exact hvalid p' w' hp' (hprev hq p' w' hp')
    · rw [Function.update_of_ne hyx] at hy
      exact hvalid p' w' hp' (ht.valid y d q p' w' hy hq hp')

lemma Grows.rooted (hg : Grows fork t t') (ht : Rooted t) : Rooted t' := by
  cases hg with
  | remove S t' hrem hup hoff => exact ht.removes hrem hup
  | insert b s p q hfits hnew hprev hs => exact ht.insert hfits hnew hprev hs.ne_onChain hs.valid
  | rewrite b c s s' hb hsame hs =>
    apply ht.rewrite hb hsame
    · rcases hs with rfl | ⟨hs, rfl, -⟩
      · rfl
      · simp [hs]
    · rcases hs with rfl | ⟨-, rfl, -⟩
      · exact id
      · exact fun _ => trivial
    · intro hs' p q hp
      rcases hs with rfl | ⟨-, -, hvalid⟩
      · exact ht.valid _ c s' p q hb hs' (hsame.2.2.1 ▸ hp)
      · exact hvalid p q hp

/-- The same blocks are on chain. -/
structure SameChain (t t' : BlockTree) : Prop where
  kept : ∀ x b, t x = some (b, .onChain) → ∃ b', t' x = some (b', .onChain) ∧ b'.SameHeader b
  back : ∀ x b', t' x = some (b', .onChain) → ∃ b, t x = some (b, .onChain)

lemma SameChain.refl (t : BlockTree) : SameChain t t :=
  ⟨fun _ b hx => ⟨b, hx, .rfl⟩, fun _ b hx => ⟨b, hx⟩⟩

lemma SameChain.trans (h1 : SameChain t t') (h2 : SameChain t' t'') : SameChain t t'' where
  kept x b hx := by
    obtain ⟨b', hx', hb'⟩ := h1.kept x b hx
    obtain ⟨b'', hx'', hb''⟩ := h2.kept x b' hx'
    exact ⟨b'', hx'', hb''.trans hb'⟩
  back x b'' hx := by
    obtain ⟨b', hx'⟩ := h2.back x b'' hx
    exact h1.back x b' hx'

lemma SameChain.under (hs : SameChain t t') (ht : Rooted t) (hy : t y = some (b, .onChain))
    (hu : Under t x y) : Under t' x y := by
  induction hu generalizing b with
  | self => exact .self
  | step z d q hz hprev ih =>
    rw [hy] at hz
    cases hz
    obtain ⟨d', hy', -, -, hp, -⟩ := hs.kept z d hy
    apply Under.step z d' _ hy'
    rw [hp]
    by_cases hxp : d.previousBlock = x
    · rw [hxp]
      exact .self
    · obtain ⟨p, r, hp', -⟩ := hprev.cached hxp
      obtain rfl := ht.closed z d p r hy hp'
      exact ih hp'

/-- The tip is on chain, and so are only the blocks below it. -/
structure TipPath (t : BlockTree) (tip : Bytes) : Prop where
  onChain : ∃ b, t tip = some (b, .onChain)
  below : ∀ x b, t x = some (b, .onChain) → Under t x tip

lemma TipPath.onChain_iff (hp : TipPath t tip) (ht : Rooted t) (hx : t x = some (b, s)) :
    s = .onChain ↔ Under t x tip := by
  constructor
  · rintro rfl
    exact hp.below x b hx
  · intro hu
    obtain ⟨c, hc⟩ := hp.onChain
    exact ht.onChain_of_under hc hu hx

lemma TipPath.sameChain (hp : TipPath t tip) (hs : SameChain t t') (ht : Rooted t) : TipPath t' tip where
  onChain := by
    obtain ⟨b, hb⟩ := hp.onChain
    obtain ⟨b', hb', -⟩ := hs.kept _ b hb
    exact ⟨b', hb'⟩
  below x b' hx := by
    obtain ⟨b, hb⟩ := hp.onChain
    obtain ⟨d, hd⟩ := hs.back x b' hx
    exact hs.under ht hb (hp.below x d hd)

lemma TipPath.movesTip (hm : MovesTip t t' x) (hx : t x = some (b, s)) : TipPath t' x where
  onChain := ⟨b, ((hm x).2 b s hx).1 .self⟩
  below y c hy := by
    have hu : Under t y x := (hm.onChain_iff hy).mp rfl
    apply hu.congr
    intro z d q _ _ _ hz'
    obtain ⟨d', s', hd', -⟩ := hm.relabels.present z d q hz'
    obtain ⟨q', hd'', -⟩ := hm.back hd'
    rw [hz'] at hd''
    cases hd''
    exact ⟨s', hd'⟩

lemma Grows.sameChain (hg : Grows fork t t') : SameChain t t' := by
  cases hg with
  | remove S t' hrem hup hoff =>
    constructor
    · intro x b hx
      exact ⟨b, hrem.some_iff.mpr ⟨hoff x b hx, hx⟩, .rfl⟩
    · intro x b hx
      exact ⟨b, (hrem.some_iff.mp hx).2⟩
  | insert b s p q hfits hnew hprev hs =>
    constructor
    · intro x c hx
      refine ⟨c, ?_, .rfl⟩
      rw [Function.update_of_ne, hx]
      rintro rfl
      rw [hnew] at hx
      cases hx
    · intro x c hx
      by_cases hxb : x = b.indepHash
      · rw [hxb, Function.update_self] at hx
        cases hx
        exact absurd rfl hs.ne_onChain
      · rw [Function.update_of_ne hxb] at hx
        exact ⟨c, hx⟩
  | rewrite b c s s' hb hsame hs =>
    have hon : s = .onChain ↔ s' = .onChain := by
      rcases hs with rfl | ⟨hs, rfl, -⟩
      · rfl
      · simp [hs]
    constructor
    · intro x d hx
      by_cases hxb : x = b.indepHash
      · rw [hxb, hb] at hx
        cases hx
        rw [hxb, Function.update_self, hon.mp rfl]
        exact ⟨b, rfl, hsame⟩
      · exact ⟨d, by rw [Function.update_of_ne hxb, hx], .rfl⟩
    · intro x d hx
      by_cases hxb : x = b.indepHash
      · rw [hxb, Function.update_self] at hx
        cases hx
        exact ⟨c, by rw [hxb, hb, hon.mpr rfl]⟩
      · rw [Function.update_of_ne hxb] at hx
        exact ⟨d, hx⟩

lemma sameChain_stage {stage stage' : Stage} (hx : t x = some (b, .notValidated stage)) :
    SameChain t (Function.update t x (some (b, .notValidated stage'))) := by
  constructor
  · intro y c hy
    refine ⟨c, ?_, .rfl⟩
    rw [Function.update_of_ne, hy]
    rintro rfl
    rw [hx] at hy
    cases hy
  · intro y c hy
    by_cases hyx : y = x
    · rw [hyx, Function.update_self] at hy
      cases hy
    · rw [Function.update_of_ne hyx] at hy
      exact ⟨c, hy⟩

lemma Growth.sameChain (hg : Growth fork t t') : SameChain t t' := by
  induction hg with
  | refl => exact .refl t
  | tail _ hstep ih => exact ih.trans hstep.sameChain

/-- Blocks wait for the nonce limiter from some block of a branch on, and only after the fork. -/
structure PendingOrder (fork : Nat) (t : BlockTree) : Prop where
  height : ∀ x b s, t x = some (b, s) → s.Pending → fork ≤ b.height
  above : ∀ x b s p r, t x = some (b, s) → t b.previousBlock = some (p, r) → r.Pending → s.Pending

lemma PendingOrder.removes {S : Bytes → Prop} (hp : PendingOrder fork t) (hrem : Removes t t' S) :
    PendingOrder fork t' where
  height x b s hx := hp.height x b s (hrem.some_iff.mp hx).2
  above x b s p r hx hprev := hp.above x b s p r (hrem.some_iff.mp hx).2 (hrem.some_iff.mp hprev).2

lemma PendingOrder.relabels (hp : PendingOrder fork t) (hr : Relabels t t')
    (hless : ∀ x b s b' s', t x = some (b, s) → t' x = some (b', s') → s'.Pending → s.Pending)
    (hstop : ∀ x b s b' s' p r, t x = some (b, s) → t' x = some (b', s') → s.Pending → ¬s'.Pending →
      t' b'.previousBlock = some (p, r) → ¬r.Pending) : PendingOrder fork t' where
  height x b' s' hx hs' := by
    obtain ⟨b, s, hb, hsame⟩ := hr.back hx
    rw [hsame.2.2.2.2]
    exact hp.height x b s hb (hless x b s b' s' hb hx hs')
  above x b' s' p' r' hx hprev hr' := by
    obtain ⟨b, s, hb, -, -, hsame, -⟩ := hr.back hx
    obtain ⟨p, r, hp', -⟩ := hr.back hprev
    by_contra hs'
    refine hstop x b s b' s' p' r' hb hx ?_ hs' hprev hr'
    exact hp.above x b s p r hb (hsame ▸ hp') (hless _ p r p' r' hp' hprev hr')

lemma PendingOrder.update (hp : PendingOrder fork t) (hx : t x = some (c, r)) (hsame : b.SameHeader c)
    (hless : s.Pending → r.Pending)
    (hstop : r.Pending → ¬s.Pending → ∀ p q, t b.previousBlock = some (p, q) → ¬q.Pending) :
    PendingOrder fork (Function.update t x (some (b, s))) := by
  have hless' : ∀ y d q d' q', t y = some (d, q) →
      Function.update t x (some (b, s)) y = some (d', q') → q'.Pending → q.Pending := by
    intro y d q d' q' hy hy' hq'
    by_cases hyx : y = x
    · subst hyx
      rw [hx] at hy
      rw [Function.update_self] at hy'
      cases hy
      cases hy'
      exact hless hq'
    · rw [Function.update_of_ne hyx, hy] at hy'
      cases hy'
      exact hq'
  apply hp.relabels (relabels_update hx hsame) hless'
  intro y d q d' q' p w hy hy' hq hq' hprev hw
  by_cases hyx : y = x
  · subst hyx
    rw [hx] at hy
    rw [Function.update_self] at hy'
    cases hy
    cases hy'
    obtain ⟨p', w', hp', -⟩ := (relabels_update hx hsame).back hprev
    exact hstop hq hq' p' w' hp' (hless' _ p' w' p w hp' hprev hw)
  · rw [Function.update_of_ne hyx, hy] at hy'
    cases hy'
    exact hq' hq

lemma Grows.pendingOrder (hg : Grows fork t t') (ht : Rooted t) (hp : PendingOrder fork t) :
    PendingOrder fork t' := by
  cases hg with
  | remove S t' hrem hup hoff => exact hp.removes hrem
  | insert b s p q hfits hnew hprev hs =>
    constructor
    · intro x c r hx hr
      by_cases hxb : x = b.indepHash
      · rw [hxb, Function.update_self] at hx
        cases hx
        rcases hs with ⟨rfl, -⟩ | ⟨stage, -, hiff⟩
        · exact hr.elim
        · exact hiff.mp hr
      · rw [Function.update_of_ne hxb] at hx
        exact hp.height x c r hx hr
    · intro x c r d w hx hd hw
      by_cases hxb : x = b.indepHash
      · rw [hxb, Function.update_self] at hx
        cases hx
        rw [Function.update_of_ne, hprev] at hd
        · cases hd
          rcases hs with ⟨-, hq⟩ | ⟨stage, -, hiff⟩
          · exact absurd hw hq.not_pending
          · have h1 := hp.height _ p q hprev hw
            have h2 := hfits.above p q hprev
            exact hiff.mpr (by omega)
        · intro heq
          rw [heq, hnew] at hprev
          cases hprev
      · rw [Function.update_of_ne hxb] at hx
        rw [Function.update_of_ne (ht.not_previousBlock hfits hnew (by simp [hprev]) hx)] at hd
        exact hp.above x c r d w hx hd hw
  | rewrite b c s s' hb hsame hs =>
    apply hp.update hb hsame
    · rcases hs with rfl | ⟨-, rfl, -⟩
      · exact id
      · exact False.elim
    · intro hpend hpend' p q hq
      rcases hs with rfl | ⟨-, -, hvalid⟩
      · exact absurd hpend hpend'
      · exact (hvalid p q hq).not_pending

lemma PendingOrder.movesTip (hp : PendingOrder fork t) (hm : MovesTip t t' x) : PendingOrder fork t' := by
  apply hp.relabels hm.relabels
  · intro y b s b' s' hy hy' hs'
    obtain ⟨q, hq, ⟨-, rfl⟩ | ⟨-, rfl⟩⟩ := hm.back hy'
    · exact hs'.elim
    · rw [hy] at hq
      cases hq
      cases s with
      | onChain => exact hs'.elim
      | validated => exact hs'.elim
      | notValidated => exact hs'
  · intro y b s b' s' p r hy hy' hs hs' hprev
    obtain ⟨q, hq, ⟨hu, rfl⟩ | ⟨-, rfl⟩⟩ := hm.back hy'
    · have hup : Under t b'.previousBlock x := (Under.step y b' q hq .self).trans hu
      rw [(hm.onChain_iff hprev).mpr hup]
      exact id
    · rw [hy] at hq
      cases hq
      cases s with
      | onChain => exact hs.elim
      | validated => exact hs.elim
      | notValidated => exact absurd hs hs'

lemma Growth.rooted (hg : Growth fork t t') (ht : Rooted t) : Rooted t' := by
  induction hg with
  | refl => exact ht
  | tail _ hstep ih => exact hstep.rooted ih

lemma Growth.pendingOrder (hg : Growth fork t t') (ht : Rooted t) (hp : PendingOrder fork t) :
    PendingOrder fork t' := by
  induction hg with
  | refl => exact hp
  | tail hbefore hstep ih => exact hstep.pendingOrder (Growth.rooted hbefore ht) ih

end Arweave.BlockCache

import Mathlib.Data.List.TakeWhile
import Arweave.BlockCache.MaxCdiff

/-!
# The longest chain

The recorded chain goes from the block with the maximum cumulative difficulty downwards, without
the blocks that still wait for the nonce limiter. The walk never meets what makes it fall back
to the previous record, so every change of the cache is followed by a record that fits.
-/

namespace Arweave.BlockCache
open Arweave.Lib

variable {cfg : Config} {c c' : Cache} {K : Block → Prop} {op : Op} {t : BlockTree} {x y : Bytes} {b : Block}
  {s : Status} {fork : Nat} {path : List (Block × Status)}

/-- The cached blocks from a block downwards, with their statuses. -/
inductive Path (t : BlockTree) : Bytes → List (Block × Status) → Prop
  | nil (x : Bytes) (hx : t x = none) : Path t x []
  | cons (x : Bytes) (b : Block) (s : Status) (path : List (Block × Status)) (hx : t x = some (b, s))
      (hprev : Path t b.previousBlock path) : Path t x ((b, s) :: path)

namespace Path

lemma exists_of_ascending (ht : Ascending t) (x : Bytes) : ∃ path, Path t x path := by
  cases hx : t x with
  | none => exact ⟨[], .nil x hx⟩
  | some v =>
    obtain ⟨b, s⟩ := v
    induction hn : b.height using Nat.strong_induction_on generalizing x b s with
    | _ n ih =>
      cases hp : t b.previousBlock with
      | none => exact ⟨[(b, s)], .cons x b s [] hx (.nil _ hp)⟩
      | some v =>
        obtain ⟨p, q⟩ := v
        have hheight := ht x b s p q hx hp
        obtain ⟨path, hpath⟩ := ih p.height (by omega) b.previousBlock p q hp rfl
        exact ⟨(b, s) :: path, .cons x b s path hx hpath⟩

lemma cached (hpath : Path t x path) : ∀ p ∈ path, ∃ y, t y = some p := by
  induction hpath with
  | nil x hx => simp
  | cons x b s path hx hprev ih =>
    intro p hp
    rcases List.mem_cons.mp hp with rfl | hp
    · exact ⟨x, hx⟩
    · exact ih p hp

lemma forall_of_head {P : Status → Prop} (hpath : Path t x path)
    (hP : ∀ x b s p r, t x = some (b, s) → t b.previousBlock = some (p, r) → P s → P r)
    (hhead : ∀ b s, t x = some (b, s) → P s) : ∀ p ∈ path, P p.2 := by
  induction hpath with
  | nil x hx => simp
  | cons x b s path hx hprev ih =>
    intro p hp
    have hs := hhead b s hx
    rcases List.mem_cons.mp hp with rfl | hp
    · exact hs
    · exact ih (fun d r hd => hP x b s d r hx hd hs) p hp

lemma not_pending (hpath : Path t x path) (horder : PendingOrder fork t) (hx : t x = some (b, s))
    (hs : ¬s.Pending) : ∀ p ∈ path, ¬p.2.Pending := by
  refine hpath.forall_of_head (P := fun s => ¬s.Pending) ?_ ?_
  · intro y d r p q hy hp hr hq
    exact hr (horder.above y d r p q hy hp hq)
  · intro d r hd
    rw [hx] at hd
    cases hd
    exact hs

lemma not_pending_dropWhile (hpath : Path t x path) (horder : PendingOrder fork t) :
    ∀ p ∈ path.dropWhile fun p => p.2.Pending, ¬p.2.Pending := by
  induction hpath with
  | nil x hx => simp
  | cons x b s path hx hprev ih =>
    by_cases hs : s.Pending
    · rw [List.dropWhile_cons_of_pos (by simpa using hs)]
      exact ih
    · rw [List.dropWhile_cons_of_neg (by simpa using hs)]
      exact (Path.cons x b s path hx hprev).not_pending horder hx hs

lemma length_le (hpath : Path c.info x path) (ht : Ascending c.info) : path.length ≤ c.blocks.size := by
  have hbound : ∀ b s, c.info x = some (b, s) → path.length + c.heightCount (b.height + 1) ≤ c.blocks.size := by
    induction hpath with
    | nil x hx =>
      intro b s hb
      rw [hx] at hb
      cases hb
    | cons x b s path hx hprev ih =>
      intro b' s' hb'
      rw [hx] at hb'
      cases hb'
      obtain ⟨e, he, rfl, -⟩ := exists_entry hx
      have hlt := heightCount_succ_lt he
      cases hprev with
      | nil _ hnone =>
        have := heightCount_le c e.block.height
        simp only [List.length_cons, List.length_nil]
        omega
      | cons _ p q path hp hprev =>
        have hrest := ih p q hp
        rw [← ht x _ _ p q hx hp] at hrest
        simp only [List.length_cons] at hrest ⊢
        omega
  cases hx : c.info x with
  | none =>
    cases hpath with
    | nil => exact Nat.zero_le _
    | cons _ b s path hb _ =>
      rw [hx] at hb
      cases hb
  | some v =>
    have := hbound v.1 v.2 hx
    omega

end Path

/-- What is recorded of the blocks on the way down. -/
def summary (path : List (Block × Status)) : LongestChain :=
  (path.map fun p => (p.1.indepHash, p.1.txs), path.countP fun p => p.2 ≠ .onChain)

section Step

variable {e : Entry} {fuel n count : Nat} {prevStatus : Option Status} {prevH : Bytes}
  {pairs : List (Bytes × List Bytes)}

lemma walk_pending (he : c.blocks.lookup x = some e) (hpending : e.status.Pending) :
    getLongestChainBlockTxsPairs cfg c (fuel + 1) x (n + 1) prevStatus prevH pairs count =
      getLongestChainBlockTxsPairs cfg c fuel e.block.previousBlock cfg.storeBlocksBehindCurrent none [] [] 0 := by
  rw [getLongestChainBlockTxsPairs, if_neg n.succ_ne_zero, he]
  cases hstatus : e.status with
  | onChain => exact absurd hpending (by rw [hstatus]; exact id)
  | validated => exact absurd hpending (by rw [hstatus]; exact id)
  | notValidated stage =>
    cases stage with
    | awaitingValidation => exact absurd hpending (by rw [hstatus]; exact id)
    | awaitingNonceLimiterValidation => simp only [hstatus]
    | nonceLimiterValidationScheduled => simp only [hstatus]
    | nonceLimiterValidated => exact absurd hpending (by rw [hstatus]; exact id)

lemma walk_block (he : c.blocks.lookup x = some e) (hpending : ¬e.status.Pending)
    (hon : prevStatus = some .onChain → e.status = .onChain) :
    getLongestChainBlockTxsPairs cfg c (fuel + 1) x (n + 1) prevStatus prevH pairs count =
      getLongestChainBlockTxsPairs cfg c fuel e.block.previousBlock n (some e.status) x
        ((e.block.indepHash, e.block.txs) :: pairs) (if e.status = .onChain then count else count + 1) := by
  have hnoretry : ¬(prevStatus = some .onChain ∧ e.status ≠ .onChain) := fun hretry => hretry.2 (hon hretry.1)
  rw [getLongestChainBlockTxsPairs, if_neg n.succ_ne_zero, he]
  cases hstatus : e.status with
  | onChain =>
    rw [hstatus] at hnoretry
    simp only [hstatus, if_neg hnoretry, Nat.add_sub_cancel]
  | validated =>
    rw [hstatus] at hnoretry
    simp only [hstatus, if_neg hnoretry, Nat.add_sub_cancel]
  | notValidated stage =>
    rw [hstatus] at hnoretry
    cases stage with
    | awaitingValidation => simp only [hstatus, if_neg hnoretry, Nat.add_sub_cancel]
    | awaitingNonceLimiterValidation => exact absurd (by rw [hstatus]; trivial) hpending
    | nonceLimiterValidationScheduled => exact absurd (by rw [hstatus]; trivial) hpending
    | nonceLimiterValidated => simp only [hstatus, if_neg hnoretry, Nat.add_sub_cancel]

lemma walk_retry (he : c.blocks.lookup x = some e) (hpending : ¬e.status.Pending)
    (hretry : prevStatus = some .onChain ∧ e.status ≠ .onChain) :
    getLongestChainBlockTxsPairs cfg c (fuel + 1) x (n + 1) prevStatus prevH pairs count = c.longestChain := by
  rw [getLongestChainBlockTxsPairs, if_neg n.succ_ne_zero, he]
  cases hstatus : e.status with
  | onChain => exact absurd hstatus hretry.2
  | validated =>
    rw [hstatus] at hretry
    simp only [hstatus, if_pos hretry]
  | notValidated stage =>
    rw [hstatus] at hretry
    cases stage with
    | awaitingValidation => simp only [hstatus, if_pos hretry]
    | awaitingNonceLimiterValidation => exact absurd (by rw [hstatus]; trivial) hpending
    | nonceLimiterValidationScheduled => exact absurd (by rw [hstatus]; trivial) hpending
    | nonceLimiterValidated => simp only [hstatus, if_pos hretry]

end Step

/-- The walk over blocks that do not wait. -/
lemma walk_eq (ht : Rooted c.info) (hpath : Path c.info x path) (hpending : ∀ p ∈ path, ¬p.2.Pending)
    (fuel n : Nat) (prevStatus : Option Status) (prevH : Bytes) (hfuel : path.length < fuel)
    (hon : prevStatus = some .onChain → ∀ p ∈ path, p.2 = .onChain)
    (hend : path = [] → prevStatus = some .onChain ∧ c.blocks.lookup prevH ≠ none)
    (pairs : List (Bytes × List Bytes)) (count : Nat) :
    getLongestChainBlockTxsPairs cfg c fuel x n prevStatus prevH pairs count =
      some (pairs.reverse ++ (summary (path.take n)).1, count + (summary (path.take n)).2) := by
  induction hpath generalizing fuel n prevStatus prevH pairs count with
  | nil x hx =>
    obtain ⟨fuel, rfl⟩ : ∃ k, fuel = k + 1 := ⟨fuel - 1, by omega⟩
    obtain ⟨hprev, hcached⟩ := hend rfl
    obtain ⟨e, he⟩ := Option.ne_none_iff_exists'.mp hcached
    rw [getLongestChainBlockTxsPairs, info_eq_none.mp hx]
    simp [hprev, he, summary]
  | cons x b s path hx hprev ih =>
    obtain ⟨fuel, rfl⟩ : ∃ k, fuel = k + 1 := ⟨fuel - 1, by omega⟩
    cases n with
    | zero => simp [getLongestChainBlockTxsPairs, summary]
    | succ n =>
      obtain ⟨e, he, rfl, rfl⟩ := exists_entry hx
      rw [List.length_cons] at hfuel
      rw [walk_block he (hpending (e.block, e.status) (by simp)) fun h => hon h (e.block, e.status) (by simp)]
      rw [ih (fun p hp => hpending p (by simp [hp])) fuel n (some e.status) x (by omega)]
      · by_cases hstatus : e.status = .onChain
        · simp [summary, hstatus]
        · simp [summary, hstatus]
          omega
      · -- below a block on chain are only blocks on chain
        intro hstatus
        rw [Option.some.injEq] at hstatus
        refine hprev.forall_of_head (P := fun s => s = .onChain) ?_ ?_
        · rintro y d r p q hy hp rfl
          exact ht.closed y d p q hy hp
        · intro d r hd
          exact ht.closed x _ d r (hstatus ▸ hx) hd
      · rintro rfl
        cases hprev with
        | nil _ hnone => exact ⟨congrArg some (ht.rootOnChain x _ _ hx hnone), by simp [he]⟩

lemma walk_eq_of_pendingOrder (ht : Rooted c.info) (horder : PendingOrder fork c.info) (hpath : Path c.info x path)
    (hx : c.info x ≠ none) (fuel : Nat) (hfuel : path.length < fuel) :
    getLongestChainBlockTxsPairs cfg c fuel x cfg.storeBlocksBehindCurrent none [] [] 0 =
      some (summary ((path.dropWhile fun p => p.2.Pending).take cfg.storeBlocksBehindCurrent)) := by
  induction hpath generalizing fuel with
  | nil x hnone => exact absurd hnone hx
  | cons x b s path hb hprev ih =>
    obtain ⟨fuel, rfl⟩ : ∃ k, fuel = k + 1 := ⟨fuel - 1, by omega⟩
    rw [List.length_cons] at hfuel
    by_cases hpending : s.Pending
    · obtain ⟨e, he, rfl, rfl⟩ := exists_entry hb
      -- a block that waits is not the lowest one
      have hcached : c.info e.block.previousBlock ≠ none := by
        intro hnone
        rw [ht.rootOnChain x _ _ hb hnone] at hpending
        exact hpending
      have hrest := ih hcached fuel (by omega)
      rw [List.dropWhile_cons_of_pos (by simpa using hpending)]
      cases hn : cfg.storeBlocksBehindCurrent with
      | zero => simp [getLongestChainBlockTxsPairs, summary]
      | succ n =>
        rw [walk_pending he hpending, hrest, hn]
    · rw [List.dropWhile_cons_of_neg (by simpa using hpending)]
      have hall := (Path.cons x b s path hb hprev).not_pending horder hb hpending
      rw [walk_eq ht (.cons x b s path hb hprev) hall (fuel + 1) _ none [] (by simpa using hfuel) (by simp) (by simp)]
      simp

/-- The recorded chain: the blocks on the way down from the block with the maximum cumulative
difficulty, from below the deepest one that waits for the nonce limiter, and how many of them are
not on chain. A new computation gives the same. -/
def Recorded (cfg : Config) (c : Cache) : Prop :=
  updateLongestChainCache cfg c = some c ∧
  ∃ above rest, Path c.info c.maxCdiff.2 (above ++ rest) ∧ (∀ p ∈ above.getLast?, p.2.Pending) ∧
    (∀ p ∈ rest, ¬p.2.Pending) ∧
    c.longestChain = some (summary (rest.take cfg.storeBlocksBehindCurrent))

lemma walk_eq_summary (cfg : Config) (hc : Coherent K none c) (hmax : MaxOf none c) (horder : PendingOrder fork c.info)
    (hpath : Path c.info c.maxCdiff.2 path) :
    getLongestChainBlockTxsPairs cfg c (c.blocks.size + 2) c.maxCdiff.2 cfg.storeBlocksBehindCurrent none [] [] 0 =
      some (summary ((path.dropWhile fun p => p.2.Pending).take cfg.storeBlocksBehindCurrent)) := by
  have hlength := hpath.length_le hc.tree.height
  refine walk_eq_of_pendingOrder hc.tree horder hpath ?_ _ (by omega)
  obtain ⟨-, b, s, hb, -⟩ := hmax.cached
  simp [hb]

lemma recorded_of_update (hc : Coherent K none c') (hmax : MaxOf none c') (horder : PendingOrder fork c'.info)
    (hupdate : updateLongestChainCache cfg c = some c') : Recorded cfg c' := by
  obtain ⟨path, hpath⟩ := Path.exists_of_ascending hc.tree.height c'.maxCdiff.2
  have hwalk := walk_eq_summary cfg hc hmax horder hpath
  obtain ⟨r, hr, hc'⟩ := Option.bind_eq_some_iff.mp hupdate
  cases hc'
  have hwalk' := walk_eq_summary cfg (c := c) (hc.longestChain c.longestChain)
    ⟨hmax.cached, hmax.le⟩ horder hpath
  rw [hr] at hwalk'
  refine ⟨?_, path.takeWhile fun p => p.2.Pending, path.dropWhile fun p => p.2.Pending, ?_, ?_, ?_, hwalk'⟩
  · rw [updateLongestChainCache, hwalk, ← hwalk']
    rfl
  · rw [List.takeWhile_append_dropWhile]
    exact hpath
  · intro p hp
    have := List.mem_takeWhile_imp (List.mem_of_getLast? hp)
    simpa using this
  · exact hpath.not_pending_dropWhile horder

/-- The nonce limiter validates a block after the previous block. -/
def Op.InOrder (c : Cache) : Op → Prop
  | .markNonceLimiterValidated h => ∀ e prev, c.blocks.lookup h = some e →
    c.blocks.lookup e.block.previousBlock = some prev → ¬prev.status.Pending
  | _ => True

lemma pendingOrder_new {stamp : Nat} (hnew : new cfg b stamp = some c) : PendingOrder fork c.info where
  height x d s hx hs := by
    rw [((info_new_eq_some hnew).mp hx).2.2] at hs
    exact hs.elim
  above x d s p r _ hp hr := by
    rw [((info_new_eq_some hnew).mp hp).2.2] at hr
    exact hr.elim

lemma PendingOrder.step (hK : Headers K) (hop : ∀ b ∈ op.blocks, K b) (hc : Coherent K none c) (hsafe : op.Safe c)
    (hinOrder : op.InOrder c) (horder : PendingOrder cfg.height26 c.info) (hstep : step cfg c op = some c') :
    PendingOrder cfg.height26 c'.info := by
  cases op with
  | new b stamp => exact pendingOrder_new hstep
  | add b clock stamp =>
    exact (add_spec hK (hop b (by simp [Op.blocks])) hc hsafe hstep).growth.pendingOrder hc.tree horder
  | addValidated b clock stamp =>
    exact (addValidated_spec hK (hop b (by simp [Op.blocks])) hc hsafe hstep).growth.pendingOrder hc.tree horder
  | markNonceLimiterValidated h =>
    rcases setStage_spec hc hstep with rfl | ⟨b, hb, hinfo, -⟩
    · exact horder
    · rw [hinfo]
      apply horder.update hb .rfl False.elim
      intro _ _ p q hp
      obtain ⟨e, he, rfl, -⟩ := exists_entry hb
      obtain ⟨prev, hprev, -, rfl⟩ := exists_entry hp
      exact hinOrder e prev he hprev
  | markNonceLimiterValidationScheduled h =>
    rcases setStage_spec hc hstep with rfl | ⟨b, hb, hinfo, -⟩
    · exact horder
    · rw [hinfo]
      exact horder.update hb .rfl (fun _ => trivial) fun _ hnot => absurd trivial hnot
  | markTip h =>
    obtain ⟨b, s, hb, -, -, -, hsame, hmoves, -⟩ := markTip_spec hc hstep
    by_cases hs : s = .onChain
    · rw [hsame hs]
      exact horder
    · exact horder.movesTip (hmoves hs)
  | remove h =>
    rcases removeOp_spec hc hstep with rfl | ⟨b, s, hb, hr, -⟩
    · exact horder
    · exact horder.removes hr.removes
  | prune depth =>
    obtain ⟨b, s, hb, hpruned, -⟩ := prune_spec hK hc hstep
    exact hpruned.pendingOrder horder

lemma fresh_of_step (hK : Headers K) (hop : ∀ b ∈ op.blocks, K b) (hc : Coherent K none c) (hsafe : op.Safe c)
    (hstep : step cfg c op = some c') : c' = c ∨ ∃ c2, updateLongestChainCache cfg c2 = some c' := by
  cases op with
  | new b stamp => exact .inr ⟨_, hstep⟩
  | add b clock stamp => exact (add_spec hK (hop b (by simp [Op.blocks])) hc hsafe hstep).fresh
  | addValidated b clock stamp => exact (addValidated_spec hK (hop b (by simp [Op.blocks])) hc hsafe hstep).fresh
  | markNonceLimiterValidated h =>
    rcases setStage_spec hc hstep with rfl | ⟨b, -, -, -, -, -, hfresh⟩
    · exact .inl rfl
    · exact .inr hfresh
  | markNonceLimiterValidationScheduled h =>
    rcases setStage_spec hc hstep with rfl | ⟨b, -, -, -, -, -, hfresh⟩
    · exact .inl rfl
    · exact .inr hfresh
  | markTip h =>
    obtain ⟨b, s, -, -, -, -, -, -, hfresh⟩ := markTip_spec hc hstep
    exact .inr hfresh
  | remove h =>
    rcases removeOp_spec hc hstep with rfl | ⟨b, s, -, -, -, -, hfresh⟩
    · exact .inl rfl
    · exact .inr hfresh
  | prune depth =>
    obtain ⟨b, s, -, -, -, -, -, hfresh⟩ := prune_spec hK hc hstep
    exact hfresh

/-- The record fits after every run in which no expiry meets what an insertion writes back and
the nonce limiter validates the blocks of a branch in order. -/
theorem recorded_of_run (cfg : Config) (b : Block) (stamp : Nat) (ops : List Op) (c : Cache)
    (hheaders : Headers (· ∈ givenBlocks b ops)) (hrising : Rising (· ∈ givenBlocks b ops))
    (hops : ∀ before op after s, ops = before ++ op :: after → run cfg b stamp before = some s →
      op.Safe s ∧ op.InOrder s)
    (hrun : run cfg b stamp ops = some c) : Recorded cfg c := by
  have hinv : Sound (· ∈ givenBlocks b ops) c ∧ PendingOrder cfg.height26 c.info ∧ Recorded cfg c := by
    apply run_invariant (C := fun c op => op.Safe c ∧ op.InOrder c) _ _ hops hrun
    · intro c hnew
      have hsound : Sound (· ∈ givenBlocks b ops) c := sound_new hheaders (by simp [givenBlocks]) hnew
      have horder : PendingOrder cfg.height26 c.info := pendingOrder_new hnew
      exact ⟨hsound, horder, recorded_of_update hsound.coherent hsound.max horder hnew⟩
    · rintro c op c' hop ⟨hs, horder, hrec⟩ ⟨hsafe, hinOrder⟩ hstep
      have hs' := hs.step hheaders hrising (given_blocks hop) hsafe hstep
      have horder' := horder.step hheaders (given_blocks hop) hs.coherent hsafe hinOrder hstep
      refine ⟨hs', horder', ?_⟩
      rcases fresh_of_step hheaders (given_blocks hop) hs.coherent hsafe hstep with rfl | ⟨c2, hupdate⟩
      · exact hrec
      · exact recorded_of_update hs'.coherent hs'.max horder' hupdate
  exact hinv.2.2

lemma sampleOps_inOrder : ∀ before op after s, sampleOps = before ++ op :: after →
    run sampleConfig (sampleBlock 1 1 0 1 0) 0 before = some s → op.InOrder s := by
  have hprev : ∀ s ∈ run sampleConfig (sampleBlock 1 1 0 1 0) 0 (sampleOps.take 7),
      (s.blocks.lookup [5]).map (fun e => e.block.previousBlock) = some [4] ∧
      (s.blocks.lookup [4]).map Entry.status = some .onChain := by
    decide
  apply forall_ops
  intro i hi op hop s hs
  change i < 11 at hi
  interval_cases i <;> cases hop
  · trivial
  · trivial
  · trivial
  · trivial
  · trivial
  · trivial
  · trivial
  · intro e prev he hprev'
    obtain ⟨hfive, hfour⟩ := hprev s hs
    rw [he, Option.map_some, Option.some.injEq] at hfive
    rw [hfive] at hprev'
    rw [hprev', Option.map_some, Option.some.injEq] at hfour
    rw [hfour]
    exact id
  · trivial
  · trivial
  · trivial

theorem recorded_of_run_sampleOps : ∃ c, run sampleConfig (sampleBlock 1 1 0 1 0) 0 sampleOps = some c ∧
    Recorded sampleConfig c := by
  obtain ⟨c, hc⟩ := Option.isSome_iff_exists.mp sampleOps_isSome
  refine ⟨c, hc, recorded_of_run _ _ _ _ c sampleOps_headers sampleOps_rising ?_ hc⟩
  intro before op after s heq hs
  exact ⟨sampleOps_safe before op after s heq hs, sampleOps_inOrder before op after s heq hs⟩

/-- Block 2 expires when block 3 with its solution arrives on top of it, and comes back without
being a child of block 1. So it stays when block 1 is pruned, and the walk from block 3 falls back
to the previous record, which has block 1. -/
def staleRecordOps : List Op :=
  [.addValidated (sampleBlock 2 9 1 2 1) (atSecond 0) 0,
    .addValidated (sampleBlock 3 9 2 10 2) (atSecond 5) 5000000,
    .addValidated (sampleBlock 4 7 1 2 1) (atSecond 6) 6000000, .markTip [4],
    .addValidated (sampleBlock 5 8 4 3 2) (atSecond 6) 6000000, .markTip [5], .prune 1]

lemma mem_of_recorded {l : LongestChain} {h : Bytes} {txs : List Bytes} (hrec : Recorded cfg c)
    (hl : c.longestChain = some l) (hmem : (h, txs) ∈ l.1) :
    ∃ y e, c.blocks.lookup y = some e ∧ e.block.indepHash = h := by
  obtain ⟨-, above, rest, hpath, -, -, hrecord⟩ := hrec
  rw [hl, Option.some.injEq] at hrecord
  rw [hrecord, summary, List.mem_map] at hmem
  obtain ⟨p, hp, heq⟩ := hmem
  obtain ⟨y, hy⟩ := hpath.cached p (List.mem_append_right _ (List.mem_of_mem_take hp))
  obtain ⟨e, he, hblock, -⟩ := exists_entry hy
  exact ⟨y, e, he, by rw [hblock]; exact congrArg Prod.fst heq⟩

theorem recorded_of_run_staleRecord : ∃ c, run sampleConfig (sampleBlock 1 1 0 1 0) 0 staleRecordOps = some c ∧
    Headers (· ∈ givenBlocks (sampleBlock 1 1 0 1 0) staleRecordOps) ∧
    Rising (· ∈ givenBlocks (sampleBlock 1 1 0 1 0) staleRecordOps) ∧
    (∀ l, c.longestChain = some l → ([1], []) ∈ l.1) ∧ c.blocks.lookup [1] = none ∧ ¬Recorded sampleConfig c := by
  have hsome : (run sampleConfig (sampleBlock 1 1 0 1 0) 0 staleRecordOps).isSome := by decide
  have hlookups : ∀ c ∈ run sampleConfig (sampleBlock 1 1 0 1 0) 0 staleRecordOps,
      c.longestChain.isSome ∧ (∀ l ∈ c.longestChain, ([1], []) ∈ l.1) ∧ c.blocks.lookup [1] = none ∧
      ∀ p ∈ c.blocks.entries, p.2.block.indepHash ≠ [1] := by
    decide
  obtain ⟨c, hc⟩ := Option.isSome_iff_exists.mp hsome
  obtain ⟨hrecord, hstale, hnone, hentries⟩ := hlookups c hc
  refine ⟨c, hc, headers_of_list (by decide), rising_of_list (by decide), hstale, hnone, ?_⟩
  intro hrec
  obtain ⟨l, hl⟩ := Option.isSome_iff_exists.mp hrecord
  obtain ⟨y, e, he, hhash⟩ := mem_of_recorded hrec hl (hstale l hl)
  exact hentries (y, e) (SortedMap.lookup_eq_some.mp he) hhash

end Arweave.BlockCache

import Arweave.BlockCache.OnChain

/-!
# The maximum cumulative difficulty

The recorded block is cached and has the maximum cumulative difficulty. Pruning keeps it because
a block on chain is never on another branch than the tip, so a block that is pruned has another
one above.
-/

namespace Arweave.BlockCache
open Arweave.Lib

variable {cfg : Config} {c c' : Cache} {K : Block → Prop} {op : Op} {b : Block} {stamp : Nat}

lemma lineal_new (hnew : new cfg b stamp = some c) : Lineal K c.info c.tip := by
  intro x d hx
  obtain ⟨e, he⟩ := (tipPath_new hnew).onChain
  rw [((info_new_eq_some hnew).mp hx).1, ((info_new_eq_some hnew).mp he).1]
  exact .inl .self

lemma SameChain.lineal {t t' : BlockTree} {tip : Bytes} (hs : SameChain t t') (hlineal : Lineal K t tip) :
    Lineal K t' tip := by
  intro x d hx
  obtain ⟨d', hd'⟩ := hs.back x d hx
  exact hlineal x d' hd'

lemma Lineal.step (hK : Headers K) (hop : ∀ b ∈ op.blocks, K b) (hc : Coherent K none c) (hsafe : op.Safe c)
    (hlineal : Lineal K c.info c.tip) (hstep : step cfg c op = some c') : Lineal K c'.info c'.tip := by
  cases op with
  | new b stamp => exact lineal_new hstep
  | add b clock stamp =>
    have hext := add_spec hK (hop b (by simp [Op.blocks])) hc hsafe hstep
    rw [hext.tip]
    exact hext.growth.sameChain.lineal hlineal
  | addValidated b clock stamp =>
    have hext := addValidated_spec hK (hop b (by simp [Op.blocks])) hc hsafe hstep
    rw [hext.tip]
    exact hext.growth.sameChain.lineal hlineal
  | markNonceLimiterValidated h =>
    rcases setStage_spec hc hstep with rfl | ⟨b, hb, hinfo, -, -, htip, -⟩
    · exact hlineal
    · rw [htip, hinfo]
      exact (sameChain_stage hb).lineal hlineal
  | markNonceLimiterValidationScheduled h =>
    rcases setStage_spec hc hstep with rfl | ⟨b, hb, hinfo, -, -, htip, -⟩
    · exact hlineal
    · rw [htip, hinfo]
      exact (sameChain_stage hb).lineal hlineal
  | markTip h =>
    obtain ⟨b, s, hb, htip, -, -, hsame, hmoves, -⟩ := markTip_spec hc hstep
    have hancestor : ∀ {x y}, Under c.info x y → Ancestor K x y := ancestor_of_under hc.tree.indepHash hc.known
    rw [htip]
    intro x d hx
    by_cases hs : s = .onChain
    · rw [hsame hs] at hx
      rw [hs] at hb
      rcases hc.tree.onChain_linear hx hb with hu | hu
      · exact .inl (hancestor hu)
      · exact .inr (hancestor hu)
    · exact .inl (hancestor (((hmoves hs).onChain_iff hx).mp rfl))
  | remove h =>
    rcases removeOp_spec hc hstep with rfl | ⟨b, s, hb, hr, -⟩
    · exact hlineal
    · rw [hr.tip]
      intro x d hx
      exact hlineal x d (hr.removes.some_iff.mp hx).2
  | prune depth =>
    obtain ⟨b, s, hb, hpruned, -, htip, -⟩ := prune_spec hK hc hstep
    rw [htip]
    exact hpruned.lineal hlineal

lemma maxOf_new (hnew : new cfg b stamp = some c) : MaxOf none c := by
  have hmax : c.maxCdiff = (b.cumulativeDiff, b.indepHash) := by
    obtain ⟨r, hr⟩ := updateLongestChainCache_eq hnew
    rw [hr]
  constructor
  · rw [hmax]
    exact ⟨by simp, b, .onChain, (info_new_eq_some hnew).mpr ⟨rfl, rfl, rfl⟩, rfl⟩
  · intro x d s hx _
    rw [hmax, ((info_new_eq_some hnew).mp hx).2.1]

lemma MaxOf.step (hK : Headers K) (hrising : Rising K) (hop : ∀ b ∈ op.blocks, K b) (hc : Coherent K none c)
    (hsafe : op.Safe c) (hlineal : Lineal K c.info c.tip) (hmax : MaxOf none c)
    (hstep : step cfg c op = some c') : MaxOf none c' := by
  cases op with
  | new b stamp => exact maxOf_new hstep
  | add b clock stamp => exact (add_spec hK (hop b (by simp [Op.blocks])) hc hsafe hstep).max hmax
  | addValidated b clock stamp => exact (addValidated_spec hK (hop b (by simp [Op.blocks])) hc hsafe hstep).max hmax
  | markNonceLimiterValidated h =>
    rcases setStage_spec hc hstep with rfl | ⟨b, -, -, hrel, -⟩
    · exact hmax
    · exact hmax.relabel hrel
  | markNonceLimiterValidationScheduled h =>
    rcases setStage_spec hc hstep with rfl | ⟨b, -, -, hrel, -⟩
    · exact hmax
    · exact hmax.relabel hrel
  | markTip h =>
    obtain ⟨b, s, -, -, hrel, -⟩ := markTip_spec hc hstep
    exact hmax.relabel hrel
  | remove h =>
    rcases removeOp_spec hc hstep with rfl | ⟨b, s, -, -, -, hmax', -⟩
    · exact hmax
    · exact hmax' hmax
  | prune depth =>
    obtain ⟨b, s, -, -, -, -, hmax', -⟩ := prune_spec hK hc hstep
    exact hmax' hrising hlineal hmax

/-- What holds in all runs without a bad expiry, if the difficulty grows from block to block. -/
structure Sound (K : Block → Prop) (c : Cache) : Prop where
  coherent : Coherent K none c
  lineal : Lineal K c.info c.tip
  max : MaxOf none c

lemma sound_new (hK : Headers K) (hb : K b) (hnew : new cfg b stamp = some c) : Sound K c :=
  ⟨coherent_new hK hb hnew, lineal_new hnew, maxOf_new hnew⟩

lemma Sound.step (hK : Headers K) (hrising : Rising K) (hop : ∀ b ∈ op.blocks, K b) (hs : Sound K c)
    (hsafe : op.Safe c) (hstep : step cfg c op = some c') : Sound K c' :=
  ⟨hs.coherent.step hK hop hsafe hstep, hs.lineal.step hK hop hs.coherent hsafe hstep,
    hs.max.step hK hrising hop hs.coherent hsafe hs.lineal hstep⟩

/-- The recorded block is cached, with the recorded cumulative difficulty, and no cached block
has a greater one. -/
def IsMax (c : Cache) : Prop :=
  (∃ e, c.blocks.lookup c.maxCdiff.2 = some e ∧ e.block.cumulativeDiff = c.maxCdiff.1) ∧
    ∀ h e, c.blocks.lookup h = some e → e.block.cumulativeDiff ≤ c.maxCdiff.1

lemma MaxOf.isMax (hmax : MaxOf none c) : IsMax c := by
  constructor
  · obtain ⟨-, b, s, hb, hcdiff⟩ := hmax.cached
    obtain ⟨e, he, rfl, -⟩ := exists_entry hb
    exact ⟨e, he, hcdiff⟩
  · intro h e he
    exact hmax.le h _ _ (info_of_lookup he) (by simp)

/-- The maximum is right after every run in which no expiry meets what an insertion writes
back. -/
theorem isMax_of_run (cfg : Config) (b : Block) (stamp : Nat) (ops : List Op) (c : Cache)
    (hheaders : Headers (· ∈ givenBlocks b ops)) (hrising : Rising (· ∈ givenBlocks b ops))
    (hsafe : ∀ before op after s, ops = before ++ op :: after → run cfg b stamp before = some s → op.Safe s)
    (hrun : run cfg b stamp ops = some c) : IsMax c := by
  have hsound : Sound (· ∈ givenBlocks b ops) c := by
    apply run_invariant (C := fun c op => op.Safe c) _ _ hsafe hrun
    · intro c hnew
      exact sound_new hheaders (by simp [givenBlocks]) hnew
    · intro c op c' hop hs hsafe hstep
      exact hs.step hheaders hrising (given_blocks hop) hsafe hstep
  exact hsound.max.isMax

lemma rising_of_list {l : List Block} (hl : ∀ b ∈ l, ∀ c ∈ l, b.previousBlock = c.indepHash →
    c.cumulativeDiff < b.cumulativeDiff) : Rising (· ∈ l) := fun b c hb hc => hl b hb c hc

lemma sampleOps_rising : Rising (· ∈ givenBlocks (sampleBlock 1 1 0 1 0) sampleOps) := rising_of_list (by decide)

theorem isMax_of_run_sampleOps : ∃ c, run sampleConfig (sampleBlock 1 1 0 1 0) 0 sampleOps = some c ∧ IsMax c := by
  obtain ⟨c, hc⟩ := Option.isSome_iff_exists.mp sampleOps_isSome
  exact ⟨c, hc, isMax_of_run _ _ _ _ c sampleOps_headers sampleOps_rising sampleOps_safe hc⟩

/-- Block 2 expires when block 3 with its solution arrives on top of it, and comes back without
a link, so that it is not found when block 3 is removed. -/
def lostLinkOps : List Op :=
  [.addValidated (sampleBlock 2 9 1 2 1) (atSecond 0) 0,
    .addValidated (sampleBlock 3 9 2 3 2) (atSecond 5) 5000000, .remove [3]]

theorem isMax_of_run_lostLink : ∃ c, run sampleConfig (sampleBlock 1 1 0 1 0) 0 lostLinkOps = some c ∧
    Headers (· ∈ givenBlocks (sampleBlock 1 1 0 1 0) lostLinkOps) ∧
    Rising (· ∈ givenBlocks (sampleBlock 1 1 0 1 0) lostLinkOps) ∧
    c.maxCdiff = (1, [1]) ∧ (∃ e, c.blocks.lookup [2] = some e ∧ e.block.cumulativeDiff = 2) ∧ ¬IsMax c := by
  have hsome : (run sampleConfig (sampleBlock 1 1 0 1 0) 0 lostLinkOps).isSome := by decide
  have hlookups : ∀ c ∈ run sampleConfig (sampleBlock 1 1 0 1 0) 0 lostLinkOps, c.maxCdiff = (1, [1]) ∧
      (c.blocks.lookup [2]).map (fun e => e.block.cumulativeDiff) = some 2 := by
    decide
  obtain ⟨c, hc⟩ := Option.isSome_iff_exists.mp hsome
  obtain ⟨hmax, hlost⟩ := hlookups c hc
  obtain ⟨e, he, hcdiff⟩ := Option.map_eq_some_iff.mp hlost
  refine ⟨c, hc, headers_of_list (by decide), rising_of_list (by decide), hmax, ⟨e, he, hcdiff⟩, ?_⟩
  intro hismax
  have := hismax.2 [2] e he
  rw [hcdiff, hmax] at this
  omega

end Arweave.BlockCache

import Arweave.BlockCache.Runs

/-!
# The chain to the tip

In the runs in which a tip is never marked again and blocks on chain are never removed, the
blocks on chain are the ones on the way from the lowest block to the tip.
-/

namespace Arweave.BlockCache
open Arweave.Lib

variable {cfg : Config} {c c' : Cache} {K : Block → Prop} {op : Op}

/-- A block that is on chain is neither made the tip nor removed. -/
def Op.Orderly (c : Cache) : Op → Prop
  | .markTip h => ∀ e, c.blocks.lookup h = some e → e.status ≠ .onChain
  | .remove h => ∀ e, c.blocks.lookup h = some e → e.status ≠ .onChain
  | _ => True

lemma tipPath_new {b : Block} {stamp : Nat} (hnew : new cfg b stamp = some c) : TipPath c.info c.tip := by
  have htip : c.tip = b.indepHash := by
    obtain ⟨r, hr⟩ := updateLongestChainCache_eq hnew
    rw [hr]
  constructor
  · exact ⟨b, (info_new_eq_some hnew).mpr ⟨htip, rfl, rfl⟩⟩
  · intro x d hx
    rw [htip, ((info_new_eq_some hnew).mp hx).1]
    exact .self

lemma Removed.sameChain (hc : Coherent K none c) {h : Bytes} {b : Block} {s : Status}
    (hh : c.info h = some (b, s)) (hs : s ≠ .onChain) (hr : Removed c c' (Under c.info h)) :
    SameChain c.info c'.info := by
  have hgrows : Grows 0 c.info c'.info := by
    apply Grows.remove _ _ hr.removes
    · intro x d r hx hu
      exact .step x d r hx hu
    · intro x d hx hu
      exact hs (hc.tree.onChain_of_under hx hu hh)
  exact hgrows.sameChain

lemma TipPath.step (hK : Headers K) (hop : ∀ b ∈ op.blocks, K b) (hc : Coherent K none c) (hsafe : op.Safe c)
    (horderly : op.Orderly c) (hp : TipPath c.info c.tip) (hstep : step cfg c op = some c') :
    TipPath c'.info c'.tip := by
  cases op with
  | new b stamp => exact tipPath_new hstep
  | add b clock stamp =>
    have hext := add_spec hK (hop b (by simp [Op.blocks])) hc hsafe hstep
    rw [hext.tip]
    exact hp.sameChain hext.growth.sameChain hc.tree
  | addValidated b clock stamp =>
    have hext := addValidated_spec hK (hop b (by simp [Op.blocks])) hc hsafe hstep
    rw [hext.tip]
    exact hp.sameChain hext.growth.sameChain hc.tree
  | markNonceLimiterValidated h =>
    rcases setStage_spec hc hstep with rfl | ⟨b, hb, hinfo, -, -, htip, -⟩
    · exact hp
    · rw [htip, hinfo]
      exact hp.sameChain (sameChain_stage hb) hc.tree
  | markNonceLimiterValidationScheduled h =>
    rcases setStage_spec hc hstep with rfl | ⟨b, hb, hinfo, -, -, htip, -⟩
    · exact hp
    · rw [htip, hinfo]
      exact hp.sameChain (sameChain_stage hb) hc.tree
  | markTip h =>
    obtain ⟨b, s, hb, htip, -, -, -, hmoves, -⟩ := markTip_spec hc hstep
    obtain ⟨e, he, -, hstatus⟩ := exists_entry hb
    rw [htip]
    exact TipPath.movesTip (hmoves (hstatus ▸ horderly e he)) hb
  | remove h =>
    rcases removeOp_spec hc hstep with rfl | ⟨b, s, hb, hr, -⟩
    · exact hp
    · obtain ⟨e, he, -, hstatus⟩ := exists_entry hb
      rw [hr.tip]
      exact hp.sameChain (hr.sameChain hc hb (hstatus ▸ horderly e he)) hc.tree
  | prune depth =>
    obtain ⟨b, s, hb, hpruned, -, htip, -⟩ := prune_spec hK hc hstep
    obtain ⟨d, hd⟩ := hp.onChain
    rw [hb] at hd
    cases hd
    rw [htip]
    exact hpruned.tipPath hp hb (by omega)

/-- The blocks on chain lead from the lowest block to the tip, one for every height, and a
validated block has a validated previous block. -/
structure OneChain (c : Cache) : Prop where
  tip : ∃ e, c.blocks.lookup c.tip = some e ∧ e.status = .onChain
  onChain_iff : ∀ h e, c.blocks.lookup h = some e → (e.status = .onChain ↔ Under c.info h c.tip)
  height : ∀ h e h' e', c.blocks.lookup h = some e → c.blocks.lookup h' = some e' → e.status = .onChain →
    e'.status = .onChain → e.block.height = e'.block.height → h = h'
  valid : ∀ h e prev, c.blocks.lookup h = some e → e.status.Valid →
    c.blocks.lookup e.block.previousBlock = some prev → prev.status.Valid

lemma TipPath.oneChain (hc : Coherent K none c) (hp : TipPath c.info c.tip) : OneChain c where
  tip := by
    obtain ⟨b, hb⟩ := hp.onChain
    obtain ⟨e, he, -, hstatus⟩ := exists_entry hb
    exact ⟨e, he, hstatus⟩
  onChain_iff h e he := hp.onChain_iff hc.tree (info_of_lookup he)
  height h e h' e' he he' hon hon' hheight := by
    have hx := info_of_lookup he
    have hy := info_of_lookup he'
    by_contra hne
    rcases hc.tree.onChain_linear (hon ▸ hx) (hon' ▸ hy) with hu | hu
    · obtain ⟨d, r, hd, hprev⟩ := hu.cached (Ne.symm hne)
      rw [hy] at hd
      cases hd
      have := hc.tree.height.height_lt hx hy hprev
      omega
    · obtain ⟨d, r, hd, hprev⟩ := hu.cached hne
      rw [hx] at hd
      cases hd
      have := hc.tree.height.height_lt hy hx hprev
      omega
  valid h e prev he hs hprev := hc.tree.valid h _ _ _ _ (info_of_lookup he) hs (info_of_lookup hprev)

lemma orderly_of_status {c : Cache} {h : Bytes} (hstatus : (c.blocks.lookup h).map Entry.status ≠ some .onChain) :
    ∀ e, c.blocks.lookup h = some e → e.status ≠ .onChain := by
  intro e he hon
  exact hstatus (by rw [he, Option.map_some, hon])

def Op.isOrderly (c : Cache) : Op → Bool
  | .markTip h | .remove h => decide ((c.blocks.lookup h).map Entry.status ≠ some .onChain)
  | _ => true

lemma orderly_of_isOrderly (op : Op) (h : op.isOrderly c = true) : op.Orderly c := by
  cases op with
  | markTip h' => exact orderly_of_status (of_decide_eq_true h)
  | remove h' => exact orderly_of_status (of_decide_eq_true h)
  | _ => trivial

lemma sampleOps_orderly : ∀ before op after s, sampleOps = before ++ op :: after →
    run sampleConfig (sampleBlock 1 1 0 1 0) 0 before = some s → op.Orderly s :=
  forall_ops_of_check (fun _ => orderly_of_isOrderly) (by decide)

/-- One chain leads to the tip after every run in which no expiry meets what an insertion writes
back and no block on chain is made the tip or removed. -/
theorem oneChain_of_run (cfg : Config) (b : Block) (stamp : Nat) (ops : List Op) (c : Cache)
    (hheaders : Headers (· ∈ givenBlocks b ops))
    (hops : ∀ before op after s, ops = before ++ op :: after → run cfg b stamp before = some s →
      op.Safe s ∧ op.Orderly s)
    (hrun : run cfg b stamp ops = some c) : OneChain c := by
  have hinv : Coherent (· ∈ givenBlocks b ops) none c ∧ TipPath c.info c.tip := by
    apply run_invariant (C := fun c op => op.Safe c ∧ op.Orderly c) _ _ hops hrun
    · intro c hnew
      exact ⟨coherent_new hheaders (by simp [givenBlocks]) hnew, tipPath_new hnew⟩
    · rintro c op c' hop ⟨hc, hp⟩ ⟨hsafe, horderly⟩ hstep
      exact ⟨hc.step hheaders (given_blocks hop) hsafe hstep,
        hp.step hheaders (given_blocks hop) hc hsafe horderly hstep⟩
  exact hinv.2.oneChain hinv.1

theorem oneChain_of_run_sampleOps : ∃ c, run sampleConfig (sampleBlock 1 1 0 1 0) 0 sampleOps = some c ∧
    OneChain c := by
  obtain ⟨c, hc⟩ := Option.isSome_iff_exists.mp sampleOps_isSome
  refine ⟨c, hc, oneChain_of_run _ _ _ _ c sampleOps_headers ?_ hc⟩
  intro before op after s heq hs
  exact ⟨sampleOps_safe before op after s heq hs, sampleOps_orderly before op after s heq hs⟩

/-- Block 2 expires when block 3 with its solution arrives on top of it, and comes back without
being a child of block 1, so that it stays on chain when the chain moves to block 4. -/
def lostForkOps : List Op :=
  [.addValidated (sampleBlock 2 9 1 2 1) (atSecond 0) 0,
    .addValidated (sampleBlock 3 9 2 3 2) (atSecond 5) 5000000, .markTip [3],
    .addValidated (sampleBlock 4 7 1 2 1) (atSecond 6) 6000000, .markTip [4]]

theorem oneChain_of_run_lostFork : ∃ c, run sampleConfig (sampleBlock 1 1 0 1 0) 0 lostForkOps = some c ∧
    Headers (· ∈ givenBlocks (sampleBlock 1 1 0 1 0) lostForkOps) ∧
    (∀ before op after s, lostForkOps = before ++ op :: after →
      run sampleConfig (sampleBlock 1 1 0 1 0) 0 before = some s → op.Orderly s) ∧
    c.tip = [4] ∧ (∃ e, c.blocks.lookup [2] = some e ∧ e.status = .onChain ∧ e.block.height = 1) ∧ ¬OneChain c := by
  have hsome : (run sampleConfig (sampleBlock 1 1 0 1 0) 0 lostForkOps).isSome := by decide
  have hlookups : ∀ c ∈ run sampleConfig (sampleBlock 1 1 0 1 0) 0 lostForkOps, c.tip = [4] ∧
      (c.blocks.lookup [2]).map (fun e => (e.status, e.block.height)) = some (.onChain, 1) ∧
      (c.blocks.lookup [4]).map (fun e => (e.status, e.block.height)) = some (.onChain, 1) := by
    decide
  have hstatus : ∀ x ∈ [(2, [3]), (4, [4])],
      ∀ s ∈ run sampleConfig (sampleBlock 1 1 0 1 0) 0 (lostForkOps.take x.1),
      (s.blocks.lookup x.2).map Entry.status ≠ some .onChain := by
    decide
  obtain ⟨c, hc⟩ := Option.isSome_iff_exists.mp hsome
  obtain ⟨htip, hlost, hfour⟩ := hlookups c hc
  obtain ⟨e, he, hvalues⟩ := Option.map_eq_some_iff.mp hlost
  obtain ⟨e', he', hvalues'⟩ := Option.map_eq_some_iff.mp hfour
  obtain ⟨hon, hheight⟩ := Prod.mk.inj hvalues
  obtain ⟨hon', hheight'⟩ := Prod.mk.inj hvalues'
  refine ⟨c, hc, headers_of_list (by decide), ?_, htip, ⟨e, he, hon, hheight⟩, ?_⟩
  · apply forall_ops
    intro i hi op hop s hs
    change i < 5 at hi
    interval_cases i <;> cases hop
    · trivial
    · trivial
    · exact orderly_of_status (hstatus (2, [3]) (by decide) s hs)
    · trivial
    · exact orderly_of_status (hstatus (4, [4]) (by decide) s hs)
  · intro hone
    have := hone.height [2] e [4] e' he he' hon hon' (hheight.trans hheight'.symm)
    cases this

end Arweave.BlockCache

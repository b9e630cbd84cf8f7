import Mathlib.Tactic.IntervalCases
import Arweave.BlockCache.Pruning
import Arweave.Lib.Runs

/-!
# Runs of the block cache

The operations of the node on the block cache. When no block that expires in an insertion is
one that the insertion writes back, the children of every block, the links and the solutions are
exact after every run.
-/

namespace Arweave.BlockCache
open Arweave.Lib

/-- The operations that change the cache, with the times when the tests for expiry are made and
the times of arrival. -/
inductive Op where
  | new (b : Block) (stamp : Nat)
  | add (b : Block) (clock : Bytes → Nat) (stamp : Nat)
  | addValidated (b : Block) (clock : Bytes → Nat) (stamp : Nat)
  | markNonceLimiterValidated (h : Bytes)
  | markNonceLimiterValidationScheduled (h : Bytes)
  | markTip (h : Bytes)
  | remove (h : Bytes)
  | prune (depth : Nat)

variable {cfg : Config} {c c' : Cache} {b : Block} {stamp : Nat} {K : Block → Prop} {op : Op} {ops : List Op}

def step (cfg : Config) (c : Cache) : Op → Option Cache
  | .new b stamp => new cfg b stamp
  | .add b clock stamp => add cfg c b clock stamp
  | .addValidated b clock stamp => addValidated cfg c b clock stamp
  | .markNonceLimiterValidated h => markNonceLimiterValidated cfg c h
  | .markNonceLimiterValidationScheduled h => markNonceLimiterValidationScheduled cfg c h
  | .markTip h => markTip cfg c h
  | .remove h => remove cfg c h
  | .prune depth => prune cfg c depth

/-- A run starts with a new cache. -/
def run (cfg : Config) (b : Block) (stamp : Nat) (ops : List Op) : Option Cache := do
  let c ← new cfg b stamp
  ops.foldlM (step cfg) c

/-- The blocks that an operation gives to the cache. -/
def Op.blocks : Op → List Block
  | .new b _ => [b]
  | .add b _ _ => [b]
  | .addValidated b _ _ => [b]
  | _ => []

def givenBlocks (b : Block) (ops : List Op) : List Block := b :: ops.flatMap Op.blocks

def initializeOps : List (Block × (Bytes → Nat) × Nat) → List Op
  | [] => []
  | [_] => []
  | (b, clock, stamp) :: blocks => initializeOps blocks ++ [.addValidated b clock stamp, .markTip b.indepHash]

lemma initializeFromList_eq_run (blocks : List (Block × (Bytes → Nat) × Nat)) (hne : blocks ≠ []) :
    initializeFromList cfg blocks = run cfg (blocks.getLast hne).1 (blocks.getLast hne).2.2 (initializeOps blocks) := by
  induction blocks with
  | nil => exact absurd rfl hne
  | cons x blocks ih =>
    obtain ⟨b, clock, stamp⟩ := x
    cases blocks with
    | nil =>
      simp only [initializeFromList, List.getLast_singleton, initializeOps, run, List.foldlM_nil]
      cases new cfg b stamp <;> rfl
    | cons y blocks =>
      have hlast : ((b, clock, stamp) :: y :: blocks).getLast hne = (y :: blocks).getLast (by simp) :=
        List.getLast_cons _
      have hops : initializeOps ((b, clock, stamp) :: y :: blocks) =
          initializeOps (y :: blocks) ++ [.addValidated b clock stamp, .markTip b.indepHash] := rfl
      change (initializeFromList cfg (y :: blocks)).bind _ = _
      rw [ih (by simp), hlast, hops]
      simp only [run, List.foldlM_append, List.foldlM_cons, List.foldlM_nil, step, bind_pure, Option.bind_eq_bind,
        Option.bind_assoc]

lemma info_new (hnew : new cfg b stamp = some c) (x : Bytes) :
    c.info x = if x = b.indepHash then some (b, .onChain) else none := by
  obtain ⟨r, rfl⟩ := updateLongestChainCache_eq hnew
  rw [Cache.info, SortedMap.lookup_insert]
  split_ifs <;> rfl

lemma info_new_eq_some (hnew : new cfg b stamp = some c) {x : Bytes} {d : Block} {s : Status} :
    c.info x = some (d, s) ↔ x = b.indepHash ∧ d = b ∧ s = .onChain := by
  rw [info_new hnew]
  split_ifs with hx
  · simp [hx, eq_comm]
  · simp [hx]

lemma coherent_new (hK : Headers K) (hb : K b) (hnew : new cfg b stamp = some c) : Coherent K none c := by
  have hsome : ∀ {x d s}, c.info x = some (d, s) ↔ x = b.indepHash ∧ d = b ∧ s = .onChain := info_new_eq_some hnew
  have hself : b.previousBlock ≠ b.indepHash := by
    intro heq
    have := hK.height b b hb hb heq
    omega
  have hprev : ∀ {x d s p q}, c.info x = some (d, s) → c.info d.previousBlock ≠ some (p, q) := by
    intro x d s p q hx hp
    obtain ⟨-, rfl, -⟩ := hsome.mp hx
    exact hself (hsome.mp hp).1
  refine ⟨⟨?_, ?_, ?_⟩, ⟨?_, ?_, ?_, ?_, ?_, ?_, ?_⟩, ?_, ?_⟩
  · intro n x
    obtain ⟨r, hr⟩ := updateLongestChainCache_eq hnew
    rw [hr, OrdSet.mem_ofList, List.mem_singleton, ← hr]
    simp only [hsome]
    constructor
    · intro heq
      cases heq
      exact ⟨by simp, b, _, ⟨rfl, rfl, rfl⟩, rfl⟩
    · rintro ⟨-, d, s, ⟨rfl, rfl, -⟩, rfl⟩
      rfl
  · intro solutionH x
    obtain ⟨r, hr⟩ := updateLongestChainCache_eq hnew
    rw [Cache.solutionSet, hr, SortedMap.lookup_insert, ← hr]
    simp only [hsome]
    split_ifs with hsol
    · rw [Option.getD_some, OrdSet.mem_ofList, List.mem_singleton]
      constructor
      · rintro rfl
        exact ⟨b, _, ⟨rfl, rfl, rfl⟩, hsol.symm⟩
      · rintro ⟨d, s, ⟨hx, -⟩, -⟩
        exact hx
    · simp only [SortedMap.lookup_empty, Option.getD_none, OrdSet.not_mem_empty, false_iff]
      rintro ⟨d, s, ⟨-, rfl, -⟩, hhash⟩
      exact hsol hhash.symm
  · intro solutionH set hset
    obtain ⟨r, hr⟩ := updateLongestChainCache_eq hnew
    rw [hr, SortedMap.lookup_insert] at hset
    split_ifs at hset
    · cases hset
      exact ⟨b.indepHash, by simp⟩
    · cases hset
  · intro x d s hx
    obtain ⟨rfl, rfl, -⟩ := hsome.mp hx
    rfl
  · intro x d s p r hx hp
    exact absurd hp (hprev hx)
  · intro x d s y f r hx hy _ _
    rw [(hsome.mp hx).1, (hsome.mp hy).1]
  · intro x d s hx _
    exact (hsome.mp hx).2.2
  · intro x d p r hx hp
    exact absurd hp (hprev hx)
  · intro x d s p r hx _ hp
    exact absurd hp (hprev hx)
  · intro x d y f hx hy _
    rw [(hsome.mp hx).1, (hsome.mp hy).1]
  · intro x d s hx
    obtain ⟨-, rfl, -⟩ := hsome.mp hx
    exact hb
  · intro x e he y
    obtain ⟨hx, hd, -⟩ := hsome.mp (info_of_lookup he)
    have hempty : e.children = .empty := by
      obtain ⟨r, hr⟩ := updateLongestChainCache_eq hnew
      rw [hr, SortedMap.lookup_insert, if_pos hx] at he
      cases he
      rfl
    rw [hempty]
    simp only [OrdSet.not_mem_empty, false_iff]
    rintro ⟨d, s, hy, hprev'⟩
    obtain ⟨-, rfl, -⟩ := hsome.mp hy
    exact hself (hprev'.trans hx)

/-- What an insertion must not meet: a block that expires above or below another block with the
solution, or, for a validated block, below the previous block or directly on top of it. -/
def Op.Safe (c : Cache) : Op → Prop
  | .add b clock _ => c.blocks.lookup b.indepHash = none → Apart c b.hash clock
  | .addValidated b clock _ => c.blocks.lookup b.indepHash = none → Apart c b.hash clock ∧ Clear c b clock
  | _ => True

instance (b c : Block) : Decidable (b.SameHeader c) := inferInstanceAs (Decidable (_ ∧ _))

lemma headers_of_list {l : List Block} (hl : ∀ b ∈ l, ∀ c ∈ l, (b.indepHash = c.indepHash → b.SameHeader c) ∧
    (b.previousBlock = c.indepHash → b.height = c.height + 1)) : Headers (· ∈ l) :=
  ⟨fun b c hb hc => (hl b hb c hc).1, fun b c hb hc => (hl b hb c hc).2⟩

lemma forall_ops {C : Cache → Op → Prop}
    (hops : ∀ i < ops.length, ∀ op, ops[i]? = some op → ∀ s, run cfg b stamp (ops.take i) = some s → C s op) :
    ∀ before op after s, ops = before ++ op :: after → run cfg b stamp before = some s → C s op := by
  intro before op after s heq hrun
  apply hops before.length _ op
  · rw [heq]
    simp
  · rw [heq]
    simpa using hrun
  · rw [heq]
    simp

lemma forall_ops_of_check {C : Cache → Op → Prop} {check : Cache → Op → Bool} (hcheck : ∀ s op, check s op = true → C s op)
    (h : ∀ s ∈ new cfg b stamp, checkAlong (step cfg) check s ops = true) :
    ∀ before op after s, ops = before ++ op :: after → run cfg b stamp before = some s → C s op := by
  intro before op after s heq hrun
  obtain ⟨c, hc, hrun⟩ := Option.bind_eq_some_iff.mp hrun
  exact along_of_checkAlong hcheck (h c hc) before op after s heq hrun

def sampleConfig : Config := ⟨0, 50, id, fun _ => List.Perm.refl _⟩

/-- A block with one byte for its hash, its solution and the hash of the previous block. -/
def sampleBlock (h solution prev : UInt8) (cumulativeDiff height : Nat) : Block :=
  ⟨[h], [solution], [prev], cumulativeDiff, height, []⟩

/-- All tests for expiry are made at the given time in seconds. -/
def atSecond (n : Nat) : Bytes → Nat := fun _ => n * 1000000

/-- Block 2 expires when block 4 with its solution is added on top of another block. -/
def sampleOps : List Op :=
  [.add (sampleBlock 2 9 1 2 1) (atSecond 0) 0, .addValidated (sampleBlock 3 7 1 2 1) (atSecond 0) 0,
    .markTip [3], .addValidated (sampleBlock 4 9 3 3 2) (atSecond 5) 5000000, .markTip [4],
    .add (sampleBlock 5 6 4 4 3) (atSecond 6) 6000000, .markNonceLimiterValidationScheduled [5],
    .markNonceLimiterValidated [5], .add (sampleBlock 6 5 4 5 3) (atSecond 6) 6000000, .remove [6], .prune 1]

lemma sampleOps_headers : Headers (· ∈ givenBlocks (sampleBlock 1 1 0 1 0) sampleOps) :=
  headers_of_list (by decide)

/-- Nothing is below the lowest block, so a walk along the previous blocks decides what is below
a block. -/
def below (c : Cache) (y : Bytes) : Nat → Bytes → Bool
  | 0, _ => true
  | fuel + 1, x => decide (x = y) ||
    match c.blocks.lookup x with
    | none => false
    | some e => below c y fuel e.block.previousBlock

lemma not_under_of_below {y x : Bytes} (fuel : Nat) (hbelow : below c y fuel x = false) : ¬Under c.info y x := by
  induction fuel generalizing x with
  | zero => cases hbelow
  | succ fuel ih =>
    rw [below, Bool.or_eq_false_iff, decide_eq_false_iff_not] at hbelow
    intro hu
    obtain ⟨b, s, hx, hprev⟩ := hu.cached hbelow.1
    obtain ⟨e, he, rfl, -⟩ := exists_entry hx
    rw [he] at hbelow
    exact ih hbelow.2 hprev

/-- The blocks with the solution of a new block are at most one, and it is not on the branch of the new block. -/
def Op.isSafe (c : Cache) : Op → Bool
  | .add b _ _ | .addValidated b _ _ => decide
    (∀ y ∈ (c.solutionSet b.hash).elems, (∀ z ∈ (c.solutionSet b.hash).elems, z = y) ∧
      below c y 9 b.previousBlock = false ∧
      (c.blocks.lookup y).map (fun e => e.block.previousBlock) ≠ some b.previousBlock)
  | _ => true

lemma safe_of_isSafe (op : Op) (h : op.isSafe c = true) : op.Safe c := by
  have hsingle : ∀ (b : Block) (clock : Bytes → Nat), (∀ y ∈ (c.solutionSet b.hash).elems,
      (∀ z ∈ (c.solutionSet b.hash).elems, z = y) ∧ below c y 9 b.previousBlock = false ∧
      (c.blocks.lookup y).map (fun e => e.block.previousBlock) ≠ some b.previousBlock) →
      Apart c b.hash clock ∧ Clear c b clock := by
    intro b clock hset
    constructor
    · intro y hy z hz hne
      exact absurd ((hset y hy.1).1 z hz) hne
    · intro y hy
      obtain ⟨-, hbelow, hprev⟩ := hset y hy.1
      refine ⟨not_under_of_below 9 hbelow, ?_⟩
      rintro d r hd heq
      obtain ⟨e, he, rfl, -⟩ := exists_entry hd
      exact hprev (by rw [he, Option.map_some, heq])
  cases op with
  | add b clock stamp => exact fun _ => (hsingle b clock (of_decide_eq_true h)).1
  | addValidated b clock stamp => exact fun _ => hsingle b clock (of_decide_eq_true h)
  | _ => trivial

lemma sampleOps_safe : ∀ before op after s, sampleOps = before ++ op :: after →
    run sampleConfig (sampleBlock 1 1 0 1 0) 0 before = some s → op.Safe s :=
  forall_ops_of_check (fun _ => safe_of_isSafe) (by decide)

lemma sampleOps_isSome : (run sampleConfig (sampleBlock 1 1 0 1 0) 0 sampleOps).isSome := by decide

lemma removeOp_spec (hc : Coherent K none c) {h : Bytes} (hremove : remove cfg c h = some c') :
    c' = c ∨ ∃ b s, c.info h = some (b, s) ∧ Removed c c' (Under c.info h) ∧ Coherent K none c' ∧
      (MaxOf none c → MaxOf none c') ∧ ∃ c2, updateLongestChainCache cfg c2 = some c' := by
  cases he : c.blocks.lookup h with
  | none =>
    rw [remove, he] at hremove
    cases hremove
    exact .inl rfl
  | some e =>
    exact .inr ⟨_, _, info_of_lookup he, remove_spec hc he hremove⟩

lemma Coherent.step (hK : Headers K) (hop : ∀ b ∈ op.blocks, K b) (hc : Coherent K none c) (hsafe : op.Safe c)
    (hstep : step cfg c op = some c') : Coherent K none c' := by
  cases op with
  | new b stamp => exact coherent_new hK (hop b (by simp [Op.blocks])) hstep
  | add b clock stamp => exact (add_spec hK (hop b (by simp [Op.blocks])) hc hsafe hstep).coherent
  | addValidated b clock stamp => exact (addValidated_spec hK (hop b (by simp [Op.blocks])) hc hsafe hstep).coherent
  | markNonceLimiterValidated h =>
    rcases setStage_spec hc hstep with rfl | ⟨b, -, -, -, hc', -⟩
    · exact hc
    · exact hc'
  | markNonceLimiterValidationScheduled h =>
    rcases setStage_spec hc hstep with rfl | ⟨b, -, -, -, hc', -⟩
    · exact hc
    · exact hc'
  | markTip h =>
    obtain ⟨b, s, -, -, -, hc', -⟩ := markTip_spec hc hstep
    exact hc'
  | remove h =>
    rcases removeOp_spec hc hstep with rfl | ⟨b, s, -, -, hc', -⟩
    · exact hc
    · exact hc'
  | prune depth =>
    obtain ⟨b, s, -, -, hc', -⟩ := prune_spec hK hc hstep
    exact hc'

lemma run_invariant {P : Cache → Prop} {C : Cache → Op → Prop}
    (hnew : ∀ c, new cfg b stamp = some c → P c)
    (hstep : ∀ c op c', op ∈ ops → P c → C c op → step cfg c op = some c' → P c')
    (hcond : ∀ before op after s, ops = before ++ op :: after → run cfg b stamp before = some s → C s op)
    (hrun : run cfg b stamp ops = some c) : P c := by
  obtain ⟨c0, hc0, hrun⟩ := Option.bind_eq_some_iff.mp hrun
  apply foldlM_invariant (hnew c0 hc0) hstep _ hrun
  intro before op after s heq hbefore
  apply hcond before op after s heq
  rw [run, hc0]
  exact hbefore

lemma given_blocks (hop : op ∈ ops) : ∀ d ∈ op.blocks, d ∈ givenBlocks b ops := by
  intro d hd
  exact List.mem_cons_of_mem _ (List.mem_flatMap.mpr ⟨op, hop, hd⟩)

/-- The children of every block are the cached blocks with this previous block, there is one
link for every block, and the set of a solution has the blocks with this solution. -/
structure Consistent (c : Cache) : Prop where
  children : ∀ h e, c.blocks.lookup h = some e → ∀ x, x ∈ e.children ↔
    ∃ e', c.blocks.lookup x = some e' ∧ e'.block.previousBlock = h
  links : ∀ height h, toLex (height, h) ∈ c.links ↔ ∃ e, c.blocks.lookup h = some e ∧ e.block.height = height
  solutions : ∀ solutionH h, h ∈ c.solutionSet solutionH ↔ ∃ e, c.blocks.lookup h = some e ∧ e.block.hash = solutionH

lemma exists_entry_iff {x : Bytes} {P : Block → Prop} :
    (∃ b s, c.info x = some (b, s) ∧ P b) ↔ ∃ e, c.blocks.lookup x = some e ∧ P e.block := by
  constructor
  · rintro ⟨b, s, hx, hP⟩
    obtain ⟨e, he, rfl, -⟩ := exists_entry hx
    exact ⟨e, he, hP⟩
  · rintro ⟨e, he, hP⟩
    exact ⟨_, _, info_of_lookup he, hP⟩

lemma Coherent.consistent (hc : Coherent K none c) : Consistent c where
  children h e he x := by
    rw [hc.children h e he, exists_entry_iff (P := fun b => b.previousBlock = h)]
  links height h := by
    rw [hc.links, exists_entry_iff (P := fun b => b.height = height)]
    simp
  solutions solutionH h := by
    rw [hc.solutions, exists_entry_iff (P := fun b => b.hash = solutionH)]

/-- The tables agree after every run in which no expiry meets what an insertion writes back. -/
theorem consistent_of_run (cfg : Config) (b : Block) (stamp : Nat) (ops : List Op) (c : Cache)
    (hheaders : Headers (· ∈ givenBlocks b ops))
    (hsafe : ∀ before op after s, ops = before ++ op :: after → run cfg b stamp before = some s → op.Safe s)
    (hrun : run cfg b stamp ops = some c) : Consistent c := by
  apply Coherent.consistent (K := (· ∈ givenBlocks b ops))
  apply run_invariant (C := fun c op => op.Safe c) _ _ hsafe hrun
  · intro c hnew
    exact coherent_new hheaders (by simp [givenBlocks]) hnew
  · intro c op c' hop hc hsafe hstep
    exact hc.step hheaders (given_blocks hop) hsafe hstep

theorem consistent_of_run_sampleOps : ∃ c, run sampleConfig (sampleBlock 1 1 0 1 0) 0 sampleOps = some c ∧
    Consistent c := by
  obtain ⟨c, hc⟩ := Option.isSome_iff_exists.mp sampleOps_isSome
  exact ⟨c, hc, consistent_of_run _ _ _ _ c sampleOps_headers sampleOps_safe hc⟩

/-- Block 2 expires when the validated block 3 with its solution arrives on top of the same
block, and the entry of that block is written back with block 2 among the children. -/
def staleChildOps : List Op :=
  [.add (sampleBlock 2 9 1 2 1) (atSecond 0) 0, .addValidated (sampleBlock 3 9 1 2 1) (atSecond 5) 5000000]

theorem consistent_of_run_staleChild : ∃ c,
    run sampleConfig (sampleBlock 1 1 0 1 0) 0 staleChildOps = some c ∧
    Headers (· ∈ givenBlocks (sampleBlock 1 1 0 1 0) staleChildOps) ∧
    (∃ e, c.blocks.lookup [1] = some e ∧ [2] ∈ e.children) ∧ c.blocks.lookup [2] = none ∧ ¬Consistent c := by
  have hsome : (run sampleConfig (sampleBlock 1 1 0 1 0) 0 staleChildOps).isSome := by decide
  have hlookups : ∀ c ∈ run sampleConfig (sampleBlock 1 1 0 1 0) 0 staleChildOps,
      (c.blocks.lookup [1]).map (fun e => e.children.elems) = some [[2], [3]] ∧ c.blocks.lookup [2] = none := by
    decide
  obtain ⟨c, hc⟩ := Option.isSome_iff_exists.mp hsome
  obtain ⟨hchildren, hnone⟩ := hlookups c hc
  obtain ⟨e, he, helems⟩ := Option.map_eq_some_iff.mp hchildren
  have hmem : [2] ∈ e.children := by
    rw [← OrdSet.mem_elems, helems]
    simp
  refine ⟨c, hc, headers_of_list (by decide), ⟨e, he, hmem⟩, hnone, ?_⟩
  intro hconsistent
  obtain ⟨e', he', -⟩ := (hconsistent.children [1] e he [2]).mp hmem
  rw [hnone] at he'
  cases he'

end Arweave.BlockCache

import Arweave.BlockCache.LongestChain

/-!
# The next block to validate

The search starts at the block with the maximum cumulative difficulty and goes down as long as
the previous block is not validated. From there on the previous blocks are collected down to the
first one on chain. The statuses decide where both walks end.
-/

namespace Arweave.BlockCache
open Arweave.Lib

/-- The structural and status invariants: the tables agree, the blocks on chain lead to the tip,
the recorded block with the maximum cumulative difficulty is cached and a longest chain is
recorded. -/
structure Invariants (c : Cache) : Prop where
  coherent : Coherent (fun _ => True) none c
  tipPath : TipPath c.info c.tip
  recorded : c.info c.maxCdiff.2 ≠ none
  longestChain : c.longestChain ≠ none

variable {cfg : Config} {c c' : Cache} {x y : Bytes} {b : Block} {s : Status} {path : List (Block × Status)}

section Reachable

variable {K : Block → Prop} {op : Op} {ops : List Op} {stamp : Nat}

lemma Coherent.of_known (hc : Coherent K none c) : Coherent (fun _ => True) none c :=
  ⟨hc.toIndexed, hc.tree, fun _ _ _ _ => trivial, hc.children⟩

lemma longestChain_step (hK : Headers K) (hop : ∀ b ∈ op.blocks, K b) (hc : Coherent K none c) (hsafe : op.Safe c)
    (hlong : c.longestChain ≠ none) (hstep : step cfg c op = some c') : c'.longestChain ≠ none := by
  rcases fresh_of_step hK hop hc hsafe hstep with rfl | ⟨c2, hupdate⟩
  · exact hlong
  · obtain ⟨r, rfl⟩ := updateLongestChainCache_eq hupdate
    simp

/-- The invariants hold after every run in which no expiry meets what an insertion writes back
and no block on chain is made the tip or removed. -/
theorem invariants_of_run (cfg : Config) (b : Block) (stamp : Nat) (ops : List Op) (c : Cache)
    (hheaders : Headers (· ∈ givenBlocks b ops)) (hrising : Rising (· ∈ givenBlocks b ops))
    (hops : ∀ before op after s, ops = before ++ op :: after → run cfg b stamp before = some s →
      op.Safe s ∧ op.Orderly s)
    (hrun : run cfg b stamp ops = some c) : Invariants c := by
  have hinv : Sound (· ∈ givenBlocks b ops) c ∧ TipPath c.info c.tip ∧ c.longestChain ≠ none := by
    apply run_invariant (C := fun c op => op.Safe c ∧ op.Orderly c) _ _ hops hrun
    · intro c hnew
      obtain ⟨r, hr⟩ := updateLongestChainCache_eq hnew
      exact ⟨sound_new hheaders (by simp [givenBlocks]) hnew, tipPath_new hnew, by simp [hr]⟩
    · rintro c op c' hop ⟨hs, hp, hlong⟩ ⟨hsafe, horderly⟩ hstep
      have hgiven := given_blocks (b := b) hop
      exact ⟨hs.step hheaders hrising hgiven hsafe hstep, hp.step hheaders hgiven hs.coherent hsafe horderly hstep,
        longestChain_step hheaders hgiven hs.coherent hsafe hlong hstep⟩
  obtain ⟨hs, hp, hlong⟩ := hinv
  obtain ⟨-, d, r, hd, -⟩ := hs.max.cached
  exact ⟨hs.coherent.of_known, hp, by simp [hd], hlong⟩

end Reachable

/-- `get_fork_blocks/2`. -/
def getForkBlocks (c : Cache) : Nat → Block → Option (List Block)
  | 0, _ => none
  | fuel + 1, b => do
    let prev ← c.blocks.lookup b.previousBlock
    match prev.status with
    | .onChain => some [prev.block]
    | _ => do
      let rest ← getForkBlocks c fuel prev.block
      some (prev.block :: rest)

/-- `get_earliest_not_validated/4`: the block, the previous blocks, the status and the time. -/
def getEarliestNotValidated (c : Cache) : Nat → Block → Status → Nat → Option (Block × List Block × Status × Nat)
  | 0, _, _, _ => none
  | fuel + 1, b, status, timestamp => do
    let prev ← c.blocks.lookup b.previousBlock
    match prev.status with
    | .notValidated _ => getEarliestNotValidated c fuel prev.block prev.status prev.timestamp
    | _ => do
      let forkBlocks ← getForkBlocks c c.blocks.size b
      some (b, forkBlocks, status, timestamp)

/-- The result `some none` stands for `not_found`. The searches never meet a block twice, so the
number of blocks is enough fuel. -/
def getEarliestNotValidatedFromLongestChain (c : Cache) : Option (Option (Block × List Block × Status × Nat)) := do
  let tip ← c.blocks.lookup c.tip
  if c.maxCdiff.1 ≤ tip.block.cumulativeDiff then
    some none
  else do
    let e ← c.blocks.lookup c.maxCdiff.2
    match e.status with
    | .notValidated _ => do
      let earliest ← getEarliestNotValidated c c.blocks.size e.block e.status e.timestamp
      some (some earliest)
    | _ => some none

/-- Blocks of a fork, from newest to oldest: every block is on top of the next one, the last one
is on chain and the others are validated and off chain. -/
structure Fork (c : Cache) (b : Block) (ancestors : List Block) : Prop where
  linked : (b :: ancestors).IsChain fun a p => a.previousBlock = p.indepHash
  statuses : ∃ fork base, ancestors = fork ++ [base] ∧ (∀ a ∈ fork, c.info a.indepHash = some (a, .validated)) ∧
    c.info base.indepHash = some (base, .onChain)

/-- The fork below a block ends on chain when the previous block is validated. -/
lemma getForkBlocks_spec (ht : Rooted c.info) (hpath : Path c.info b.previousBlock path) (hne : path ≠ [])
    (hvalid : ∀ p ∈ path, p.2.Valid) (fuel : Nat) (hfuel : path.length ≤ fuel) :
    ∃ ancestors, getForkBlocks c fuel b = some ancestors ∧ Fork c b ancestors := by
  generalize hx : b.previousBlock = x at hpath
  induction hpath generalizing b fuel with
  | nil x hnone => exact absurd rfl hne
  | cons x p s path hp hprev ih =>
    obtain ⟨fuel, rfl⟩ : ∃ k, fuel = k + 1 := ⟨fuel - 1, by simp only [List.length_cons] at hfuel; omega⟩
    obtain ⟨e, he, rfl, rfl⟩ := exists_entry hp
    have hindep := ht.indepHash x _ _ hp
    rw [getForkBlocks, hx, he]
    cases hstatus : e.status with
    | notValidated stage =>
      have := hvalid (e.block, e.status) (by simp)
      rw [hstatus] at this
      exact this.elim
    | onChain =>
      rw [hstatus] at hp
      refine ⟨[e.block], by simp [hstatus], ⟨by simp [hx, hindep], [], e.block, rfl, by simp, ?_⟩⟩
      rw [hindep, hp]
    | validated =>
      rw [hstatus] at hp
      -- the lowest block is on chain, so this one has a previous block
      have hpath' : path ≠ [] := by
        rintro rfl
        cases hprev with
        | nil _ hnone => cases ht.rootOnChain x _ _ hp hnone
      rw [List.length_cons] at hfuel
      obtain ⟨rest, hrest, hlinked, fork, base, rfl, hfork, hbase⟩ :=
        ih hpath' (fun p hp => hvalid p (by simp [hp])) fuel (by omega) rfl
      refine ⟨e.block :: (fork ++ [base]), by simp [hstatus, hrest], ?_, e.block :: fork, base, rfl, ?_, hbase⟩
      · rw [List.isChain_cons_cons]
        exact ⟨hx.trans hindep.symm, hlinked⟩
      · intro a ha
        rcases List.mem_cons.mp ha with rfl | ha
        · rw [hindep, hp]
        · exact hfork a ha

/-- The block is the lowest one that is not validated on the way down from the top, with its
entry in the cache and the fork below it. -/
structure Earliest (c : Cache) (top : Bytes) (b : Block) (ancestors : List Block) (status : Status)
    (timestamp : Nat) : Prop where
  entry : ∃ e, c.blocks.lookup b.indepHash = some e ∧ e.block = b ∧ e.status = status ∧ e.timestamp = timestamp
  notValidated : ¬status.Valid
  below : Under c.info b.indepHash top
  lowest : ∀ x e, c.blocks.lookup x = some e → ¬e.status.Valid → Under c.info x top → Under c.info b.indepHash x
  fork : Fork c b ancestors

lemma not_valid_iff {s : Status} : ¬s.Valid ↔ ∃ stage, s = .notValidated stage := by
  cases s <;> simp [Status.Valid]

lemma Rooted.valid_of_under {t : BlockTree} (ht : Rooted t) {y : Bytes} {d : Block} {r : Status}
    (hx : t x = some (b, s)) (hs : s.Valid) (hy : t y = some (d, r)) (hu : Under t y x) : r.Valid := by
  induction hu generalizing b s with
  | self =>
    rw [hx] at hy
    cases hy
    exact hs
  | step z f q hz hprev ih =>
    rw [hx] at hz
    cases hz
    cases hp : t f.previousBlock with
    | none =>
      by_cases hyp : f.previousBlock = y
      · rw [hyp, hy] at hp
        cases hp
      · obtain ⟨_, _, hp', -⟩ := hprev.cached hyp
        rw [hp] at hp'
        cases hp'
    | some v => exact ih hp (ht.valid z f q v.1 v.2 hx hs hp)

lemma getEarliestNotValidated_spec (hc : Coherent (fun _ => True) none c) (hpath : Path c.info x path) {e : Entry}
    (he : c.blocks.lookup x = some e) (hs : ¬e.status.Valid) (fuel : Nat) (hfuel : path.length ≤ fuel) :
    ∃ b ancestors status timestamp,
      getEarliestNotValidated c fuel e.block e.status e.timestamp = some (b, ancestors, status, timestamp) ∧
      Earliest c x b ancestors status timestamp := by
  have ht := hc.tree
  induction hpath generalizing e fuel with
  | nil x hnone =>
    rw [info_eq_none, he] at hnone
    cases hnone
  | cons x b s path hx hprev ih =>
    have hx' := info_of_lookup he
    rw [hx] at hx'
    cases hx'
    obtain ⟨fuel, rfl⟩ : ∃ k, fuel = k + 1 := ⟨fuel - 1, by simp only [List.length_cons] at hfuel; omega⟩
    rw [List.length_cons] at hfuel
    have hindep := ht.indepHash x _ _ hx
    -- the lowest block is on chain, so this one has a previous block
    obtain ⟨prev, hprev'⟩ : ∃ prev, c.blocks.lookup e.block.previousBlock = some prev := by
      apply Option.ne_none_iff_exists'.mp
      intro hnone
      rw [ht.rootOnChain x _ _ hx (info_eq_none.mpr hnone)] at hs
      exact hs trivial
    have hp := info_of_lookup hprev'
    rw [getEarliestNotValidated, hprev']
    by_cases hvalid : prev.status.Valid
    · have hvalids : ∀ p ∈ path, p.2.Valid := by
        apply hprev.forall_of_head (P := Status.Valid)
        · intro y d r q w hy hq hr
          exact ht.valid y d r q w hy hr hq
        · intro d r hd
          rw [hp] at hd
          cases hd
          exact hvalid
      have hne : path ≠ [] := by
        rintro rfl
        cases hprev with
        | nil _ hnone =>
          rw [hp] at hnone
          cases hnone
      obtain ⟨ancestors, hancestors, hfork⟩ := getForkBlocks_spec ht hprev hne hvalids c.blocks.size
        (hprev.length_le ht.height)
      refine ⟨e.block, ancestors, e.status, e.timestamp, ?_, ⟨?_, hs, ?_, ?_, hfork⟩⟩
      · cases hstatus : prev.status with
        | notValidated stage =>
          rw [hstatus] at hvalid
          exact hvalid.elim
        | onChain => simp [hstatus, hancestors]
        | validated => simp [hstatus, hancestors]
      · exact ⟨e, hindep ▸ he, rfl, rfl, rfl⟩
      · rw [hindep]
        exact .self
      · intro y d hd hnot hu
        rw [hindep]
        -- a block further down would be below the validated one
        by_cases hyx : x = y
        · rw [hyx]
          exact .self
        · obtain ⟨b', s', hx', hu'⟩ := hu.cached hyx
          rw [hx] at hx'
          cases hx'
          exact absurd (ht.valid_of_under hp hvalid (info_of_lookup hd) hu') hnot
    · obtain ⟨stage, hstage⟩ := not_valid_iff.mp hvalid
      obtain ⟨b, ancestors, status, timestamp, hget, hearliest⟩ := ih hprev' hvalid fuel (by omega)
      refine ⟨b, ancestors, status, timestamp, ?_, ⟨hearliest.entry, hearliest.notValidated, ?_, ?_, hearliest.fork⟩⟩
      · rw [← hget]
        simp [hstage]
      · exact .step x _ _ hx hearliest.below
      · intro y d hd hnot hu
        by_cases hyx : x = y
        · rw [← hyx]
          exact .step x _ _ hx hearliest.below
        · obtain ⟨b', s', hx', hu'⟩ := hu.cached hyx
          rw [hx] at hx'
          cases hx'
          exact hearliest.lowest y d hd hnot hu'

/-- Nothing is found when the tip is as difficult as the recorded block or the recorded block is
validated, and otherwise the lowest block that is not validated on the way to that block. -/
theorem getEarliestNotValidatedFromLongestChain_spec (c : Cache) (hc : Invariants c) :
    ∃ tip top, c.blocks.lookup c.tip = some tip ∧ c.blocks.lookup c.maxCdiff.2 = some top ∧
      (getEarliestNotValidatedFromLongestChain c = some none ↔
        c.maxCdiff.1 ≤ tip.block.cumulativeDiff ∨ top.status.Valid) ∧
      (¬(c.maxCdiff.1 ≤ tip.block.cumulativeDiff ∨ top.status.Valid) → ∃ b ancestors status timestamp,
        getEarliestNotValidatedFromLongestChain c = some (some (b, ancestors, status, timestamp)) ∧
        Earliest c c.maxCdiff.2 b ancestors status timestamp) := by
  obtain ⟨d, hd⟩ := hc.tipPath.onChain
  obtain ⟨tip, htip, -, -⟩ := exists_entry hd
  obtain ⟨⟨f, r⟩, hf⟩ := Option.ne_none_iff_exists'.mp hc.recorded
  obtain ⟨top, htop, -, -⟩ := exists_entry hf
  refine ⟨tip, top, htip, htop, ?_⟩
  rw [getEarliestNotValidatedFromLongestChain, htip]
  by_cases hdiff : c.maxCdiff.1 ≤ tip.block.cumulativeDiff
  · simp [hdiff]
  · by_cases hvalid : top.status.Valid
    · have hnot : ∀ stage, top.status ≠ .notValidated stage := by
        intro stage hstage
        rw [hstage] at hvalid
        exact hvalid
      cases hstatus : top.status with
      | notValidated stage => exact absurd hstatus (hnot stage)
      | onChain => simp [hdiff, htop, hstatus, Status.Valid]
      | validated => simp [hdiff, htop, hstatus, Status.Valid]
    · obtain ⟨path, hpath⟩ := Path.exists_of_ascending hc.coherent.tree.height c.maxCdiff.2
      obtain ⟨b, ancestors, status, timestamp, hget, hearliest⟩ :=
        getEarliestNotValidated_spec hc.coherent hpath htop hvalid c.blocks.size
          (hpath.length_le hc.coherent.tree.height)
      obtain ⟨stage, hstage⟩ := not_valid_iff.mp hvalid
      have hresult : getEarliestNotValidatedFromLongestChain c =
          some (some (b, ancestors, status, timestamp)) := by
        rw [hstage] at hget
        simp [getEarliestNotValidatedFromLongestChain, htip, hdiff, htop, hstage, hget]
      rw [getEarliestNotValidatedFromLongestChain, htip] at hresult
      rw [hresult]
      simp only [Option.some.injEq, reduceCtorEq, hdiff, hvalid, or_self, not_false_eq_true, forall_const]
      exact ⟨trivial, b, ancestors, status, timestamp, rfl, hearliest⟩

/-- Two blocks wait for validation on top of a fork with a validated block. -/
def waitingOps : List Op :=
  [.addValidated (sampleBlock 2 9 1 2 1) (atSecond 0) 0, .add (sampleBlock 3 8 2 3 2) (atSecond 0) 7,
    .add (sampleBlock 4 7 3 4 3) (atSecond 0) 0]

lemma invariants_of_checks {b : Block} {stamp : Nat} {ops : List Op} (hsome : (run cfg b stamp ops).isSome)
    (hheaders : Headers (· ∈ givenBlocks b ops)) (hrising : Rising (· ∈ givenBlocks b ops))
    (hcheck : ∀ s ∈ new cfg b stamp, checkAlong (step cfg) (fun s op => op.isSafe s && op.isOrderly s) s ops = true) :
    ∃ c, run cfg b stamp ops = some c ∧ Invariants c := by
  obtain ⟨c, hc⟩ := Option.isSome_iff_exists.mp hsome
  refine ⟨c, hc, invariants_of_run _ _ _ _ c hheaders hrising (forall_ops_of_check ?_ hcheck) hc⟩
  intro s op h
  rw [Bool.and_eq_true] at h
  exact ⟨safe_of_isSafe op h.1, orderly_of_isOrderly op h.2⟩

lemma waitingOps_invariants : ∃ c, run sampleConfig (sampleBlock 1 1 0 1 0) 0 waitingOps = some c ∧
    Invariants c :=
  invariants_of_checks (by decide) (headers_of_list (by decide)) (rising_of_list (by decide)) (by decide)

/-- The block to validate is block 3, on top of the validated block 2. -/
theorem getEarliestNotValidatedFromLongestChain_waitingOps : ∃ c b ancestors status timestamp,
    run sampleConfig (sampleBlock 1 1 0 1 0) 0 waitingOps = some c ∧
    getEarliestNotValidatedFromLongestChain c = some (some (b, ancestors, status, timestamp)) ∧
    Earliest c [4] b ancestors status timestamp ∧ b = sampleBlock 3 8 2 3 2 ∧ timestamp = 7 ∧
    ancestors = [sampleBlock 2 9 1 2 1, sampleBlock 1 1 0 1 0] := by
  have hresult : ∀ c ∈ run sampleConfig (sampleBlock 1 1 0 1 0) 0 waitingOps, c.maxCdiff = (4, [4]) ∧
      (c.blocks.lookup c.tip).map (fun e => e.block.cumulativeDiff) = some 1 ∧
      (c.blocks.lookup [4]).map Entry.status = some (.notValidated .awaitingNonceLimiterValidation) ∧
      getEarliestNotValidatedFromLongestChain c = some (some (sampleBlock 3 8 2 3 2,
        [sampleBlock 2 9 1 2 1, sampleBlock 1 1 0 1 0], .notValidated .awaitingNonceLimiterValidation, 7)) := by
    decide
  obtain ⟨c, hrun, hc⟩ := waitingOps_invariants
  obtain ⟨hmax, hdiff, hstatus, hget⟩ := hresult c hrun
  obtain ⟨tip, top, htip, htop, -, hfound⟩ := getEarliestNotValidatedFromLongestChain_spec c hc
  rw [htip, Option.map_some, Option.some.injEq] at hdiff
  rw [hmax] at htop hfound
  rw [htop, Option.map_some, Option.some.injEq] at hstatus
  obtain ⟨b, ancestors, status, timestamp, hget', hearliest⟩ := hfound (by simp [hdiff, hstatus, Status.Valid])
  have heq := hget.symm.trans hget'
  simp only [Option.some.injEq, Prod.mk.injEq] at heq
  obtain ⟨rfl, rfl, rfl, rfl⟩ := heq
  exact ⟨c, _, _, _, _, hrun, hget, hearliest, rfl, rfl, rfl⟩

end Arweave.BlockCache

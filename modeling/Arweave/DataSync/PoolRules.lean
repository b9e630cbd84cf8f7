import Arweave.DataSync.PoolScan
import Arweave.Merkle.Rulesets

/-!
# The rules for chunks of the disk pool

A chunk comes into the disk pool before its place on the weave is known, so the rulesets that its path meets are
noted down. When it gets an offset, they are compared with the thresholds. A validator takes the ruleset from the
start of the block.
-/

namespace Arweave.DataSync

open Lib Merkle Poa

variable {H : Digest 32} {R : Option Nat} {c : DiskPoolChunk} {offset : Nat} {dataPath chunk : Bytes} {ruleset : Ruleset}

/-- The ruleset accepts the path of the chunk. -/
def Accepts (H : Digest 32) (c : DiskPoolChunk) (offset : Nat) (dataPath : Bytes) (ruleset : Ruleset) : Prop :=
  ∃ res, validatePath H c.dataRoot offset c.txSize dataPath ruleset = .ok (some res)

/-- The ruleset of a block for validators. -/
def rulesetAt (R : Option Nat) (blockStart : Nat) : Ruleset :=
  getDataPathValidationRuleset blockStart R strictDataSplitThreshold

/-- The chunk is let through at its offset exactly when the ruleset of the block accepts its path, and the end offset
in the data is the one that the ruleset gives. -/
def FollowsRules (H : Digest 32) (R : Option Nat) (blockStart txStart : Nat) (c : DiskPoolChunk) (offset : Nat)
    (dataPath : Bytes) : Prop :=
  (passedValidation R (txStart + c.endOffset) c = true ↔ Accepts H c offset dataPath (rulesetAt R blockStart)) ∧
    ∀ res, validatePath H c.dataRoot offset c.txSize dataPath (rulesetAt R blockStart) = .ok (some res) →
      res.endOffset = c.endOffset

/-- The notes about the rulesets and the end offset are the ones from the validation of the path. -/
def NotedFrom (H : Digest 32) (offset : Nat) (dataPath chunk : Bytes) (c : DiskPoolChunk) : Prop :=
  validateDataPath H c.dataRoot offset c.txSize dataPath chunk =
    some (some (c.passesBase, c.passesStrict, c.passesRebase, c.endOffset))

lemma accepts_iff {result : Option DataPath}
    (h : validatePath H c.dataRoot offset c.txSize dataPath ruleset = .ok result) :
    Accepts H c offset dataPath ruleset ↔ result.isSome = true := by
  rw [Accepts, h, Option.isSome_iff_exists]
  exact exists_congr fun res => ⟨Except.ok.inj, congrArg Except.ok⟩

lemma Accepts.strictBorders (h : Accepts H c offset dataPath .strictDataSplit) : Accepts H c offset dataPath .strictBorders :=
  h.imp fun _ => strictBorders_of_strictDataSplit

lemma NotedFrom.passes (h : NotedFrom H offset dataPath chunk c) :
    (c.passesBase = true ↔ Accepts H c offset dataPath .strictBorders) ∧
      (c.passesStrict = true ↔ Accepts H c offset dataPath .strictDataSplit) ∧
      (c.passesRebase = true ↔ Accepts H c offset dataPath .offsetRebaseSupport) := by
  obtain ⟨base, strict, rebase, res, hbase, hstrict, hrebase, -, hb, hs, hr, -⟩ := validateDataPath_some h
  rw [hb, hs, hr, accepts_iff hbase, accepts_iff hstrict, accepts_iff hrebase]
  exact ⟨Iff.rfl, Iff.rfl, Iff.rfl⟩

lemma passedValidation_iff (h : NotedFrom H offset dataPath chunk c) (horder : ∀ r ∈ R, strictDataSplitThreshold ≤ r)
    (absoluteOffset : Nat) :
    passedValidation R absoluteOffset c = true ↔ Accepts H c offset dataPath (rulesetAt R absoluteOffset) := by
  obtain ⟨hbase, hstrict, hrebase⟩ := h.passes
  rw [passedValidation, rulesetAt, getDataPathValidationRuleset]
  by_cases hafter : R.any (· ≤ absoluteOffset) = true
  · obtain ⟨r, hr, hle⟩ := (Option.any_eq_true _ _).mp hafter
    have hstrictAfter : strictDataSplitThreshold ≤ absoluteOffset := (horder r hr).trans (of_decide_eq_true hle)
    rw [if_pos hafter, hafter, decide_eq_true hstrictAfter, ← hrebase]
    cases c.passesRebase <;> cases c.passesStrict <;> cases c.passesBase <;> rfl
  · rw [if_neg hafter, Bool.eq_false_of_not_eq_true hafter]
    by_cases hstrictAfter : strictDataSplitThreshold ≤ absoluteOffset
    · -- the base rules hold where the strict ones do
      have hbaseToo : c.passesStrict = true → c.passesBase = true := fun hpasses => hbase.mpr (hstrict.mp hpasses).strictBorders
      rw [if_pos hstrictAfter, decide_eq_true hstrictAfter, ← hstrict]
      revert hbaseToo
      cases c.passesRebase <;> cases c.passesStrict <;> cases c.passesBase <;> decide
    · rw [if_neg hstrictAfter, decide_eq_false hstrictAfter, ← hbase]
      cases c.passesRebase <;> cases c.passesStrict <;> cases c.passesBase <;> rfl

lemma NotedFrom.endOffset_eq (h : NotedFrom H offset dataPath chunk c)
    (hH : H.CollisionFree (hashedStrings H false dataPath ++ hashedStrings H true dataPath)) {res : DataPath}
    (hres : validatePath H c.dataRoot offset c.txSize dataPath ruleset = .ok (some res)) : res.endOffset = c.endOffset := by
  obtain ⟨base, strict, rebase, res', hbase, hstrict, hrebase, hres', -, -, -, hend⟩ := validateDataPath_some h
  have hsame : res = res' := by
    obtain rfl | ⟨-, hres'⟩ := Option.or_eq_some_iff.mp hres'
    · exact validatePath_agree hH hres hstrict
    · obtain rfl | ⟨-, rfl⟩ := Option.or_eq_some_iff.mp hres'
      · exact validatePath_agree hH hres hrebase
      · exact validatePath_agree hH hres hbase
  have := validatePath_bounds hres
  rw [hend, ← hsame]
  omega

lemma rulesetAt_eq {blockStart absoluteOffset : Nat} (hlt : blockStart < absoluteOffset)
    (hstrict : strictDataSplitThreshold ≤ blockStart ∨ absoluteOffset < strictDataSplitThreshold)
    (hrebase : ∀ r ∈ R, r ≤ blockStart ∨ absoluteOffset < r) : rulesetAt R absoluteOffset = rulesetAt R blockStart := by
  have hafter : R.any (· ≤ absoluteOffset) = R.any (· ≤ blockStart) := by
    cases R with
    | none => rfl
    | some r =>
      rw [Option.any_some, Option.any_some, decide_eq_decide]
      have := hrebase r rfl
      omega
  have hstrictAfter : absoluteOffset ≥ strictDataSplitThreshold ↔ blockStart ≥ strictDataSplitThreshold := by omega
  rw [rulesetAt, rulesetAt, getDataPathValidationRuleset, getDataPathValidationRuleset, hafter]
  simp only [hstrictAfter]

/-- With thresholds that are borders of blocks, a chunk that the validation has noted follows the rules of the block
unless it ends at a threshold and the ruleset after the threshold judges its path in another way. -/
theorem followsRules_iff {blockStart blockEnd txStart : Nat} (hnoted : NotedFrom H offset dataPath chunk c)
    (hstart : blockStart ≤ txStart) (hend : txStart + c.txSize ≤ blockEnd)
    (hstrict : strictDataSplitThreshold ≤ blockStart ∨ blockEnd ≤ strictDataSplitThreshold)
    (hrebase : ∀ r ∈ R, r ≤ blockStart ∨ blockEnd ≤ r) (horder : ∀ r ∈ R, strictDataSplitThreshold ≤ r)
    (hH : H.CollisionFree (hashedStrings H false dataPath ++ hashedStrings H true dataPath)) :
    FollowsRules H R blockStart txStart c offset dataPath ↔
      (txStart + c.endOffset = strictDataSplitThreshold ∨ R = some (txStart + c.endOffset) →
        (Accepts H c offset dataPath (rulesetAt R (txStart + c.endOffset)) ↔
          Accepts H c offset dataPath (rulesetAt R blockStart))) := by
  obtain ⟨hpos, hle⟩ := validateDataPath_bounds hnoted
  rw [FollowsRules, passedValidation_iff hnoted horder, and_iff_left fun res hres => hnoted.endOffset_eq hH hres]
  refine ⟨fun h _ => h, fun h => ?_⟩
  by_cases hthreshold : txStart + c.endOffset = strictDataSplitThreshold ∨ R = some (txStart + c.endOffset)
  · exact h hthreshold
  · obtain ⟨hneStrict, hneRebase⟩ := not_or.mp hthreshold
    have hsame : rulesetAt R (txStart + c.endOffset) = rulesetAt R blockStart := by
      refine rulesetAt_eq (by omega) (by omega) fun r hr => ?_
      have hne : r ≠ txStart + c.endOffset := fun heq => hneRebase (heq ▸ hr)
      have := hrebase r hr
      omega
    rw [hsame]

/-- Two chunks of 100 bytes: the hashes of the leaves and the root. -/
def twoShort : Bytes × Bytes × Bytes :=
  let l := leafHash Sha2.sha256 (List.replicate 32 1) 100
  let r := leafHash Sha2.sha256 (Sha2.sha256 (List.replicate 100 2)) 200
  (l, r, nodeHash Sha2.sha256 l r 100)

/-- The path of the second chunk. -/
def secondPath : Bytes := shallowPath twoShort.1 twoShort.2.1 100 (Sha2.sha256 (List.replicate 100 2)) 200

/-- The second chunk, which only the base rules accept. -/
def secondChunk : DiskPoolChunk where
  endOffset := 200
  chunkSize := 100
  dataRoot := twoShort.2.2
  txSize := 200
  chunkDataKey := []
  passesBase := true
  passesStrict := false
  passesRebase := false

set_option maxRecDepth 10000 in
lemma notedFrom_secondChunk :
    NotedFrom Sha2.sha256 150 secondPath (List.replicate 100 2) secondChunk ∧
      Sha2.sha256.CollisionFree (hashedStrings Sha2.sha256 false secondPath ++ hashedStrings Sha2.sha256 true secondPath) := by
  unfold NotedFrom
  decide +kernel

theorem followsRules_iff_secondChunk :
    NotedFrom Sha2.sha256 150 secondPath (List.replicate 100 2) secondChunk ∧
      FollowsRules Sha2.sha256 (some strictDataSplitThreshold) 1000 1000 secondChunk 150 secondPath := by
  have hend : 1000 + secondChunk.txSize ≤ 5000 := by decide
  have hiff : FollowsRules Sha2.sha256 (some strictDataSplitThreshold) 1000 1000 secondChunk 150 secondPath ↔ _ :=
    followsRules_iff notedFrom_secondChunk.1 le_rfl hend (by decide) (by simp; decide) (by simp) notedFrom_secondChunk.2
  exact ⟨notedFrom_secondChunk.1, hiff.mpr fun hthreshold => absurd hthreshold (by decide)⟩

/-- A chunk that ends with its block at the strict threshold is held back for a rule that is not in force before it. -/
theorem chunk_at_threshold_held_back :
    let txStart := strictDataSplitThreshold - 200
    NotedFrom Sha2.sha256 150 secondPath (List.replicate 100 2) secondChunk ∧
      txStart + secondChunk.endOffset = strictDataSplitThreshold ∧ rulesetAt none txStart = .strictBorders ∧
      passedValidation none strictDataSplitThreshold secondChunk = false ∧
      ¬ FollowsRules Sha2.sha256 none txStart txStart secondChunk 150 secondPath := by
  intro txStart
  have hruleset : rulesetAt none txStart = .strictBorders := by decide
  have haccepts : Accepts Sha2.sha256 secondChunk 150 secondPath (rulesetAt none txStart) := by
    rw [hruleset]
    exact notedFrom_secondChunk.1.passes.1.mp rfl
  refine ⟨notedFrom_secondChunk.1, by decide, hruleset, by decide, fun h => ?_⟩
  have hpassed := h.1.mpr haccepts
  exact absurd hpassed (by decide)

end Arweave.DataSync

import Arweave.Vdf.Sessions

/-!
# Validation of steps

The steps that the node computes itself after a block, and the validation of the steps that a
block brings. The first ones are made one by one. The second ones are compared with the steps
that are known already, and what remains is split at the reset line and verified in bulk.
-/

namespace Arweave.Vdf
open Arweave.Lib Arweave.Serialize

section Model

-- The output of a step, from its number, the output before it and the difficulty.
variable (vdf : Nat → Bytes → Nat → Bytes)

/-- A step of the local computation, with the checkpoints that the worker returns beside the
output. -/
def localStep (checkpoints : List Bytes) (key : SessionKey) (session : Session) : Option Session := do
  let (stepNumber, prevOutput, vdfDifficulty) ← scheduleStep key session
  some (updateSessionCheckpoints session stepNumber (some checkpoints) [vdf stepNumber prevOutput vdfDifficulty])

/-- Steps of the local computation, one for each list of checkpoints. -/
def localSteps (key : SessionKey) (session : Session) (checkpoints : List (List Bytes)) : Option Session :=
  checkpoints.foldlM (fun session c => localStep vdf c key session) session

/-- Every hash is the step after the one before it. -/
def follows (vdfDifficulty : Nat) : Nat → Bytes → List Bytes → Bool
  | _, _, [] => true
  | stepNumber, prevOutput, hash :: hashes =>
    hash = vdf (stepNumber + 1) prevOutput vdfDifficulty && follows vdfDifficulty (stepNumber + 1) hash hashes

/-- The steps, the latest one first, or none for a chain that is broken or empty. -/
def verifyNoReset (startStepNumber : Nat) (prevOutput : Bytes) (hashes : List Bytes) (vdfDifficulty : Nat) :
    Option (List Bytes) :=
  if hashes ≠ [] ∧ follows vdf vdfDifficulty startStepNumber prevOutput hashes then some hashes.reverse else none

/-- The results of `verify`: the tail of a list that is too short raises an exception. -/
inductive Verified where
  | true (steps : List Bytes)
  | false
  | exception
  deriving DecidableEq

/-- The steps before the reset line, with the input of the one on the line. -/
def verifyUntilReset (startStepNumber : Nat) (prevOutput : Bytes) (hashes : List Bytes) (seed : Bytes)
    (vdfDifficulty : Nat) : Option (Bytes × List Bytes) :=
  match hashes with
  | [] => some (mixSeed prevOutput seed, [])
  | _ =>
    match verifyNoReset vdf startStepNumber prevOutput hashes vdfDifficulty with
    | some (last :: validatedSteps) => some (mixSeed last seed, last :: validatedSteps)
    | _ => none

def verify (startStepNumber : Nat) (prevOutput : Bytes) (hashes : List Bytes) (resetStepNumber : Nat) (seed : Bytes)
    (vdfDifficulty nextVdfDifficulty : Nat) : Verified :=
  let count := resetStepNumber - startStepNumber - 1
  match verifyUntilReset vdf startStepNumber prevOutput (hashes.take count) seed vdfDifficulty with
  | none => .false
  | some (prevOutput2, validatedSteps1) =>
    if hashes.length < count then .exception
    else
      match verifyNoReset vdf (resetStepNumber - 1) prevOutput2 (hashes.drop count) nextVdfDifficulty with
      | some validatedSteps2 => .true (validatedSteps2 ++ validatedSteps1)
      | none => .false

/-- The known steps before the first one of the block are skipped, when there are enough. -/
def skipAlreadyComputedSteps (prevStepNumber stepNumber : Nat) (prevOutput : Bytes)
    (stepsToValidate sessionSteps : List Bytes) : Nat × Bytes × List Bytes :=
  let computedSteps := sessionSteps.reverse
  let numStepsBefore := stepNumber - prevStepNumber - stepsToValidate.length
  if 0 < numStepsBefore ∧ numStepsBefore ≤ computedSteps.length then
    (prevStepNumber + numStepsBefore, computedSteps.getD (numStepsBefore - 1) [], computedSteps.drop numStepsBefore)
  else (prevStepNumber, prevOutput, computedSteps)

/-- The steps that remain and the number of the known ones. Different steps are invalid. -/
def excludeComputedSteps : List Bytes → List Bytes → Nat → Nat → Option (List Bytes × Nat)
  | stepsToValidate, [], _, numAlreadyComputed => some (stepsToValidate, numAlreadyComputed)
  | stepsToValidate, step :: computedSteps, i, numAlreadyComputed =>
    if i ≠ 1 then excludeComputedSteps stepsToValidate computedSteps (i + 1) numAlreadyComputed
    else
      match stepsToValidate with
      | [] => none
      | [first] => if first = step then some ([], numAlreadyComputed + 1) else none
      | first :: rest =>
        if first = step then excludeComputedSteps rest computedSteps 1 (numAlreadyComputed + 1) else none

/-- What the validation ends in. A node with remote servers asks again later. -/
inductive Verdict where
  | valid (validatedSteps : List Bytes)
  | invalid (code : Nat)
  | validationError
  | wait
  deriving DecidableEq

/-- The verification of the steps that are not known. -/
def verifyRemaining (info prevInfo : NonceLimiterInfo) (startStepNumber : Nat) (startOutput : Bytes)
    (remaining : List Bytes) : Verified :=
  match getEntropyResetPoint prevInfo.globalStepNumber info.globalStepNumber with
  | some resetPoint =>
    if startStepNumber < resetPoint then
      verify vdf startStepNumber startOutput remaining resetPoint info.seed prevInfo.vdfDifficulty info.vdfDifficulty
    else
      match verifyNoReset vdf startStepNumber startOutput remaining info.vdfDifficulty with
      | some steps => .true steps
      | none => .false
  | none =>
    match verifyNoReset vdf startStepNumber startOutput remaining info.vdfDifficulty with
    | some steps => .true steps
    | none => .false

/-- `request_validation/3` with the event that is sent in the end. A valid block casts the
validated steps. -/
def requestValidation (useRemoteVdfServer : Bool) (state : State) (info prevInfo : NonceLimiterInfo) : Verdict :=
  if info.globalStepNumber = prevInfo.globalStepNumber then .invalid 1
  else if info.steps.head? ≠ some info.output then .invalid 4
  else
    let sessionSteps :=
      getSessionSteps state prevInfo.globalStepNumber info.globalStepNumber (sessionKey prevInfo)
    let (startStepNumber, startOutput, computedSteps) :=
      skipAlreadyComputedSteps prevInfo.globalStepNumber info.globalStepNumber prevInfo.output info.steps sessionSteps
    match excludeComputedSteps info.steps.reverse computedSteps 1 0 with
    | none => .invalid 2
    | some (remaining, numAlreadyComputed) =>
      if remaining = [] ∧ startStepNumber + numAlreadyComputed = info.globalStepNumber then .valid sessionSteps
      else if info.globalStepNumber ≤ startStepNumber + numAlreadyComputed then .invalid 2
      else if useRemoteVdfServer then .wait
      else
        let startOutput2 :=
          if numAlreadyComputed = 0 then startOutput else computedSteps.getD (numAlreadyComputed - 1) []
        match verifyRemaining vdf info prevInfo (startStepNumber + numAlreadyComputed) startOutput2 remaining with
        | .exception => .validationError
        | .false => .invalid 3
        | .true validatedSteps => .valid (validatedSteps ++ sessionSteps)

end Model

/-- The seed and the difficulty of a block that is mined after another one. -/
def getSeedData (stepNumber : Nat) (prevInfo : NonceLimiterInfo) : Bytes × Nat :=
  match getEntropyResetPoint prevInfo.globalStepNumber stepNumber with
  | none => (prevInfo.seed, prevInfo.vdfDifficulty)
  | some _ => (prevInfo.nextSeed, prevInfo.nextVdfDifficulty)

section Timeline

variable {vdf : Nat → Bytes → Nat → Bytes} {info prevInfo : NonceLimiterInfo} {T : Nat → Bytes} {i : Nat}

/-- The difficulty of a step after a block. -/
def difficultyAt (prevInfo : NonceLimiterInfo) (stepNumber : Nat) : Nat :=
  match getEntropyResetPoint prevInfo.globalStepNumber stepNumber with
  | none => prevInfo.vdfDifficulty
  | some _ => prevInfo.nextVdfDifficulty

/-- The outputs of the steps after a block. -/
def timeline (vdf : Nat → Bytes → Nat → Bytes) (prevInfo : NonceLimiterInfo) : Nat → Bytes
  | 0 => prevInfo.output
  | i + 1 =>
    let stepNumber := prevInfo.globalStepNumber + i + 1
    vdf stepNumber
      (maybeAddEntropy (timeline vdf prevInfo i) prevInfo.globalStepNumber stepNumber prevInfo.nextSeed)
      (difficultyAt prevInfo stepNumber)

/-- The elements of a sequence after a position. -/
def slice (T : Nat → Bytes) (i count : Nat) : List Bytes := (List.range count).map fun j => T (i + 1 + j)

lemma slice_succ {count : Nat} : slice T i (count + 1) = T (i + 1) :: slice T (i + 1) count := by
  unfold slice
  rw [List.range_succ_eq_map, List.map_cons, List.map_map]
  congr 1
  apply List.map_congr_left
  intro j _
  change T (i + 1 + (j + 1)) = T (i + 1 + 1 + j)
  congr 1
  omega

lemma slice_succ_last {count : Nat} : slice T i (count + 1) = slice T i count ++ [T (i + count + 1)] := by
  unfold slice
  rw [List.range_succ, List.map_append, List.map_singleton]
  congr 3
  omega

@[simp] lemma length_slice {count : Nat} : (slice T i count).length = count := by
  rw [slice, List.length_map, List.length_range]

lemma take_slice {a count : Nat} (h : a ≤ count) : (slice T i count).take a = slice T i a := by
  rw [slice, slice, ← List.map_take, List.take_range, Nat.min_eq_left h]

lemma drop_slice {a count : Nat} (h : a ≤ count) : (slice T i count).drop a = slice T (i + a) (count - a) := by
  induction a generalizing i count with
  | zero => rfl
  | succ a ih =>
    obtain ⟨count, rfl⟩ : ∃ c, count = c + 1 := ⟨count - 1, by omega⟩
    rw [slice_succ, List.drop_succ_cons, ih (by omega), Nat.succ_sub_succ]
    congr 1
    omega

lemma getD_slice {a count : Nat} (h : a < count) : (slice T i count).getD a [] = T (i + 1 + a) := by
  rw [List.getD_eq_getElem?_getD, slice, List.getElem?_map, List.getElem?_range h]
  rfl

lemma getEntropyResetPoint_interval {prevStepNumber stepNumber : Nat} :
    getEntropyResetPoint (prevStepNumber / resetFrequency * resetFrequency) stepNumber =
      getEntropyResetPoint prevStepNumber stepNumber := by
  unfold getEntropyResetPoint
  rw [Nat.mul_div_cancel _ (by decide)]

/-- A session that has come to a block. -/
structure StartsAt (session : Session) (info : NonceLimiterInfo) : Prop where
  stepNumber : session.stepNumber = info.globalStepNumber
  output : session.steps.head? = some info.output
  vdfDifficulty : session.vdfDifficulty = some info.vdfDifficulty
  nextVdfDifficulty : session.nextVdfDifficulty = some info.nextVdfDifficulty

lemma localStep_eq {session : Session} {checkpoints : List Bytes}
    (hstep : session.stepNumber = prevInfo.globalStepNumber + i)
    (hhead : session.steps.head? = some (timeline vdf prevInfo i))
    (hdifficulty : session.vdfDifficulty = some prevInfo.vdfDifficulty)
    (hnext : session.nextVdfDifficulty = some prevInfo.nextVdfDifficulty) :
    localStep vdf checkpoints (sessionKey prevInfo) session = some (updateSessionCheckpoints session
      (prevInfo.globalStepNumber + i + 1) (some checkpoints) [timeline vdf prevInfo (i + 1)]) := by
  have hschedule : scheduleStep (sessionKey prevInfo) session = some (prevInfo.globalStepNumber + i + 1,
      maybeAddEntropy (timeline vdf prevInfo i) prevInfo.globalStepNumber (prevInfo.globalStepNumber + i + 1)
        prevInfo.nextSeed, difficultyAt prevInfo (prevInfo.globalStepNumber + i + 1)) := by
    unfold scheduleStep sessionKey maybeAddEntropy difficultyAt
    simp only [hhead, hnext, hstep, hdifficulty, getEntropyResetPoint_interval, bind, Option.bind_some, if_true,
      Option.map_some]
    cases getEntropyResetPoint prevInfo.globalStepNumber (prevInfo.globalStepNumber + i + 1) <;> rfl
  unfold localStep
  rw [hschedule]
  rfl

variable (vdf) in
lemma localSteps_eq {session : Session} (checkpoints : List (List Bytes))
    (hstep : session.stepNumber = prevInfo.globalStepNumber + i)
    (hhead : session.steps.head? = some (timeline vdf prevInfo i))
    (hdifficulty : session.vdfDifficulty = some prevInfo.vdfDifficulty)
    (hnext : session.nextVdfDifficulty = some prevInfo.nextVdfDifficulty) :
    ∃ session', localSteps vdf (sessionKey prevInfo) session checkpoints = some session' ∧
      session'.stepNumber = prevInfo.globalStepNumber + i + checkpoints.length ∧
      session'.steps = (slice (timeline vdf prevInfo) i checkpoints.length).reverse ++ session.steps := by
  induction checkpoints generalizing session i with
  | nil => exact ⟨session, rfl, hstep, rfl⟩
  | cons c checkpoints ih =>
    have hstep' : (updateSessionCheckpoints session (prevInfo.globalStepNumber + i + 1) (some c)
        [timeline vdf prevInfo (i + 1)]).stepNumber = prevInfo.globalStepNumber + (i + 1) := rfl
    obtain ⟨session', hrun, hnumber, hsteps⟩ := ih hstep' rfl hdifficulty hnext
    refine ⟨session', ?_, ?_, ?_⟩
    · unfold localSteps
      rw [List.foldlM_cons, localStep_eq hstep hhead hdifficulty hnext]
      exact hrun
    · rw [hnumber, List.length_cons]
      omega
    · rw [hsteps, List.length_cons, slice_succ, List.reverse_cons, List.append_assoc]
      rfl

lemma follows_iff {d stepNumber : Nat} {prevOutput : Bytes} {hashes : List Bytes}
    (hfirst : hashes ≠ [] → vdf (stepNumber + 1) prevOutput d = T (i + 1))
    (hrest : ∀ j, j + 1 < hashes.length → vdf (stepNumber + j + 2) (T (i + j + 1)) d = T (i + j + 2)) :
    follows vdf d stepNumber prevOutput hashes = true ↔ hashes = slice T i hashes.length := by
  induction hashes generalizing stepNumber prevOutput i with
  | nil => exact ⟨fun _ => rfl, fun _ => rfl⟩
  | cons hash hashes ih =>
    have hhead := hfirst (List.cons_ne_nil _ _)
    rw [follows, Bool.and_eq_true, decide_eq_true_eq, hhead, List.length_cons, slice_succ, List.cons.injEq]
    refine and_congr_right ?_
    rintro rfl
    apply ih
    · intro hne
      exact hrest 0 (by simpa using List.length_pos_of_ne_nil hne)
    · intro j hj
      have hnext := hrest (j + 1) (by simpa using hj)
      have hleft : stepNumber + (j + 1) + 2 = stepNumber + 1 + j + 2 := by omega
      have hmid : i + (j + 1) + 1 = i + 1 + j + 1 := by omega
      have hright : i + (j + 1) + 2 = i + 1 + j + 2 := by omega
      rwa [hleft, hmid, hright] at hnext

lemma verifyNoReset_eq {d stepNumber : Nat} {prevOutput : Bytes} {hashes : List Bytes} (hne : hashes ≠ [])
    (hfirst : vdf (stepNumber + 1) prevOutput d = T (i + 1))
    (hrest : ∀ j, j + 1 < hashes.length → vdf (stepNumber + j + 2) (T (i + j + 1)) d = T (i + j + 2)) :
    verifyNoReset vdf stepNumber prevOutput hashes d =
      if hashes = slice T i hashes.length then some hashes.reverse else none := by
  unfold verifyNoReset
  simp only [ne_eq, hne, not_false_eq_true, true_and, follows_iff (fun _ => hfirst) hrest]

lemma timeline_succ {d : Nat} {j : Nat}
    (hline : getEntropyResetPoint prevInfo.globalStepNumber (prevInfo.globalStepNumber + j + 1) ≠
      some (prevInfo.globalStepNumber + j + 1))
    (hd : difficultyAt prevInfo (prevInfo.globalStepNumber + j + 1) = d) :
    vdf (prevInfo.globalStepNumber + j + 1) (timeline vdf prevInfo j) d = timeline vdf prevInfo (j + 1) := by
  rw [timeline, maybeAddEntropy, if_neg hline, hd]

lemma getEntropyResetPoint_of_lt {prevStepNumber stepNumber : Nat}
    (h : stepNumber < (prevStepNumber / resetFrequency + 1) * resetFrequency) :
    getEntropyResetPoint prevStepNumber stepNumber = none := if_pos h

lemma getEntropyResetPoint_of_le {prevStepNumber stepNumber : Nat}
    (h : (prevStepNumber / resetFrequency + 1) * resetFrequency ≤ stepNumber) :
    getEntropyResetPoint prevStepNumber stepNumber = some ((prevStepNumber / resetFrequency + 1) * resetFrequency) :=
  if_neg (not_lt.mpr h)

lemma timeline_succ_of_lt {j : Nat} (h : prevInfo.globalStepNumber + j + 1 <
      (prevInfo.globalStepNumber / resetFrequency + 1) * resetFrequency) :
    vdf (prevInfo.globalStepNumber + j + 1) (timeline vdf prevInfo j) prevInfo.vdfDifficulty =
      timeline vdf prevInfo (j + 1) := by
  have hnone := getEntropyResetPoint_of_lt h
  apply timeline_succ
  · rw [hnone]
    simp
  · rw [difficultyAt, hnone]

lemma timeline_succ_of_eq {j : Nat} (h : prevInfo.globalStepNumber + j + 1 =
      (prevInfo.globalStepNumber / resetFrequency + 1) * resetFrequency) :
    vdf (prevInfo.globalStepNumber + j + 1) (mixSeed (timeline vdf prevInfo j) prevInfo.nextSeed)
      prevInfo.nextVdfDifficulty = timeline vdf prevInfo (j + 1) := by
  have hsome := getEntropyResetPoint_of_le h.ge
  rw [timeline, maybeAddEntropy, difficultyAt, hsome, ← h, if_pos rfl]

variable (vdf) in
lemma timeline_succ_of_gt {j : Nat} (h : (prevInfo.globalStepNumber / resetFrequency + 1) * resetFrequency <
      prevInfo.globalStepNumber + j + 1) :
    vdf (prevInfo.globalStepNumber + j + 1) (timeline vdf prevInfo j) prevInfo.nextVdfDifficulty =
      timeline vdf prevInfo (j + 1) := by
  have hsome := getEntropyResetPoint_of_le h.le
  apply timeline_succ
  · rw [hsome, ne_eq, Option.some.injEq]
    exact h.ne
  · rw [difficultyAt, hsome]

lemma verifyNoReset_timeline {d n : Nat} {hashes : List Bytes} (hne : hashes ≠ []) (hlength : hashes.length = n - i)
    (hstep : ∀ j, i ≤ j → j < n →
      vdf (prevInfo.globalStepNumber + j + 1) (timeline vdf prevInfo j) d = timeline vdf prevInfo (j + 1)) :
    verifyNoReset vdf (prevInfo.globalStepNumber + i) (timeline vdf prevInfo i) hashes d =
      if hashes = slice (timeline vdf prevInfo) i (n - i) then some hashes.reverse else none := by
  have hpos := List.length_pos_of_ne_nil hne
  rw [verifyNoReset_eq hne (hstep i le_rfl (by omega)), hlength]
  intro j hj
  have hnext := hstep (i + j + 1) (by omega) (by omega)
  have hleft : prevInfo.globalStepNumber + (i + j + 1) + 1 = prevInfo.globalStepNumber + i + j + 2 := by omega
  rwa [hleft] at hnext

variable (vdf) in
lemma verifyUntilReset_timeline (seed : Bytes) {hashes : List Bytes}
    (hbelow : prevInfo.globalStepNumber + i + hashes.length <
      (prevInfo.globalStepNumber / resetFrequency + 1) * resetFrequency) :
    verifyUntilReset vdf (prevInfo.globalStepNumber + i) (timeline vdf prevInfo i) hashes seed prevInfo.vdfDifficulty =
      if hashes = slice (timeline vdf prevInfo) i hashes.length
      then some (mixSeed (timeline vdf prevInfo (i + hashes.length)) seed, hashes.reverse) else none := by
  cases hashes with
  | nil => rfl
  | cons hash hashes =>
    have hverified : verifyNoReset vdf (prevInfo.globalStepNumber + i) (timeline vdf prevInfo i) (hash :: hashes)
        prevInfo.vdfDifficulty =
          if hash :: hashes = slice (timeline vdf prevInfo) i (i + (hash :: hashes).length - i)
          then some (hash :: hashes).reverse else none :=
      verifyNoReset_timeline (List.cons_ne_nil hash hashes) (by omega) fun j _ _ => timeline_succ_of_lt (by omega)
    rw [Nat.add_sub_cancel_left] at hverified
    unfold verifyUntilReset
    dsimp only
    rw [hverified]
    by_cases heq : hash :: hashes = slice (timeline vdf prevInfo) i (hash :: hashes).length
    · have hreverse : (hash :: hashes).reverse =
          timeline vdf prevInfo (i + hashes.length + 1) :: (slice (timeline vdf prevInfo) i hashes.length).reverse := by
        rw [heq.trans (by rw [List.length_cons, slice_succ_last]), List.reverse_append]
        rfl
      rw [if_pos heq, if_pos heq, hreverse]
      rfl
    · rw [if_neg heq, if_neg heq]

/-- The split at the reset line. -/
lemma verify_timeline {n resetPoint : Nat} {hashes : List Bytes}
    (hpoint : resetPoint = (prevInfo.globalStepNumber / resetFrequency + 1) * resetFrequency)
    (hlength : hashes.length = n - i) (hstart : prevInfo.globalStepNumber + i < resetPoint)
    (hend : resetPoint ≤ prevInfo.globalStepNumber + n) :
    verify vdf (prevInfo.globalStepNumber + i) (timeline vdf prevInfo i) hashes resetPoint prevInfo.nextSeed
        prevInfo.vdfDifficulty prevInfo.nextVdfDifficulty =
      if hashes = slice (timeline vdf prevInfo) i (n - i) then .true hashes.reverse else .false := by
  obtain ⟨count, hcount⟩ : ∃ count, count = resetPoint - (prevInfo.globalStepNumber + i) - 1 := ⟨_, rfl⟩
  have hsplit : prevInfo.globalStepNumber + (i + count) + 1 = resetPoint := by omega
  have htakeLength : (hashes.take count).length = count := by
    rw [List.length_take]
    omega
  have hdropLength : (hashes.drop count).length = n - (i + count) := by
    rw [List.length_drop]
    omega
  have hdrop : hashes.drop count ≠ [] := by
    rw [ne_eq, List.drop_eq_nil_iff]
    omega
  have hslice : hashes = slice (timeline vdf prevInfo) i (n - i) ↔
      hashes.take count = slice (timeline vdf prevInfo) i count ∧
        hashes.drop count = slice (timeline vdf prevInfo) (i + count) (n - (i + count)) := by
    rw [← take_slice (show count ≤ n - i by omega), ← Nat.sub_sub, ← drop_slice (by omega)]
    constructor
    · intro heq
      rw [← heq]
      exact ⟨rfl, rfl⟩
    · rintro ⟨htake, hdropEq⟩
      rw [← List.take_append_drop count hashes, htake, hdropEq, List.take_append_drop]
  -- the steps before the line, and then the one on the line and those after it
  have hbelow : prevInfo.globalStepNumber + i + (hashes.take count).length <
      (prevInfo.globalStepNumber / resetFrequency + 1) * resetFrequency := by omega
  have hbefore := verifyUntilReset_timeline vdf prevInfo.nextSeed hbelow
  rw [htakeLength] at hbefore
  have hafter : verifyNoReset vdf (resetPoint - 1) (mixSeed (timeline vdf prevInfo (i + count)) prevInfo.nextSeed)
      (hashes.drop count) prevInfo.nextVdfDifficulty =
        if hashes.drop count = slice (timeline vdf prevInfo) (i + count) (n - (i + count))
        then some (hashes.drop count).reverse else none := by
    rw [show resetPoint - 1 = prevInfo.globalStepNumber + (i + count) by omega,
      verifyNoReset_eq hdrop (timeline_succ_of_eq (hsplit.trans hpoint)), hdropLength]
    intro j hj
    have habove : (prevInfo.globalStepNumber / resetFrequency + 1) * resetFrequency <
        prevInfo.globalStepNumber + (i + count + j + 1) + 1 := by omega
    have hnext := timeline_succ_of_gt vdf habove
    have hleft : prevInfo.globalStepNumber + (i + count + j + 1) + 1 =
        prevInfo.globalStepNumber + (i + count) + j + 2 := by omega
    rwa [hleft] at hnext
  unfold verify
  simp only [← hcount, hbefore]
  by_cases htake : hashes.take count = slice (timeline vdf prevInfo) i count
  · rw [if_pos htake]
    dsimp only
    rw [if_neg (by omega), hafter]
    by_cases hdropEq : hashes.drop count = slice (timeline vdf prevInfo) (i + count) (n - (i + count))
    · rw [if_pos hdropEq, if_pos (hslice.mpr ⟨htake, hdropEq⟩)]
      dsimp only
      rw [← List.reverse_append, List.take_append_drop]
    · rw [if_neg hdropEq, if_neg fun heq => hdropEq (hslice.mp heq).2]
  · rw [if_neg htake, if_neg fun heq => htake (hslice.mp heq).1]

lemma verifyRemaining_timeline {n : Nat} {remaining : List Bytes}
    (hnumber : info.globalStepNumber = prevInfo.globalStepNumber + n)
    (hseed : (info.seed, info.vdfDifficulty) = getSeedData info.globalStepNumber prevInfo)
    (hi : i < n) (hlength : remaining.length = n - i) :
    verifyRemaining vdf info prevInfo (prevInfo.globalStepNumber + i) (timeline vdf prevInfo i) remaining =
      if remaining = slice (timeline vdf prevInfo) i (n - i) then .true remaining.reverse else .false := by
  have hne : remaining ≠ [] := by
    rw [← List.length_pos_iff]
    omega
  unfold verifyRemaining
  rw [getSeedData] at hseed
  by_cases hreset : info.globalStepNumber < (prevInfo.globalStepNumber / resetFrequency + 1) * resetFrequency
  · rw [getEntropyResetPoint_of_lt hreset] at hseed ⊢
    obtain ⟨-, hd⟩ := Prod.mk.inj hseed
    dsimp only
    rw [hd, verifyNoReset_timeline hne hlength fun j _ hj => timeline_succ_of_lt (by omega)]
    split_ifs <;> rfl
  · rw [getEntropyResetPoint_of_le (not_lt.mp hreset)] at hseed ⊢
    obtain ⟨hs, hd⟩ := Prod.mk.inj hseed
    dsimp only
    rw [hs, hd]
    by_cases hstart : prevInfo.globalStepNumber + i <
        (prevInfo.globalStepNumber / resetFrequency + 1) * resetFrequency
    · rw [if_pos hstart, verify_timeline rfl hlength hstart (by omega)]
    · rw [if_neg hstart, verifyNoReset_timeline hne hlength fun j hij _ => timeline_succ_of_gt vdf (by omega)]
      split_ifs <;> rfl

end Timeline

section Known

variable {vdf : Nat → Bytes → Nat → Bytes} {info prevInfo : NonceLimiterInfo} {T : Nat → Bytes}

lemma excludeComputedSteps_eq {steps computedSteps : List Bytes} (m : Nat)
    (h : computedSteps.length ≤ steps.length) :
    excludeComputedSteps steps computedSteps 1 m =
      if computedSteps <+: steps then some (steps.drop computedSteps.length, m + computedSteps.length) else none := by
  induction computedSteps generalizing steps m with
  | nil =>
    rw [if_pos List.nil_prefix]
    rfl
  | cons step computedSteps ih =>
    match steps with
    | [] => simp at h
    | [first] =>
      obtain rfl : computedSteps = [] := by simpa using h
      unfold excludeComputedSteps
      by_cases heq : first = step
      · simp [heq]
      · simp [heq, Ne.symm heq]
    | first :: second :: rest =>
      unfold excludeComputedSteps
      rw [if_neg (by simp)]
      dsimp only
      by_cases heq : first = step
      · rw [if_pos heq, ih _ (by simpa using h), heq]
        simp only [List.cons_prefix_cons, true_and, List.drop_succ_cons, List.length_cons]
        congr 3
        omega
      · rw [if_neg heq, if_neg]
        rw [List.cons_prefix_cons]
        exact fun hprefix => heq hprefix.1.symm

lemma skipAlreadyComputedSteps_eq {n known count : Nat} {steps : List Bytes} {prevStepNumber stepNumber : Nat}
    (hnumber : stepNumber = prevStepNumber + n) (hcount : count = n - steps.length) (hlength : steps.length ≤ n)
    (hknown : count ≤ known) :
    skipAlreadyComputedSteps prevStepNumber stepNumber (T 0) steps (slice T 0 known).reverse =
      (prevStepNumber + count, T count, slice T count (known - count)) := by
  unfold skipAlreadyComputedSteps
  dsimp only
  rw [List.reverse_reverse, length_slice, show stepNumber - prevStepNumber - steps.length = count by omega]
  by_cases hpos : 0 < count
  · rw [if_pos ⟨hpos, hknown⟩, getD_slice (by omega), drop_slice hknown, Nat.zero_add, Nat.zero_add,
      Nat.add_sub_cancel' hpos]
  · obtain rfl : count = 0 := by omega
    rw [if_neg (by omega)]
    rfl

lemma slice_append {i a count : Nat} (h : a ≤ count) :
    slice T i a ++ slice T (i + a) (count - a) = slice T i count := by
  rw [← take_slice h, ← drop_slice h, List.take_append_drop]

lemma lastKnown_eq {count known : Nat} (h : count ≤ known) :
    (if known - count = 0 then T count else (slice T count (known - count)).getD (known - count - 1) []) = T known := by
  split_ifs with hzero
  · rw [show known = count by omega]
  · rw [getD_slice (by omega)]
    congr 1
    omega

lemma eq_slice_iff {count known n : Nat} {steps remaining : List Bytes}
    (hremaining : slice T count (known - count) ++ remaining = steps) (hcount : count ≤ known) (hknown : known ≤ n) :
    steps = slice T count (n - count) ↔ remaining = slice T known (n - known) := by
  rw [← hremaining, ← slice_append (show known - count ≤ n - count by omega), List.append_right_inj,
    show count + (known - count) = known by omega, show n - count - (known - count) = n - known by omega]

/-- The verdict about a block of any number of steps, with any number of the steps known. -/
lemma requestValidation_eq {n known : Nat} (useRemoteVdfServer : Bool) {state : State} (hn : 0 < n)
    (hnumber : info.globalStepNumber = prevInfo.globalStepNumber + n)
    (hseed : (info.seed, info.vdfDifficulty) = getSeedData info.globalStepNumber prevInfo)
    (hstate : getSessionSteps state prevInfo.globalStepNumber info.globalStepNumber (sessionKey prevInfo) =
      (slice (timeline vdf prevInfo) 0 known).reverse)
    (hknown : known ≤ n) (hlength : info.steps.length ≤ n) (hfirst : n - info.steps.length ≤ known)
    (houtput : info.steps.head? = some info.output) :
    requestValidation vdf useRemoteVdfServer state info prevInfo =
      if slice (timeline vdf prevInfo) (n - info.steps.length) (known - (n - info.steps.length)) <+:
        info.steps.reverse then
        if useRemoteVdfServer = true ∧ known < n then .wait
        else if info.steps.reverse = slice (timeline vdf prevInfo) (n - info.steps.length) info.steps.length
        then .valid (slice (timeline vdf prevInfo) 0 n).reverse
        else .invalid 3
      else .invalid 2 := by
  obtain ⟨count, hcount⟩ : ∃ count, count = n - info.steps.length := ⟨_, rfl⟩
  have hsteps : info.steps.length = n - count := by omega
  have hskip := skipAlreadyComputedSteps_eq (T := timeline vdf prevInfo) hnumber hcount hlength (hcount ▸ hfirst)
  have hmost : (slice (timeline vdf prevInfo) count (known - count)).length ≤ info.steps.reverse.length := by
    rw [length_slice, List.length_reverse]
    omega
  have hexclude := excludeComputedSteps_eq 0 hmost
  rw [length_slice, Nat.zero_add] at hexclude
  unfold requestValidation
  rw [← hcount, if_neg (by omega), if_neg (not_not_intro houtput)]
  dsimp only
  rw [hstate, show prevInfo.output = timeline vdf prevInfo 0 from rfl, hskip]
  dsimp only
  rw [hexclude]
  by_cases hprefix : slice (timeline vdf prevInfo) count (known - count) <+: info.steps.reverse
  · rw [if_pos hprefix, if_pos hprefix]
    obtain ⟨remaining, hremaining⟩ := hprefix
    have hdrop : info.steps.reverse.drop (known - count) = remaining := by
      rw [← hremaining, List.drop_left' length_slice]
    have hlen : remaining.length = n - known := by
      rw [← hdrop, List.length_drop, List.length_reverse]
      omega
    have hiff := eq_slice_iff hremaining (by omega) hknown
    rw [hdrop, hsteps]
    dsimp only
    rw [show prevInfo.globalStepNumber + count + (known - count) = prevInfo.globalStepNumber + known by omega]
    by_cases hall : known = n
    · obtain rfl : remaining = [] := List.eq_nil_of_length_eq_zero (by omega)
      have hright : info.steps.reverse = slice (timeline vdf prevInfo) count (n - count) := by
        rw [hiff, hall, Nat.sub_self]
        rfl
      rw [if_pos ⟨rfl, by omega⟩, if_neg (by omega), if_pos hright, hall]
    · rw [if_neg (by omega), if_neg (by omega)]
      cases useRemoteVdfServer with
      | true => rw [if_pos rfl, if_pos ⟨rfl, by omega⟩]
      | false =>
        have hlocal : ¬(false = true ∧ known < n) := fun h => Bool.false_ne_true h.1
        rw [if_neg Bool.false_ne_true, lastKnown_eq (by omega), verifyRemaining_timeline hnumber hseed (by omega) hlen, if_neg hlocal]
        by_cases heq : remaining = slice (timeline vdf prevInfo) known (n - known)
        · rw [if_pos heq, if_pos (hiff.mpr heq)]
          dsimp only
          rw [← List.reverse_append, heq]
          have happend := slice_append (T := timeline vdf prevInfo) (i := 0) hknown
          rw [Nat.zero_add] at happend
          rw [happend]
        · rw [if_neg heq, if_neg (mt hiff.mp heq)]
  · rw [if_neg hprefix, if_neg hprefix]

end Known

section Agreement

variable {vdf : Nat → Bytes → Nat → Bytes} {info prevInfo : NonceLimiterInfo} {session : Session}
  {checkpoints : List (List Bytes)}

/-- The store of a node that has computed some steps after the block. -/
theorem getSessionSteps_local {state : State} {n : Nat} (hn : 0 < n)
    (hstart : StartsAt session prevInfo) :
    ∃ produced, localSteps vdf (sessionKey prevInfo) session checkpoints = some produced ∧
      (getSession state (sessionKey prevInfo) = some produced →
        getSessionSteps state prevInfo.globalStepNumber (prevInfo.globalStepNumber + n) (sessionKey prevInfo) =
          (slice (timeline vdf prevInfo) 0 (min checkpoints.length n)).reverse) := by
  obtain ⟨produced, hrun, hnumber, hsteps⟩ := localSteps_eq vdf (i := 0) checkpoints
    hstart.stepNumber hstart.output hstart.vdfDifficulty hstart.nextVdfDifficulty
  have hpos : 0 < session.steps.length := by
    apply List.length_pos_of_ne_nil
    intro hnil
    have hhead := hstart.output
    rw [hnil] at hhead
    cases hhead
  have hlength : produced.steps.length = checkpoints.length + session.steps.length := by
    rw [hsteps, List.length_append, List.length_reverse, length_slice]
  refine ⟨produced, hrun, fun hstate => ?_⟩
  unfold getSessionSteps getSessionStepRange getStepRange
  rw [hstate]
  dsimp only
  rw [if_neg (List.ne_nil_of_length_pos (by omega)), if_neg (by omega)]
  by_cases hzero : checkpoints.length = 0
  · rw [if_pos (by omega), hzero, Nat.zero_min]
    rfl
  · rw [if_neg (by omega), if_neg (by omega)]
    dsimp only
    rw [show (min produced.stepNumber (prevInfo.globalStepNumber + n) - max ((prevInfo.globalStepNumber + 1 : Nat) : Int)
        (produced.stepNumber - produced.steps.length + 1) + 1).toNat = min checkpoints.length n by omega]
    by_cases hmore : prevInfo.globalStepNumber + n < produced.stepNumber
    · have hdrop : produced.stepNumber - (prevInfo.globalStepNumber + n) = checkpoints.length - n := by omega
      rw [if_pos hmore, hdrop, hsteps, List.drop_append_of_le_length (by simp), List.drop_reverse, length_slice,
        Nat.sub_sub_self (by omega), take_slice (by omega), Nat.min_eq_right (by omega),
        List.take_append_of_le_length (by simp), List.take_of_length_le (by simp)]
    · rw [if_neg hmore, hsteps, Nat.min_eq_left (by omega), List.take_append_of_le_length (by simp),
        List.take_of_length_le (by simp)]

/-- The local computation makes the steps that are validated. The new block brings all of its
steps or the last ones, and the first ones are known. A node with a remote server waits for the
steps that it does not know. -/
theorem local_steps_validated (hstart : StartsAt session prevInfo) (hnew : checkpoints ≠ [])
    (hnumber : info.globalStepNumber = prevInfo.globalStepNumber + checkpoints.length)
    (hseed : (info.seed, info.vdfDifficulty) = getSeedData info.globalStepNumber prevInfo) :
    ∃ produced, localSteps vdf (sessionKey prevInfo) session checkpoints = some produced ∧
      ∀ (state : State) (known : Nat) (useRemoteVdfServer : Bool),
        known ≤ checkpoints.length →
        getSessionSteps state prevInfo.globalStepNumber info.globalStepNumber (sessionKey prevInfo) =
          (produced.steps.take checkpoints.length).drop (checkpoints.length - known) →
        info.steps.length ≤ checkpoints.length → checkpoints.length - info.steps.length ≤ known →
        (info.steps.head? = some info.output → info.steps = produced.steps.take info.steps.length →
          requestValidation vdf useRemoteVdfServer state info prevInfo =
            if useRemoteVdfServer = true ∧ known < checkpoints.length then .wait
            else .valid (produced.steps.take checkpoints.length)) ∧
        (info.steps ≠ produced.steps.take info.steps.length →
          (∃ code, requestValidation vdf useRemoteVdfServer state info prevInfo = .invalid code) ∨
          useRemoteVdfServer = true ∧ known < checkpoints.length ∧
            requestValidation vdf useRemoteVdfServer state info prevInfo = .wait) := by
  have hn := List.length_pos_of_ne_nil hnew
  obtain ⟨produced, hrun, -, hsteps⟩ := localSteps_eq vdf (i := 0) checkpoints
    hstart.stepNumber hstart.output hstart.vdfDifficulty hstart.nextVdfDifficulty
  have htake : ∀ k, k ≤ checkpoints.length → produced.steps.take k =
      (slice (timeline vdf prevInfo) (checkpoints.length - k) k).reverse := by
    intro k hk
    rw [hsteps, List.take_append_of_le_length (by simpa using hk), List.take_reverse, length_slice,
      drop_slice (by omega), Nat.zero_add, Nat.sub_sub_self hk]
  refine ⟨produced, hrun, fun state known useRemoteVdfServer hknown hstate hlength hfirst => ?_⟩
  rw [htake _ le_rfl, Nat.sub_self, List.drop_reverse, length_slice, Nat.sub_sub_self hknown,
    take_slice hknown] at hstate
  have hverdict := fun houtput => requestValidation_eq useRemoteVdfServer hn hnumber hseed hstate hknown hlength
    hfirst houtput
  rw [htake _ hlength, htake _ le_rfl, Nat.sub_self, ne_eq, ← List.reverse_eq_iff]
  constructor
  · intro houtput heq
    rw [hverdict houtput, if_pos heq, if_pos]
    rw [heq, ← take_slice (show known - (checkpoints.length - info.steps.length) ≤ info.steps.length by omega)]
    exact List.take_prefix _ _
  · intro hne
    by_cases houtput : info.steps.head? = some info.output
    · rw [hverdict houtput, if_neg hne]
      split_ifs with hprefix hwait
      · exact .inr ⟨hwait.1, hwait.2, rfl⟩
      · exact .inl ⟨3, rfl⟩
      · exact .inl ⟨2, rfl⟩
    · refine .inl ⟨4, ?_⟩
      unfold requestValidation
      rw [if_neg (by omega), if_pos houtput]

def sampleVdf (stepNumber : Nat) (prevOutput : Bytes) (vdfDifficulty : Nat) : Bytes :=
  UInt8.ofNat (stepNumber + vdfDifficulty) :: prevOutput.take 2

/-- A block two steps before the reset line. -/
def samplePrevInfo : NonceLimiterInfo where
  output := [1]
  seed := [2]
  nextSeed := [3]
  globalStepNumber := 1198
  vdfDifficulty := 5
  nextVdfDifficulty := 7

/-- The block after it, with the steps before the line, on it and after it. -/
def sampleInfo : NonceLimiterInfo where
  output := timeline sampleVdf samplePrevInfo 3
  seed := [3]
  nextSeed := [4]
  globalStepNumber := 1201
  steps := (slice (timeline sampleVdf samplePrevInfo) 0 3).reverse
  vdfDifficulty := 7
  nextVdfDifficulty := 8

def sampleSession : Session where
  stepNumber := 1198
  seed := [2]
  steps := [[1]]
  upperBound := none
  nextUpperBound := none
  vdfDifficulty := some 5
  nextVdfDifficulty := some 7

lemma sampleSession_startsAt : StartsAt sampleSession samplePrevInfo := ⟨rfl, rfl, rfl, rfl⟩

/-- A node that computes the steps itself. -/
theorem local_steps_validated_reset :
    ∃ produced, localSteps sampleVdf (sessionKey samplePrevInfo) sampleSession [[], [], []] = some produced ∧
      requestValidation sampleVdf false {} sampleInfo samplePrevInfo = .valid (produced.steps.take 3) := by
  obtain ⟨produced, hrun, hverdict⟩ := @local_steps_validated sampleVdf sampleInfo samplePrevInfo sampleSession
    [[], [], []] sampleSession_startsAt (List.cons_ne_nil _ _) rfl (by decide)
  have hsteps : (localSteps sampleVdf (sessionKey samplePrevInfo) sampleSession [[], [], []]).map
      (fun s => s.steps.take 3) = some sampleInfo.steps := by decide +kernel
  rw [hrun, Option.map_some, Option.some.injEq] at hsteps
  refine ⟨produced, hrun, ?_⟩
  refine (hverdict {} 0 false (Nat.zero_le _) ?_ (by decide) (by decide)).1 rfl hsteps.symm
  rw [Nat.sub_zero, List.drop_eq_nil_of_le (List.length_take_le _ _)]
  rfl

/-- A node with a remote server asks again until the server has sent the steps. -/
theorem local_steps_wait_for_server :
    ∃ produced, localSteps sampleVdf (sessionKey samplePrevInfo) sampleSession [[], [], []] = some produced ∧
      sampleInfo.steps = produced.steps.take 3 ∧
      (sampleInfo.seed, sampleInfo.vdfDifficulty) = getSeedData sampleInfo.globalStepNumber samplePrevInfo ∧
      getSessionSteps {} samplePrevInfo.globalStepNumber sampleInfo.globalStepNumber (sessionKey samplePrevInfo) = [] ∧
      requestValidation sampleVdf true {} sampleInfo samplePrevInfo = .wait := by
  have hsteps : (localSteps sampleVdf (sessionKey samplePrevInfo) sampleSession [[], [], []]).map
      (fun s => s.steps.take 3) = some sampleInfo.steps := by decide +kernel
  obtain ⟨produced, hrun, heq⟩ := Option.map_eq_some_iff.mp hsteps
  exact ⟨produced, hrun, heq.symm, by decide +kernel, rfl, by decide +kernel⟩

end Agreement

end Arweave.Vdf

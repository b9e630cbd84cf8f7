import Arweave.Ledger.Blocks

/-!
# Retargeting

Every ten blocks the difficulty follows the time that the last ten blocks took. The difficulty is
linear: a hash has to be greater, so the time divides the distance to the greatest difficulty. The
first block of a fork may drop the difficulty further, whatever the time. The heights up to the fork
2.5, which compute in floats, are left out.
-/

namespace Arweave.Retarget
open Arweave.Ledger (maxDiff)

def retargetBlocks : Int := 10

def targetTime : Int := 120

def retargetToleranceUpperBound : Int := targetTime * retargetBlocks + targetTime

def retargetToleranceLowerBound : Int := targetTime * retargetBlocks - targetTime

def joinClockTolerance : Int := 15

def clockDriftMax : Int := 5

def initialDiffDrop_2_6 : Int := 100

def diffDrop_2_6 : Int := 2

/-- `ar_block:get_max_timestamp_deviation/0` -/
def getMaxTimestampDeviation : Int := joinClockTolerance * 2 + clockDriftMax

/-- `ar_fraction:pow/2` -/
def pow (x : Int) (n : Nat) : Int :=
  if n = 0 then 1
  else if n = 1 then x
  else if n = 2 then x * x
  else if n = 3 then x * x * x
  else if n % 2 = 0 then pow (x * x) (n / 2)
  else x * pow (x * x) (n / 2)
termination_by n

def switchToLinearDiff (diff : Nat) : Int := maxDiff - pow 2 (256 - diff)

/-- `?SPORA_MIN_DIFFICULTY`, from the fork 2.4 on. -/
def minSporaDifficulty (height : Nat) : Nat := if Fork.height_2_6 ≤ height then 2 else 21

/-- `min_difficulty/1`, from the fork 2.5 on. -/
def minDifficulty (height : Nat) : Int := switchToLinearDiff (minSporaDifficulty height)

def between (n min max : Int) : Int := if n < min then min else if max < n then max else n

/-- The difficulty that brings an actual time to the target. -/
def scaleDifficulty (oldDiff actualTime : Int) (height : Nat) : Int :=
  let diffInverse := ((maxDiff - oldDiff) * actualTime).tdiv (retargetBlocks * targetTime)
  between (maxDiff - diffInverse) (minDifficulty height) (maxDiff - 1)

/-- `calculate_difficulty/4` -/
def calculateDifficulty4 (oldDiff ts last : Int) (height : Nat) : Int :=
  let actualTime := max (ts - last) getMaxTimestampDeviation
  if actualTime < retargetToleranceUpperBound ∧ retargetToleranceLowerBound < actualTime then oldDiff
  else scaleDifficulty oldDiff actualTime height

/-- The initial coefficient applies at once, and the other one for every ten minutes since the block
before. -/
def calculateDifficultyWithDrop (oldDiff ts last : Int) (height : Nat) (prevTS initialCoeff coeff : Int) : Int :=
  let actualTime := max (ts - last) getMaxTimestampDeviation
  let step := 10 * 60
  let actualTime2 := actualTime * initialCoeff * pow coeff ((max (ts - prevTS) 0).tdiv step).toNat
  scaleDifficulty oldDiff actualTime2 height

/-- `calculate_difficulty/5`, after the fork 2.5. -/
def calculateDifficulty (oldDiff ts last : Int) (height : Nat) (prevTS : Int) : Option Int :=
  if height = Fork.height_2_6 then
    some (calculateDifficultyWithDrop oldDiff ts last height prevTS initialDiffDrop_2_6 diffDrop_2_6)
  else if Fork.height_2_5 < height then some (calculateDifficulty4 oldDiff ts last height)
  else none

section Arithmetic

variable {x n lo hi oldDiff a b ts ts2 last last2 prevTS prevTS2 initialCoeff coeff : Int} {height height2 : Nat}

lemma pow_eq (x : Int) (n : Nat) : pow x n = x ^ n := by
  fun_induction pow x n with
  | case1 => rw [pow_zero]
  | case2 => rw [pow_one]
  | case3 => rw [pow_two]
  | case4 => rw [pow_succ, pow_two]
  | case5 x n _ _ _ _ heven ih =>
    rw [ih, ← pow_two, ← pow_mul]
    congr 1
    omega
  | case6 x n _ _ _ _ hodd ih =>
    rw [ih, ← pow_two, ← pow_mul, ← pow_succ']
    congr 1
    omega

lemma between_mem (h : lo ≤ hi) : lo ≤ between n lo hi ∧ between n lo hi ≤ hi := by
  unfold between
  split_ifs <;> omega

lemma between_le_between (h : lo ≤ hi) (hle : a ≤ b) : between a lo hi ≤ between b lo hi := by
  unfold between
  split_ifs <;> omega

lemma between_of_mem (hlo : lo ≤ n) (hhi : n ≤ hi) : between n lo hi = n := by
  unfold between
  rw [if_neg (by omega), if_neg (by omega)]

/-- A difficulty that the blocks of a height may have. -/
structure InRange (height : Nat) (diff : Int) : Prop where
  min_le : minDifficulty height ≤ diff
  le_max : diff ≤ maxDiff - 1

lemma scaleDifficulty_inRange (h : InRange height oldDiff) : InRange height (scaleDifficulty oldDiff a height) := by
  have hle := h.min_le.trans h.le_max
  exact ⟨(between_mem hle).1, (between_mem hle).2⟩

lemma scaleDifficulty_le (h : InRange height oldDiff) (hle : a ≤ b) :
    scaleDifficulty oldDiff b height ≤ scaleDifficulty oldDiff a height := by
  have hnonneg : 0 ≤ maxDiff - oldDiff := by
    have := h.le_max
    omega
  have hdiv : ((maxDiff - oldDiff) * a).tdiv (retargetBlocks * targetTime) ≤
      ((maxDiff - oldDiff) * b).tdiv (retargetBlocks * targetTime) :=
    Int.tdiv_le_tdiv (by decide) (mul_le_mul_of_nonneg_left hle hnonneg)
  apply between_le_between (h.min_le.trans h.le_max)
  omega

lemma scaleDifficulty_target (h : InRange height oldDiff) :
    scaleDifficulty oldDiff (retargetBlocks * targetTime) height = oldDiff := by
  unfold scaleDifficulty
  dsimp only
  rw [Int.mul_tdiv_cancel _ (by decide), sub_sub_cancel]
  exact between_of_mem h.min_le h.le_max

lemma scaleDifficulty_le_old (h : InRange height oldDiff) (hslow : retargetBlocks * targetTime ≤ a) :
    scaleDifficulty oldDiff a height ≤ oldDiff := by
  calc scaleDifficulty oldDiff a height ≤ scaleDifficulty oldDiff (retargetBlocks * targetTime) height :=
        scaleDifficulty_le h hslow
    _ = oldDiff := scaleDifficulty_target h

lemma old_le_scaleDifficulty (h : InRange height oldDiff) (hfast : a ≤ retargetBlocks * targetTime) :
    oldDiff ≤ scaleDifficulty oldDiff a height := by
  calc oldDiff = scaleDifficulty oldDiff (retargetBlocks * targetTime) height := (scaleDifficulty_target h).symm
    _ ≤ scaleDifficulty oldDiff a height := scaleDifficulty_le h hfast

/-- The time that is divided by the target time is never below the clock deviation. -/
def actualTime (ts last : Int) : Int := max (ts - last) getMaxTimestampDeviation

lemma actualTime_le (hle : ts - last ≤ ts2 - last2) : actualTime ts last ≤ actualTime ts2 last2 := max_le_max_right _ hle

lemma actualTime_pos : 0 < actualTime ts last := lt_of_lt_of_le (by decide) (le_max_right _ _)

lemma actualTime_le_target (hfast : ts - last ≤ retargetBlocks * targetTime) :
    actualTime ts last ≤ retargetBlocks * targetTime := max_le hfast (by decide)

lemma calculateDifficulty4_eq : calculateDifficulty4 oldDiff ts last height =
    if retargetToleranceLowerBound < ts - last ∧ ts - last < retargetToleranceUpperBound then oldDiff
    else scaleDifficulty oldDiff (actualTime ts last) height := by
  have hbounds : getMaxTimestampDeviation = 35 ∧ retargetToleranceLowerBound = 1080 ∧
      retargetToleranceUpperBound = 1320 := by decide
  unfold calculateDifficulty4
  apply if_congr _ rfl rfl
  omega

lemma calculateDifficulty4_inRange (h : InRange height oldDiff) :
    InRange height (calculateDifficulty4 oldDiff ts last height) := by
  rw [calculateDifficulty4_eq]
  split_ifs
  · exact h
  · exact scaleDifficulty_inRange h

lemma calculateDifficulty4_le_old (h : InRange height oldDiff) (hslow : retargetBlocks * targetTime ≤ ts - last) :
    calculateDifficulty4 oldDiff ts last height ≤ oldDiff := by
  rw [calculateDifficulty4_eq]
  split_ifs
  · exact le_rfl
  · exact scaleDifficulty_le_old h (hslow.trans (le_max_left _ _))

lemma old_le_calculateDifficulty4 (h : InRange height oldDiff) (hfast : ts - last ≤ retargetBlocks * targetTime) :
    oldDiff ≤ calculateDifficulty4 oldDiff ts last height := by
  rw [calculateDifficulty4_eq]
  split_ifs
  · exact le_rfl
  · exact old_le_scaleDifficulty h (actualTime_le_target hfast)

lemma calculateDifficulty4_le (h : InRange height oldDiff) (hle : ts - last ≤ ts2 - last2) :
    calculateDifficulty4 oldDiff ts2 last2 height ≤ calculateDifficulty4 oldDiff ts last height := by
  have htarget : retargetToleranceLowerBound < retargetBlocks * targetTime ∧
      retargetBlocks * targetTime < retargetToleranceUpperBound := by decide
  by_cases hslow : retargetBlocks * targetTime ≤ ts2 - last2
  · by_cases hfast : ts - last ≤ retargetBlocks * targetTime
    · exact (calculateDifficulty4_le_old h hslow).trans (old_le_calculateDifficulty4 h hfast)
    · rw [calculateDifficulty4_eq, calculateDifficulty4_eq]
      split_ifs with hband2 hband hband
      · exact le_rfl
      · omega
      · exact scaleDifficulty_le_old h (hslow.trans (le_max_left _ _))
      · exact scaleDifficulty_le h (actualTime_le hle)
  · rw [calculateDifficulty4_eq, calculateDifficulty4_eq]
    split_ifs with hband2 hband hband
    · exact le_rfl
    · exact old_le_scaleDifficulty h (actualTime_le_target (by omega))
    · omega
    · exact scaleDifficulty_le h (actualTime_le hle)

lemma dropFactor_le (hinitial : 0 ≤ initialCoeff) (hcoeff : 1 ≤ coeff) (hle : ts - last ≤ ts2 - last2)
    (hprev : ts - prevTS ≤ ts2 - prevTS2) :
    actualTime ts last * initialCoeff * pow coeff ((max (ts - prevTS) 0).tdiv (10 * 60)).toNat ≤
      actualTime ts2 last2 * initialCoeff * pow coeff ((max (ts2 - prevTS2) 0).tdiv (10 * 60)).toNat := by
  have hsteps : ((max (ts - prevTS) 0).tdiv (10 * 60)).toNat ≤ ((max (ts2 - prevTS2) 0).tdiv (10 * 60)).toNat :=
    Int.toNat_le_toNat (Int.tdiv_le_tdiv (by decide) (max_le_max_right 0 hprev))
  rw [pow_eq, pow_eq]
  have htime := actualTime_le hle
  have hpos : 0 ≤ actualTime ts2 last2 := actualTime_pos.le
  gcongr

lemma calculateDifficultyWithDrop_le (h : InRange height oldDiff) (hinitial : 0 ≤ initialCoeff) (hcoeff : 1 ≤ coeff)
    (hle : ts - last ≤ ts2 - last2) (hprev : ts - prevTS ≤ ts2 - prevTS2) :
    calculateDifficultyWithDrop oldDiff ts2 last2 height prevTS2 initialCoeff coeff ≤
      calculateDifficultyWithDrop oldDiff ts last height prevTS initialCoeff coeff :=
  scaleDifficulty_le h (dropFactor_le hinitial hcoeff hle hprev)

lemma calculateDifficultyWithDrop_le_old (h : InRange height oldDiff) (hinitial : 1 ≤ initialCoeff) (hcoeff : 1 ≤ coeff)
    (hslow : retargetBlocks * targetTime ≤ ts - last) :
    calculateDifficultyWithDrop oldDiff ts last height prevTS initialCoeff coeff ≤ oldDiff := by
  have hpow : 1 ≤ pow coeff ((max (ts - prevTS) 0).tdiv (10 * 60)).toNat := by
    rw [pow_eq]
    exact one_le_pow₀ hcoeff
  apply scaleDifficulty_le_old h
  calc retargetBlocks * targetTime ≤ actualTime ts last := hslow.trans (le_max_left _ _)
    _ ≤ actualTime ts last * initialCoeff := le_mul_of_one_le_right actualTime_pos.le hinitial
    _ ≤ _ := le_mul_of_one_le_right (mul_nonneg actualTime_pos.le (by omega)) hpow

end Arithmetic

section Retargets

variable {oldDiff diff : Int} {height height2 : Nat}

lemma calculateDifficulty_of_ne (hfork : Fork.height_2_5 < height) (hdrop : height ≠ Fork.height_2_6) (ts last prevTS : Int) :
    calculateDifficulty oldDiff ts last height prevTS = some (calculateDifficulty4 oldDiff ts last height) := by
  rw [calculateDifficulty, if_neg hdrop, if_pos hfork]

lemma calculateDifficulty_of_eq (hdrop : height = Fork.height_2_6) (ts last prevTS : Int) :
    calculateDifficulty oldDiff ts last height prevTS =
      some (calculateDifficultyWithDrop oldDiff ts last height prevTS initialDiffDrop_2_6 diffDrop_2_6) := by
  rw [calculateDifficulty, if_pos hdrop]

lemma calculateDifficulty_retargets (height : Nat) (hfork : Fork.height_2_5 < height) (oldDiff : Int)
    (h : InRange height oldDiff) :
    (∀ ts last prevTS, ∃ diff, calculateDifficulty oldDiff ts last height prevTS = some diff ∧ InRange height diff ∧
      (retargetBlocks * targetTime ≤ ts - last → diff ≤ oldDiff) ∧
      (height ≠ Fork.height_2_6 →
        (retargetToleranceLowerBound < ts - last ∧ ts - last < retargetToleranceUpperBound → diff = oldDiff) ∧
        (ts - last ≤ retargetBlocks * targetTime → oldDiff ≤ diff))) ∧
    ∀ ts last prevTS ts2 last2 prevTS2 diff diff2, ts - last ≤ ts2 - last2 →
      (height = Fork.height_2_6 → ts - prevTS ≤ ts2 - prevTS2) →
      calculateDifficulty oldDiff ts last height prevTS = some diff →
      calculateDifficulty oldDiff ts2 last2 height prevTS2 = some diff2 → diff2 ≤ diff := by
  refine ⟨fun ts last prevTS => ?_, fun ts last prevTS ts2 last2 prevTS2 diff diff2 hle hprev hdiff hdiff2 => ?_⟩
  · by_cases hdrop : height = Fork.height_2_6
    · refine ⟨_, calculateDifficulty_of_eq hdrop ts last prevTS, scaleDifficulty_inRange h, fun hslow => ?_,
        fun hne => absurd hdrop hne⟩
      exact calculateDifficultyWithDrop_le_old h (by decide) (by decide) hslow
    · refine ⟨_, calculateDifficulty_of_ne hfork hdrop ts last prevTS, calculateDifficulty4_inRange h,
        calculateDifficulty4_le_old h, fun _ => ⟨fun hband => ?_, old_le_calculateDifficulty4 h⟩⟩
      rw [calculateDifficulty4_eq, if_pos hband]
  · by_cases hdrop : height = Fork.height_2_6
    · rw [calculateDifficulty_of_eq hdrop] at hdiff hdiff2
      cases hdiff
      cases hdiff2
      exact calculateDifficultyWithDrop_le h (by decide) (by decide) hle (hprev hdrop)
    · rw [calculateDifficulty_of_ne hfork hdrop] at hdiff hdiff2
      cases hdiff
      cases hdiff2
      exact calculateDifficulty4_le h hle

/-- At every height the difficulty stays in the range, is unchanged in the tolerance band, does not fall when the
blocks were fast, does not rise when they were slow, and is antitone in the time that they took. With a drop it
stays in the range, is antitone, and does not rise when the blocks were slow. -/
theorem calculateDifficulty4_retargets (height : Nat) (oldDiff : Int) (h : InRange height oldDiff) :
    (∀ ts last, InRange height (calculateDifficulty4 oldDiff ts last height) ∧
      (retargetToleranceLowerBound < ts - last ∧ ts - last < retargetToleranceUpperBound →
        calculateDifficulty4 oldDiff ts last height = oldDiff) ∧
      (ts - last ≤ retargetBlocks * targetTime → oldDiff ≤ calculateDifficulty4 oldDiff ts last height) ∧
      (retargetBlocks * targetTime ≤ ts - last → calculateDifficulty4 oldDiff ts last height ≤ oldDiff)) ∧
    (∀ ts last ts2 last2, ts - last ≤ ts2 - last2 →
      calculateDifficulty4 oldDiff ts2 last2 height ≤ calculateDifficulty4 oldDiff ts last height) ∧
    ∀ ts last prevTS initialCoeff coeff, 0 ≤ initialCoeff → 1 ≤ coeff →
      InRange height (calculateDifficultyWithDrop oldDiff ts last height prevTS initialCoeff coeff) ∧
      (∀ ts2 last2 prevTS2, ts - last ≤ ts2 - last2 → ts - prevTS ≤ ts2 - prevTS2 →
        calculateDifficultyWithDrop oldDiff ts2 last2 height prevTS2 initialCoeff coeff ≤
          calculateDifficultyWithDrop oldDiff ts last height prevTS initialCoeff coeff) ∧
      (1 ≤ initialCoeff → retargetBlocks * targetTime ≤ ts - last →
        calculateDifficultyWithDrop oldDiff ts last height prevTS initialCoeff coeff ≤ oldDiff) := by
  refine ⟨?_, ?_, ?_⟩
  · intro ts last
    refine ⟨calculateDifficulty4_inRange h, fun hband => ?_, old_le_calculateDifficulty4 h, calculateDifficulty4_le_old h⟩
    rw [calculateDifficulty4_eq, if_pos hband]
  · intro ts last ts2 last2 hle
    exact calculateDifficulty4_le h hle
  · intro ts last prevTS initialCoeff coeff hinitial hcoeff
    refine ⟨scaleDifficulty_inRange h, fun ts2 last2 prevTS2 hle hprev => ?_, fun hinitial hslow => ?_⟩
    · exact calculateDifficultyWithDrop_le h hinitial hcoeff hle hprev
    · exact calculateDifficultyWithDrop_le_old h hinitial hcoeff hslow

lemma minDifficulty_eq : minDifficulty height = maxDiff - 2 ^ (256 - minSporaDifficulty height) := by
  rw [minDifficulty, switchToLinearDiff, pow_eq]

lemma inRange_sample (hfork : Fork.height_2_6 ≤ height) : InRange height (maxDiff - 2 ^ 240) := by
  constructor
  · rw [minDifficulty_eq, minSporaDifficulty, if_pos hfork]
    decide
  · decide

theorem calculateDifficulty4_retargets_sample :
    (calculateDifficulty4 (maxDiff - 2 ^ 240) 2400 0 (Fork.height_2_6 + 10) ≤ maxDiff - 2 ^ 240 ∧
      calculateDifficulty4 (maxDiff - 2 ^ 240) 2400 0 (Fork.height_2_6 + 10) ≤
        calculateDifficulty4 (maxDiff - 2 ^ 240) 1200 0 (Fork.height_2_6 + 10)) ∧
    calculateDifficulty4 (maxDiff - 2 ^ 240) 1200 0 (Fork.height_2_6 + 10) = maxDiff - 2 ^ 240 ∧
    calculateDifficultyWithDrop (maxDiff - 2 ^ 240) 2400 0 (Fork.height_2_6 + 10) 300 100 2 ≤
      calculateDifficultyWithDrop (maxDiff - 2 ^ 240) 1200 0 (Fork.height_2_6 + 10) 300 100 2 := by
  obtain ⟨hrange, hantitone, hdrop⟩ :=
    calculateDifficulty4_retargets (Fork.height_2_6 + 10) (maxDiff - 2 ^ 240) (inRange_sample (by decide))
  refine ⟨⟨(hrange 2400 0).2.2.2 (by decide), hantitone 1200 0 2400 0 (by decide)⟩,
    (hrange 1200 0).2.1 (by decide), ?_⟩
  exact (hdrop 1200 0 300 100 2 (by decide) (by decide)).2.1 2400 0 300 (by decide) (by decide)

end Retargets

/-- The fields of a block that the difficulty depends on. -/
structure Header where
  height : Nat
  timestamp : Int
  lastRetarget : Int
  diff : Int

def isRetargetHeight (height : Nat) : Bool := (height : Int) % retargetBlocks = 0 && height ≠ 0

def validateDifficulty (newB oldB : Header) : Bool :=
  if isRetargetHeight newB.height then
    calculateDifficulty oldB.diff newB.timestamp oldB.lastRetarget newB.height oldB.timestamp = some newB.diff
  else newB.diff = oldB.diff && newB.lastRetarget = oldB.lastRetarget

lemma InRange.mono {height height2 : Nat} {diff : Int} (h : InRange height diff) (hle : height ≤ height2) :
    InRange height2 diff := by
  refine ⟨le_trans ?_ h.min_le, h.le_max⟩
  rw [minDifficulty_eq, minDifficulty_eq, minSporaDifficulty, minSporaDifficulty]
  split_ifs
  · exact le_rfl
  · decide
  · omega
  · exact le_rfl

lemma calculateDifficulty_inRange {height : Nat} {oldDiff ts last prevTS diff : Int} (h : InRange height oldDiff)
    (hdiff : calculateDifficulty oldDiff ts last height prevTS = some diff) : InRange height diff := by
  unfold calculateDifficulty at hdiff
  split_ifs at hdiff
  · cases hdiff
    exact scaleDifficulty_inRange h
  · cases hdiff
    exact calculateDifficulty4_inRange h

lemma validateDifficulty_inRange {newB oldB : Header} (hheight : newB.height = oldB.height + 1) (hvalid : validateDifficulty newB oldB = true)
    (h : InRange oldB.height oldB.diff) : InRange newB.height newB.diff := by
  have hold : InRange newB.height oldB.diff := h.mono (by omega)
  unfold validateDifficulty at hvalid
  split_ifs at hvalid
  · rw [decide_eq_true_eq] at hvalid
    exact calculateDifficulty_inRange hold hvalid
  · rw [Bool.and_eq_true, decide_eq_true_eq] at hvalid
    rw [hvalid.1]
    exact hold

/-- All blocks of a chain after the fork 2.5 have a difficulty in the range if the first one does. -/
theorem chain_inRange (blocks : Nat → Header) (hheight : ∀ n, (blocks (n + 1)).height = (blocks n).height + 1)
    (hvalid : ∀ n, validateDifficulty (blocks (n + 1)) (blocks n) = true)
    (h : InRange (blocks 0).height (blocks 0).diff) (n : Nat) : InRange (blocks n).height (blocks n).diff := by
  induction n with
  | zero => exact h
  | succ n ih => exact validateDifficulty_inRange (hheight n) (hvalid n) ih

end Arweave.Retarget

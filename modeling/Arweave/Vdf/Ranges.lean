import Arweave.Lib.Walk
import Arweave.Vdf.Sessions

/-!
# Ranges of steps

The steps of a session are numbered from its last one down. `get_step_range` cuts a range of numbers
out of them, and `get_steps` collects the steps between two blocks from a session and the ones before
it.
-/

namespace Arweave.Vdf
open Arweave.Lib Arweave.Serialize

def maxCheckpointsCount : Nat := 10800

/-- The steps after the start up to the end, from the session and those it leads to. A chain that comes
back to a session it has seen never ends, so the sessions are bounded by their number. -/
def getSteps2 (state : State) : Nat → Nat → Nat → Option SessionKey → Option (List Bytes)
  | 0, _, _, _ => none
  | fuel + 1, startStepNumber, endStepNumber, key =>
    match getSession? state key with
    | none => none
    | some session =>
      if endStepNumber ≤ session.stepNumber then
        let steps := (getStepRange session.steps session.stepNumber (startStepNumber + 1) endStepNumber).2
        let totalCount := endStepNumber - startStepNumber - 1
        let count := steps.length
        if count < totalCount then
          (getSteps2 state fuel startStepNumber (endStepNumber - count) session.prevSessionKey).map (steps ++ ·)
        else some steps
      else none

/-- The request `get_steps`. -/
def getSteps (state : State) (startStepNumber endStepNumber : Nat) (key : SessionKey) : Option (List Bytes) :=
  (getSteps2 state (state.sessionByKey.size + 1) startStepNumber endStepNumber (some key)).map fun steps =>
    steps.take (min maxCheckpointsCount (endStepNumber - startStepNumber))

section Range

variable {steps : List Bytes} {top a b : Int}

/-- The steps with their numbers. -/
def numbered : Int → List Bytes → List (Int × Bytes)
  | _, [] => []
  | n, output :: steps => (n, output) :: numbered (n - 1) steps

lemma le_of_mem_numbered {s : Int × Bytes} (h : s ∈ numbered top steps) : top - steps.length < s.1 ∧ s.1 ≤ top := by
  induction steps generalizing top with
  | nil => cases h
  | cons output steps ih =>
    rw [List.length_cons, Nat.cast_succ]
    obtain rfl | h := List.mem_cons.mp h
    · dsimp only
      omega
    · have := ih h
      omega

lemma filter_le_numbered : (numbered top steps).filter (fun s => s.1 ≤ b) =
    numbered (min top b) (steps.drop (top - b).toNat) := by
  induction steps generalizing top with
  | nil =>
    rw [List.drop_nil]
    rfl
  | cons output steps ih =>
    by_cases h : top ≤ b
    · have hall : (numbered top (output :: steps)).filter (fun s => s.1 ≤ b) = numbered top (output :: steps) := by
        rw [List.filter_eq_self]
        intro s hs
        rw [decide_eq_true_eq]
        exact (le_of_mem_numbered hs).2.trans h
      rw [hall, min_eq_left h, Int.toNat_of_nonpos (by omega)]
      rfl
    · have hnat : (top - b).toNat = (top - 1 - b).toNat + 1 := by omega
      rw [numbered, List.filter_cons_of_neg (by simpa using h), ih, hnat, List.drop_succ_cons]
      congr 1
      omega

lemma filter_ge_numbered : (numbered top steps).filter (fun s => a ≤ s.1) =
    numbered top (steps.take (top + 1 - a).toNat) := by
  induction steps generalizing top with
  | nil =>
    rw [List.take_nil]
    rfl
  | cons output steps ih =>
    by_cases h : a ≤ top
    · have hnat : (top + 1 - a).toNat = (top - 1 + 1 - a).toNat + 1 := by omega
      rw [numbered, List.filter_cons_of_pos (by simpa using h), ih, hnat, List.take_succ_cons, numbered]
    · have hnone : (numbered top (output :: steps)).filter (fun s => a ≤ s.1) = [] := by
        rw [List.filter_eq_nil_iff]
        intro s hs
        have := (le_of_mem_numbered hs).2
        rw [decide_eq_true_eq]
        omega
      rw [hnone, Int.toNat_of_nonpos (by omega), List.take_zero]
      rfl

lemma map_snd_numbered : (numbered top steps).map Prod.snd = steps := by
  induction steps generalizing top with
  | nil => rfl
  | cons output steps ih => rw [numbered, List.map_cons, ih]

lemma head?_numbered {s : Int × Bytes} (h : s ∈ (numbered top steps).head?) : s.1 = top := by
  cases steps with
  | nil => cases h
  | cons output steps =>
    cases h
    rfl

/-- The steps of the session whose numbers are in the range. -/
def available (steps : List Bytes) (stepNumber rangeStart rangeEnd : Nat) : List (Int × Bytes) :=
  (numbered stepNumber steps).filter fun s => (rangeStart : Int) ≤ s.1 ∧ s.1 ≤ (rangeEnd : Int)

lemma available_eq {stepNumber rangeStart rangeEnd : Nat} :
    available steps stepNumber rangeStart rangeEnd = numbered (min stepNumber rangeEnd : Nat)
      ((steps.drop (stepNumber - rangeEnd)).take (min stepNumber rangeEnd + 1 - rangeStart)) := by
  have hsplit : available steps stepNumber rangeStart rangeEnd =
      ((numbered stepNumber steps).filter fun s => s.1 ≤ (rangeEnd : Int)).filter fun s => (rangeStart : Int) ≤ s.1 := by
    rw [List.filter_filter, available]
    apply List.filter_congr
    intro s _
    rw [Bool.decide_and]
  have htop : min (stepNumber : Int) rangeEnd = (min stepNumber rangeEnd : Nat) := by omega
  have hdrop : ((stepNumber : Int) - rangeEnd).toNat = stepNumber - rangeEnd := by omega
  have htake : (((min stepNumber rangeEnd : Nat) : Int) + 1 - rangeStart).toNat = min stepNumber rangeEnd + 1 - rangeStart := by
    omega
  rw [hsplit, filter_le_numbered, filter_ge_numbered, htop, hdrop, htake]

lemma available_eq_nil_iff {stepNumber rangeStart rangeEnd : Nat} :
    available steps stepNumber rangeStart rangeEnd = [] ↔
      min stepNumber rangeEnd + 1 - rangeStart = 0 ∨ steps.length ≤ stepNumber - rangeEnd := by
  rw [← List.drop_eq_nil_iff, ← List.take_eq_nil_iff, available_eq]
  cases (steps.drop (stepNumber - rangeEnd)).take (min stepNumber rangeEnd + 1 - rangeStart) <;> simp [numbered]

/-- The guards leave out the ranges without steps. -/
lemma getStepRange_eq {stepNumber rangeStart rangeEnd : Nat} :
    getStepRange steps stepNumber rangeStart rangeEnd =
      if available steps stepNumber rangeStart rangeEnd = [] then (0, [])
      else (min stepNumber rangeEnd, (available steps stepNumber rangeStart rangeEnd).map Prod.snd) := by
  by_cases hempty : available steps stepNumber rangeStart rangeEnd = []
  · have hout := available_eq_nil_iff.mp hempty
    rw [if_pos hempty, getStepRange]
    split_ifs with hnil hrange hstart hend hlast
    · rfl
    · rfl
    · rfl
    · rfl
    · omega
    · have hpos := List.length_pos_of_ne_nil hnil
      omega
  · rw [if_neg hempty]
    rw [available_eq_nil_iff, not_or] at hempty
    obtain ⟨hcount, hlength⟩ := hempty
    have hsteps : steps ≠ [] := by
      rintro rfl
      exact hlength (Nat.zero_le _)
    rw [getStepRange, if_neg hsteps, if_neg (by omega), if_neg (by omega), if_neg (by omega), available_eq,
      map_snd_numbered]
    dsimp only
    have hdrop : (if rangeEnd < stepNumber then steps.drop (stepNumber - rangeEnd) else steps) =
        steps.drop (stepNumber - rangeEnd) := by
      split_ifs with hlast
      · rfl
      · rw [Nat.sub_eq_zero_of_le (by omega), List.drop_zero]
    rw [hdrop, Prod.mk.injEq]
    refine ⟨rfl, ?_⟩
    -- the start is clipped to the earliest step
    by_cases hclip : (rangeStart : Int) ≤ stepNumber - steps.length + 1
    · rw [List.take_of_length_le (by rw [List.length_drop]; omega),
        List.take_of_length_le (by rw [List.length_drop]; omega)]
    · congr 1
      omega

/-- The steps of a range are those whose numbers are in it, from the last one down, and they come with
the number of the first one returned. -/
theorem getStepRange_exact (steps : List Bytes) (stepNumber rangeStart rangeEnd : Nat) :
    (getStepRange steps stepNumber rangeStart rangeEnd).2 =
        (available steps stepNumber rangeStart rangeEnd).map Prod.snd ∧
      (∀ s ∈ (available steps stepNumber rangeStart rangeEnd).head?,
        s.1 = (getStepRange steps stepNumber rangeStart rangeEnd).1) ∧
      (available steps stepNumber rangeStart rangeEnd = [] →
        getStepRange steps stepNumber rangeStart rangeEnd = (0, [])) := by
  rw [getStepRange_eq]
  split_ifs with hempty
  · rw [hempty]
    exact ⟨rfl, fun s hs => (Option.not_mem_none s hs).elim, fun _ => rfl⟩
  · refine ⟨rfl, fun s hs => ?_, fun h => absurd h hempty⟩
    rw [available_eq] at hs
    exact head?_numbered hs

end Range

section Collection

variable {state : State} {key : Option SessionKey} {session : Session} {chain p : List Session} {C : Prop} {start e r n : Int}

/-- The output that the session has for a number. -/
def outputAt (session : Session) (n : Int) : Option Bytes :=
  if n ≤ session.stepNumber then session.steps[(session.stepNumber - n).toNat]? else none

/-- The output of the first session that has the step. -/
def outputOf (chain : List Session) (n : Int) : Option Bytes := chain.findSome? fun session => outputAt session n

/-- The sessions from a key on, each with the key of the next one. -/
inductive Linked (state : State) : Option SessionKey → List Session → Prop
  | nil {key : Option SessionKey} (hnone : getSession? state key = none) : Linked state key []
  | cons {key : Option SessionKey} {session : Session} {chain : List Session}
      (hsession : getSession? state key = some session) (hrest : Linked state session.prevSessionKey chain) :
      Linked state key (session :: chain)

/-- The steps of a range, from the last one down, each from the first session that has it. -/
structure Complete (chain : List Session) (startStepNumber endStepNumber : Nat) (steps : List Bytes) : Prop where
  length : steps.length = endStepNumber - startStepNumber
  output : ∀ i < steps.length, steps[i]? = outputOf chain (endStepNumber - i)

/-- The last step that is still missing after the steps of the sessions, if each of them reaches up to
what is missing before it. -/
def remaining : Int → List Session → Option Int
  | e, [] => some e
  | e, session :: chain =>
    if e ≤ session.stepNumber then remaining (min e (session.stepNumber - session.steps.length)) chain else none

lemma remaining_le (h : r ∈ remaining e p) : r ≤ e := by
  induction p generalizing e with
  | nil =>
    cases h
    exact le_rfl
  | cons session p ih =>
    rw [remaining] at h
    split_ifs at h with hreach
    · exact (ih h).trans (min_le_left _ _)
    · cases h

/-- No part of the chain leaves exactly the first step of the range, and if one leaves none of them, the
condition holds. -/
def Covers (C : Prop) (start e : Int) (chain : List Session) : Prop :=
  ∀ p, p <+: chain → p ≠ [] → ∀ r ∈ remaining e p, r ≠ start + 1 ∧ (r ≤ start → C)

lemma covers_cons : Covers C start e (session :: chain) ↔ (e ≤ session.stepNumber →
    let r := min e (session.stepNumber - session.steps.length)
    r ≠ start + 1 ∧ (r ≤ start → C) ∧ Covers C start r chain) := by
  constructor
  · intro h hreach
    have hremaining : ∀ p, remaining e (session :: p) =
        remaining (min e (session.stepNumber - session.steps.length)) p := fun p => by rw [remaining, if_pos hreach]
    have hone := h [session] ⟨chain, rfl⟩ (by simp) (min e (session.stepNumber - session.steps.length)) (by
      rw [hremaining]
      rfl)
    refine ⟨hone.1, hone.2, fun p hp _ r hr => h (session :: p) ?_ (by simp) r (by rwa [hremaining])⟩
    exact List.cons_prefix_cons.mpr ⟨rfl, hp⟩
  · intro h p hp hne r hr
    cases p with
    | nil => exact absurd rfl hne
    | cons session' p =>
      obtain ⟨rfl, hpart⟩ := List.cons_prefix_cons.mp hp
      rw [remaining] at hr
      split_ifs at hr with hreach
      · obtain ⟨hnot, hC, hrest⟩ := h hreach
        cases p with
        | nil =>
          cases hr
          exact ⟨hnot, hC⟩
        | cons next p => exact hrest (next :: p) hpart (by simp) r hr
      · cases hr

lemma covers_of_le (hle : e ≤ start) (hC : C) : Covers C start e chain := by
  intro p _ _ r hr
  have := remaining_le hr
  exact ⟨by omega, fun _ => hC⟩

lemma outputOf_cons_of_le (hle : n ≤ session.stepNumber - session.steps.length) :
    outputOf (session :: chain) n = outputOf chain n := by
  have hnone : outputAt session n = none := by
    rw [outputAt, if_pos (by omega), List.getElem?_eq_none_iff]
    omega
  rw [outputOf, List.findSome?_cons, hnone]
  rfl

lemma outputOf_cons_of_lt (hlt : session.stepNumber - session.steps.length < n) (hle : n ≤ session.stepNumber) :
    outputOf (session :: chain) n = session.steps[(session.stepNumber - n).toNat]? := by
  have hsome : outputAt session n = session.steps[(session.stepNumber - n).toNat]? := by
    rw [outputAt, if_pos hle]
  have hlt' : (session.stepNumber - n).toNat < session.steps.length := by omega
  rw [outputOf, List.findSome?_cons, hsome, List.getElem?_eq_getElem hlt']

lemma sessionSteps_eq {startStepNumber endStepNumber : Nat} (hlt : startStepNumber < endStepNumber)
    (hreach : endStepNumber ≤ session.stepNumber) :
    (getStepRange session.steps session.stepNumber (startStepNumber + 1) endStepNumber).2 =
      (session.steps.drop (session.stepNumber - endStepNumber)).take (endStepNumber - startStepNumber) := by
  rw [(getStepRange_exact _ _ _ _).1, available_eq, map_snd_numbered, min_eq_right hreach]
  congr 1
  omega

/-- The walk over the chain finds nothing, or it returns outputs from the end of the range down, all of
them exactly when the chain does not leave the first one. -/
lemma getSteps2_spec (hchain : Linked state key chain) {fuel startStepNumber endStepNumber : Nat}
    (hfuel : chain.length < fuel) (hlt : startStepNumber < endStepNumber) (C : Prop) :
    getSteps2 state fuel startStepNumber endStepNumber key = none ∧ Covers C startStepNumber endStepNumber chain ∨
      ∃ steps, getSteps2 state fuel startStepNumber endStepNumber key = some steps ∧
        steps.length ≤ endStepNumber - startStepNumber ∧
        (∀ i < steps.length, steps[i]? = outputOf chain (endStepNumber - i)) ∧
        (Covers C startStepNumber endStepNumber chain ↔ steps.length = endStepNumber - startStepNumber ∧ C) := by
  induction hchain generalizing fuel endStepNumber with
  | nil hnone =>
    obtain ⟨fuel, rfl⟩ : ∃ k, fuel = k + 1 := ⟨fuel - 1, by omega⟩
    refine Or.inl ⟨by rw [getSteps2, hnone], fun p hp hne => ?_⟩
    exact absurd (List.prefix_nil.mp hp) hne
  | @cons key session chain hsession hrest ih =>
    obtain ⟨fuel, rfl⟩ : ∃ k, fuel = k + 1 := ⟨fuel - 1, by omega⟩
    rw [List.length_cons] at hfuel
    rw [getSteps2, hsession, covers_cons]
    dsimp only
    by_cases hreach : endStepNumber ≤ session.stepNumber
    · rw [if_pos hreach, sessionSteps_eq hlt hreach]
      set steps := (session.steps.drop (session.stepNumber - endStepNumber)).take (endStepNumber - startStepNumber)
        with hsteps
      have hlength : steps.length = min (endStepNumber - startStepNumber)
          (session.steps.length - (session.stepNumber - endStepNumber)) := by
        rw [hsteps, List.length_take, List.length_drop]
      have houtput : ∀ i < steps.length, steps[i]? = outputOf (session :: chain) (endStepNumber - i) := by
        intro i hi
        rw [outputOf_cons_of_lt (by omega) (by omega), hsteps, List.getElem?_take_of_lt (by omega), List.getElem?_drop]
        congr 1
        omega
      have hreach' : (endStepNumber : Int) ≤ session.stepNumber := by omega
      split_ifs with hcount
      · -- more than the first step is missing
        have hmin : min (endStepNumber : Int) (session.stepNumber - session.steps.length) =
            (endStepNumber - steps.length : Nat) := by omega
        rw [hmin]
        have hfuel' : chain.length < fuel := by omega
        have hlt' : startStepNumber < endStepNumber - steps.length := by omega
        obtain ⟨hnone, hcovers⟩ | ⟨rest, hrest', hle, hout, hiff⟩ := ih hfuel' hlt'
        · exact Or.inl ⟨by rw [hnone]; rfl, fun _ => ⟨by omega, by omega, hcovers⟩⟩
        · refine Or.inr ⟨steps ++ rest, by rw [hrest']; rfl, ?_, ?_, ?_⟩
          · rw [List.length_append]
            omega
          · intro i hi
            by_cases his : i < steps.length
            · rw [List.getElem?_append_left his, houtput i his]
            · rw [List.length_append] at hi
              rw [List.getElem?_append_right (by omega), hout (i - steps.length) (by omega),
                outputOf_cons_of_le (by omega)]
              congr 1
              omega
          · rw [List.length_append]
            constructor
            · intro h
              obtain ⟨hall, hC⟩ := hiff.mp (h hreach').2.2
              exact ⟨by omega, hC⟩
            · rintro ⟨hall, hC⟩ -
              exact ⟨by omega, fun _ => hC, hiff.mpr ⟨by omega, hC⟩⟩
      · refine Or.inr ⟨steps, rfl, by omega, houtput, ?_⟩
        constructor
        · intro h
          obtain ⟨hnot, hC, -⟩ := h hreach'
          exact ⟨by omega, hC (by omega)⟩
        · rintro ⟨hall, hC⟩ -
          exact ⟨by omega, fun _ => hC, covers_of_le (by omega) hC⟩
    · rw [if_neg hreach]
      exact Or.inl ⟨rfl, fun h => absurd h (by omega)⟩

lemma Linked.length_le (hchain : Linked state key chain) : chain.length ≤ state.sessionByKey.size := by
  let next : Option SessionKey → Option (Option SessionKey) := fun key =>
    (getSession? state key).map Session.prevSessionKey
  have hwalk : ∃ root, next root = none ∧ Walk next root key chain.length := by
    induction hchain with
    | @nil key hnone => exact ⟨key, by simp only [next, hnone, Option.map_none], .root⟩
    | @cons key session chain hsession _ ih =>
      obtain ⟨root, hroot, hwalk⟩ := ih
      exact ⟨root, hroot, .step (by simp only [next, hsession, Option.map_some]) hwalk⟩
  obtain ⟨root, hroot, hwalk⟩ := hwalk
  have hle := hwalk.length_le hroot (l := state.sessionByKey.entries.map fun e => some e.1) fun key prevKey hnext => by
    obtain ⟨session, hsession, -⟩ := Option.map_eq_some_iff.mp hnext
    obtain ⟨k, rfl, hlookup⟩ := Option.bind_eq_some_iff.mp hsession
    exact List.mem_map.mpr ⟨_, SortedMap.lookup_eq_some.mp hlookup, rfl⟩
  rwa [List.length_map] at hle

/-- The steps for a block are not found or complete exactly when no part of the chain leaves the first
one of them alone, and a range that is found is not longer than the steps of a block may be. -/
theorem getSteps_complete_iff (state : State) (key : SessionKey) (chain : List Session)
    (hchain : Linked state (some key) chain) (startStepNumber endStepNumber : Nat) (hlt : startStepNumber < endStepNumber) :
    (∀ steps ∈ getSteps state startStepNumber endStepNumber key, Complete chain startStepNumber endStepNumber steps) ↔
      Covers (endStepNumber - startStepNumber ≤ maxCheckpointsCount) startStepNumber endStepNumber chain := by
  have hfuel : chain.length < state.sessionByKey.size + 1 := Nat.lt_succ_of_le hchain.length_le
  rw [getSteps]
  obtain ⟨hnone, hcovers⟩ | ⟨steps, hsome, hle, hout, hiff⟩ := getSteps2_spec hchain hfuel hlt
    (endStepNumber - startStepNumber ≤ maxCheckpointsCount)
  · rw [hnone, Option.map_none]
    exact ⟨fun _ => hcovers, fun _ steps h => (Option.not_mem_none steps h).elim⟩
  · rw [hsome, Option.map_some, hiff]
    simp only [Option.mem_def, Option.some.injEq, forall_eq']
    constructor
    · intro h
      have hlength := h.length
      rw [List.length_take] at hlength
      omega
    · rintro ⟨hall, hmax⟩
      rw [List.take_of_length_le (by omega)]
      exact ⟨hall, hout⟩

def overlapKey (interval : Nat) : SessionKey := ⟨[], interval, 1⟩

def overlapSession (stepNumber : Nat) (steps : List Bytes) (prevSessionKey : Option SessionKey) : Session where
  stepNumber := stepNumber
  seed := []
  steps := steps
  prevSessionKey := prevSessionKey
  upperBound := none
  nextUpperBound := none

/-- A session with the steps from the third to the fifth, and one with the first three steps before it. -/
def overlapStore : State where
  sessionByKey := (SortedMap.empty.insert (overlapKey 0) (overlapSession 3 [[3], [2], [1]] none)).insert (overlapKey 1)
    (overlapSession 5 [[5], [4], [3]] (some (overlapKey 0)))

lemma linked_overlapStore : Linked overlapStore (some (overlapKey 1))
    [overlapSession 5 [[5], [4], [3]] (some (overlapKey 0)), overlapSession 3 [[3], [2], [1]] none] :=
  .cons (by decide) (.cons (by decide) (.nil rfl))

theorem getSteps_complete_iff_sample :
    Linked overlapStore (some (overlapKey 1))
        [overlapSession 5 [[5], [4], [3]] (some (overlapKey 0)), overlapSession 3 [[3], [2], [1]] none] ∧
      getSteps overlapStore 0 5 (overlapKey 1) = some [[5], [4], [3], [2], [1]] ∧
      Covers (5 - 0 ≤ maxCheckpointsCount) 0 5
        [overlapSession 5 [[5], [4], [3]] (some (overlapKey 0)), overlapSession 3 [[3], [2], [1]] none] := by
  have hsteps : getSteps overlapStore 0 5 (overlapKey 1) = some [[5], [4], [3], [2], [1]] := by decide
  refine ⟨linked_overlapStore, hsteps, ?_⟩
  refine (getSteps_complete_iff overlapStore (overlapKey 1) _ linked_overlapStore 0 5 (by decide)).mp ?_
  intro steps h
  cases hsteps.symm.trans h
  exact ⟨rfl, by decide⟩

/-- The second step is known to the session before and is left out. -/
theorem getSteps_incomplete :
    getSteps overlapStore 1 5 (overlapKey 1) = some [[5], [4], [3]] ∧
      getSteps overlapStore 1 2 (overlapKey 0) = some [[2]] ∧
      ¬ ∀ steps ∈ getSteps overlapStore 1 5 (overlapKey 1), Complete
        [overlapSession 5 [[5], [4], [3]] (some (overlapKey 0)), overlapSession 3 [[3], [2], [1]] none] 1 5 steps := by
  have hsteps : getSteps overlapStore 1 5 (overlapKey 1) = some [[5], [4], [3]] := by decide
  refine ⟨hsteps, by decide, fun h => ?_⟩
  have hlength := (h _ hsteps).length
  simp at hlength

end Collection

end Arweave.Vdf

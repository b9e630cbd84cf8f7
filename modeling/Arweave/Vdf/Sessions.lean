import Mathlib.Data.Prod.Lex
import Arweave.Serialize.Block

/-!
# Sessions of the nonce limiter

The state of `ar_nonce_limiter` and the messages that change it. A session collects the outputs
of the steps that follow a block, the latest one first. Entropy is mixed in and the difficulty
changes at the reset line after the interval of the session. A crash of the source is `none`.
-/

namespace Arweave.Vdf
open Arweave.Lib Arweave.Lib.Sha2 Arweave.Serialize

def resetFrequency : Nat := 1200

/-- The next reset line, if it has been reached. -/
def getEntropyResetPoint (prevStepNumber stepNumber : Nat) : Option Nat :=
  let resetLine := (prevStepNumber / resetFrequency + 1) * resetFrequency
  if stepNumber < resetLine then none else some resetLine

def mixSeed (prevOutput seed : Bytes) : Bytes := sha256 (prevOutput ++ sha256 seed)

/-- The seed is mixed in on the reset line only. -/
def maybeAddEntropy (prevOutput : Bytes) (prevStepNumber stepNumber : Nat) (seed : Bytes) : Bytes :=
  if getEntropyResetPoint prevStepNumber stepNumber = some stepNumber then mixSeed prevOutput seed else prevOutput

/-- `session_key/1` -/
def sessionKey (info : NonceLimiterInfo) : SessionKey :=
  ⟨info.nextSeed, info.globalStepNumber / resetFrequency, info.nextVdfDifficulty⟩

/-- The keys of the map, as tuples. -/
def keyTuple (key : SessionKey) : Bytes ×ₗ Nat ×ₗ Nat :=
  toLex (key.nextSeed, toLex (key.interval, key.nextVdfDifficulty))

instance : LinearOrder SessionKey :=
  LinearOrder.lift' keyTuple (by
    rintro ⟨nextSeed, interval, difficulty⟩ ⟨nextSeed', interval', difficulty'⟩ h
    cases h
    rfl)

/-- The elements of the ordered set of sessions. -/
abbrev SessionEntry := Nat ×ₗ Bytes ×ₗ Nat

def sessionEntry (key : SessionKey) : SessionEntry :=
  toLex (key.interval, toLex (key.nextSeed, key.nextVdfDifficulty))

def entryKey (e : SessionEntry) : SessionKey :=
  ⟨(ofLex (ofLex e).2).1, (ofLex e).1, (ofLex (ofLex e).2).2⟩

/-- The record `vdf_session`. Checkpoints that were not found are none. -/
structure Session where
  stepNumber : Nat
  seed : Bytes
  stepCheckpointsMap : SortedMap Nat (Option (List Bytes)) := .empty
  steps : List Bytes
  prevSessionKey : Option SessionKey := none
  upperBound : Option Nat
  nextUpperBound : Option Nat
  vdfDifficulty : Option Nat := none
  nextVdfDifficulty : Option Nat := none
  deriving DecidableEq

/-- A session that was received has no difficulties. -/
def Session.ofUpdate (session : VdfSession) : Session where
  stepNumber := session.stepNumber
  seed := session.seed
  steps := session.steps
  prevSessionKey := session.prevSessionKey
  upperBound := session.upperBound
  nextUpperBound := session.nextUpperBound

structure State where
  currentSessionKey : Option SessionKey := none
  sessions : OrdSet SessionEntry := .empty
  sessionByKey : SortedMap SessionKey Session := .empty
  deriving DecidableEq

def getSession (state : State) (key : SessionKey) : Option Session := state.sessionByKey.lookup key

/-- `get_session/2` of a key that may be undefined. -/
def getSession? (state : State) (key : Option SessionKey) : Option Session := key.bind (getSession state)

/-- `get_step_range/4`: the steps of a range with the number of the last one. -/
def getStepRange (steps : List Bytes) (stepNumber rangeStart rangeEnd : Nat) : Nat × List Bytes :=
  if steps = [] then (0, [])
  else if rangeEnd < rangeStart then (0, [])
  else if stepNumber < rangeStart then (0, [])
  else if (rangeEnd : Int) < stepNumber - steps.length + 1 then (0, [])
  else
    let rangeStart2 := max (rangeStart : Int) (stepNumber - steps.length + 1)
    let rangeSteps := if rangeEnd < stepNumber then steps.drop (stepNumber - rangeEnd) else steps
    let rangeEnd2 := min stepNumber rangeEnd
    (rangeEnd2, rangeSteps.take (rangeEnd2 - rangeStart2 + 1).toNat)

/-- `get_step_range/3` -/
def getSessionStepRange : Option Session → Nat → Nat → Nat × List Bytes
  | none, _, _ => (0, [])
  | some session, rangeStart, rangeEnd => getStepRange session.steps session.stepNumber rangeStart rangeEnd

/-- `get_step_range/2` -/
def getIntervalSteps (session : Option Session) (interval : Nat) : Nat × List Bytes :=
  getSessionStepRange session (interval * resetFrequency) ((interval + 1) * resetFrequency - 1)

/-- The request `get_session_steps`. -/
def getSessionSteps (state : State) (startStepNumber endStepNumber : Nat) (key : SessionKey) : List Bytes :=
  (getSessionStepRange (getSession state key) (startStepNumber + 1) endStepNumber).2

/-- `update_session/3` -/
def updateSession (session : Session) (stepNumber : Nat) (steps : List Bytes) : Session :=
  { session with stepNumber := stepNumber, steps := steps ++ session.steps }

/-- `update_session/4` -/
def updateSessionCheckpoints (session : Session) (stepNumber : Nat) (checkpoints : Option (List Bytes))
    (steps : List Bytes) : Session :=
  updateSession { session with stepCheckpointsMap := session.stepCheckpointsMap.insert stepNumber checkpoints }
    stepNumber steps

def cacheSession (state : State) (key : SessionKey) (currentSessionKey : Option SessionKey) (session : Session) :
    State where
  currentSessionKey := currentSessionKey
  sessions := state.sessions.add (sessionEntry key)
  sessionByKey := state.sessionByKey.insert key session

/-- A session that is new takes the steps of its interval over from the previous one. -/
def cacheBlockSession (state : State) (key prevKey : SessionKey) (currentSessionKey : Option SessionKey)
    (stepCheckpointsMap : SortedMap Nat (Option (List Bytes))) (seed : Bytes) (upperBound nextUpperBound : Nat)
    (vdfDifficulty nextVdfDifficulty : Nat) : Option State :=
  match getSession state key with
  | none =>
    if key.nextVdfDifficulty = nextVdfDifficulty then
      let (stepNumber, steps) := getIntervalSteps (getSession state prevKey) key.interval
      some (cacheSession state key currentSessionKey {
        stepNumber := stepNumber
        seed := seed
        stepCheckpointsMap := stepCheckpointsMap
        steps := steps
        prevSessionKey := some prevKey
        upperBound := some upperBound
        nextUpperBound := some nextUpperBound
        vdfDifficulty := some vdfDifficulty
        nextVdfDifficulty := some nextVdfDifficulty })
    else none
  | some session => some (cacheSession state key currentSessionKey session)

def applyBaseBlock (state : State) (info : NonceLimiterInfo) : State :=
  cacheSession state (sessionKey info) (some (sessionKey info)) {
    stepNumber := info.globalStepNumber
    seed := info.seed
    stepCheckpointsMap := SortedMap.empty.insert info.globalStepNumber (some info.lastStepCheckpoints)
    steps := [info.output]
    upperBound := some info.partitionUpperBound
    nextUpperBound := some info.nextPartitionUpperBound
    vdfDifficulty := some info.vdfDifficulty
    nextVdfDifficulty := some info.nextVdfDifficulty }

def applyTip2 (state : State) (info prevInfo : NonceLimiterInfo) : Option State :=
  cacheBlockSession state (sessionKey info) (sessionKey prevInfo) (some (sessionKey info))
    (SortedMap.empty.insert info.globalStepNumber (some info.lastStepCheckpoints)) info.seed info.partitionUpperBound
    info.nextPartitionUpperBound info.vdfDifficulty info.nextVdfDifficulty

/-- The arguments of the message `validated_steps`. -/
structure ValidatedSteps where
  stepNumber : Nat
  sessionKey : SessionKey
  nextSessionKey : SessionKey
  seed : Bytes
  upperBound : Nat
  nextUpperBound : Nat
  vdfDifficulty : Nat
  nextVdfDifficulty : Nat
  steps : List Bytes
  lastStepCheckpoints : Option (List Bytes)

/-- The validated steps after the last one of the session are put in front of its steps. -/
def extendValidated (session : Session) (args : ValidatedSteps) : Session :=
  if session.stepNumber < args.stepNumber then
    updateSessionCheckpoints session args.stepNumber args.lastStepCheckpoints
      (getStepRange args.steps args.stepNumber (session.stepNumber + 1) args.stepNumber).2
  else session

def validatedSteps (state : State) (args : ValidatedSteps) : Option State :=
  match getSession state args.sessionKey with
  | none => some state
  | some session =>
    let state2 := cacheSession state args.sessionKey state.currentSessionKey (extendValidated session args)
    cacheBlockSession state2 args.nextSessionKey args.sessionKey state.currentSessionKey .empty args.seed
      args.upperBound args.nextUpperBound args.vdfDifficulty args.nextVdfDifficulty

/-- The event `computed_output`. -/
structure ComputedOutput where
  sessionKey : SessionKey
  stepNumber : Int
  output : Bytes
  upperBound : Option Nat
  deriving DecidableEq

/-- The upper bound changes at the reset line. -/
def sendOutput (key : SessionKey) (session : Session) (stepNumber : Int) (output : Bytes) : ComputedOutput where
  sessionKey := key
  stepNumber := stepNumber
  output := output
  upperBound :=
    if stepNumber < ((key.interval + 1) * resetFrequency : Nat) then session.upperBound else session.nextUpperBound

/-- One event for each step, the latest one first. -/
def sendEventsForExternalUpdate (key : SessionKey) (session : Session) : Int → List Bytes → List ComputedOutput
  | _, [] => []
  | stepNumber, output :: steps =>
    sendOutput key session stepNumber output :: sendEventsForExternalUpdate key session (stepNumber - 1) steps

/-- The arguments of the message `computed`. -/
structure Computed where
  stepNumber : Nat
  prevOutput : Bytes
  output : Bytes
  checkpoints : List Bytes

/-- A step that was computed after another output than the last one is dropped. -/
def computed (state : State) (args : Computed) : Option (State × List ComputedOutput) := do
  let key ← state.currentSessionKey
  let session ← getSession state key
  let sessionOutput ← session.steps.head?
  if session.nextVdfDifficulty = some key.nextVdfDifficulty then
    let sessionOutput2 := maybeAddEntropy sessionOutput (key.interval * resetFrequency) args.stepNumber key.nextSeed
    if args.prevOutput = sessionOutput2 then
      let session2 := updateSessionCheckpoints session args.stepNumber (some args.checkpoints) [args.output]
      some (cacheSession state key (some key) session2, [sendOutput key session2 args.stepNumber args.output])
    else some (state, [])
  else none

inductive Reply where
  | ok
  | response (response : NonceLimiterUpdateResponse)
  deriving DecidableEq

/-- `apply_external_update3` -/
def applyExternalUpdate3 (state : State) (key : SessionKey) (session : Session) (steps : List Bytes) :
    State × List ComputedOutput :=
  (cacheSession state key state.currentSessionKey session,
    sendEventsForExternalUpdate key session session.stepNumber steps)

/-- `apply_external_update2` -/
def applyExternalUpdate (state : State) (update : NonceLimiterUpdate) :
    Option (State × List ComputedOutput × Reply) :=
  let session := Session.ofUpdate update.session
  match getSession state update.sessionKey with
  | none =>
    if update.isPartial then some (state, [], .response { sessionFound := false })
    else
      let rangeStart :=
        match getSession? state session.prevSessionKey with
        | none => 0
        | some prevSession => prevSession.stepNumber + 1
      let nextSessionStart := (update.sessionKey.interval + 1) * resetFrequency
      let steps := (getSessionStepRange (some session) (min rangeStart nextSessionStart) session.stepNumber).2
      let (state2, events) := applyExternalUpdate3 state update.sessionKey session steps
      some (state2, events, .ok)
  | some currentSession =>
    if currentSession.stepNumber + 1 = session.stepNumber then
      match session.steps with
      | [] => none
      | output :: _ =>
        let currentSession2 :=
          updateSessionCheckpoints currentSession session.stepNumber (some update.checkpoints) [output]
        let (state2, events) := applyExternalUpdate3 state update.sessionKey currentSession2 [output]
        some (state2, events, .ok)
    else if session.stepNumber ≤ currentSession.stepNumber then
      some (state, [], .response { stepNumber := some currentSession.stepNumber })
    else if update.isPartial then
      some (state, [], .response { stepNumber := some currentSession.stepNumber })
    else
      let steps := (getSessionStepRange (some session) (currentSession.stepNumber + 1) session.stepNumber).2
      let (state2, events) := applyExternalUpdate3 state update.sessionKey session steps
      some (state2, events, .ok)

/-- The smallest sessions are removed until one is not old enough. There has to be one. -/
def pruneOldSessions (baseInterval : Nat) :
    List SessionEntry → OrdSet SessionEntry → SortedMap SessionKey Session →
      Option (OrdSet SessionEntry × SortedMap SessionKey Session)
  | [], _, _ => none
  | e :: rest, sessions, sessionByKey =>
    if (entryKey e).interval + 10 < baseInterval then
      pruneOldSessions baseInterval rest (sessions.erase e) (sessionByKey.erase (entryKey e))
    else some (sessions, sessionByKey)

/-- The event `checkpoint_block`. The current session must survive. -/
def checkpointBlock (state : State) (height : Nat) (info : NonceLimiterInfo) : Option State :=
  if height < Fork.height_2_6 then some state
  else do
    let (sessions, sessionByKey) ← pruneOldSessions (info.globalStepNumber / resetFrequency) state.sessions.elems
      state.sessions state.sessionByKey
    let key ← state.currentSessionKey
    if (sessionByKey.lookup key).isSome then
      some { state with sessions := sessions, sessionByKey := sessionByKey }
    else none

/-- The event `new_tip`. -/
def applyTip (state : State) (height : Nat) (info prevInfo : NonceLimiterInfo) : Option State :=
  if height + 1 < Fork.height_2_6 then some state
  else if state.sessions.isEmpty then
    if height + 1 = Fork.height_2_6 then some (applyBaseBlock state info) else none
  else applyTip2 state info prevInfo

/-- The step that the worker is asked for next, with its input and its difficulty. -/
def scheduleStep (key : SessionKey) (session : Session) : Option (Nat × Bytes × Nat) := do
  let prevOutput ← session.steps.head?
  if session.nextVdfDifficulty = some key.nextVdfDifficulty then
    let stepNumber := session.stepNumber + 1
    let intervalStart := key.interval * resetFrequency
    let prevOutput2 := maybeAddEntropy prevOutput intervalStart stepNumber key.nextSeed
    match getEntropyResetPoint intervalStart stepNumber with
    | none => session.vdfDifficulty.map fun vdfDifficulty => (stepNumber, prevOutput2, vdfDifficulty)
    | some _ => some (stepNumber, prevOutput2, key.nextVdfDifficulty)
  else none

end Arweave.Vdf

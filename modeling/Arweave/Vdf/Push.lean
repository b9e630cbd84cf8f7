import Arweave.Vdf.Ranges
import Arweave.Vdf.Updates

/-!
# Pushes to a client

The worker of a server pushes every computed step to its client and reacts to the response: it changes
the format, postpones, or sends the whole session, after the previous one if the client does not know
the session. A client that reads the format that it asks for has the step afterwards.
-/

namespace Arweave.Vdf
open Arweave.Lib Arweave.Serialize

/-- The fields of a session that are sent. -/
def Session.sent (session : Session) : VdfSession where
  stepNumber := session.stepNumber
  seed := session.seed
  steps := session.steps
  prevSessionKey := session.prevSessionKey
  upperBound := session.upperBound
  nextUpperBound := session.nextUpperBound

/-- The inner `none` is `not_found`. Checkpoints that were not found cannot be sent, which is a crash. -/
def makeNonceLimiterUpdate (key : SessionKey) (session : Option Session) (isPartial : Bool) :
    Option (Option NonceLimiterUpdate) :=
  match session with
  | none => some none
  | some session =>
    match session.stepCheckpointsMap.lookup session.stepNumber with
    | none => some (some ⟨key, session.sent, [], isPartial⟩)
    | some checkpoints => checkpoints.map fun checkpoints => some ⟨key, session.sent, checkpoints, isPartial⟩

/-- The fields of a session that is not found cannot be set, which is a crash. -/
def makePartialNonceLimiterUpdate (key : SessionKey) (session : Option Session) (stepNumber : Nat) (output : Bytes) :
    Option (Option NonceLimiterUpdate) := do
  let session ← session
  makeNonceLimiterUpdate key (some { session with stepNumber := stepNumber, steps := [output] }) true

def makeFullNonceLimiterUpdate (key : SessionKey) (session : Option Session) : Option (Option NonceLimiterUpdate) :=
  makeNonceLimiterUpdate key session false

/-- What a client reads from the payloads, and the format that it asks for. -/
structure Client where
  reads : Bytes → Option NonceLimiterUpdate
  format : Nat

def Reply.inFormat (format : Nat) : Reply → Reply
  | .ok => .ok
  | .response answer => .response { answer with format := format }

/-- `push_nonce_limiter_update/3` and `handle_post_vdf3/3` of the client. A payload that is not read is
answered with the format. -/
def Client.post (client : Client) (format : Nat) (state : State) (update : NonceLimiterUpdate) :
    Option (State × List ComputedOutput × Reply) := do
  let bin ← nonceLimiterUpdateToBinary format update
  match client.reads bin with
  | none => some (state, [], .response { format := client.format })
  | some update =>
    (applyExternalUpdate state update).map fun r => (r.1, r.2.1, r.2.2.inFormat client.format)

/-- The response is only logged. -/
def pushSession (client : Client) (key : SessionKey) (session : Option Session) (format : Nat) (state : State) :
    Option (State × List ComputedOutput) :=
  match makeFullNonceLimiterUpdate key session with
  | none => none
  | some none => some (state, [])
  | some (some update) => (client.post format state update).map fun r => (r.1, r.2.1)

/-- The format and the end of the pause that the worker keeps. -/
structure Worker where
  pauseUntil : Nat := 0
  format : Nat := 1

/-- The session before is only sent if it is found. -/
def pushPrevSession (server : State) (client : Client) (key : Option SessionKey) (format : Nat) (state : State) :
    Option (State × List ComputedOutput) :=
  match key with
  | none => some (state, [])
  | some key => pushSession client key (getSession server key) format state

/-- An undefined step number is an atom, which is greater than any number. -/
def isAhead (requestedStepNumber : Option Nat) (stepNumber : Nat) : Prop :=
  ∀ n ∈ requestedStepNumber, (stepNumber : Int) - 1 ≤ n

instance (requestedStepNumber : Option Nat) (stepNumber : Nat) : Decidable (isAhead requestedStepNumber stepNumber) :=
  match requestedStepNumber with
  | none => isTrue (by rintro n ⟨⟩)
  | some n => decidable_of_iff ((stepNumber : Int) - 1 ≤ n) ⟨by rintro h m ⟨⟩; exact h, fun h => h n rfl⟩

@[simp] lemma isAhead_some {n stepNumber : Nat} : isAhead (some n) stepNumber ↔ stepNumber ≤ n + 1 := by
  constructor
  · intro h
    have := h n rfl
    omega
  · rintro h m ⟨⟩
    omega

/-- `push_update/6` with the state of the client. The time is in seconds, the changes of the format are
bounded by their number and a crash is `none`. -/
def pushUpdate (server : State) (client : Client) (now : Nat) (key : SessionKey) (stepNumber : Nat) (output : Bytes) :
    Nat → Nat → Worker → State → Option (Worker × State × List ComputedOutput)
  | 0, _, _, _ => none
  | fuel + 1, format, worker, state =>
    match makePartialNonceLimiterUpdate key (getSession server key) stepNumber output with
    | none => none
    | some none => some (worker, state, [])
    | some (some update) =>
      match client.post format state update with
      | none => none
      | some (state2, events, .ok) => some (worker, state2, events)
      | some (state2, events, .response answer) =>
        if answer.format ≠ format then
          (pushUpdate server client now key stepNumber output fuel answer.format
            { worker with format := answer.format } state2).map fun r => (r.1, r.2.1, events ++ r.2.2)
        else if answer.postpone ≠ 0 then some ({ worker with pauseUntil := now + answer.postpone }, state2, events)
        else if answer.sessionFound = false then do
          let session ← getSession server key
          let (state3, events2) ← pushPrevSession server client session.prevSessionKey format state2
          let (state4, events3) ← pushSession client key (some session) format state3
          some (worker, state4, events ++ (events2 ++ events3))
        else if isAhead answer.stepNumber stepNumber then some (worker, state2, events)
        else do
          let (state3, events2) ← pushSession client key (getSession server key) format state2
          some (worker, state3, events ++ events2)

section Exchange

variable {server state state' state'' : State} {client : Client} {key : SessionKey} {session known : Session}
  {stepNumber format : Nat} {output : Bytes} {update : NonceLimiterUpdate} {events events' : List ComputedOutput}
  {reply : Reply}

/-- The outputs of the steps that both sessions have are the same. -/
def Agree (known session : Session) : Prop :=
  ∀ n o o', outputAt known n = some o → outputAt session n = some o' → o = o'

/-- The session of the client, if it has one. -/
def Agrees (state : State) (key : SessionKey) (session : Session) : Prop :=
  ∀ known, getSession state key = some known → Agree known session

/-- The client has the step. -/
def Reached (state : State) (key : SessionKey) (n : Nat) : Prop :=
  ∃ known, getSession state key = some known ∧ n ≤ known.stepNumber

lemma Agree.of_steps (hnumber : known.stepNumber = session.stepNumber) (hsteps : known.steps = session.steps) :
    Agree known session := by
  intro n o o' ho ho'
  rw [outputAt, hnumber, hsteps] at ho
  rw [outputAt, ho] at ho'
  exact Option.some.inj ho'

lemma outputAt_singleton (hsteps : known.steps = [output]) (n : Int) :
    outputAt known n = if n = known.stepNumber then some output else none := by
  rw [outputAt, hsteps]
  by_cases heq : n = known.stepNumber
  · simp [heq]
  · rw [if_neg heq]
    split_ifs with hle
    · rw [List.getElem?_eq_none_iff, List.length_singleton]
      omega
    · rfl

lemma outputAt_next {checkpoints : Option (List Bytes)} (hnext : known.stepNumber + 1 = stepNumber) (n : Int) :
    outputAt (updateSessionCheckpoints known stepNumber checkpoints [output]) n =
      if n = stepNumber then some output else outputAt known n := by
  change (if n ≤ stepNumber then (output :: known.steps)[((stepNumber : Int) - n).toNat]? else none) = _
  by_cases heq : n = stepNumber
  · simp [heq]
  · rw [if_neg heq, outputAt]
    by_cases hle : n ≤ known.stepNumber
    · rw [if_pos hle, if_pos (by omega), show ((stepNumber : Int) - n).toNat = ((known.stepNumber : Int) - n).toNat + 1 by
        omega, List.getElem?_cons_succ]
    · rw [if_neg hle, if_neg (by omega)]

lemma Agrees.applyExternalUpdate (h : Agrees state key session)
    (hupdate : update.sessionKey = key → Agree (Session.ofUpdate update.session) session)
    (happly : applyExternalUpdate state update = some (state', events, reply)) : Agrees state' key session := by
  obtain ⟨rfl, -⟩ | ⟨stored, steps, hstored, -, hcases⟩ := applyExternalUpdate_cases happly
  · exact h
  obtain ⟨rfl, -⟩ := Prod.mk.inj hstored
  intro known hknown
  rw [getSession_cacheSession] at hknown
  split_ifs at hknown with heq
  · obtain rfl := Option.some.inj hknown
    have hagree := hupdate heq.symm
    obtain ⟨-, rfl, -⟩ | ⟨old, hold, ⟨output, houtput, hnext, rfl, -⟩ | ⟨-, rfl, -⟩⟩ := hcases
    · exact hagree
    · -- the new step is the last one of the update
      intro n o o' ho ho'
      rw [outputAt_next hnext] at ho
      split_ifs at ho with hlast
      · refine hagree n o o' ?_ ho'
        rw [← ho, ← houtput, hlast, List.head?_eq_getElem?]
        simp [outputAt, Session.ofUpdate]
      · exact h old (heq ▸ hold) n o o' ho ho'
    · exact hagree
  · exact h known hknown

/-- A client that reads an update has its last step, or the update is partial and the client answers
what it misses. -/
lemma applyExternalUpdate_reached (h : applyExternalUpdate state update = some (state', events, reply)) :
    Reached state' update.sessionKey update.session.stepNumber ∧
        (reply = .ok ∨ ∃ n, update.session.stepNumber ≤ n ∧ reply = .response { stepNumber := some n }) ∨
      update.isPartial = true ∧ (reply = .response { sessionFound := false } ∨
        ∃ n, n + 1 < update.session.stepNumber ∧ reply = .response { stepNumber := some n }) := by
  unfold applyExternalUpdate at h
  have hstored : ∀ stored : Session, update.session.stepNumber ≤ stored.stepNumber →
      Reached (cacheSession state update.sessionKey state.currentSessionKey stored) update.sessionKey
        update.session.stepNumber := by
    intro stored hle
    exact ⟨stored, by rw [getSession_cacheSession, if_pos rfl], hle⟩
  cases hsession : getSession state update.sessionKey with
  | none =>
    rw [hsession] at h
    dsimp only at h
    split_ifs at h with hpart
    · cases h
      exact .inr ⟨hpart, .inl rfl⟩
    · cases h
      exact .inl ⟨hstored _ le_rfl, .inl rfl⟩
  | some known =>
    rw [hsession] at h
    dsimp only at h
    change (if known.stepNumber + 1 = update.session.stepNumber then _ else
      if update.session.stepNumber ≤ known.stepNumber then _ else _) = _ at h
    split_ifs at h with hnext hbehind hpart
    · cases hsteps : update.session.steps with
      | nil =>
        rw [show (Session.ofUpdate update.session).steps = [] from hsteps] at h
        cases h
      | cons output rest =>
        rw [show (Session.ofUpdate update.session).steps = output :: rest from hsteps] at h
        cases h
        exact .inl ⟨hstored _ le_rfl, .inl rfl⟩
    · cases h
      exact .inl ⟨⟨known, hsession, hbehind⟩, .inr ⟨known.stepNumber, hbehind, rfl⟩⟩
    · cases h
      exact .inr ⟨hpart, .inr ⟨known.stepNumber, by omega, rfl⟩⟩
    · cases h
      exact .inl ⟨hstored _ le_rfl, .inl rfl⟩

lemma applyExternalUpdate_ne_none (state : State) (hsteps : update.session.steps ≠ []) :
    applyExternalUpdate state update ≠ none := by
  obtain ⟨output, rest, houtput⟩ := List.exists_cons_of_ne_nil hsteps
  unfold applyExternalUpdate
  cases getSession state update.sessionKey with
  | none =>
    dsimp only
    split_ifs <;> exact Option.some_ne_none _
  | some known =>
    dsimp only
    rw [show (Session.ofUpdate update.session).steps = output :: rest from houtput]
    split_ifs <;> exact Option.some_ne_none _

/-- What the requests of an exchange keep. -/
structure Pushed (key : SessionKey) (session : Session) (state state' : State) (events : List ComputedOutput) : Prop where
  agrees : Agrees state key session → Agrees state' key session
  reached : ∀ n, Reached state key n → Reached state' key n
  emittedOnce : ∀ emitted, EmittedOnce state emitted → EmittedOnce state' (emitted ++ events.map ComputedOutput.step)

lemma Pushed.refl : Pushed key session state state [] where
  agrees := id
  reached _ := id
  emittedOnce emitted h := by rwa [List.map_nil, List.append_nil]

lemma Pushed.trans (h : Pushed key session state state' events) (h' : Pushed key session state' state'' events') :
    Pushed key session state state'' (events ++ events') where
  agrees hagrees := h'.agrees (h.agrees hagrees)
  reached n hn := h'.reached n (h.reached n hn)
  emittedOnce emitted hemitted := by
    rw [List.map_append, ← List.append_assoc]
    exact h'.emittedOnce _ (h.emittedOnce emitted hemitted)

lemma consecutive_true (n : Int) (steps : List Bytes) : Consecutive (fun _ _ => True) n steps := by
  induction steps generalizing n with
  | nil => exact trivial
  | cons output steps ih => exact ⟨trivial, ih _⟩

lemma Pushed.applyExternalUpdate (hupdate : update.sessionKey = key → Agree (Session.ofUpdate update.session) session)
    (happly : applyExternalUpdate state update = some (state', events, reply)) :
    Pushed key session state state' events := by
  have hstores : Stores (fun _ _ => True) state state' events :=
    stores_applyExternalUpdate (fun _ _ _ => consecutive_true _ _) (consecutive_true _ _) happly
  constructor
  · exact fun h => h.applyExternalUpdate hupdate happly
  · rintro n ⟨known, hknown, hle⟩
    obtain ⟨known', hknown', hle'⟩ := hstores.stepNumber_le hknown
    exact ⟨known', hknown', hle.trans hle'⟩
  · exact fun emitted h => hstores.emittedOnce h

/-- What a client that has read an update answers. -/
inductive Answered (client : Client) (update : NonceLimiterUpdate) (state : State) : Reply → Prop
  | ok (hreached : Reached state update.sessionKey update.session.stepNumber) : Answered client update state .ok
  | ahead {n : Nat} (hreached : Reached state update.sessionKey update.session.stepNumber)
      (hle : update.session.stepNumber ≤ n) :
      Answered client update state (.response { stepNumber := some n, format := client.format })
  | unknown (hpart : update.isPartial = true) :
      Answered client update state (.response { sessionFound := false, format := client.format })
  | behind {n : Nat} (hpart : update.isPartial = true) (hlt : n + 1 < update.session.stepNumber) :
      Answered client update state (.response { stepNumber := some n, format := client.format })

lemma answered_applyExternalUpdate (h : applyExternalUpdate state update = some (state', events, reply)) :
    Answered client update state' (reply.inFormat client.format) := by
  obtain ⟨hreached, rfl | ⟨n, hle, rfl⟩⟩ | ⟨hpart, rfl | ⟨n, hlt, rfl⟩⟩ := applyExternalUpdate_reached h
  · exact .ok hreached
  · exact .ahead hreached hle
  · exact .unknown hpart
  · exact .behind hpart hlt

/-- The updates that the push of a step may send. -/
inductive Sends (server : State) (key : SessionKey) (session : Session) (stepNumber : Nat) (output : Bytes) :
    NonceLimiterUpdate → Prop
  | step {update : NonceLimiterUpdate}
      (h : makePartialNonceLimiterUpdate key (some session) stepNumber output = some (some update)) :
      Sends server key session stepNumber output update
  | full {update : NonceLimiterUpdate} (h : makeFullNonceLimiterUpdate key (some session) = some (some update)) :
      Sends server key session stepNumber output update
  | prev {update : NonceLimiterUpdate} {prevKey : SessionKey} (hkey : session.prevSessionKey = some prevKey)
      (h : makeFullNonceLimiterUpdate prevKey (getSession server prevKey) = some (some update)) :
      Sends server key session stepNumber output update

/-- The updates can be sent in the format of the client, which reads the ones of the session in it. What
it reads in any format is what was sent, and it reads no update without steps. -/
structure Understands (client : Client) (server : State) (key : SessionKey) (session : Session) (stepNumber : Nat)
    (output : Bytes) : Prop where
  step : ∃ update bin, makePartialNonceLimiterUpdate key (some session) stepNumber output = some (some update) ∧
    nonceLimiterUpdateToBinary client.format update = some bin ∧ client.reads bin = some update
  full : ∃ update bin, makeFullNonceLimiterUpdate key (some session) = some (some update) ∧
    nonceLimiterUpdateToBinary client.format update = some bin ∧ client.reads bin = some update
  prev : ∀ prevKey, session.prevSessionKey = some prevKey →
    ∃ update, makeFullNonceLimiterUpdate prevKey (getSession server prevKey) = some update ∧
      ∀ sent, update = some sent → nonceLimiterUpdateToBinary client.format sent ≠ none
  faithful : ∀ format sent bin update, Sends server key session stepNumber output sent →
    nonceLimiterUpdateToBinary format sent = some bin → client.reads bin = some update →
    update = sent ∧ sent.session.steps ≠ []

lemma makeNonceLimiterUpdate_eq_some {session : Option Session} {isPartial : Bool}
    (h : makeNonceLimiterUpdate key session isPartial = some (some update)) :
    ∃ stored, session = some stored ∧ update.sessionKey = key ∧ update.session = stored.sent ∧
      update.isPartial = isPartial := by
  unfold makeNonceLimiterUpdate at h
  cases session with
  | none => cases h
  | some stored =>
    dsimp only at h
    refine ⟨stored, rfl, ?_⟩
    cases hlookup : stored.stepCheckpointsMap.lookup stored.stepNumber with
    | none =>
      rw [hlookup] at h
      cases h
      exact ⟨rfl, rfl, rfl⟩
    | some checkpoints =>
      rw [hlookup] at h
      obtain ⟨checkpoints, -, h⟩ := Option.map_eq_some_iff.mp h
      cases h
      exact ⟨rfl, rfl, rfl⟩

lemma makePartialNonceLimiterUpdate_eq_some
    (h : makePartialNonceLimiterUpdate key (some session) stepNumber output = some (some update)) :
    update.sessionKey = key ∧ update.session = { session.sent with stepNumber := stepNumber, steps := [output] } := by
  change makeNonceLimiterUpdate key (some { session with stepNumber := stepNumber, steps := [output] }) true = _ at h
  obtain ⟨stored, hstored, hkey, hsent, -⟩ := makeNonceLimiterUpdate_eq_some h
  cases hstored
  exact ⟨hkey, hsent⟩

lemma Sends.agree (hsession : getSession server key = some session)
    (houtput : ∀ o, outputAt session stepNumber = some o → o = output)
    (h : Sends server key session stepNumber output update) (hkey : update.sessionKey = key) :
    Agree (Session.ofUpdate update.session) session := by
  cases h with
  | step h =>
    have hsent := (makePartialNonceLimiterUpdate_eq_some h).2
    intro n o o' ho ho'
    rw [hsent, outputAt_singleton rfl] at ho
    split_ifs at ho with heq
    cases ho
    rw [heq] at ho'
    exact (houtput o' ho').symm
  | full h =>
    obtain ⟨stored, hstored, -, hsent, -⟩ := makeNonceLimiterUpdate_eq_some h
    cases hstored
    rw [hsent]
    exact .of_steps rfl rfl
  | prev hprev h =>
    obtain ⟨stored, hstored, hprevKey, hsent, -⟩ := makeNonceLimiterUpdate_eq_some h
    rw [← hprevKey, hkey, hsession] at hstored
    cases hstored
    rw [hsent]
    exact .of_steps rfl rfl

lemma post_spec {bin : Bytes} (hunderstands : Understands client server key session stepNumber output)
    (hsession : getSession server key = some session)
    (houtput : ∀ o, outputAt session stepNumber = some o → o = output)
    (hsends : Sends server key session stepNumber output update)
    (hwritten : nonceLimiterUpdateToBinary format update = some bin) (state : State) :
    ∃ state' events reply, client.post format state update = some (state', events, reply) ∧
      Pushed key session state state' events ∧ (client.reads bin = none ∧ reply = .response { format := client.format } ∨
        Answered client update state' reply) := by
  unfold Client.post
  rw [hwritten]
  simp only [bind, Option.bind_some]
  cases hreads : client.reads bin with
  | none => exact ⟨state, [], _, rfl, .refl, .inl ⟨rfl, rfl⟩⟩
  | some read =>
    obtain ⟨rfl, hsteps⟩ := hunderstands.faithful format update bin read hsends hwritten hreads
    obtain ⟨⟨state', events, reply⟩, happly⟩ := Option.ne_none_iff_exists'.mp (applyExternalUpdate_ne_none state hsteps)
    dsimp only
    rw [happly]
    refine ⟨state', events, _, rfl, ?_, .inr (answered_applyExternalUpdate happly)⟩
    exact .applyExternalUpdate (hsends.agree hsession houtput) happly

lemma pushSession_spec (hunderstands : Understands client server key session stepNumber output)
    (hsession : getSession server key = some session)
    (houtput : ∀ o, outputAt session stepNumber = some o → o = output) (state : State) :
    ∃ state' events, pushSession client key (some session) client.format state = some (state', events) ∧
      Pushed key session state state' events ∧ Reached state' key session.stepNumber := by
  obtain ⟨update, bin, hmake, hwritten, hread⟩ := hunderstands.full
  obtain ⟨stored, hstored, hkey, hsent, hfull⟩ := makeNonceLimiterUpdate_eq_some hmake
  cases hstored
  obtain ⟨state', events, reply, hpost, hpushed, ⟨hnone, -⟩ | hanswered⟩ :=
    post_spec hunderstands hsession houtput (.full hmake) hwritten state
  · rw [hread] at hnone
    cases hnone
  refine ⟨state', events, ?_, hpushed, ?_⟩
  · rw [pushSession, hmake]
    dsimp only
    rw [hpost]
    rfl
  · rw [← hkey, show session.stepNumber = update.session.stepNumber by rw [hsent]; rfl]
    cases hanswered with
    | ok hreached => exact hreached
    | ahead hreached => exact hreached
    | unknown hpart => exact absurd hpart (by simp [hfull])
    | behind hpart => exact absurd hpart (by simp [hfull])

lemma pushPrevSession_spec (hunderstands : Understands client server key session stepNumber output)
    (hsession : getSession server key = some session)
    (houtput : ∀ o, outputAt session stepNumber = some o → o = output) (state : State) :
    ∃ state' events, pushPrevSession server client session.prevSessionKey client.format state = some (state', events) ∧
      Pushed key session state state' events := by
  unfold pushPrevSession
  cases hprev : session.prevSessionKey with
  | none => exact ⟨state, [], rfl, .refl⟩
  | some prevKey =>
    obtain ⟨update, hmake, hwritten⟩ := hunderstands.prev prevKey hprev
    dsimp only
    rw [pushSession, hmake]
    cases update with
    | none => exact ⟨state, [], rfl, .refl⟩
    | some update =>
      obtain ⟨bin, hbin⟩ := Option.ne_none_iff_exists'.mp (hwritten update rfl)
      obtain ⟨state', events, reply, hpost, hpushed, -⟩ :=
        post_spec hunderstands hsession houtput (.prev hprev hmake) hbin state
      refine ⟨state', events, ?_, hpushed⟩
      dsimp only
      rw [hpost]
      rfl

/-- The push in the format that the client asks for. The cases are those of the response. -/
lemma pushUpdate_settled (hunderstands : Understands client server key session stepNumber output)
    (hsession : getSession server key = some session) (hle : stepNumber ≤ session.stepNumber)
    (houtput : ∀ o, outputAt session stepNumber = some o → o = output) (now fuel : Nat) (worker : Worker)
    (state : State) :
    ∃ worker' state' events,
      pushUpdate server client now key stepNumber output (fuel + 1) client.format worker state =
        some (worker', state', events) ∧ Pushed key session state state' events ∧ Reached state' key stepNumber := by
  obtain ⟨update, bin, hmake, hwritten, hread⟩ := hunderstands.step
  obtain ⟨hkey, hsent⟩ := makePartialNonceLimiterUpdate_eq_some hmake
  have hnumber : update.session.stepNumber = stepNumber := by rw [hsent]
  obtain ⟨state', events, reply, hpost, hpushed, ⟨hnone, -⟩ | hanswered⟩ :=
    post_spec hunderstands hsession houtput (.step hmake) hwritten state
  · rw [hread] at hnone
    cases hnone
  rw [pushUpdate, hsession, hmake]
  dsimp only
  rw [hpost]
  cases hanswered with
  | ok hreached => exact ⟨worker, state', events, rfl, hpushed, by rwa [hkey, hnumber] at hreached⟩
  | @ahead n hreached hahead =>
    rw [hkey, hnumber] at hreached
    refine ⟨worker, state', events, ?_, hpushed, hreached⟩
    have hcovered : stepNumber ≤ n + 1 := by omega
    simp [hcovered]
  | unknown =>
    obtain ⟨state2, events2, hprev, hpushed2⟩ := pushPrevSession_spec hunderstands hsession houtput state'
    obtain ⟨state3, events3, hfull, hpushed3, hreached⟩ := pushSession_spec hunderstands hsession houtput state2
    refine ⟨worker, state3, events ++ (events2 ++ events3), ?_, hpushed.trans (hpushed2.trans hpushed3), ?_⟩
    · simp [hprev, hfull]
    · obtain ⟨known, hknown, hlast⟩ := hreached
      exact ⟨known, hknown, hle.trans hlast⟩
  | @behind n _ hbehind =>
    obtain ⟨state2, events2, hfull, hpushed2, hreached⟩ := pushSession_spec hunderstands hsession houtput state'
    refine ⟨worker, state2, events ++ events2, ?_, hpushed.trans hpushed2, ?_⟩
    · have hmissing : ¬stepNumber ≤ n + 1 := by omega
      simp [hmissing, hfull]
    · obtain ⟨known, hknown, hlast⟩ := hreached
      exact ⟨known, hknown, hle.trans hlast⟩

/-- The push of a step ends after at most one change of the format. The client then has the step, it
still agrees with the session, and it has emitted every step once. -/
theorem pushUpdate_reaches (server state : State) (client : Client) (key : SessionKey) (session : Session)
    (stepNumber : Nat) (output : Bytes) (format : Nat)
    (hsession : getSession server key = some session) (hle : stepNumber ≤ session.stepNumber)
    (houtput : ∀ o, outputAt session stepNumber = some o → o = output)
    (hunderstands : Understands client server key session stepNumber output)
    (hformat : ∀ update, makePartialNonceLimiterUpdate key (some session) stepNumber output = some (some update) →
      nonceLimiterUpdateToBinary format update ≠ none)
    (hagrees : Agrees state key session) (now : Nat) (worker : Worker) :
    ∃ worker' state' events,
      pushUpdate server client now key stepNumber output 2 format worker state = some (worker', state', events) ∧
      Reached state' key stepNumber ∧ Agrees state' key session ∧
      ∀ emitted, EmittedOnce state emitted → EmittedOnce state' (emitted ++ events.map ComputedOutput.step) := by
  suffices hspec : ∃ worker' state' events,
      pushUpdate server client now key stepNumber output 2 format worker state = some (worker', state', events) ∧
        Pushed key session state state' events ∧ Reached state' key stepNumber by
    obtain ⟨worker', state', events, hpush, hpushed, hreached⟩ := hspec
    exact ⟨worker', state', events, hpush, hreached, hpushed.agrees hagrees, hpushed.emittedOnce⟩
  by_cases hsettled : client.format = format
  · subst hsettled
    exact pushUpdate_settled hunderstands hsession hle houtput now 1 worker state
  obtain ⟨update, -, hmake, -⟩ := hunderstands.step
  obtain ⟨hkey, hsent⟩ := makePartialNonceLimiterUpdate_eq_some hmake
  have hnumber : update.session.stepNumber = stepNumber := by rw [hsent]
  obtain ⟨bin, hwritten⟩ := Option.ne_none_iff_exists'.mp (hformat update hmake)
  obtain ⟨state', events, reply, hpost, hpushed, hreply⟩ :=
    post_spec hunderstands hsession houtput (.step hmake) hwritten state
  -- any response names the format of the client
  have hchange : (reply = .ok ∧ Reached state' update.sessionKey update.session.stepNumber) ∨
      ∃ answer, reply = .response answer ∧ answer.format = client.format := by
    obtain ⟨-, rfl⟩ | hanswered := hreply
    · exact .inr ⟨_, rfl, rfl⟩
    · cases hanswered with
      | ok hreached => exact .inl ⟨rfl, hreached⟩
      | ahead => exact .inr ⟨_, rfl, rfl⟩
      | unknown => exact .inr ⟨_, rfl, rfl⟩
      | behind => exact .inr ⟨_, rfl, rfl⟩
  rw [pushUpdate, hsession, hmake]
  dsimp only
  rw [hpost]
  obtain ⟨rfl, hreached⟩ | ⟨answer, rfl, hanswer⟩ := hchange
  · exact ⟨worker, state', events, rfl, hpushed, by rwa [hkey, hnumber] at hreached⟩
  · obtain ⟨worker', state2, events2, hpush, hpushed2, hreached⟩ :=
      pushUpdate_settled hunderstands hsession hle houtput now 0 { worker with format := client.format } state'
    refine ⟨worker', state2, events ++ events2, ?_, hpushed.trans hpushed2, hreached⟩
    dsimp only
    rw [hanswer, if_pos hsettled, hpush]
    rfl

end Exchange

/-- A client of the second format. -/
def secondFormatClient : Client where
  format := 2
  reads bin :=
    match binaryToNonceLimiterUpdate bin with
    | some (.ok update) => some update
    | _ => none

def pushedKey (interval : Nat) : SessionKey := ⟨List.replicate 48 1, interval, 600000⟩

def pushedOutput : Bytes := List.replicate 32 4

/-- A session of two steps after another one. -/
def pushedSession : Session where
  stepNumber := 1201
  seed := List.replicate 48 3
  stepCheckpointsMap := SortedMap.empty.insert 1201 (some (List.replicate 25 (List.replicate 32 2)))
  steps := [pushedOutput, List.replicate 32 5]
  prevSessionKey := some (pushedKey 0)
  upperBound := some 30000
  nextUpperBound := none

/-- The session before has no checkpoints, and the client does not read it. -/
def pushedStore : State where
  sessionByKey := (SortedMap.empty.insert (pushedKey 0) { pushedSession with
    stepNumber := 1199
    stepCheckpointsMap := .empty
    prevSessionKey := none }).insert (pushedKey 1) pushedSession

def pushedUpdate (isPartial : Bool) : NonceLimiterUpdate where
  sessionKey := pushedKey 1
  checkpoints := List.replicate 25 (List.replicate 32 2)
  isPartial := isPartial
  session := { pushedSession.sent with steps := if isPartial then [pushedOutput] else pushedSession.steps }

def pushedPrevUpdate : NonceLimiterUpdate where
  sessionKey := pushedKey 0
  checkpoints := []
  isPartial := false
  session := { pushedSession.sent with stepNumber := 1199, prevSessionKey := none }

set_option maxRecDepth 10000 in
lemma mem_of_sends_pushed {update : NonceLimiterUpdate}
    (h : Sends pushedStore (pushedKey 1) pushedSession 1201 pushedOutput update) :
    update ∈ [pushedUpdate true, pushedUpdate false, pushedPrevUpdate] := by
  cases h with
  | step h =>
    have hmake : makePartialNonceLimiterUpdate (pushedKey 1) (some pushedSession) 1201 pushedOutput =
        some (some (pushedUpdate true)) := by decide
    rw [hmake] at h
    cases h
    simp
  | full h =>
    have hmake : makeFullNonceLimiterUpdate (pushedKey 1) (some pushedSession) = some (some (pushedUpdate false)) := by
      decide
    rw [hmake] at h
    cases h
    simp
  | prev hkey h =>
    cases hkey
    have hmake : makeFullNonceLimiterUpdate (pushedKey 0) (getSession pushedStore (pushedKey 0)) =
        some (some pushedPrevUpdate) := by decide
    rw [hmake] at h
    cases h
    simp

set_option maxRecDepth 10000 in
lemma understands_pushed :
    Understands secondFormatClient pushedStore (pushedKey 1) pushedSession 1201 pushedOutput where
  step := by
    refine ⟨pushedUpdate true, (nonceLimiterUpdateToBinary 2 (pushedUpdate true)).getD [], ?_⟩
    decide
  full := by
    refine ⟨pushedUpdate false, (nonceLimiterUpdateToBinary 2 (pushedUpdate false)).getD [], ?_⟩
    decide
  prev := by
    rintro prevKey ⟨⟩
    refine ⟨some pushedPrevUpdate, by decide, ?_⟩
    rintro sent ⟨⟩
    decide
  faithful := by
    intro format sent bin update hsends hwritten hread
    have hsteps : ∀ sent ∈ [pushedUpdate true, pushedUpdate false, pushedPrevUpdate], sent.session.steps ≠ [] ∧
        (nonceLimiterUpdateToBinary 1 sent).bind secondFormatClient.reads = none ∧
        ((nonceLimiterUpdateToBinary 2 sent).bind secondFormatClient.reads).all (· = sent) = true := by decide
    obtain ⟨hne, hfirst, hsecond⟩ := hsteps sent (mem_of_sends_pushed hsends)
    refine ⟨?_, hne⟩
    match format, hwritten with
    | 1, hwritten =>
      rw [hwritten, Option.bind_some, hread] at hfirst
      cases hfirst
    | 2, hwritten =>
      rw [hwritten, Option.bind_some, hread] at hsecond
      simpa using hsecond
    | 0, hwritten => cases hwritten
    | _ + 3, hwritten => cases hwritten

set_option maxRecDepth 10000 in
theorem pushUpdate_reaches_pushed :
    ∃ worker' state' events,
      pushUpdate pushedStore secondFormatClient 0 (pushedKey 1) 1201 pushedOutput 2 1 {} {} =
        some (worker', state', events) ∧ Reached state' (pushedKey 1) 1201 := by
  have hagrees : Agrees {} (pushedKey 1) pushedSession := by
    intro known hknown
    cases hknown
  obtain ⟨worker', state', events, hpush, hreached, -⟩ := pushUpdate_reaches pushedStore {} secondFormatClient
    (pushedKey 1) pushedSession 1201 pushedOutput 1 (by decide) le_rfl
    (by
      intro o ho
      have hlast : outputAt pushedSession (1201 : Nat) = some pushedOutput := by decide
      rw [hlast] at ho
      exact (Option.some.inj ho).symm)
    understands_pushed
    (by
      intro update hmake
      have hwritten : ∀ sent ∈ [pushedUpdate true, pushedUpdate false, pushedPrevUpdate],
          nonceLimiterUpdateToBinary 1 sent ≠ none := by decide
      exact hwritten update (mem_of_sends_pushed (.step hmake)))
    hagrees 0 {}
  exact ⟨worker', state', events, hpush, hreached⟩

end Arweave.Vdf

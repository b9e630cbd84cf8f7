import Arweave.Vdf.Sessions

/-!
# Store of sessions

The messages of `ar_nonce_limiter` and what they keep. The ordered set and the map hold the same
sessions after every sequence of messages, and the current one is among them.
-/

namespace Arweave.Vdf
open Arweave.Lib Arweave.Serialize

/-- The earliest block after the fork. The blocks are the latest ones first, with their heights. -/
def baseBlock (blocks : List (Nat × NonceLimiterInfo)) : Option (Nat × NonceLimiterInfo) :=
  ((blocks.take Ledger.storeBlocksBehindCurrent).takeWhile fun b => Fork.height_2_6 ≤ b.1 + 1).getLast?

def handleInitialized (state : State) (blocks : List (Nat × NonceLimiterInfo)) : Option State :=
  (baseBlock blocks).map fun b => applyBaseBlock state b.2

inductive Message where
  | accountTreeInitialized (blocks : List (Nat × NonceLimiterInfo))
  | validatedPreFork26Block (info : NonceLimiterInfo)
  | newTip (height : Nat) (info prevInfo : NonceLimiterInfo)
  | applyTip (info prevInfo : NonceLimiterInfo)
  | validatedSteps (args : ValidatedSteps)
  | computed (args : Computed)
  | applyExternalUpdate (update : NonceLimiterUpdate)
  | checkpointBlock (height : Nat) (info : NonceLimiterInfo)
  | resetAndPause

/-- The state after a message, with the events that are sent. Only an update is replied to. -/
structure Outcome where
  state : State
  events : List ComputedOutput := []
  reply : Option Reply := none

/-- The calls, casts and events that may change the sessions. -/
def handle (state : State) : Message → Option Outcome
  | .accountTreeInitialized blocks => (handleInitialized state blocks).map fun s => { state := s }
  | .validatedPreFork26Block info =>
    some { state := if state.sessions.isEmpty then applyBaseBlock state info else state }
  | .newTip height info prevInfo => (Vdf.applyTip state height info prevInfo).map fun s => { state := s }
  | .applyTip info prevInfo => (applyTip2 state info prevInfo).map fun s => { state := s }
  | .validatedSteps args => (Vdf.validatedSteps state args).map fun s => { state := s }
  | .computed args => (Vdf.computed state args).map fun r => { state := r.1, events := r.2 }
  | .applyExternalUpdate update =>
    (Vdf.applyExternalUpdate state update).map fun r => { state := r.1, events := r.2.1, reply := some r.2.2 }
  | .checkpointBlock height info => (Vdf.checkpointBlock state height info).map fun s => { state := s }
  | .resetAndPause => some { state := {} }

/-- The state after a message. -/
def receive (state : State) (message : Message) : Option State := (handle state message).map Outcome.state

section Store

variable {state state' : State} {key key' : SessionKey} {current : Option SessionKey} {session : Session}
  {info prevInfo : NonceLimiterInfo} {e : SessionEntry} {entries : List SessionEntry} {baseInterval height : Nat}
  {sessions sessions' : OrdSet SessionEntry} {sessionByKey sessionByKey' : SortedMap SessionKey Session}

@[simp] lemma entryKey_sessionEntry : entryKey (sessionEntry key) = key := rfl

@[simp] lemma sessionEntry_entryKey : sessionEntry (entryKey e) = e := rfl

lemma sessionEntry_inj : sessionEntry key = sessionEntry key' ↔ key = key' :=
  ⟨fun h => congrArg entryKey h, congrArg sessionEntry⟩

lemma interval_le_of_lt {e' : SessionEntry} (h : e < e') : (entryKey e).interval ≤ (entryKey e').interval :=
  Prod.Lex.monotone_fst _ _ h.le

lemma getSession_cacheSession :
    getSession (cacheSession state key current session) key' =
      if key' = key then some session else getSession state key' :=
  SortedMap.lookup_insert

/-- The same sessions are in the set and in the map, with the current one among them. -/
structure Consistent (state : State) : Prop where
  mem_iff : ∀ key, sessionEntry key ∈ state.sessions ↔ (getSession state key).isSome = true
  current : ∀ key, state.currentSessionKey = some key → (getSession state key).isSome = true

lemma consistent_empty : Consistent {} where
  mem_iff _ := by simp [getSession]
  current _ h := by cases h

lemma Consistent.cacheSession (h : Consistent state)
    (hcurrent : current = some key ∨ current = state.currentSessionKey) :
    Consistent (cacheSession state key current session) where
  mem_iff key' := by
    change sessionEntry key' ∈ state.sessions.add (sessionEntry key) ↔ _
    rw [OrdSet.mem_add, getSession_cacheSession, sessionEntry_inj, h.mem_iff]
    by_cases heq : key' = key
    · simp [heq]
    · simp [heq]
  current key' hkey := by
    rw [getSession_cacheSession]
    split_ifs with heq
    · rfl
    · obtain rfl | rfl := hcurrent
      · exact absurd (Option.some.inj hkey).symm heq
      · exact h.current key' hkey

lemma cacheBlockSession_cases {prevKey : SessionKey} {stepCheckpointsMap : SortedMap Nat (Option (List Bytes))}
    {seed : Bytes} {upperBound nextUpperBound vdfDifficulty nextVdfDifficulty : Nat}
    (h : cacheBlockSession state key prevKey current stepCheckpointsMap seed upperBound nextUpperBound vdfDifficulty
      nextVdfDifficulty = some state') :
    ∃ session, state' = cacheSession state key current session ∧
      (getSession state key = some session ∨ getSession state key = none ∧
        (session.stepNumber, session.steps) = getIntervalSteps (getSession state prevKey) key.interval) := by
  unfold cacheBlockSession at h
  cases hsession : getSession state key with
  | some session =>
    rw [hsession] at h
    exact ⟨session, (Option.some.inj h).symm, .inl rfl⟩
  | none =>
    rw [hsession] at h
    dsimp only at h
    split_ifs at h
    exact ⟨_, (Option.some.inj h).symm, .inr ⟨rfl, rfl⟩⟩

/-- The set is traversed in the order of the intervals. -/
lemma pruneOldSessions_eq_some (hsorted : entries.Pairwise (· < ·))
    (h : pruneOldSessions baseInterval entries sessions sessionByKey = some (sessions', sessionByKey')) :
    (∀ e, e ∈ sessions' ↔ e ∈ sessions ∧ ¬(e ∈ entries ∧ (entryKey e).interval + 10 < baseInterval)) ∧
      ∀ key, sessionByKey'.lookup key =
        if sessionEntry key ∈ entries ∧ key.interval + 10 < baseInterval then none else sessionByKey.lookup key := by
  induction entries generalizing sessions sessionByKey with
  | nil => cases h
  | cons e entries ih =>
    obtain ⟨hfirst, hsorted⟩ := List.pairwise_cons.mp hsorted
    rw [pruneOldSessions] at h
    split_ifs at h with hold
    · obtain ⟨hset, hmap⟩ := ih hsorted h
      constructor
      · intro e'
        rw [hset, OrdSet.mem_erase, List.mem_cons]
        by_cases heq : e' = e
        · simp [heq, hold]
        · simp [heq]
      · intro key
        rw [hmap, SortedMap.lookup_erase]
        simp only [List.mem_cons]
        by_cases heq : sessionEntry key = e
        · have hkey : key = entryKey e := congrArg entryKey heq
          simp [hkey, hold]
        · have hkey : key ≠ entryKey e := fun hk => heq (congrArg sessionEntry hk)
          simp [heq, hkey]
    · cases h
      -- the sessions after one that is not old are not old either
      have hrest : ∀ e' ∈ e :: entries, baseInterval ≤ (entryKey e').interval + 10 := by
        intro e' he'
        obtain rfl | he' := List.mem_cons.mp he'
        · exact not_lt.mp hold
        · have hle := interval_le_of_lt (hfirst e' he')
          omega
      constructor
      · intro e'
        exact ⟨fun he' => ⟨he', fun hboth => (hrest e' hboth.1).not_gt hboth.2⟩, And.left⟩
      · intro key
        rw [if_neg fun hboth => (hrest _ hboth.1).not_gt hboth.2]

lemma pruneOldSessions_isSome :
    (pruneOldSessions baseInterval entries sessions sessionByKey).isSome = true ↔
      ∃ e ∈ entries, baseInterval ≤ (entryKey e).interval + 10 := by
  induction entries generalizing sessions sessionByKey with
  | nil => simp [pruneOldSessions]
  | cons e entries ih =>
    rw [pruneOldSessions]
    split_ifs with hold
    · rw [ih]
      simp [hold]
    · simp [not_lt.mp hold]

/-- Exactly the sessions below the base are removed, from both structures. -/
structure Pruned (baseInterval : Nat) (state state' : State) : Prop where
  current : state'.currentSessionKey = state.currentSessionKey
  mem_iff : ∀ key, sessionEntry key ∈ state'.sessions ↔
    sessionEntry key ∈ state.sessions ∧ baseInterval ≤ key.interval + 10
  getSession : ∀ key, getSession state' key = if key.interval + 10 < baseInterval then none else getSession state key

lemma checkpointBlock_eq_some (hheight : Fork.height_2_6 ≤ height)
    (h : checkpointBlock state height info = some state') :
    ∃ sessions sessionByKey, pruneOldSessions (info.globalStepNumber / resetFrequency) state.sessions.elems
        state.sessions state.sessionByKey = some (sessions, sessionByKey) ∧
      state' = { state with sessions := sessions, sessionByKey := sessionByKey } ∧
      ∃ key, state.currentSessionKey = some key ∧ (sessionByKey.lookup key).isSome = true := by
  rw [checkpointBlock, if_neg (not_lt.mpr hheight)] at h
  obtain ⟨⟨sessions, sessionByKey⟩, hprune, h⟩ := Option.bind_eq_some_iff.mp h
  obtain ⟨key, hkey, h⟩ := Option.bind_eq_some_iff.mp h
  split_ifs at h with hsome
  exact ⟨sessions, sessionByKey, hprune, (Option.some.inj h).symm, key, hkey, hsome⟩

lemma Consistent.pruneOldSessions (h : Consistent state)
    (hprune : pruneOldSessions baseInterval state.sessions.elems state.sessions state.sessionByKey =
      some (sessions, sessionByKey)) :
    Pruned baseInterval state { state with sessions := sessions, sessionByKey := sessionByKey } := by
  obtain ⟨hset, hmap⟩ := pruneOldSessions_eq_some state.sessions.sorted hprune
  refine ⟨rfl, ?_, ?_⟩
  · intro key
    change sessionEntry key ∈ sessions ↔ _
    rw [hset, OrdSet.mem_elems, entryKey_sessionEntry, ← not_lt]
    tauto
  · intro key
    change sessionByKey.lookup key = _
    rw [hmap]
    by_cases hmem : sessionEntry key ∈ state.sessions
    · simp only [OrdSet.mem_elems, hmem, true_and]
      rfl
    · have hnone : getSession state key = none := by
        rwa [h.mem_iff, Option.not_isSome_iff_eq_none] at hmem
      rw [if_neg fun hboth => hmem hboth.1, hnone, ite_self]
      exact hnone

lemma Consistent.checkpointBlock (h : Consistent state) (hheight : Fork.height_2_6 ≤ height)
    (hstate : checkpointBlock state height info = some state') :
    Pruned (info.globalStepNumber / resetFrequency) state state' := by
  obtain ⟨sessions, sessionByKey, hprune, rfl, -⟩ := checkpointBlock_eq_some hheight hstate
  exact h.pruneOldSessions hprune

lemma Consistent.checkpointBlock_isSome (h : Consistent state) (hheight : Fork.height_2_6 ≤ height) :
    (Vdf.checkpointBlock state height info).isSome = true ↔
      ∃ key, state.currentSessionKey = some key ∧ info.globalStepNumber / resetFrequency ≤ key.interval + 10 := by
  constructor
  · intro hsome
    obtain ⟨state', hstate'⟩ := Option.isSome_iff_exists.mp hsome
    obtain ⟨sessions, sessionByKey, hprune, rfl, key, hkey, hfound⟩ := checkpointBlock_eq_some hheight hstate'
    refine ⟨key, hkey, ?_⟩
    have hget := (h.pruneOldSessions hprune).getSession key
    by_contra hold
    rw [if_pos (not_le.mp hold)] at hget
    change sessionByKey.lookup key = none at hget
    rw [hget] at hfound
    cases hfound
  · rintro ⟨key, hkey, hrecent⟩
    have hfound := h.current key hkey
    have hsome : (Vdf.pruneOldSessions (info.globalStepNumber / resetFrequency) state.sessions.elems state.sessions
        state.sessionByKey).isSome = true :=
      pruneOldSessions_isSome.mpr ⟨sessionEntry key, (h.mem_iff key).mpr hfound, hrecent⟩
    obtain ⟨⟨sessions, sessionByKey⟩, hprune⟩ := Option.isSome_iff_exists.mp hsome
    have hget := (h.pruneOldSessions hprune).getSession key
    rw [if_neg (not_lt.mpr hrecent)] at hget
    change sessionByKey.lookup key = getSession state key at hget
    rw [Vdf.checkpointBlock, if_neg (not_lt.mpr hheight), hprune, hkey]
    simp only [bind, Option.bind_some, hget, hfound, if_true, Option.isSome_some]

lemma Pruned.consistent (h : Consistent state) (hpruned : Pruned baseInterval state state')
    (hcurrent : ∀ key, state.currentSessionKey = some key → baseInterval ≤ key.interval + 10) :
    Consistent state' where
  mem_iff key := by
    rw [hpruned.mem_iff, hpruned.getSession, h.mem_iff, ← not_lt]
    by_cases hold : key.interval + 10 < baseInterval
    · simp [hold]
    · simp [hold]
  current key hkey := by
    rw [hpruned.current] at hkey
    rw [hpruned.getSession, if_neg (not_lt.mpr (hcurrent key hkey))]
    exact h.current key hkey

end Store

section Messages

variable {state state' : State} {args : Computed} {update : NonceLimiterUpdate} {events : List ComputedOutput}
  {reply : Reply}

lemma computed_cases (h : computed state args = some (state', events)) :
    ∃ key session output, state.currentSessionKey = some key ∧ getSession state key = some session ∧
      session.steps.head? = some output ∧
      (args.prevOutput = maybeAddEntropy output (key.interval * resetFrequency) args.stepNumber key.nextSeed ∧
        state' = cacheSession state key (some key)
          (updateSessionCheckpoints session args.stepNumber (some args.checkpoints) [args.output]) ∧
        events = [sendOutput key (updateSessionCheckpoints session args.stepNumber (some args.checkpoints) [args.output])
          args.stepNumber args.output] ∨
      state' = state ∧ events = []) := by
  obtain ⟨key, hkey, h⟩ := Option.bind_eq_some_iff.mp h
  obtain ⟨session, hsession, h⟩ := Option.bind_eq_some_iff.mp h
  obtain ⟨output, houtput, h⟩ := Option.bind_eq_some_iff.mp h
  refine ⟨key, session, output, hkey, hsession, houtput, ?_⟩
  split_ifs at h with hdifficulty
  dsimp only at h
  split_ifs at h with hprev
  · cases h
    exact .inl ⟨hprev, rfl, rfl⟩
  · cases h
    exact .inr ⟨rfl, rfl⟩

/-- An update is answered or a session is stored: a new one, the known one with the next step, or
the one of the update that is ahead of it. -/
lemma applyExternalUpdate_cases (h : applyExternalUpdate state update = some (state', events, reply)) :
    state' = state ∧ events = [] ∧ (getSession state update.sessionKey = none ∧ update.isPartial = true ∧
      reply = .response { sessionFound := false } ∨
        ∃ session, getSession state update.sessionKey = some session ∧
          reply = .response { stepNumber := some session.stepNumber }) ∨
    ∃ session steps, (state', events) = applyExternalUpdate3 state update.sessionKey session steps ∧ reply = .ok ∧
      (getSession state update.sessionKey = none ∧ session = Session.ofUpdate update.session ∧
          (∃ rangeStart, steps = (getStepRange session.steps session.stepNumber rangeStart session.stepNumber).2) ∨
        ∃ known, getSession state update.sessionKey = some known ∧
          ((∃ output, update.session.steps.head? = some output ∧ known.stepNumber + 1 = update.session.stepNumber ∧
              session = updateSessionCheckpoints known update.session.stepNumber (some update.checkpoints) [output] ∧
              steps = [output]) ∨
            known.stepNumber < update.session.stepNumber ∧ session = Session.ofUpdate update.session ∧
              steps = (getStepRange session.steps session.stepNumber (known.stepNumber + 1) session.stepNumber).2)) := by
  unfold applyExternalUpdate at h
  cases hsession : getSession state update.sessionKey with
  | none =>
    rw [hsession] at h
    dsimp only at h
    split_ifs at h with hpart
    · cases h
      exact .inl ⟨rfl, rfl, .inl ⟨rfl, hpart, rfl⟩⟩
    · cases h
      exact .inr ⟨_, _, rfl, rfl, .inl ⟨rfl, rfl, _, rfl⟩⟩
  | some known =>
    rw [hsession] at h
    dsimp only at h
    split_ifs at h with hnext hbehind hpart
    · cases hsteps : update.session.steps with
      | nil =>
        rw [show (Session.ofUpdate update.session).steps = [] from hsteps] at h
        cases h
      | cons output rest =>
        rw [show (Session.ofUpdate update.session).steps = output :: rest from hsteps] at h
        cases h
        exact .inr ⟨_, _, rfl, rfl, .inr ⟨known, rfl, .inl ⟨output, rfl, hnext, rfl, rfl⟩⟩⟩
    · cases h
      exact .inl ⟨rfl, rfl, .inr ⟨known, rfl, rfl⟩⟩
    · cases h
      exact .inl ⟨rfl, rfl, .inr ⟨known, rfl, rfl⟩⟩
    · cases h
      exact .inr ⟨_, _, rfl, rfl, .inr ⟨known, rfl, .inr ⟨not_le.mp hbehind, rfl, rfl⟩⟩⟩

lemma validatedSteps_cases {args : ValidatedSteps} (h : validatedSteps state args = some state') :
    state' = state ∨ ∃ session, getSession state args.sessionKey = some session ∧
      cacheBlockSession (cacheSession state args.sessionKey state.currentSessionKey (extendValidated session args))
        args.nextSessionKey args.sessionKey state.currentSessionKey .empty args.seed args.upperBound
        args.nextUpperBound args.vdfDifficulty args.nextVdfDifficulty = some state' := by
  unfold validatedSteps at h
  cases hsession : getSession state args.sessionKey with
  | none =>
    rw [hsession] at h
    cases h
    exact .inl rfl
  | some session =>
    rw [hsession] at h
    exact .inr ⟨session, rfl, h⟩

lemma applyTip_cases {height : Nat} {info prevInfo : NonceLimiterInfo}
    (h : applyTip state height info prevInfo = some state') :
    state' = state ∨ state.sessions.isEmpty = true ∧ state' = applyBaseBlock state info ∨
      applyTip2 state info prevInfo = some state' := by
  unfold applyTip at h
  split_ifs at h with hheight hempty hfork
  · exact .inl (Option.some.inj h).symm
  · exact .inr (.inl ⟨hempty, (Option.some.inj h).symm⟩)
  · exact .inr (.inr h)

/-- The sessions stay consistent with any message. -/
lemma Consistent.receive {message : Message} (h : Consistent state) (hreceive : receive state message = some state') :
    Consistent state' := by
  obtain ⟨outcome, hhandle, rfl⟩ := Option.map_eq_some_iff.mp hreceive
  cases message with
  | accountTreeInitialized blocks =>
    obtain ⟨s, hs, rfl⟩ := Option.map_eq_some_iff.mp hhandle
    obtain ⟨b, -, rfl⟩ := Option.map_eq_some_iff.mp hs
    exact h.cacheSession (.inl rfl)
  | validatedPreFork26Block info =>
    cases hhandle
    dsimp only
    split_ifs
    · exact h.cacheSession (.inl rfl)
    · exact h
  | newTip height info prevInfo =>
    obtain ⟨s, hs, rfl⟩ := Option.map_eq_some_iff.mp hhandle
    obtain rfl | ⟨-, rfl⟩ | htip := applyTip_cases hs
    · exact h
    · exact h.cacheSession (.inl rfl)
    · obtain ⟨session, rfl, -⟩ := cacheBlockSession_cases htip
      exact h.cacheSession (.inl rfl)
  | applyTip info prevInfo =>
    obtain ⟨s, hs, rfl⟩ := Option.map_eq_some_iff.mp hhandle
    obtain ⟨session, rfl, -⟩ := cacheBlockSession_cases hs
    exact h.cacheSession (.inl rfl)
  | validatedSteps args =>
    obtain ⟨s, hs, rfl⟩ := Option.map_eq_some_iff.mp hhandle
    obtain rfl | ⟨session, -, hnext⟩ := validatedSteps_cases hs
    · exact h
    · obtain ⟨next, rfl, -⟩ := cacheBlockSession_cases hnext
      exact (h.cacheSession (.inr rfl)).cacheSession (.inr rfl)
  | computed args =>
    obtain ⟨⟨s, events⟩, hs, rfl⟩ := Option.map_eq_some_iff.mp hhandle
    obtain ⟨key, session, output, -, -, -, ⟨-, rfl, -⟩ | ⟨rfl, -⟩⟩ := computed_cases hs
    · exact h.cacheSession (.inl rfl)
    · exact h
  | applyExternalUpdate update =>
    obtain ⟨⟨s, events, reply⟩, hs, rfl⟩ := Option.map_eq_some_iff.mp hhandle
    obtain ⟨rfl, -⟩ | ⟨session, steps, happlied, -⟩ := applyExternalUpdate_cases hs
    · exact h
    · obtain ⟨rfl, -⟩ := Prod.mk.inj happlied
      exact h.cacheSession (.inr rfl)
  | checkpointBlock height info =>
    obtain ⟨s, hs, rfl⟩ := Option.map_eq_some_iff.mp hhandle
    by_cases hheight : height < Fork.height_2_6
    · rw [Vdf.checkpointBlock, if_pos hheight] at hs
      cases hs
      exact h
    · have hle := not_lt.mp hheight
      obtain ⟨key, hkey, hrecent⟩ := (h.checkpointBlock_isSome hle).mp (Option.isSome_of_eq_some hs)
      apply Pruned.consistent h (h.checkpointBlock hle hs)
      intro key' hkey'
      rw [hkey] at hkey'
      cases hkey'
      exact hrecent
  | resetAndPause =>
    cases hhandle
    exact consistent_empty

/-- The two structures hold the same sessions after every sequence of messages. A pruning that does
not meet an old current session removes exactly the sessions below its base from both. -/
theorem run_consistent {messages : List Message} (hrun : messages.foldlM receive {} = some state) :
    Consistent state ∧ ∀ height info, Fork.height_2_6 ≤ height →
      ((checkpointBlock state height info).isSome = true ↔
        ∃ key, state.currentSessionKey = some key ∧
          info.globalStepNumber / resetFrequency ≤ key.interval + 10) ∧
      ∀ state', checkpointBlock state height info = some state' →
        Pruned (info.globalStepNumber / resetFrequency) state state' ∧ Consistent state' := by
  have h : Consistent state := foldlM_invariant (C := fun _ _ => True) consistent_empty
    (fun s message s' _ hs _ hreceive => hs.receive hreceive) (fun _ _ _ _ _ _ => trivial) hrun
  refine ⟨h, fun height info hheight => ⟨h.checkpointBlock_isSome hheight, fun state' hstate' => ?_⟩⟩
  refine ⟨h.checkpointBlock hheight hstate', ?_⟩
  have hreceive : receive state (.checkpointBlock height info) = some state' := by
    rw [receive, handle, hstate']
    rfl
  exact h.receive hreceive

/-- A base block, a block twelve intervals later and the pruning of the first session. -/
def sampleMessages : List Message := [
  .validatedPreFork26Block { nextSeed := [1] },
  .newTip Fork.height_2_6 { nextSeed := [2], globalStepNumber := 14400 } { nextSeed := [1] },
  .checkpointBlock Fork.height_2_6 { globalStepNumber := 13200 }]

theorem run_consistent_sampleMessages :
    ∃ state, sampleMessages.foldlM receive {} = some state ∧ Consistent state ∧ state.sessions.elems.length = 1 := by
  have hrun : (sampleMessages.foldlM receive {}).map (·.sessions.elems.length) = some 1 := by decide
  obtain ⟨state, hstate, hlength⟩ := Option.map_eq_some_iff.mp hrun
  exact ⟨state, hstate, (run_consistent hstate).1, hlength⟩

end Messages

end Arweave.Vdf

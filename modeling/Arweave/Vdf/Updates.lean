import Arweave.Vdf.Store
import Arweave.Vdf.Validation

/-!
# Updates of sessions

What the messages do to the steps of a session. The steps that are stored stay consecutive, the
number of the last one does not decrease and every step is emitted once, as long as validated
steps join the stored ones. The handler of validated steps does not check that they do.
-/

namespace Arweave.Vdf
open Arweave.Lib Arweave.Serialize

section Consecutive

-- The outputs that a step may have.
variable {IsOutput : Int → Bytes → Prop} {stepNumber : Int} {steps rest : List Bytes}

/-- The outputs of consecutive steps, the latest one first. -/
def Consecutive (IsOutput : Int → Bytes → Prop) : Int → List Bytes → Prop
  | _, [] => True
  | stepNumber, output :: steps => IsOutput stepNumber output ∧ Consecutive IsOutput (stepNumber - 1) steps

instance [∀ n o, Decidable (IsOutput n o)] : Decidable (Consecutive IsOutput stepNumber steps) :=
  decideConsecutive stepNumber steps
where
  decideConsecutive : (n : Int) → (l : List Bytes) → Decidable (Consecutive IsOutput n l)
    | _, [] => isTrue trivial
    | n, _ :: l => @instDecidableAnd _ _ _ (decideConsecutive (n - 1) l)

lemma Consecutive.append (h : Consecutive IsOutput stepNumber steps)
    (hrest : Consecutive IsOutput (stepNumber - steps.length) rest) :
    Consecutive IsOutput stepNumber (steps ++ rest) := by
  induction steps generalizing stepNumber with
  | nil => simpa using hrest
  | cons output steps ih =>
    refine ⟨h.1, ih h.2 ?_⟩
    rwa [List.length_cons, Nat.cast_succ, show stepNumber - ((steps.length : Int) + 1) =
      stepNumber - 1 - steps.length by omega] at hrest

lemma Consecutive.take (h : Consecutive IsOutput stepNumber steps) (k : Nat) :
    Consecutive IsOutput stepNumber (steps.take k) := by
  induction k generalizing stepNumber steps with
  | zero => exact trivial
  | succ k ih =>
    cases steps with
    | nil => exact trivial
    | cons output steps => exact ⟨h.1, ih h.2⟩

lemma Consecutive.drop (h : Consecutive IsOutput stepNumber steps) (k : Nat) :
    Consecutive IsOutput (stepNumber - k) (steps.drop k) := by
  induction k generalizing stepNumber steps with
  | zero => simpa using h
  | succ k ih =>
    cases steps with
    | nil => exact trivial
    | cons output steps =>
      rw [Nat.cast_succ, show stepNumber - ((k : Int) + 1) = stepNumber - 1 - k by omega]
      exact ih h.2

lemma Consecutive.getStepRange {stepNumber : Nat} (h : Consecutive IsOutput stepNumber steps)
    (rangeStart rangeEnd : Nat) :
    Consecutive IsOutput (getStepRange steps stepNumber rangeStart rangeEnd).1
      (getStepRange steps stepNumber rangeStart rangeEnd).2 := by
  unfold Vdf.getStepRange
  split_ifs with hnil hrange hstart hend hlast
  · exact trivial
  · exact trivial
  · exact trivial
  · exact trivial
  · have hdrop := h.drop (stepNumber - rangeEnd)
    rw [show (stepNumber : Int) - (stepNumber - rangeEnd : Nat) = (min stepNumber rangeEnd : Nat) by omega] at hdrop
    exact hdrop.take _
  · dsimp only
    rw [Nat.min_eq_left (not_lt.mp hlast)]
    exact h.take _

lemma getStepRange_top {stepNumber rangeStart : Nat} :
    (getStepRange steps stepNumber rangeStart stepNumber).2 = steps.take (stepNumber + 1 - rangeStart) := by
  unfold getStepRange
  split_ifs with hnil hrange hend hlast
  · rw [hnil, List.take_nil]
  · rw [Nat.sub_eq_zero_of_le (by omega)]
    rfl
  · have hpos := List.length_pos_of_ne_nil hnil
    omega
  · exact absurd hlast (lt_irrefl _)
  · dsimp only
    rw [Nat.min_self]
    by_cases hall : stepNumber + 1 - rangeStart ≤ steps.length
    · congr 1
      omega
    · rw [List.take_of_length_le (by omega), List.take_of_length_le (by omega)]

end Consecutive

section Changes

variable {IsOutput : Int → Bytes → Prop} {state state' : State} {key : SessionKey} {session known : Session}
  {events : List ComputedOutput} {emitted : List (SessionKey × Int)}

lemma sendEventsForExternalUpdate_spec (key : SessionKey) (session : Session) (stepNumber : Int) (steps : List Bytes) :
    (∀ e ∈ sendEventsForExternalUpdate key session stepNumber steps,
      e.sessionKey = key ∧ e.stepNumber ≤ stepNumber ∧ stepNumber - steps.length < e.stepNumber) ∧
    (sendEventsForExternalUpdate key session stepNumber steps).Pairwise fun e e' => e.stepNumber ≠ e'.stepNumber := by
  induction steps generalizing stepNumber with
  | nil => exact ⟨by simp [sendEventsForExternalUpdate], .nil⟩
  | cons output steps ih =>
    obtain ⟨hrange, hpairwise⟩ := ih (stepNumber - 1)
    have hlower : ∀ e ∈ sendEventsForExternalUpdate key session (stepNumber - 1) steps, e.stepNumber < stepNumber := by
      intro e he
      have := (hrange e he).2.1
      omega
    constructor
    · intro e he
      rw [List.length_cons]
      obtain rfl | he := List.mem_cons.mp he
      · refine ⟨rfl, le_rfl, ?_⟩
        change stepNumber - _ < stepNumber
        omega
      · obtain ⟨hkey, hle, hlt⟩ := hrange e he
        exact ⟨hkey, by omega, by omega⟩
    · exact List.pairwise_cons.mpr ⟨fun e he => (hlower e he).ne', hpairwise⟩

/-- Every session that is stored has consecutive steps. -/
def Gapless (IsOutput : Int → Bytes → Prop) (state : State) : Prop :=
  ∀ key session, getSession state key = some session → Consecutive IsOutput session.stepNumber session.steps

/-- A session with consecutive steps may be stored when it does not go back, with events of the
steps after the known ones. -/
structure Extends (IsOutput : Int → Bytes → Prop) (state : State) (key : SessionKey) (session : Session)
    (events : List ComputedOutput) : Prop where
  consecutive : Consecutive IsOutput session.stepNumber session.steps
  known_le : ∀ known, getSession state key = some known → known.stepNumber ≤ session.stepNumber
  known_lt : ∀ known, getSession state key = some known → ∀ e ∈ events, (known.stepNumber : Int) < e.stepNumber
  events_le : ∀ e ∈ events, e.sessionKey = key ∧ e.stepNumber ≤ session.stepNumber
  nodup : events.Pairwise fun e e' => e.stepNumber ≠ e'.stepNumber

/-- The sessions that a message stores, with the events that it sends. -/
inductive Stores (IsOutput : Int → Bytes → Prop) (state : State) : State → List ComputedOutput → Prop
  | refl : Stores IsOutput state state []
  | store {state' : State} {events : List ComputedOutput} {key : SessionKey} {session : Session}
      (h : Stores IsOutput state state' []) (current : Option SessionKey)
      (hextends : Extends IsOutput state' key session events) :
      Stores IsOutput state (cacheSession state' key current session) events

lemma Extends.new (hnone : getSession state key = none) (h : Consecutive IsOutput session.stepNumber session.steps)
    (hevents : ∀ e ∈ events, e.sessionKey = key ∧ e.stepNumber ≤ session.stepNumber)
    (hnodup : events.Pairwise fun e e' => e.stepNumber ≠ e'.stepNumber) :
    Extends IsOutput state key session events where
  consecutive := h
  known_le known hknown := by
    rw [hnone] at hknown
    cases hknown
  known_lt known hknown := by
    rw [hnone] at hknown
    cases hknown
  events_le := hevents
  nodup := hnodup

lemma Extends.of_known (hknown : getSession state key = some known)
    (h : Consecutive IsOutput session.stepNumber session.steps) (hle : known.stepNumber ≤ session.stepNumber)
    (hlt : ∀ e ∈ events, (known.stepNumber : Int) < e.stepNumber)
    (hevents : ∀ e ∈ events, e.sessionKey = key ∧ e.stepNumber ≤ session.stepNumber)
    (hnodup : events.Pairwise fun e e' => e.stepNumber ≠ e'.stepNumber) :
    Extends IsOutput state key session events where
  consecutive := h
  known_le known' hknown' := by
    rw [hknown] at hknown'
    cases hknown'
    exact hle
  known_lt known' hknown' := by
    rw [hknown] at hknown'
    cases hknown'
    exact hlt
  events_le := hevents
  nodup := hnodup

lemma Extends.next {stepNumber : Nat} {output : Bytes} {checkpoints : Option (List Bytes)} {e : ComputedOutput}
    (h : Gapless IsOutput state) (hknown : getSession state key = some known)
    (hnext : known.stepNumber + 1 = stepNumber) (houtput : IsOutput stepNumber output)
    (hevent : e.sessionKey = key ∧ e.stepNumber = stepNumber) :
    Extends IsOutput state key (updateSessionCheckpoints known stepNumber checkpoints [output]) [e] := by
  apply Extends.of_known hknown
  · have hrest := h key known hknown
    rw [show (known.stepNumber : Int) = stepNumber - 1 by omega] at hrest
    exact ⟨houtput, hrest⟩
  · change known.stepNumber ≤ stepNumber
    omega
  · intro e' he'
    obtain rfl := List.mem_singleton.mp he'
    omega
  · intro e' he'
    obtain rfl := List.mem_singleton.mp he'
    exact ⟨hevent.1, hevent.2.le⟩
  · exact List.pairwise_singleton _ _

lemma Gapless.cacheSession (h : Gapless IsOutput state) (current : Option SessionKey)
    (hsession : Consecutive IsOutput session.stepNumber session.steps) :
    Gapless IsOutput (cacheSession state key current session) := by
  intro key' session' hsession'
  rw [getSession_cacheSession] at hsession'
  split_ifs at hsession' with heq
  · cases hsession'
    exact hsession
  · exact h key' session' hsession'

lemma Stores.gapless (h : Gapless IsOutput state) (hstores : Stores IsOutput state state' events) :
    Gapless IsOutput state' := by
  induction hstores with
  | refl => exact h
  | store _ current hextends ih => exact ih.cacheSession current hextends.consecutive

lemma Stores.stepNumber_le (hstores : Stores IsOutput state state' events) (hknown : getSession state key = some known) :
    ∃ session, getSession state' key = some session ∧ known.stepNumber ≤ session.stepNumber := by
  induction hstores with
  | refl => exact ⟨known, hknown, le_rfl⟩
  | store _ current hextends ih =>
    obtain ⟨session, hsession, hle⟩ := ih
    rw [getSession_cacheSession]
    split_ifs with heq
    · subst heq
      exact ⟨_, rfl, hle.trans (hextends.known_le session hsession)⟩
    · exact ⟨session, hsession, hle⟩

/-- The steps that the stored sessions have emitted. -/
structure EmittedOnce (state : State) (emitted : List (SessionKey × Int)) : Prop where
  stored : ∀ e ∈ emitted, ∃ session, getSession state e.1 = some session ∧ e.2 ≤ session.stepNumber
  nodup : emitted.Nodup

def ComputedOutput.step (e : ComputedOutput) : SessionKey × Int := (e.sessionKey, e.stepNumber)

/-- The new events are of steps after those that the session has emitted. -/
lemma Stores.emittedOnce (h : EmittedOnce state emitted) (hstores : Stores IsOutput state state' events) :
    EmittedOnce state' (emitted ++ events.map ComputedOutput.step) := by
  have hold : ∀ e ∈ emitted, ∃ session, getSession state' e.1 = some session ∧ e.2 ≤ session.stepNumber := by
    intro e he
    obtain ⟨known, hknown, hle⟩ := h.stored e he
    obtain ⟨session, hsession, hle'⟩ := hstores.stepNumber_le hknown
    exact ⟨session, hsession, hle.trans (Int.ofNat_le.mpr hle')⟩
  cases hstores with
  | refl =>
    rw [List.map_nil, List.append_nil]
    exact h
  | @store state' events key session hbefore current hextends =>
    have hbound : ∀ e ∈ emitted, e.1 = key → ∀ e' ∈ events, e.2 < e'.stepNumber := by
      intro e he hkey e' he'
      obtain ⟨known, hknown, hle⟩ := h.stored e he
      obtain ⟨known', hknown', hle'⟩ := hbefore.stepNumber_le hknown
      rw [hkey] at hknown'
      exact lt_of_le_of_lt (hle.trans (Int.ofNat_le.mpr hle')) (hextends.known_lt known' hknown' e' he')
    constructor
    · intro e he
      obtain he | he := List.mem_append.mp he
      · exact hold e he
      · obtain ⟨e', he', rfl⟩ := List.mem_map.mp he
        obtain ⟨hkey, hle⟩ := hextends.events_le e' he'
        refine ⟨session, ?_, hle⟩
        rw [getSession_cacheSession]
        exact if_pos hkey
    · rw [List.nodup_append]
      refine ⟨h.nodup, ?_, ?_⟩
      · apply List.Pairwise.map _ _ hextends.nodup
        intro e e' hne heq
        exact hne (Prod.mk.inj heq).2
      · rintro e he _ hmem rfl
        obtain ⟨e', he', rfl⟩ := List.mem_map.mp hmem
        exact lt_irrefl _ (hbound e'.step he (hextends.events_le e' he').1 e' he')

/-- The sessions that are left are those before. -/
def Removes (state state' : State) : Prop :=
  ∀ key session, getSession state' key = some session → getSession state key = some session

lemma EmittedOnce.filter (h : EmittedOnce state emitted) (hremoves : Removes state state') :
    EmittedOnce state' (emitted.filter fun e => (getSession state' e.1).isSome) where
  stored e he := by
    obtain ⟨he, hsome⟩ := List.mem_filter.mp he
    obtain ⟨session', hsession'⟩ := Option.isSome_iff_exists.mp hsome
    obtain ⟨session, hsession, hle⟩ := h.stored e he
    rw [hremoves e.1 session' hsession'] at hsession
    cases hsession
    exact ⟨session', hsession', hle⟩
  nodup := h.nodup.filter _

end Changes

section Handlers

variable {IsOutput : Int → Bytes → Prop} {state state' : State} {key : SessionKey} {session known : Session}
  {events : List ComputedOutput}

/-- What a message brings are the outputs of the steps that it names. -/
def Message.Numbered (IsOutput : Int → Bytes → Prop) : Message → Prop
  | .accountTreeInitialized blocks => ∀ b ∈ baseBlock blocks, IsOutput b.2.globalStepNumber b.2.output
  | .validatedPreFork26Block info => IsOutput info.globalStepNumber info.output
  | .newTip _ info _ => IsOutput info.globalStepNumber info.output
  | .applyTip _ _ => True
  | .validatedSteps args => args.steps ≠ [] ∧ Consecutive IsOutput args.stepNumber args.steps
  | .computed args => IsOutput args.stepNumber args.output
  | .applyExternalUpdate update => Consecutive IsOutput update.session.stepNumber update.session.steps
  | .checkpointBlock _ _ => True
  | .resetAndPause => True

/-- A message starts at the session where it is stored: validated steps reach down to the last step
of a session, a computed step that is accepted is the next one and a node is initialised once. -/
def Message.Joins (state : State) : Message → Prop
  | .accountTreeInitialized blocks => ∀ b ∈ baseBlock blocks, getSession state (sessionKey b.2) = none
  | .validatedSteps args => ∀ session, getSession state args.sessionKey = some session → session.steps ≠ [] →
      args.stepNumber ≤ session.stepNumber + args.steps.length
  | .computed args => ∀ key session output, state.currentSessionKey = some key →
      getSession state key = some session → session.steps.head? = some output →
      args.prevOutput = maybeAddEntropy output (key.interval * resetFrequency) args.stepNumber key.nextSeed →
      args.stepNumber = session.stepNumber + 1
  | _ => True

lemma Stores.one (current : Option SessionKey) (h : Extends IsOutput state key session events) :
    Stores IsOutput state (cacheSession state key current session) events := .store .refl current h

lemma stores_applyBaseBlock {info : NonceLimiterInfo} (houtput : IsOutput info.globalStepNumber info.output)
    (hnone : getSession state (sessionKey info) = none) : Stores IsOutput state (applyBaseBlock state info) [] :=
  Stores.one _ (.new hnone ⟨houtput, trivial⟩ (by simp) .nil)

lemma Consistent.getSession_eq_none (h : Consistent state) (hempty : state.sessions.isEmpty = true) :
    getSession state key = none := by
  rw [← Option.not_isSome_iff_eq_none, ← h.mem_iff]
  exact OrdSet.isEmpty_iff.mp hempty _

lemma Stores.cacheBlockSession {prevKey : SessionKey} {current : Option SessionKey} {state1 : State}
    {stepCheckpointsMap : SortedMap Nat (Option (List Bytes))} {seed : Bytes}
    {upperBound nextUpperBound vdfDifficulty nextVdfDifficulty : Nat} (h : Gapless IsOutput state)
    (hstores : Stores IsOutput state state1 [])
    (hcache : cacheBlockSession state1 key prevKey current stepCheckpointsMap seed upperBound nextUpperBound
      vdfDifficulty nextVdfDifficulty = some state') :
    Stores IsOutput state state' [] := by
  have hgapless := hstores.gapless h
  obtain ⟨session, rfl, hsession | ⟨hnone, hsteps⟩⟩ := cacheBlockSession_cases hcache
  · exact .store hstores current (.of_known hsession (hgapless key session hsession) le_rfl (by simp) (by simp) .nil)
  · apply Stores.store hstores current
    refine Extends.new hnone ?_ (by simp) .nil
    obtain ⟨hnumber, hsteps⟩ := Prod.mk.inj hsteps
    rw [hnumber, hsteps]
    cases hprev : getSession state1 prevKey with
    | none => exact trivial
    | some prevSession => exact (hgapless prevKey prevSession hprev).getStepRange _ _

lemma extends_extendValidated {args : ValidatedSteps} (h : Gapless IsOutput state)
    (hsession : getSession state args.sessionKey = some session)
    (hnumbered : Message.Numbered IsOutput (.validatedSteps args)) (hjoins : Message.Joins state (.validatedSteps args)) :
    Extends IsOutput state args.sessionKey (extendValidated session args) [] := by
  obtain ⟨hne, hargs⟩ := hnumbered
  have hold := h _ _ hsession
  unfold extendValidated
  split_ifs with hahead
  · refine Extends.of_known hsession ?_ hahead.le (by simp) (by simp) .nil
    change Consecutive IsOutput args.stepNumber
      ((getStepRange args.steps args.stepNumber (session.stepNumber + 1) args.stepNumber).2 ++ session.steps)
    rw [getStepRange_top]
    apply (hargs.take _).append
    by_cases hnil : session.steps = []
    · rw [hnil]
      exact trivial
    · have hreach := hjoins session hsession hnil
      rw [List.length_take, show (args.stepNumber : Int) - (min (args.stepNumber + 1 - (session.stepNumber + 1))
        args.steps.length : Nat) = session.stepNumber by omega]
      exact hold
  · exact .of_known hsession hold le_rfl (by simp) (by simp) .nil

lemma stores_computed {args : Computed} (h : Gapless IsOutput state)
    (hnumbered : Message.Numbered IsOutput (.computed args)) (hjoins : Message.Joins state (.computed args))
    (hcomputed : computed state args = some (state', events)) : Stores IsOutput state state' events := by
  obtain ⟨key, session, output, hkey, hsession, houtput, ⟨hprev, rfl, rfl⟩ | ⟨rfl, rfl⟩⟩ := computed_cases hcomputed
  · have hnext := hjoins key session output hkey hsession houtput hprev
    exact Stores.one _ (.next h hsession hnext.symm hnumbered ⟨rfl, rfl⟩)
  · exact .refl

lemma stores_applyExternalUpdate {update : NonceLimiterUpdate} {reply : Reply} (h : Gapless IsOutput state)
    (hnumbered : Message.Numbered IsOutput (.applyExternalUpdate update))
    (hupdate : applyExternalUpdate state update = some (state', events, reply)) :
    Stores IsOutput state state' events := by
  obtain ⟨rfl, rfl, -⟩ | ⟨session, steps, happlied, -, hcases⟩ := applyExternalUpdate_cases hupdate
  · exact .refl
  obtain ⟨rfl, rfl⟩ := Prod.mk.inj happlied
  apply Stores.one
  obtain ⟨hrange, hnodup⟩ := sendEventsForExternalUpdate_spec update.sessionKey session session.stepNumber steps
  have hevents : ∀ e ∈ sendEventsForExternalUpdate update.sessionKey session session.stepNumber steps,
      e.sessionKey = update.sessionKey ∧ e.stepNumber ≤ session.stepNumber :=
    fun e he => ⟨(hrange e he).1, (hrange e he).2.1⟩
  obtain ⟨hnone, rfl, -⟩ | ⟨known, hknown, ⟨output, houtput, hnext, rfl, rfl⟩ | ⟨hahead, rfl, rfl⟩⟩ := hcases
  · exact .new hnone hnumbered hevents hnodup
  · obtain ⟨rest, hsteps⟩ := List.head?_eq_some_iff.mp houtput
    have hfirst : Consecutive IsOutput update.session.stepNumber (output :: rest) := hsteps ▸ hnumbered
    exact .next h hknown hnext hfirst.1 ⟨rfl, rfl⟩
  · refine .of_known hknown hnumbered hahead.le ?_ hevents hnodup
    intro e he
    have hlower := (hrange e he).2.2
    rw [getStepRange_top, List.length_take] at hlower
    change (update.session.stepNumber : Int) -
      (min (update.session.stepNumber + 1 - (known.stepNumber + 1)) _ : Nat) < _ at hlower
    omega

end Handlers

section Histories

variable {IsOutput : Int → Bytes → Prop} {state : State} {message : Message} {messages more : List Message}

/-- A message stores sessions or removes some. -/
lemma handle_changes {outcome : Outcome} (hstore : Consistent state) (h : Gapless IsOutput state)
    (hnumbered : message.Numbered IsOutput) (hjoins : message.Joins state) (hhandle : handle state message = some outcome) :
    Stores IsOutput state outcome.state outcome.events ∨ Removes state outcome.state ∧ outcome.events = [] := by
  cases message with
  | accountTreeInitialized blocks =>
    obtain ⟨s, hs, rfl⟩ := Option.map_eq_some_iff.mp hhandle
    obtain ⟨b, hb, rfl⟩ := Option.map_eq_some_iff.mp hs
    exact .inl (stores_applyBaseBlock (hnumbered b hb) (hjoins b hb))
  | validatedPreFork26Block info =>
    cases hhandle
    left
    dsimp only
    split_ifs with hempty
    · exact stores_applyBaseBlock hnumbered (hstore.getSession_eq_none hempty)
    · exact .refl
  | newTip height info prevInfo =>
    obtain ⟨s, hs, rfl⟩ := Option.map_eq_some_iff.mp hhandle
    left
    obtain rfl | ⟨hempty, rfl⟩ | htip := applyTip_cases hs
    · exact .refl
    · exact stores_applyBaseBlock hnumbered (hstore.getSession_eq_none hempty)
    · exact Stores.cacheBlockSession h .refl htip
  | applyTip info prevInfo =>
    obtain ⟨s, hs, rfl⟩ := Option.map_eq_some_iff.mp hhandle
    exact .inl (Stores.cacheBlockSession h .refl hs)
  | validatedSteps args =>
    obtain ⟨s, hs, rfl⟩ := Option.map_eq_some_iff.mp hhandle
    left
    obtain rfl | ⟨session, hsession, hnext⟩ := validatedSteps_cases hs
    · exact .refl
    · have hextends := extends_extendValidated h hsession hnumbered hjoins
      exact Stores.cacheBlockSession h (Stores.one _ hextends) hnext
  | computed args =>
    obtain ⟨⟨s, events⟩, hs, rfl⟩ := Option.map_eq_some_iff.mp hhandle
    exact .inl (stores_computed h hnumbered hjoins hs)
  | applyExternalUpdate update =>
    obtain ⟨⟨s, events, reply⟩, hs, rfl⟩ := Option.map_eq_some_iff.mp hhandle
    exact .inl (stores_applyExternalUpdate h hnumbered hs)
  | checkpointBlock height info =>
    obtain ⟨s, hs, rfl⟩ := Option.map_eq_some_iff.mp hhandle
    by_cases hheight : height < Fork.height_2_6
    · rw [checkpointBlock, if_pos hheight] at hs
      cases hs
      exact .inl .refl
    · refine .inr ⟨fun key session hsession => ?_, rfl⟩
      rw [(hstore.checkpointBlock (not_lt.mp hheight) hs).getSession] at hsession
      split_ifs at hsession
      exact hsession
  | resetAndPause =>
    cases hhandle
    refine .inr ⟨fun key session hsession => ?_, rfl⟩
    cases hsession

/-- The sessions with the steps that they have emitted since they are stored. -/
structure History where
  state : State := {}
  emitted : List (SessionKey × Int) := []

def advance (history : History) (message : Message) : Option History :=
  (handle history.state message).map fun outcome => {
    state := outcome.state
    emitted := (history.emitted ++ outcome.events.map ComputedOutput.step).filter fun e =>
      (getSession outcome.state e.1).isSome }

structure Sound (IsOutput : Int → Bytes → Prop) (history : History) : Prop where
  consistent : Consistent history.state
  gapless : Gapless IsOutput history.state
  emittedOnce : EmittedOnce history.state history.emitted

lemma sound_empty : Sound IsOutput {} where
  consistent := consistent_empty
  gapless key session hsession := by cases hsession
  emittedOnce := ⟨by simp, List.nodup_nil⟩

variable {history history' : History}

lemma Sound.advance (h : Sound IsOutput history) (hnumbered : message.Numbered IsOutput)
    (hjoins : message.Joins history.state) (hadvance : advance history message = some history') :
    Sound IsOutput history' := by
  obtain ⟨outcome, hhandle, rfl⟩ := Option.map_eq_some_iff.mp hadvance
  have hreceive : receive history.state message = some outcome.state := by
    rw [receive, hhandle]
    rfl
  refine ⟨h.consistent.receive hreceive, ?_, ?_⟩
  · obtain hstores | ⟨hremoves, -⟩ := handle_changes h.consistent h.gapless hnumbered hjoins hhandle
    · exact hstores.gapless h.gapless
    · exact fun key session hsession => h.gapless key session (hremoves key session hsession)
  · obtain hstores | ⟨hremoves, hevents⟩ := handle_changes h.consistent h.gapless hnumbered hjoins hhandle
    · exact (hstores.emittedOnce h.emittedOnce).filter fun _ _ hsession => hsession
    · dsimp only
      rw [hevents, List.map_nil, List.append_nil]
      exact h.emittedOnce.filter hremoves

lemma Sound.stepNumber_le {key : SessionKey} {session session' : Session} (h : Sound IsOutput history)
    (hnumbered : message.Numbered IsOutput) (hjoins : message.Joins history.state)
    (hadvance : Vdf.advance history message = some history') (hsession : getSession history.state key = some session)
    (hsession' : getSession history'.state key = some session') : session.stepNumber ≤ session'.stepNumber := by
  obtain ⟨outcome, hhandle, rfl⟩ := Option.map_eq_some_iff.mp hadvance
  obtain hstores | ⟨hremoves, -⟩ := handle_changes h.consistent h.gapless hnumbered hjoins hhandle
  · obtain ⟨session1, hsession1, hle⟩ := hstores.stepNumber_le hsession
    rw [hsession'] at hsession1
    cases hsession1
    exact hle
  · rw [hremoves key session' hsession'] at hsession
    cases hsession
    exact le_rfl

lemma handle_behind {update : NonceLimiterUpdate} {session : Session}
    (hsession : getSession state update.sessionKey = some session)
    (hbehind : update.session.stepNumber ≤ session.stepNumber ∨
      update.isPartial = true ∧ session.stepNumber + 1 < update.session.stepNumber) :
    handle state (.applyExternalUpdate update) = some {
      state := state
      reply := some (.response { stepNumber := some session.stepNumber }) } := by
  rw [handle, applyExternalUpdate, hsession]
  have hnumber : (Session.ofUpdate update.session).stepNumber = update.session.stepNumber := rfl
  dsimp only
  rw [hnumber, if_neg (by omega)]
  obtain hle | ⟨hpart, hgap⟩ := hbehind
  · rw [if_pos hle]
    rfl
  · rw [if_neg (by omega), if_pos hpart]
    rfl

/-- In every order of updates, computed steps and validated blocks that join the stored sessions,
the steps stay consecutive and are emitted once. The number of a session does not decrease while it
is stored. -/
theorem run_gapless (hnumbered : ∀ message ∈ messages, message.Numbered IsOutput)
    (hjoins : Along advance (fun history message => message.Joins history.state) {} messages)
    (hrun : messages.foldlM advance {} = some history) :
    (∀ key session, getSession history.state key = some session →
      Consecutive IsOutput session.stepNumber session.steps) ∧
    history.emitted.Nodup ∧
    (∀ (more : List Message) (history' : History) (key : SessionKey) (session session' : Session),
      (∀ message ∈ more, message.Numbered IsOutput) →
      Along advance (fun history message => message.Joins history.state) history more →
      Along advance (fun history _ => (getSession history.state key).isSome = true) history more →
      more.foldlM advance history = some history' →
      getSession history.state key = some session → getSession history'.state key = some session' →
      session.stepNumber ≤ session'.stepNumber) ∧
    ∀ (update : NonceLimiterUpdate) (session : Session), getSession history.state update.sessionKey = some session →
      (update.session.stepNumber ≤ session.stepNumber ∨
        update.isPartial = true ∧ session.stepNumber + 1 < update.session.stepNumber) →
      handle history.state (.applyExternalUpdate update) = some {
        state := history.state
        reply := some (.response { stepNumber := some session.stepNumber }) } := by
  have h : Sound IsOutput history := foldlM_invariant sound_empty
    (fun s message s' hmem hs hjoin hadvance => hs.advance (hnumbered message hmem) hjoin hadvance) hjoins hrun
  refine ⟨h.gapless, h.emittedOnce.nodup, ?_, fun update session => handle_behind⟩
  intro more history' key session session' hnumbered' hjoins' hstored hrun' hsession hsession'
  have hkeeps : Sound IsOutput history' ∧
      ∀ s, getSession history'.state key = some s → session.stepNumber ≤ s.stepNumber := by
    refine foldlM_invariant (P := fun r => Sound IsOutput r ∧
      ∀ s, getSession r.state key = some s → session.stepNumber ≤ s.stepNumber) ⟨h, ?_⟩ ?_ (hjoins'.and hstored) hrun'
    · intro s hs
      rw [hsession] at hs
      cases hs
      exact le_rfl
    · rintro s message s' hmem ⟨hs, hle⟩ ⟨hjoin, hsome⟩ hadvance
      refine ⟨hs.advance (hnumbered' message hmem) hjoin hadvance, fun after hafter => ?_⟩
      obtain ⟨before, hbefore⟩ := Option.isSome_iff_exists.mp hsome
      exact (hle before hbefore).trans (hs.stepNumber_le (hnumbered' message hmem) hjoin hadvance hbefore hafter)
  exact hkeeps.2 session' hsession'

end Histories

/-- The message that a valid block casts, with the steps of the verdict. -/
def castValidatedSteps (info prevInfo : NonceLimiterInfo) (steps : List Bytes) : Message :=
  .validatedSteps {
    stepNumber := info.globalStepNumber
    sessionKey := sessionKey prevInfo
    nextSessionKey := sessionKey info
    seed := info.seed
    upperBound := info.partitionUpperBound
    nextUpperBound := info.nextPartitionUpperBound
    vdfDifficulty := info.vdfDifficulty
    nextVdfDifficulty := info.nextVdfDifficulty
    steps := steps
    lastStepCheckpoints := some info.lastStepCheckpoints }

/-- The outputs of a sample, which are the numbers of their steps. -/
def numberOutput (stepNumber : Int) : Bytes :=
  [UInt8.ofNat (stepNumber.toNat / 256), UInt8.ofNat stepNumber.toNat]

def numberVdf (stepNumber : Nat) (_prevOutput : Bytes) (_vdfDifficulty : Nat) : Bytes := numberOutput stepNumber

def numberSteps (stepNumber count : Nat) : List Bytes := (List.range count).map fun i => numberOutput (stepNumber - i)

/-- A block ten steps before the reset line. -/
def parentInfo : NonceLimiterInfo where
  output := numberOutput 1190
  nextSeed := [1]
  globalStepNumber := 1190

/-- A block after the reset line. -/
def childInfo (stepNumber count : Nat) : NonceLimiterInfo where
  output := numberOutput stepNumber
  seed := [1]
  nextSeed := [2]
  globalStepNumber := stepNumber
  steps := numberSteps stepNumber count

/-- A block and its sibling open the next session at the first of them. A child of the sibling
continues the session at the sibling. -/
def siblingMessages : List Message := [
  .validatedPreFork26Block parentInfo,
  castValidatedSteps (childInfo 1202 12) parentInfo (numberSteps 1202 12),
  castValidatedSteps (childInfo 1205 15) parentInfo (numberSteps 1205 15),
  castValidatedSteps (childInfo 1208 3) (childInfo 1205 15) (numberSteps 1208 3)]

def verdictAfter (count : Nat) (info prevInfo : NonceLimiterInfo) : Option Verdict :=
  ((siblingMessages.take count).foldlM advance {}).map fun history =>
    requestValidation numberVdf false history.state info prevInfo

/-- The steps between the two siblings are missing in the session. -/
theorem gap_after_sibling :
    verdictAfter 1 (childInfo 1202 12) parentInfo = some (.valid (numberSteps 1202 12)) ∧
    verdictAfter 2 (childInfo 1205 15) parentInfo = some (.valid (numberSteps 1205 15)) ∧
    verdictAfter 3 (childInfo 1208 3) (childInfo 1205 15) = some (.valid (numberSteps 1208 3)) ∧
    (∀ message ∈ siblingMessages, message.Numbered fun n o => o = numberOutput n) ∧
    ∃ history session, siblingMessages.foldlM advance {} = some history ∧
      getSession history.state (sessionKey (childInfo 1208 3)) = some session ∧
      ¬Consecutive (fun n o => o = numberOutput n) session.stepNumber session.steps := by
  refine ⟨by decide, by decide, by decide, ?_, ?_⟩
  · simp only [siblingMessages, List.forall_mem_cons, List.not_mem_nil, false_implies, implies_true, and_true]
    exact ⟨rfl, ⟨by decide, by decide⟩, ⟨by decide, by decide⟩, by decide, by decide⟩
  · have hrun : ((siblingMessages.foldlM advance {}).bind fun history =>
        getSession history.state (sessionKey (childInfo 1208 3))).map (fun s => (s.stepNumber, s.steps)) =
          some (1208, numberSteps 1208 3 ++ numberSteps 1202 3) := by decide
    obtain ⟨session, hbind, hsteps⟩ := Option.map_eq_some_iff.mp hrun
    obtain ⟨history, hhistory, hsession⟩ := Option.bind_eq_some_iff.mp hbind
    obtain ⟨hnumber, hsteps⟩ := Prod.mk.inj hsteps
    refine ⟨history, session, hhistory, hsession, ?_⟩
    rw [hnumber, hsteps]
    decide

/-- An update with the step after a block, and then the block that is next. -/
def joiningMessages : List Message := [
  .validatedPreFork26Block parentInfo,
  .applyExternalUpdate {
    sessionKey := sessionKey parentInfo
    session := {
      stepNumber := 1191
      seed := []
      steps := [numberOutput 1191]
      prevSessionKey := none
      upperBound := none
      nextUpperBound := none }
    checkpoints := []
    isPartial := true },
  castValidatedSteps (childInfo 1202 12) parentInfo (numberSteps 1202 12)]

lemma joiningMessages_joins :
    Along advance (fun history message => message.Joins history.state) {} joiningMessages := by
  refine along_cons.mpr ⟨trivial, fun history1 h1 => along_cons.mpr ⟨trivial, fun history2 h2 => ?_⟩⟩
  refine along_cons.mpr ⟨?_, fun _ _ => along_nil⟩
  have hrun : ((joiningMessages.take 2).foldlM advance {}).map
      (fun history => (getSession history.state (sessionKey parentInfo)).map Session.stepNumber) =
        some (some 1191) := by decide
  have htwo : (joiningMessages.take 2).foldlM advance {} = some history2 := by
    simp only [joiningMessages, List.take_succ_cons, List.take_zero, List.foldlM_cons, List.foldlM_nil, h1, h2, bind,
      Option.bind_some, pure]
  rw [htwo, Option.map_some, Option.some.injEq] at hrun
  intro session hsession _
  obtain ⟨session', hsession', hnumber⟩ := Option.map_eq_some_iff.mp hrun
  rw [show getSession history2.state (sessionKey parentInfo) = some session from hsession] at hsession'
  cases hsession'
  rw [hnumber]
  decide

theorem run_gapless_joiningMessages :
    ∃ history, joiningMessages.foldlM advance {} = some history ∧
      (∀ key session, getSession history.state key = some session →
        Consecutive (fun n o => o = numberOutput n) session.stepNumber session.steps) ∧
      history.emitted = [(sessionKey parentInfo, 1191)] := by
  have hnumbered : ∀ message ∈ joiningMessages, message.Numbered fun n o => o = numberOutput n := by
    simp only [joiningMessages, List.forall_mem_cons, List.not_mem_nil, false_implies, implies_true, and_true]
    exact ⟨rfl, ⟨rfl, trivial⟩, by decide, by decide⟩
  have hrun : (joiningMessages.foldlM advance {}).map (·.emitted) = some [(sessionKey parentInfo, 1191)] := by
    decide
  obtain ⟨history, hhistory, hemitted⟩ := Option.map_eq_some_iff.mp hrun
  exact ⟨history, hhistory, (run_gapless hnumbered joiningMessages_joins hhistory).1, hemitted⟩

end Arweave.Vdf

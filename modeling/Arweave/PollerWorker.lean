import Mathlib.Data.List.Count
import Arweave.Lib.Histories

/-!
# The workers that poll the peers

A worker asks its peer for new blocks and sends itself the message to ask again after a while. It is paused from outside
and when the peer does not answer, and polling starts again with a new reference, while the messages with the old ones
are still on their way.
-/

namespace Arweave.PollerWorker

open Lib

section Code

/-- What other processes send. An event that is not about the initialized node, and a message that is not known, change
nothing. -/
inductive Notice (Peer : Type) where
  | pause
  | resume
  | setPeer (peer : Peer)
  | initialized
  | other
  deriving DecidableEq

/-- The references are numbers. The worker alone sends itself messages with one. -/
inductive Message (Peer : Type) where
  | notice (notice : Notice Peer)
  | poll (ref : Nat)
  deriving DecidableEq

/-- How the block is fetched that the peer has on top. -/
inductive Fetch where
  | fetched
  | transactionsFailed
  | failed

/-- The answer to the request, with what the ignore registry says about the block and how it is fetched. -/
inductive Outcome (Hash : Type) where
  | inSync
  | ahead (h : Hash) (ignored : Bool) (fetch : Fetch)
  | notFound
  | error

inductive Effect (Peer Hash : Type) where
  | getRecentHashListDiff (peer : Peer)
  | getBlock (peer : Peer) (h : Hash)
  | addTemporary (h : Hash)
  | removeTemporary (h : Hash)
  | castBlock (peer : Peer) (h : Hash)
  | castPeerOutOfSync (peer : Peer)

def Effect.IsRequest {Peer Hash : Type} : Effect Peer Hash → Prop
  | .getRecentHashListDiff _ => True
  | .getBlock _ _ => True
  | _ => False

variable {Peer Hash : Type}

/-- The state of the worker with its mailbox and the delayed casts that are pending. `refs` numbers the references. -/
structure Worker (Peer : Type) where
  peer : Option Peer := none
  pollingFrequencyMs : Nat
  ref : Option Nat := none
  pause : Bool := false
  mailbox : List (Message Peer) := []
  timers : List (Nat × Message Peer) := []
  refs : Nat := 0

def Worker.cast (s : Worker Peer) (message : Message Peer) : Worker Peer :=
  { s with mailbox := s.mailbox ++ [message] }

def Worker.castAfter (s : Worker Peer) (milliseconds : Nat) (message : Message Peer) : Worker Peer :=
  { s with timers := (milliseconds, message) :: s.timers }

/-- A new reference, and a message with it to the worker itself. -/
def handleNodeStateInitialized (s : Worker Peer) : Worker Peer :=
  { s.cast (.poll s.refs) with ref := some s.refs, refs := s.refs + 1 }

def init (pollingFrequencyMs : Nat) (isJoined : Bool) : Worker Peer :=
  if isJoined then handleNodeStateInitialized { pollingFrequencyMs } else { pollingFrequencyMs }

def handleResume (s : Worker Peer) : Worker Peer :=
  if s.pause then { handleNodeStateInitialized s with pause := false } else s

def handleSetPeer (peer : Peer) (s : Worker Peer) : Worker Peer :=
  { if s.pause then handleNodeStateInitialized s else s with peer := some peer, pause := false }

def fetchBlock (peer : Peer) (h : Hash) (ignored : Bool) (fetch : Fetch) : List (Effect Peer Hash) :=
  if ignored then []
  else
    [.addTemporary h, .getBlock peer h] ++
      match fetch with
      | .fetched => [.removeTemporary h, .castBlock peer h]
      | .transactionsFailed => []
      | .failed => [.removeTemporary h]

/-- A message without a peer to ask pauses the worker whatever its reference is. -/
def handlePoll (ref : Nat) (outcome : Outcome Hash) (s : Worker Peer) : Worker Peer × List (Effect Peer Hash) :=
  if s.pause then (s, [])
  else
    match s.peer with
    | none => ({ s with pause := true }, [])
    | some peer =>
      if s.ref = some ref then
        match outcome with
        | .inSync => (s.castAfter s.pollingFrequencyMs (.poll ref), [.getRecentHashListDiff peer])
        | .ahead h ignored fetch =>
          (s.castAfter s.pollingFrequencyMs (.poll ref), .getRecentHashListDiff peer :: fetchBlock peer h ignored fetch)
        | .notFound => ({ s with pause := true }, [.getRecentHashListDiff peer, .castPeerOutOfSync peer])
        | .error => ({ s with pause := true }, [.getRecentHashListDiff peer])
      else (s, [])

def handle (outcome : Outcome Hash) (s : Worker Peer) : Message Peer → Worker Peer × List (Effect Peer Hash)
  | .notice .pause => ({ s with pause := true }, [])
  | .notice .resume => (handleResume s, [])
  | .notice (.setPeer peer) => (handleSetPeer peer s, [])
  | .notice .initialized => (handleNodeStateInitialized s, [])
  | .notice .other => (s, [])
  | .poll ref => handlePoll ref outcome s

/-- What happens: another process sends a message, a delayed cast arrives, or the worker handles its next message. -/
inductive Op (Peer Hash : Type) where
  | send (notice : Notice Peer)
  | expire (timer : Nat × Message Peer)
  | handle (outcome : Outcome Hash)

variable [DecidableEq Peer]

def step (s : Worker Peer) : Op Peer Hash → Option (Worker Peer)
  | .send notice => some (s.cast (.notice notice))
  | .expire timer => if timer ∈ s.timers then some ({ s with timers := s.timers.erase timer }.cast timer.2) else none
  | .handle outcome =>
    match s.mailbox with
    | [] => none
    | message :: mailbox => some (handle outcome { s with mailbox := mailbox } message).1

end Code

section Chains

variable {Peer Hash : Type} [DecidableEq Peer] {s s' : Worker Peer} {op : Op Peer Hash} {outcome : Outcome Hash}
  {message : Message Peer} {mailbox : List (Message Peer)} {r : Nat}

/-- How many messages with a reference are in the mailbox or pending. -/
def Worker.polls (s : Worker Peer) (r : Nat) : Nat :=
  s.mailbox.count (.poll r) + (s.timers.map Prod.snd).count (.poll r)

/-- The messages with the current reference are one at most, and one when the worker is not paused. -/
structure Chained (s : Worker Peer) : Prop where
  fresh : ∀ r, s.refs ≤ r → s.polls r = 0
  ref_lt : ∀ r, s.ref = some r → r < s.refs
  le_one : ∀ r, s.ref = some r → s.polls r ≤ 1
  alive : s.pause = false → ∀ r, s.ref = some r → s.polls r = 1

@[simp] lemma polls_cast : (s.cast message).polls r = s.polls r + if message = .poll r then 1 else 0 := by
  simp only [Worker.polls, Worker.cast, List.count_append, List.count_singleton, beq_iff_eq]
  omega

@[simp] lemma polls_castAfter {milliseconds : Nat} :
    (s.castAfter milliseconds message).polls r = s.polls r + if message = .poll r then 1 else 0 := by
  simp only [Worker.polls, Worker.castAfter, List.map_cons, List.count_cons, beq_iff_eq]
  omega

lemma polls_handled (h : s.mailbox = message :: mailbox) :
    s.polls r = { s with mailbox := mailbox }.polls r + if message = .poll r then 1 else 0 := by
  simp only [Worker.polls, h, List.count_cons, beq_iff_eq]
  omega

lemma polls_expire {timer : Nat × Message Peer} (h : timer ∈ s.timers) :
    ({ s with timers := s.timers.erase timer }.cast timer.2).polls r = s.polls r := by
  have hperm := (List.perm_cons_erase h).map Prod.snd
  have hcount := hperm.count_eq (.poll r)
  rw [List.map_cons, List.count_cons] at hcount
  simp only [beq_iff_eq] at hcount
  rw [polls_cast]
  simp only [Worker.polls, hcount]
  omega

lemma chained_initialized (hfresh : ∀ r, s.refs ≤ r → s.polls r = 0) (peer : Option Peer) (pause : Bool) :
    Chained { handleNodeStateInitialized s with peer := peer, pause := pause } := by
  have hpolls : ∀ r, { handleNodeStateInitialized s with peer := peer, pause := pause }.polls r =
      s.polls r + if s.refs = r then 1 else 0 := by
    intro r
    have hcast : { handleNodeStateInitialized s with peer := peer, pause := pause }.polls r =
        (s.cast (.poll s.refs)).polls r := rfl
    rw [hcast, polls_cast]
    simp only [Message.poll.injEq]
  have hone : { handleNodeStateInitialized s with peer := peer, pause := pause }.polls s.refs = 1 := by
    rw [hpolls, hfresh _ (Nat.le_refl _), if_pos rfl]
  refine ⟨fun r hr => ?_, ?_, ?_, ?_⟩
  · change s.refs + 1 ≤ r at hr
    rw [hpolls, hfresh r (by omega), if_neg (by omega)]
  · rintro r ⟨⟩
    exact Nat.lt_succ_self _
  · rintro r ⟨⟩
    exact Nat.le_of_eq hone
  · rintro - r ⟨⟩
    exact hone

lemma Chained.of_le (h : Chained s) (hrefs : s'.refs = s.refs) (href : s'.ref = s.ref)
    (hle : ∀ r, s'.polls r ≤ s.polls r)
    (hcurrent : s'.pause = false → s.pause = false ∧ ∀ r, s.ref = some r → s'.polls r = s.polls r) : Chained s' := by
  refine ⟨fun r hr => ?_, fun r hr => hrefs ▸ h.ref_lt r (href ▸ hr), fun r hr => ?_, fun hp r hr => ?_⟩
  · exact Nat.le_zero.mp (h.fresh r (hrefs ▸ hr) ▸ hle r)
  · exact Nat.le_trans (hle r) (h.le_one r (href ▸ hr))
  · obtain ⟨hpause, hsame⟩ := hcurrent hp
    rw [hsame r (href ▸ hr)]
    exact h.alive hpause r (href ▸ hr)

lemma chained_resume (h : Chained s) : Chained (handleResume s) := by
  unfold handleResume
  split_ifs with hpause
  · exact chained_initialized h.fresh s.peer false
  · exact h

lemma chained_setPeer (h : Chained s) (peer : Peer) : Chained (handleSetPeer peer s) := by
  unfold handleSetPeer
  split_ifs with hpause
  · exact chained_initialized h.fresh (some peer) false
  · exact h.of_le rfl rfl (fun _ => Nat.le_refl _) fun _ => ⟨by simpa using hpause, fun _ _ => rfl⟩

omit [DecidableEq Peer] in
lemma handlePoll_cases (r : Nat) (outcome : Outcome Hash) (s : Worker Peer) :
    ((handlePoll r outcome s).1 = s ∧ (s.pause = false → s.ref ≠ some r)) ∨
      (handlePoll r outcome s).1 = { s with pause := true } ∨
      (handlePoll r outcome s).1 = s.castAfter s.pollingFrequencyMs (.poll r) := by
  unfold handlePoll
  by_cases hpause : s.pause = true
  · rw [if_pos hpause]
    exact .inl ⟨rfl, fun hp => Bool.noConfusion (hpause.symm.trans hp)⟩
  · rw [if_neg hpause]
    split
    · exact .inr (.inl rfl)
    · by_cases href : s.ref = some r
      · rw [if_pos href]
        cases outcome with
        | inSync => exact .inr (.inr rfl)
        | ahead hash ignored fetch => exact .inr (.inr rfl)
        | notFound => exact .inr (.inl rfl)
        | error => exact .inr (.inl rfl)
      · rw [if_neg href]
        exact .inl ⟨rfl, fun _ => href⟩

lemma chained_poll (h : Chained s) (hmail : s.mailbox = .poll r :: mailbox) (outcome : Outcome Hash) :
    Chained (handlePoll r outcome { s with mailbox := mailbox }).1 := by
  have htaken : ∀ r', s.polls r' = { s with mailbox := mailbox }.polls r' + if r = r' then 1 else 0 := by
    intro r'
    rw [polls_handled hmail]
    simp only [Message.poll.injEq]
  have hfewer : ∀ r', { s with mailbox := mailbox }.polls r' ≤ s.polls r' := fun r' => by
    rw [htaken]
    exact Nat.le_add_right _ _
  have hpaused : Chained { s with mailbox := mailbox, pause := true } :=
    h.of_le rfl rfl hfewer fun hp => Bool.noConfusion hp
  have hgoes : Chained ({ s with mailbox := mailbox }.castAfter s.pollingFrequencyMs (.poll r)) := by
    have hsame : ∀ r', ({ s with mailbox := mailbox }.castAfter s.pollingFrequencyMs (.poll r)).polls r' =
        s.polls r' := by
      intro r'
      rw [polls_castAfter, htaken]
      simp only [Message.poll.injEq]
    exact h.of_le rfl rfl (fun r' => Nat.le_of_eq (hsame r')) fun hp => ⟨hp, fun r' _ => hsame r'⟩
  rcases handlePoll_cases r outcome { s with mailbox := mailbox } with ⟨hsame, hother⟩ | hpause | hcast
  · rw [hsame]
    refine h.of_le rfl rfl hfewer fun hp => ⟨hp, fun r' hr' => ?_⟩
    have hne : r ≠ r' := fun heq => hother hp (heq ▸ hr')
    rw [htaken, if_neg hne, Nat.add_zero]
  · rw [hpause]
    exact hpaused
  · rw [hcast]
    exact hgoes

lemma chained_handle (h : Chained s) (hmail : s.mailbox = message :: mailbox) (outcome : Outcome Hash) :
    Chained (handle outcome { s with mailbox := mailbox } message).1 := by
  cases message with
  | poll r => exact chained_poll h hmail outcome
  | notice notice =>
    have hsame : ∀ r, { s with mailbox := mailbox }.polls r = s.polls r := by
      intro r
      rw [polls_handled hmail, if_neg (by simp), Nat.add_zero]
    have htaken : Chained { s with mailbox := mailbox } :=
      h.of_le rfl rfl (fun r => Nat.le_of_eq (hsame r)) fun hp => ⟨hp, fun r _ => hsame r⟩
    cases notice with
    | pause => exact htaken.of_le rfl rfl (fun _ => Nat.le_refl _) fun hp => Bool.noConfusion hp
    | resume => exact chained_resume htaken
    | setPeer peer => exact chained_setPeer htaken peer
    | initialized => exact chained_initialized htaken.fresh s.peer s.pause
    | other => exact htaken

lemma step_handle (hstep : step s (.handle outcome) = some s') : ∃ message mailbox,
    s.mailbox = message :: mailbox ∧ s' = (handle outcome { s with mailbox := mailbox } message).1 := by
  rw [step] at hstep
  cases hmail : s.mailbox with
  | nil =>
    rw [hmail] at hstep
    cases hstep
  | cons message mailbox =>
    rw [hmail] at hstep
    exact ⟨message, mailbox, rfl, (Option.some_inj.mp hstep).symm⟩

theorem chained_step (h : Chained s) (hstep : step s op = some s') : Chained s' := by
  cases op with
  | send notice =>
    cases hstep
    have hsame : ∀ r, (s.cast (.notice notice)).polls r = s.polls r := fun r => by simp
    exact h.of_le rfl rfl (fun r => Nat.le_of_eq (hsame r)) fun hp => ⟨hp, fun r _ => hsame r⟩
  | expire timer =>
    rw [step] at hstep
    split_ifs at hstep with htimer
    cases hstep
    have hsame := fun r => polls_expire (r := r) htimer
    exact h.of_le rfl rfl (fun r => Nat.le_of_eq (hsame r)) fun hp => ⟨hp, fun r _ => hsame r⟩
  | handle outcome =>
    obtain ⟨message, mailbox, hmail, rfl⟩ := step_handle hstep
    exact chained_handle h hmail outcome

end Chains

section Runs

variable {Peer Hash : Type} [DecidableEq Peer] {s s' : Worker Peer} {op : Op Peer Hash} {ops : List (Op Peer Hash)}
  {message : Message Peer} {mailbox : List (Message Peer)}

/-- The worker is about to handle the event of the initialized node, or to be woken up from a pause. -/
def Op.Starts (s : Worker Peer) : Op Peer Hash → Prop
  | .handle _ => ∃ mailbox, s.mailbox = .notice .initialized :: mailbox ∨
      (s.pause = true ∧ (s.mailbox = .notice .resume :: mailbox ∨ ∃ peer, s.mailbox = .notice (.setPeer peer) :: mailbox))
  | _ => False

/-- A run has started a chain. -/
def Started (first : Worker Peer) (ops : List (Op Peer Hash)) : Prop :=
  ∃ before op after s, ops = before ++ op :: after ∧ before.foldlM step first = some s ∧ op.Starts s

lemma started_concat {first : Worker Peer} (hrun : ops.foldlM step first = some s) :
    Started first (ops ++ [op]) ↔ Started first ops ∨ op.Starts s := by
  constructor
  · rintro ⟨before, op', after, r, heq, hr, hstarts⟩
    rcases List.eq_nil_or_concat after with rfl | ⟨after, y, rfl⟩
    · obtain ⟨rfl, hlast⟩ := List.append_inj' heq rfl
      cases hlast
      rw [hrun] at hr
      cases hr
      exact .inr hstarts
    · rw [List.concat_eq_append, ← List.cons_append, ← List.append_assoc] at heq
      obtain ⟨rfl, -⟩ := List.append_inj' heq rfl
      exact .inl ⟨before, op', after, r, rfl, hr, hstarts⟩
  · rintro (⟨before, op', after, r, rfl, hr, hstarts⟩ | hstarts)
    · exact ⟨before, op', after ++ [op], r, by simp, hr, hstarts⟩
    · exact ⟨ops, op, [], s, rfl, hrun, hstarts⟩

omit [DecidableEq Peer] in
lemma request_of_handle {outcome : Outcome Hash} {e : Effect Peer Hash} (he : e ∈ (handle outcome s message).2) :
    ∃ r, message = .poll r ∧ s.ref = some r ∧ s.pause = false := by
  cases message with
  | notice notice => cases notice <;> cases he
  | poll r =>
    rw [handle, handlePoll] at he
    by_cases hpause : s.pause = true
    · rw [if_pos hpause] at he
      cases he
    · rw [if_neg hpause] at he
      by_cases href : s.ref = some r
      · exact ⟨r, rfl, href, by simpa using hpause⟩
      · split at he
        · cases he
        · rw [if_neg href] at he
          cases he

omit [DecidableEq Peer] in
lemma ref_of_handle (outcome : Outcome Hash) (href : s.ref ≠ none) : (handle outcome s message).1.ref ≠ none := by
  cases message with
  | poll r =>
    rcases handlePoll_cases r outcome s with ⟨hsame, -⟩ | hpause | hcast
    · rwa [handle, hsame]
    · rwa [handle, hpause]
    · rwa [handle, hcast]
  | notice notice =>
    cases notice with
    | pause => exact href
    | resume =>
      rw [handle, handleResume]
      split_ifs
      · exact Option.some_ne_none _
      · exact href
    | setPeer peer =>
      rw [handle, handleSetPeer]
      split_ifs
      · exact Option.some_ne_none _
      · exact href
    | initialized => exact Option.some_ne_none _
    | other => exact href

lemma ref_of_step (hstep : step s op = some s') (href : s.ref ≠ none ∨ op.Starts s) : s'.ref ≠ none := by
  cases op with
  | send notice =>
    cases hstep
    exact href.resolve_right id
  | expire timer =>
    rw [step] at hstep
    split_ifs at hstep
    cases hstep
    exact href.resolve_right id
  | handle outcome =>
    obtain ⟨message, mailbox, hmail, rfl⟩ := step_handle hstep
    rcases href with href | ⟨mailbox', hstarts⟩
    · exact ref_of_handle outcome href
    · rw [hmail] at hstarts
      rcases hstarts with hinit | ⟨hpause, hresume | ⟨peer, hpeer⟩⟩
      · cases hinit
        exact Option.some_ne_none _
      · cases hresume
        simp [handle, handleResume, hpause, handleNodeStateInitialized]
      · cases hpeer
        simp [handle, handleSetPeer, hpause, handleNodeStateInitialized]

lemma chained_init (pollingFrequencyMs : Nat) (isJoined : Bool) :
    Chained (init pollingFrequencyMs isJoined : Worker Peer) := by
  have hempty : ∀ r, ({ pollingFrequencyMs } : Worker Peer).polls r = 0 := fun _ => rfl
  unfold init
  split_ifs
  · exact chained_initialized (fun r _ => hempty r) none false
  · exact ⟨fun r _ => hempty r, nofun, nofun, nofun⟩

/-- A worker that has started and is not paused has one message to poll on, in every state of every run, and no other
message makes it ask a peer. -/
theorem polling_chain (pollingFrequencyMs : Nat) (isJoined : Bool) (ops : List (Op Peer Hash)) (s : Worker Peer)
    (hrun : ops.foldlM step (init pollingFrequencyMs isJoined) = some s) :
    (isJoined = true ∨ Started (init pollingFrequencyMs isJoined) ops → s.pause = false →
      ∃ r, s.ref = some r ∧ s.polls r = 1) ∧
    (∀ r, s.ref = some r → s.polls r ≤ 1) ∧
    (∀ message mailbox (outcome : Outcome Hash) e, s.mailbox = message :: mailbox →
      e ∈ (handle outcome { s with mailbox := mailbox } message).2 → e.IsRequest →
        ∃ r, message = .poll r ∧ s.ref = some r ∧ s.pause = false) := by
  have hreached : Chained s ∧ (isJoined = true ∨ Started (init pollingFrequencyMs isJoined) ops → s.ref ≠ none) := by
    induction ops using List.reverseRecOn generalizing s with
    | nil =>
      cases hrun
      refine ⟨chained_init _ _, ?_⟩
      rintro (rfl | ⟨before, op, after, r, heq, -⟩)
      · exact Option.some_ne_none _
      · simp at heq
    | append_singleton ops op ih =>
      obtain ⟨r, hr, hop⟩ := foldlM_concat.mp hrun
      obtain ⟨hchained, href⟩ := ih r hr
      refine ⟨chained_step hchained hop, fun hstarted => ref_of_step hop ?_⟩
      rcases hstarted with hjoined | hstarted
      · exact .inl (href (.inl hjoined))
      · rcases (started_concat hr).mp hstarted with hbefore | hnow
        · exact .inl (href (.inr hbefore))
        · exact .inr hnow
  obtain ⟨hchained, href⟩ := hreached
  refine ⟨fun hstarted hpause => ?_, hchained.le_one, fun message mailbox outcome e _ he _ => ?_⟩
  · obtain ⟨r, hr⟩ := Option.ne_none_iff_exists'.mp (href hstarted)
    exact ⟨r, hr, hchained.alive hpause r hr⟩
  · exact request_of_handle (s := { s with mailbox := mailbox }) he

/-- The first poll finds no peer and pauses the worker, and the peer that is set starts a new chain. -/
def sampleOps : List (Op Nat Nat) :=
  [.send .initialized, .handle .inSync, .send (.setPeer 7), .handle .inSync, .handle .inSync, .handle .inSync]

theorem polling_chain_sampleOps : ∃ s : Worker Nat, sampleOps.foldlM step (init 60000 false) = some s ∧
    s.timers = [(60000, .poll 1)] ∧
    (false = true ∨ Started (init 60000 false) sampleOps → s.pause = false → ∃ r, s.ref = some r ∧ s.polls r = 1) ∧
    (∀ r, s.ref = some r → s.polls r ≤ 1) ∧
    (∀ message mailbox (outcome : Outcome Nat) e, s.mailbox = message :: mailbox →
      e ∈ (handle outcome { s with mailbox := mailbox } message).2 → e.IsRequest →
        ∃ r, message = .poll r ∧ s.ref = some r ∧ s.pause = false) := by
  obtain ⟨s, hs⟩ : ∃ s, sampleOps.foldlM step (init 60000 false) = some s := ⟨_, rfl⟩
  have htimers : (sampleOps.foldlM step (init 60000 false)).map Worker.timers = some [(60000, .poll 1)] := by decide
  rw [hs] at htimers
  exact ⟨s, hs, Option.some_inj.mp htimers, polling_chain 60000 false sampleOps s hs⟩

/-- Before the node is initialized a resumption finds the worker not paused, and nothing is polled after it. -/
theorem resume_starts_no_chain : ∃ s : Worker Nat,
    [Op.send .resume, .handle (Outcome.inSync : Outcome Nat)].foldlM step (init 60000 false) = some s ∧
    s.pause = false ∧ ¬ ∃ r, s.ref = some r ∧ s.polls r = 1 := by
  refine ⟨_, rfl, rfl, ?_⟩
  rintro ⟨r, hr, -⟩
  cases hr

end Runs

end Arweave.PollerWorker

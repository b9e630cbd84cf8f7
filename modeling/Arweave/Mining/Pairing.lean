import Arweave.Mining.Interleavings

/-!
# Pairing the chunks of the nonces

In one session of a node without peers, the two chunks of every nonce come together once, in whatever order they are
read, skipped and hashed. When both halves of a nonce are through, nothing is left of it.
-/

namespace Arweave.Mining

open Lib

section Own

variable {Session Peer : Type} [DecidableEq Session] {recallRangeSize : Nat} {s s' : System Session Peer} {op : Op Session Peer}
  {task : Task Session Peer} {key : CacheKey}

/-- The messages of one session of a node without peers. -/
def Op.Ordinary : Op Session Peer → Prop
  | .reset _ => False
  | .newSession _ _ => False
  | .submit task => task.type ≠ .compute_h2_for_peer
  | _ => True

/-- A nonce of one of the node's own candidates, no event of which is lost. -/
structure Progress.Own (p : Progress Session Peer) (epoch : Nat) : Prop where
  epoch_eq : p.epoch = epoch
  ofPeer : p.first.ofPeer = false
  first_ne : p.first ≠ .lost
  second_ne : p.second ≠ .lost

structure System.Own (s : System Session Peer) : Prop where
  sound : s.Sound
  nonces : ∀ key ∈ s.issued, (s.progress key).Own s.epoch
  tasks : ∀ e ∈ s.worker.taskQueue.entries, e.2.type ≠ .compute_h2_for_peer

lemma System.Own.valid (hs : s.Own) (hkey : key ∈ s.issued) :
    isSessionValid s.worker (s.progress key).candidate = true :=
  decide_eq_true (hs.sound.accounted.sessions key hkey (hs.nonces key hkey).epoch_eq)

lemma exists_mem_of_next (h : s.worker.next = some task) : ∃ e ∈ s.worker.taskQueue.entries, e.2 = task := by
  obtain ⟨e, he, htask⟩ := Option.bind_eq_some_iff.mp h
  split_ifs at htask
  exact ⟨e, List.mem_of_head? he, Option.some.inj htask⟩

lemma System.Sound.key_of_half (hs : s.Sound) (hnext : s.worker.next = some task) {which : Which}
    (hhalf : task.type.half = some which) : ∃ key ∈ s.issued, task.candidate.cacheRef = some key.1 ∧
      task.candidate.nonce = key.2 ∧ (s.progress key).awaits key.2 which = some task := by
  obtain ⟨e, he, rfl⟩ := exists_mem_of_next hnext
  obtain ⟨key, hkey, hawaits⟩ := hs.queued.awaited e he which hhalf
  obtain ⟨href, hnonce, -⟩ := awaits_candidate hawaits
  exact ⟨key, hkey, href.trans (hs.accounted.candidates key hkey), hnonce, hawaits⟩

lemma System.Own.undisturbed (hs : s.Own) (hstep : s.step recallRangeSize op = some s') : s.Undisturbed op := by
  obtain ⟨cast, hmessage, -⟩ := step_eq_some.mp hstep
  cases op with
  | chunkSkipped which key =>
    simp only [System.message] at hmessage
    split_ifs at hmessage with hread
    exact ⟨(hs.nonces key hread.1).epoch_eq, (hs.nonces key hread.1).ofPeer⟩
  | handleTask answers =>
    intro task hnext
    have hcurrent : ∀ which ref, task.type.half = some which → task.candidate.cacheRef = some ref →
        (s.progress (ref, task.candidate.nonce)).epoch = s.epoch := by
      intro which ref hhalf href
      obtain ⟨key, hkey, href', hnonce, -⟩ := hs.sound.key_of_half hnext hhalf
      obtain rfl : ref = key.1 := Option.some.inj (href.symm.trans href')
      rw [hnonce]
      exact (hs.nonces key hkey).epoch_eq
    unfold System.Expects
    cases htype : task.type with
    | chunk2 =>
      cases href : task.candidate.cacheRef with
      | none => trivial
      | some ref => exact Or.inl (hcurrent .chunk2 ref (by rw [htype]; rfl) href)
    | computed_h1 =>
      cases href : task.candidate.cacheRef with
      | none => trivial
      | some ref => exact Or.inl (hcurrent .chunk1 ref (by rw [htype]; rfl) href)
    | compute_h2_for_peer =>
      obtain ⟨e, he, rfl⟩ := exists_mem_of_next hnext
      exact absurd htype (hs.tasks e he)
    | _ => trivial
  | _ => trivial

end Own

section Keeping

variable {Session Peer : Type} {recallRangeSize : Nat} {s : System Session Peer} {task : Task Session Peer} {key : CacheKey}
  {candidate : Candidate Session Peer} {p : Progress Session Peer}

lemma own_update {progress : CacheKey → Progress Session Peer} {issued : Finset CacheKey} {epoch : Nat}
    (h : ∀ key ∈ issued, (progress key).Own epoch) (hp : key ∈ issued → p.Own epoch) :
    ∀ key' ∈ issued, (Function.update progress key p key').Own epoch := by
  intro key' hkey'
  by_cases heq : key' = key
  · rw [heq, Function.update_self]
    exact hp (heq ▸ hkey')
  · rw [Function.update_of_ne heq]
    exact h key' hkey'

lemma own_setFirst {first : First} (h : ∀ key ∈ s.issued, (s.progress key).Own s.epoch) (hown : first.ofPeer = false)
    (hne : first ≠ .lost) : ∀ key' ∈ s.issued, (s.setFirst key first key').Own s.epoch :=
  own_update h fun hkey => ⟨(h key hkey).epoch_eq, hown, hne, (h key hkey).second_ne⟩

lemma own_setSecond {second : Second} (h : ∀ key ∈ s.issued, (s.progress key).Own s.epoch) (hne : second ≠ .lost) :
    ∀ key' ∈ s.issued, (s.setSecond key second key').Own s.epoch :=
  own_update h fun hkey => ⟨(h key hkey).epoch_eq, (h key hkey).ofPeer, (h key hkey).first_ne, hne⟩

lemma own_issue {stored : Bool} (h : ∀ key ∈ s.issued, (s.progress key).Own s.epoch) :
    ∀ key ∈ (s.issue recallRangeSize candidate [] true stored).issued,
      ((s.issue recallRangeSize candidate [] true stored).progress key).Own s.epoch := by
  intro key hkey
  unfold System.issue at hkey ⊢
  cases href : candidate.cacheRef with
  | none =>
    rw [href] at hkey
    exact h key hkey
  | some ref =>
    rw [href] at hkey
    dsimp only at hkey ⊢
    split_ifs with hnew
    · refine ⟨rfl, rfl, First.noConfusion, fun hlost => ?_⟩
      simp only [issueProgress] at hlost
      split_ifs at hlost
    · refine h key ((Finset.mem_union.mp hkey).resolve_right fun himage => hnew ?_)
      obtain ⟨nonce, hnonce, rfl⟩ := Finset.mem_image.mp himage
      exact ⟨rfl, hnonce⟩

lemma own_handled (recallRangeSize : Nat) (effects : List (Effect Session Peer)) (h : ∀ key ∈ s.issued, (s.progress key).Own s.epoch)
    (hpeer : task.type ≠ .compute_h2_for_peer) :
    (s.handled recallRangeSize task effects).epoch = s.epoch ∧
      ∀ key ∈ (s.handled recallRangeSize task effects).issued,
        ((s.handled recallRangeSize task effects).progress key).Own s.epoch := by
  unfold System.handled
  split
  · split
    · exact ⟨rfl, own_setFirst h rfl First.noConfusion⟩
    · exact ⟨rfl, h⟩
  · split
    · exact ⟨rfl, own_setSecond h Second.noConfusion⟩
    · exact ⟨rfl, h⟩
  · split
    · refine ⟨rfl, own_setFirst h ?_ ?_⟩ <;> split_ifs
      · rfl
      · rfl
      · exact First.noConfusion
      · exact First.noConfusion
    · exact ⟨rfl, h⟩
  · split
    · refine ⟨?_, own_issue h⟩
      unfold System.issue
      split <;> rfl
    · exact ⟨rfl, h⟩
  · rename_i htype
    exact absurd htype hpeer
  · exact ⟨rfl, h⟩

end Keeping

section Tasks

variable {Session Peer : Type} {recallRangeSize : Nat} {w : Worker Session Peer} {candidate : Candidate Session Peer}
  {answers : Answers} {task : Task Session Peer} {r : Worker Session Peer × List (Effect Session Peer)}

lemma mem_of_addTask [DecidableEq Session] (h : handleCast recallRangeSize w (.addTask task) = some r)
    {e : TaskKey × Task Session Peer} (he : e ∈ r.1.taskQueue.entries) : e.2 = task ∨ e ∈ w.taskQueue.entries := by
  simp only [handleCast] at h
  split_ifs at h <;> cases h
  · obtain rfl | ⟨-, he⟩ := SortedMap.mem_insert.mp he
    · exact Or.inl rfl
    · exact Or.inr he
  · exact Or.inr he

lemma removeChunkFromCache_queue {which : Which} (h : removeChunkFromCache which candidate w = some r) :
    r.1.taskQueue = w.taskQueue := by
  simp only [removeChunkFromCache, Option.bind_eq_bind, Option.bind_eq_some_iff] at h
  obtain ⟨ref, -, h⟩ := h
  split at h <;> cases h <;> cases which <;> rfl

lemma handleChunk2_queue (h : handleChunk2 candidate w = some r) : r.1.taskQueue = w.taskQueue := by
  simp only [handleChunk2, Option.bind_eq_bind, Option.bind_eq_some_iff] at h
  obtain ⟨⟨found, cache⟩, -, h⟩ := h
  cases found with
  | none =>
    cases h
    rfl
  | some entry => cases entry <;> cases h <;> rfl

lemma handleComputedH1_queue (h : handleComputedH1 answers candidate w = some r) : r.1.taskQueue = w.taskQueue := by
  simp only [handleComputedH1, Option.bind_eq_bind, Option.bind_eq_some_iff] at h
  obtain ⟨h1, -, h⟩ := h
  by_cases hsolution : w.diff < (Bytes.toNat h1 : WithTop Nat)
  · rw [if_pos hsolution] at h
    obtain ⟨r', hr', rfl⟩ := Option.map_eq_some_iff.mp h
    exact removeChunkFromCache_queue (r := r') hr'
  · rw [if_neg hsolution] at h
    obtain ⟨⟨found, cache⟩, -, h⟩ := Option.bind_eq_some_iff.mp h
    cases found with
    | none =>
      cases h
      rfl
    | some entry => cases entry <;> cases h <;> rfl

lemma handleTask_queue (hpeer : task.type ≠ .compute_h2_for_peer) (h : handleTask recallRangeSize answers task w = some r) :
    r.1.taskQueue = w.taskQueue := by
  unfold handleTask at h
  split at h
  · cases h
    rfl
  · exact handleChunk2_queue h
  · cases h
    rfl
  · obtain ⟨-, ⟨ref, -, hworker⟩, -⟩ | ⟨ref, candidate', -, -, hissues⟩ := handleComputedH0_cases h
    · rw [hworker]
    · exact hissues.queue
  · exact handleComputedH1_queue h
  · rw [(handleComputedH2_spec h).1]
  · rename_i htype
    exact absurd htype hpeer

end Tasks

section Settled

variable {Session Peer : Type} {s : System Session Peer} {task : Task Session Peer} {key : CacheKey} {which : Which}

/-- No event of a nonce is to come: its reads have been answered, no hashing thread has its first chunk, and no task in
the queue is about it. -/
structure System.Settled (s : System Session Peer) (key : CacheKey) : Prop where
  reads : ∀ which, ¬s.isRead which key
  hashes : ∀ chunk1, (s.progress key).first ≠ .hashing chunk1
  tasks : ∀ e ∈ s.worker.taskQueue.entries, e.2.type.half ≠ none →
    ¬(e.2.candidate.cacheRef = some key.1 ∧ e.2.candidate.nonce = key.2)

lemma System.Own.not_settled (hs : s.Own) (which : Which) (hkey : key ∈ s.issued)
    (hawaits : (s.progress key).awaits key.2 which = some task) : ¬s.Settled key := by
  intro hsettled
  obtain ⟨e, he, heq⟩ := hs.sound.queued.tasks key hkey (hs.nonces key hkey).epoch_eq which task hawaits
  obtain ⟨href, hnonce, -⟩ := awaits_candidate hawaits
  refine hsettled.tasks e he ?_ ?_ <;> rw [heq]
  · rw [awaits_half hawaits]
    exact Option.some_ne_none _
  · exact ⟨href.trans (hs.sound.accounted.candidates key hkey), hnonce⟩

lemma System.Own.first_of_settled (hs : s.Own) (hkey : key ∈ s.issued) (hsettled : s.Settled key) :
    (s.progress key).first.phase = .over ∨ ∃ chunk1 h1, (s.progress key).first.phase = .hashed chunk1 h1 := by
  have hown := hs.nonces key hkey
  cases hfirst : (s.progress key).first with
  | reading => exact (hsettled.reads .chunk1 ⟨hkey, hfirst⟩).elim
  | hashing chunk1 => exact (hsettled.hashes chunk1 hfirst).elim
  | queued chunk1 =>
    exact (hs.not_settled .chunk1 hkey (by rw [Progress.awaits, hfirst]) hsettled).elim
  | hashQueued chunk1 h1 =>
    exact (hs.not_settled .chunk1 hkey (by rw [Progress.awaits, hfirst]) hsettled).elim
  | hashed chunk1 h1 => exact Or.inr ⟨chunk1, h1, rfl⟩
  | solved chunk1 h1 => exact Or.inl rfl
  | skipped => exact Or.inl rfl
  | lost => exact (hown.first_ne hfirst).elim
  | given h1 => exact absurd hown.ofPeer (by rw [hfirst]; exact Bool.noConfusion)
  | absent => exact absurd hown.ofPeer (by rw [hfirst]; exact Bool.noConfusion)

lemma System.Own.second_of_settled (hs : s.Own) (hkey : key ∈ s.issued) (hsettled : s.Settled key) :
    (s.progress key).second.phase ≠ .waiting := by
  cases hsecond : (s.progress key).second with
  | reading => exact (hsettled.reads .chunk2 ⟨hkey, hsecond⟩).elim
  | queued chunk2 =>
    exact (hs.not_settled .chunk2 hkey (by rw [Progress.awaits, hsecond]) hsettled).elim
  | lost => exact ((hs.nonces key hkey).second_ne hsecond).elim
  | _ => exact SecondPhase.noConfusion

lemma System.Own.of_settled (hs : s.Own) (hkey : key ∈ s.issued) (hsettled : s.Settled key) :
    (s.progress key).content = none ∧ ∀ partition, (s.progress key).held partition = 0 := by
  have hsecond := hs.second_of_settled hkey hsettled
  unfold Progress.content Progress.held
  obtain hfirst | ⟨chunk1, h1, hfirst⟩ := hs.first_of_settled hkey hsettled <;> rw [hfirst] <;>
    cases hphase : (s.progress key).second.phase <;>
      first
      | exact (hsecond hphase).elim
      | exact ⟨rfl, fun partition => by simp only [held1, held2, ite_self, add_zero]⟩

end Settled

section Runs

variable {Session Peer : Type} [DecidableEq Session] {recallRangeSize : Nat} {s s' : System Session Peer} {op : Op Session Peer}
  {task : Task Session Peer} {key : CacheKey} {which : Which} {p : Progress Session Peer} {epoch : Nat}

lemma System.Own.step (hs : s.Own) (hop : op.Ordinary) (hstep : s.step recallRangeSize op = some s') : s'.Own := by
  have hsound := hs.sound.step (hs.undisturbed hstep) hstep
  cases op with
  | reset diff => exact hop.elim
  | newSession sessionKey seed => exact hop.elim
  | setDifficulty diff =>
    obtain ⟨cast, hmessage, r, hr, rfl⟩ := step_eq_some.mp hstep
    cases hmessage
    cases hr
    exact ⟨hsound, hs.nonces, hs.tasks⟩
  | submit task =>
    obtain ⟨cast, hmessage, r, hr, rfl⟩ := step_eq_some.mp hstep
    refine ⟨hsound, hs.nonces, fun e he => ?_⟩
    simp only [System.message] at hmessage
    split_ifs at hmessage
    cases hmessage
    exact (mem_of_addTask hr he).elim (fun hnew => hnew ▸ hop) (hs.tasks e)
  | chunkRead which key chunk =>
    obtain ⟨cast, hmessage, r, hr, rfl⟩ := step_eq_some.mp hstep
    simp only [System.message] at hmessage
    split_ifs at hmessage with hread
    cases hmessage
    cases which with
    | chunk1 =>
      refine ⟨hsound, ?_, fun e he => ?_⟩
      · simp only [System.track, hs.valid hread.1, if_true]
        exact own_setFirst hs.nonces rfl First.noConfusion
      · exact (mem_of_addTask hr he).elim (fun hnew => hnew ▸ TaskType.noConfusion) (hs.tasks e)
    | chunk2 =>
      refine ⟨hsound, ?_, fun e he => ?_⟩
      · simp only [System.track, hs.valid hread.1, if_true]
        exact own_setSecond hs.nonces Second.noConfusion
      · exact (mem_of_addTask hr he).elim (fun hnew => hnew ▸ TaskType.noConfusion) (hs.tasks e)
  | chunkSkipped which key =>
    obtain ⟨cast, hmessage, r, hr, rfl⟩ := step_eq_some.mp hstep
    simp only [System.message] at hmessage
    split_ifs at hmessage with hread
    cases hmessage
    have hqueue := removeChunkFromCache_queue hr
    cases which with
    | chunk1 => exact ⟨hsound, own_setFirst hs.nonces rfl First.noConfusion, fun e he => hs.tasks e (hqueue ▸ he)⟩
    | chunk2 => exact ⟨hsound, own_setSecond hs.nonces Second.noConfusion, fun e he => hs.tasks e (hqueue ▸ he)⟩
  | h1Computed key h1 =>
    obtain ⟨cast, hmessage, r, hr, rfl⟩ := step_eq_some.mp hstep
    simp only [System.message] at hmessage
    cases hfirst : (s.progress key).first with
    | hashing chunk1 =>
      rw [hfirst] at hmessage
      dsimp only at hmessage
      split_ifs at hmessage with hkey
      cases hmessage
      refine ⟨hsound, ?_, fun e he => ?_⟩
      · simp only [System.track, hfirst, hs.valid hkey, if_true]
        exact own_setFirst hs.nonces rfl First.noConfusion
      · exact (mem_of_addTask hr he).elim (fun hnew => hnew ▸ TaskType.noConfusion) (hs.tasks e)
    | _ =>
      rw [hfirst] at hmessage
      cases hmessage
  | handleTask answers =>
    obtain rfl | ⟨e, he, -, -, r, hr, rfl⟩ := step_handleTask hstep
    · exact hs
    have hpeer := hs.tasks e he
    obtain ⟨hepoch, hnonces⟩ := own_handled recallRangeSize r.2 hs.nonces hpeer
    refine ⟨hsound, fun key hkey => hepoch ▸ hnonces key hkey, fun e' he' => ?_⟩
    rw [handleTask_queue hpeer hr] at he'
    exact hs.tasks e' (SortedMap.mem_erase.mp he').2

lemma step_isSome {cast : Cast Session Peer} (hmessage : s.message op = some cast)
    (hcast : (handleCast recallRangeSize s.worker cast).isSome) : (s.step recallRangeSize op).isSome := by
  rw [System.step, hmessage, Option.bind_some, Option.isSome_map]
  exact hcast

lemma addTask_isSome (w : Worker Session Peer) (task : Task Session Peer) :
    (handleCast recallRangeSize w (.addTask task)).isSome := by
  simp only [handleCast]
  split_ifs <;> rfl

lemma System.Own.answered (hs : s.Own) (hread : s.isRead which key) (chunk : Bytes) :
    (s.step recallRangeSize (.chunkRead which key chunk)).isSome ∧ (s.step recallRangeSize (.chunkSkipped which key)).isSome := by
  constructor
  · exact step_isSome (if_pos hread) (addTask_isSome _ _)
  · refine step_isSome (if_pos hread) ?_
    change (removeChunkFromCache which _ s.worker).isSome
    simp only [removeChunkFromCache, hs.sound.accounted.candidates key hread.1, Option.bind_eq_bind, Option.bind_some]
    split <;> rfl

lemma System.Own.handles (hs : s.Own) (hnext : s.worker.next = some task) (hhalf : task.type.half ≠ none) (answers : Answers) :
    (s.step recallRangeSize (.handleTask answers)).isSome := by
  obtain ⟨which, hwhich⟩ := Option.ne_none_iff_exists'.mp hhalf
  obtain ⟨key, hkey, href, hnonce, hawaits⟩ := hs.sound.key_of_half hnext hwhich
  have hcontent := hs.sound.accounted.cache key hkey (hs.nonces key hkey).epoch_eq
  have hcandidate := hs.sound.accounted.candidates key hkey
  refine step_isSome rfl ?_
  obtain ⟨e, hhead, htask⟩ := Option.bind_eq_some_iff.mp hnext
  split_ifs at htask with hvalid
  obtain ⟨rest, hqueue⟩ := List.head?_eq_some_iff.mp hhead
  rw [Option.some.inj htask] at hvalid
  simp only [handleCast, hqueue, Option.some.inj htask, hvalid, if_true]
  unfold Progress.awaits at hawaits
  split at hawaits <;> split at hawaits <;> cases hawaits
  · rfl
  · rename_i chunk1 h1 hfirst
    obtain ⟨r, hr, -⟩ := handleComputedH1_follows (w := { s.worker with taskQueue := s.worker.taskQueue.erase e.1 })
      answers { s.progress key with
        first := if s.worker.diff < (Bytes.toNat h1 : WithTop Nat) then .solved chunk1 h1 else .hashed chunk1 h1 }
      hcontent hcandidate (by rw [hfirst]; rfl) rfl (First.phase_hashed _ chunk1 h1) rfl
    exact Option.isSome_of_eq_some hr
  · rename_i chunk2 hsecond
    obtain ⟨r, hr, -⟩ := handleChunk2_follows (w := { s.worker with taskQueue := s.worker.taskQueue.erase e.1 })
      { s.progress key with second := .read chunk2 } hcontent hcandidate (by rw [hsecond]; rfl) rfl rfl rfl
    exact Option.isSome_of_eq_some hr

/-- What a session comes to: a second hash is asked for once for each nonce whose chunks have both come and whose first hash
is no solution, solutions are posted, a settled nonce leaves nothing in the cache and no reserved space, and no event of a
nonce fails. -/
structure System.Paired (recallRangeSize : Nat) (s : System Session Peer) : Prop where
  h2s : ∀ key ∈ s.issued, s.effects.filterMap (h2For key) = (s.progress key).h2s key.2
  unissued : ∀ key, key ∉ s.issued → s.effects.filterMap (h2For key) = [] ∧ s.worker.chunkCache key = none
  posted : ∀ key ∈ s.issued, ∀ candidate, (s.progress key).solution key.2 = some candidate →
    .postSolution candidate ∈ s.effects
  sizes : ∀ partition, s.worker.chunkCacheSize partition = ∑ key ∈ s.issued, (s.progress key).held partition
  settled : ∀ key ∈ s.issued, s.Settled key →
    s.worker.chunkCache key = none ∧ ∀ partition, (s.progress key).held partition = 0
  answered : ∀ which key, s.isRead which key → ∀ chunk, (s.step recallRangeSize (.chunkRead which key chunk)).isSome ∧
    (s.step recallRangeSize (.chunkSkipped which key)).isSome
  hashed : ∀ key ∈ s.issued, ∀ chunk1, (s.progress key).first = .hashing chunk1 →
    ∀ h1, (s.step recallRangeSize (.h1Computed key h1)).isSome
  handles : ∀ task, s.worker.next = some task → task.type.half ≠ none →
    ∀ answers, (s.step recallRangeSize (.handleTask answers)).isSome

lemma System.Own.paired (hs : s.Own) : s.Paired recallRangeSize := by
  have hcurrent : ∀ key ∈ s.issued, (s.progress key).epoch = s.epoch := fun key hkey => (hs.nonces key hkey).epoch_eq
  refine ⟨fun key hkey => ?_, fun key hkey => ?_, hs.sound.posted, fun partition => ?_, fun key hkey hsettled => ?_,
    fun which key hread chunk => hs.answered hread chunk, fun key hkey chunk1 hfirst h1 => ?_,
    fun task hnext hhalf answers => hs.handles hnext hhalf answers⟩
  · exact hs.sound.accounted.h2s key hkey (hcurrent key hkey)
  · exact ⟨hs.sound.accounted.fresh key hkey, hs.sound.accounted.unused key hkey⟩
  · rw [hs.sound.accounted.sizes, System.held]
    exact Finset.sum_congr rfl fun key hkey => if_pos (hcurrent key hkey)
  · obtain ⟨hcontent, hheld⟩ := hs.of_settled hkey hsettled
    exact ⟨(hs.sound.accounted.cache key hkey (hcurrent key hkey)).trans hcontent, hheld⟩
  · have hmessage : s.message (.h1Computed key h1) = if key ∈ s.issued then some (.addTask ⟨.computed_h1,
        { (s.progress key).candidate with nonce := key.2, chunk1 := some chunk1, h1 := some h1 }⟩) else none := by
      simp only [System.message, hfirst]
    exact step_isSome (hmessage.trans (if_pos hkey)) (addTask_isSome _ _)

/-- In a session of a node without peers, from its beginning and in whatever order the events come, the chunks of every
nonce are paired. -/
theorem chunks_paired {w : Worker Session Peer} {sessionKey : Session} {seed : Bytes}
    {r : Worker Session Peer × List (Effect Session Peer)} {candidate : Candidate Session Peer} {ops : List (Op Session Peer)}
    (hsession : handleCast recallRangeSize w (.newSession sessionKey seed) = some r) (hops : ∀ op ∈ ops, op.Ordinary)
    (hrun : ops.foldlM (System.step recallRangeSize) (System.start r.1 candidate) = some s) : s.Paired recallRangeSize := by
  cases hsession
  refine System.Own.paired (foldlM_preserves (P := System.Own) ?_ (fun s op s' hop hs hstep => hs.step (hops op hop) hstep) hrun)
  refine ⟨System.Sound.start rfl rfl rfl candidate, fun key hkey => ?_, fun e he => ?_⟩
  · cases hkey
  · cases he

end Runs

/-- The second chunk comes before the first hash. -/
def pairingOps : List (Op Nat Unit) :=
  [.submit ⟨.computed_h0, sampleCandidate⟩, .handleTask sampleAnswers, .chunkRead .chunk1 (sampleKey 1) [1],
    .chunkRead .chunk2 (sampleKey 1) [2], .handleTask sampleAnswers, .handleTask sampleAnswers,
    .h1Computed (sampleKey 1) [0], .handleTask sampleAnswers]

theorem chunks_paired_sample : ∃ r s, handleCast dataChunkSize ({} : Worker Nat Unit) (.newSession 1 []) = some r ∧
    pairingOps.foldlM (System.step dataChunkSize) (System.start r.1 sampleCandidate) = some s ∧ s.Paired dataChunkSize := by
  have hrun : ((handleCast dataChunkSize ({} : Worker Nat Unit) (.newSession 1 [])).bind fun r =>
      pairingOps.foldlM (System.step dataChunkSize) (System.start r.1 sampleCandidate)).isSome := by decide
  obtain ⟨s, hs⟩ := Option.isSome_iff_exists.mp hrun
  obtain ⟨r, hr, hs⟩ := Option.bind_eq_some_iff.mp hs
  refine ⟨r, s, hr, hs, chunks_paired hr (fun op hop => ?_) hs⟩
  simp only [pairingOps, List.mem_cons, List.not_mem_nil, or_false] at hop
  obtain rfl | rfl | rfl | rfl | rfl | rfl | rfl | rfl := hop <;> first | trivial | exact TaskType.noConfusion

end Arweave.Mining

import Arweave.Mining.Sessions

/-!
# The task queue of mining

The tasks in the queue of a worker are those that the halves of nonces wait for. When one is handled, the slot of
its nonce is moved, unless the nonce is one of an earlier epoch, whose slot is empty.
-/

namespace Arweave.Mining

open Lib

section Queue

variable {Session Peer : Type} {s s' : System Session Peer} {task : Task Session Peer} {key : CacheKey}
  {which : Which} {p' : Progress Session Peer}

/-- The half of a nonce that a task is about. -/
def TaskType.half : TaskType → Option Which
  | .chunk1 => some .chunk1
  | .computed_h1 => some .chunk1
  | .chunk2 => some .chunk2
  | _ => none

/-- The task in the queue that a half of a nonce waits for. -/
def Progress.awaits (p : Progress Session Peer) (nonce : Option Nat) : Which → Option (Task Session Peer)
  | .chunk1 => match p.first with
    | .queued chunk1 => some ⟨.chunk1, { p.candidate with nonce := nonce, chunk1 := some chunk1 }⟩
    | .hashQueued chunk1 h1 =>
      some ⟨.computed_h1, { p.candidate with nonce := nonce, chunk1 := some chunk1, h1 := some h1 }⟩
    | _ => none
  | .chunk2 => match p.second with
    | .queued chunk2 => some ⟨.chunk2, { p.candidate with nonce := nonce, chunk2 := some chunk2 }⟩
    | _ => none

/-- The tasks about the halves of nonces are those that the halves of nonces wait for. -/
structure System.Queued (s : System Session Peer) : Prop where
  awaited : ∀ e ∈ s.worker.taskQueue.entries, ∀ which, e.2.type.half = some which →
    ∃ key ∈ s.issued, (s.progress key).awaits key.2 which = some e.2
  tasks : ∀ key ∈ s.issued, (s.progress key).epoch = s.epoch → ∀ which task,
    (s.progress key).awaits key.2 which = some task → ∃ e ∈ s.worker.taskQueue.entries, e.2 = task
  distinct : ∀ e ∈ s.worker.taskQueue.entries, ∀ e' ∈ s.worker.taskQueue.entries, e.2.type.half ≠ none → e.2 = e'.2 → e = e'
  refs : ∀ e ∈ s.worker.taskQueue.entries, (ofLex e.1).2 < s.worker.nextRef

lemma awaits_half {p : Progress Session Peer} {nonce : Option Nat} (h : p.awaits nonce which = some task) :
    task.type.half = some which := by
  unfold Progress.awaits at h
  split at h <;> split at h <;> cases h <;> rfl

lemma awaits_candidate {p : Progress Session Peer} {nonce : Option Nat} (h : p.awaits nonce which = some task) :
    task.candidate.cacheRef = p.candidate.cacheRef ∧ task.candidate.nonce = nonce ∧
      task.candidate.sessionKey = p.candidate.sessionKey := by
  unfold Progress.awaits at h
  split at h <;> split at h <;> cases h <;> exact ⟨rfl, rfl, rfl⟩

lemma System.Accounted.awaits_inj {key' : CacheKey} {which' : Which} (hs : s.Accounted) (hkey : key ∈ s.issued)
    (hkey' : key' ∈ s.issued) (h : (s.progress key).awaits key.2 which = some task)
    (h' : (s.progress key').awaits key'.2 which' = some task) : key = key' ∧ which = which' := by
  obtain ⟨href, hnonce, -⟩ := awaits_candidate h
  obtain ⟨href', hnonce', -⟩ := awaits_candidate h'
  rw [hs.candidates key hkey] at href
  rw [hs.candidates key' hkey'] at href'
  exact ⟨Prod.ext (Option.some.inj (href.symm.trans href')) (hnonce.symm.trans hnonce'),
    Option.some.inj ((awaits_half h).symm.trans (awaits_half h'))⟩

lemma System.Queued.of_same (hs : s.Queued) (hissued : s'.issued = s.issued) (hepoch : s'.epoch = s.epoch)
    (hepochs : ∀ key, (s'.progress key).epoch = (s.progress key).epoch)
    (hawaits : ∀ key, (s'.progress key).awaits key.2 = (s.progress key).awaits key.2)
    (hqueue : s'.worker.taskQueue = s.worker.taskQueue) (hrefs : s.worker.nextRef ≤ s'.worker.nextRef) : s'.Queued := by
  refine ⟨fun e he which hhalf => ?_, fun key hkey hcurrent which task htask => ?_, fun e he e' he' => ?_, fun e he => ?_⟩
  · rw [hqueue] at he
    rw [hissued]
    obtain ⟨key, hkey, htask⟩ := hs.awaited e he which hhalf
    exact ⟨key, hkey, by rw [hawaits]; exact htask⟩
  · rw [hqueue]
    rw [hawaits] at htask
    exact hs.tasks key (hissued ▸ hkey) (by rw [← hepochs, hcurrent, hepoch]) which task htask
  · rw [hqueue] at he he'
    exact hs.distinct e he e' he'
  · rw [hqueue] at he
    exact (hs.refs e he).trans_le hrefs

/-- A task comes into the queue that no other task is equal to, unless no nonce waits for it. -/
lemma System.Queued.of_insert (hs : s.Queued) (hissued : s'.issued = s.issued) (hepoch : s'.epoch = s.epoch)
    (hepochs : ∀ key, (s'.progress key).epoch = (s.progress key).epoch) {p : Nat ×ₗ Int}
    (hqueue : s'.worker.taskQueue = s.worker.taskQueue.insert (toLex (p, s.worker.nextRef)) task)
    (hrefs : s'.worker.nextRef = s.worker.nextRef + 1)
    (hold : ∀ key ∈ s.issued, ∀ which task', (s.progress key).awaits key.2 which = some task' →
      (s'.progress key).awaits key.2 which = some task')
    (hnew : ∀ key ∈ s.issued, ∀ which task', (s'.progress key).awaits key.2 which = some task' →
      task' = task ∨ (s.progress key).awaits key.2 which = some task')
    (htask : ∀ which, task.type.half = some which → ∃ key ∈ s.issued, (s'.progress key).awaits key.2 which = some task)
    (hfresh : task.type.half ≠ none → ∀ e ∈ s.worker.taskQueue.entries, e.2 ≠ task) : s'.Queued := by
  have hmem : ∀ e, e ∈ s'.worker.taskQueue.entries ↔
      e = (toLex (p, s.worker.nextRef), task) ∨ e ∈ s.worker.taskQueue.entries := by
    intro e
    rw [hqueue, SortedMap.mem_insert]
    refine or_congr_right ⟨fun h => h.2, fun h => ⟨fun heq => ?_, h⟩⟩
    have hlt := hs.refs e h
    rw [heq] at hlt
    exact lt_irrefl _ hlt
  refine ⟨fun e he which hhalf => ?_, fun key hkey hcurrent which task' htask' => ?_, fun e he e' he' hhalf heq => ?_,
    fun e he => ?_⟩
  · rw [hissued]
    obtain rfl | he := (hmem e).mp he
    · exact htask which hhalf
    · obtain ⟨key, hkey, htask⟩ := hs.awaited e he which hhalf
      exact ⟨key, hkey, hold key hkey which _ htask⟩
  · rw [hissued] at hkey
    obtain rfl | htask' := hnew key hkey which task' htask'
    · exact ⟨_, (hmem _).mpr (Or.inl rfl), rfl⟩
    · obtain ⟨e, he, heq⟩ := hs.tasks key hkey (by rw [← hepochs, hcurrent, hepoch]) which task' htask'
      exact ⟨e, (hmem e).mpr (Or.inr he), heq⟩
  · obtain rfl | he := (hmem e).mp he <;> obtain rfl | he' := (hmem e').mp he'
    · rfl
    · exact (hfresh hhalf e' he' heq.symm).elim
    · exact (hfresh (fun h => hhalf (by rw [heq]; exact h)) e he heq).elim
    · exact hs.distinct e he e' he' hhalf heq
  · obtain rfl | he := (hmem e).mp he
    · exact hrefs ▸ Nat.lt_succ_self _
    · exact hrefs ▸ (hs.refs e he).trans (Nat.lt_succ_self _)

lemma System.Queued.of_erase (hs : s.Queued) {e : TaskKey × Task Session Peer} (he : e ∈ s.worker.taskQueue.entries)
    (hissued : s.issued ⊆ s'.issued) (hepoch : s'.epoch = s.epoch)
    (hepochs : ∀ key ∈ s.issued, (s'.progress key).epoch = (s.progress key).epoch)
    (hqueue : s'.worker.taskQueue = s.worker.taskQueue.erase e.1) (hrefs : s.worker.nextRef ≤ s'.worker.nextRef)
    (hnew : ∀ key ∈ s'.issued, key ∉ s.issued → ∀ which, (s'.progress key).awaits key.2 which = none)
    (hself : ∀ key ∈ s.issued, ∀ which, (s.progress key).awaits key.2 which = some e.2 →
      (s'.progress key).awaits key.2 which = none)
    (hother : ∀ key ∈ s.issued, ∀ which, (s.progress key).awaits key.2 which ≠ some e.2 →
      (s'.progress key).awaits key.2 which = (s.progress key).awaits key.2 which) : s'.Queued := by
  have hmem : ∀ e', e' ∈ s'.worker.taskQueue.entries ↔ e'.1 ≠ e.1 ∧ e' ∈ s.worker.taskQueue.entries := fun e' => by
    rw [hqueue, SortedMap.mem_erase]
  refine ⟨fun e' he' which hhalf => ?_, fun key hkey hcurrent which task htask => ?_,
    fun e' he' e'' he'' hhalf heq => ?_, fun e' he' => ?_⟩
  · obtain ⟨hne, he'⟩ := (hmem e').mp he'
    obtain ⟨key, hkey, htask⟩ := hs.awaited e' he' which hhalf
    refine ⟨key, hissued hkey, ?_⟩
    rw [hother key hkey which, htask]
    rw [htask]
    intro heq
    exact hne (congrArg Prod.fst (hs.distinct e' he' e he (by rw [hhalf]; exact Option.some_ne_none _) (Option.some.inj heq)))
  · by_cases hold : key ∈ s.issued
    · have hne : (s.progress key).awaits key.2 which ≠ some e.2 := fun h => by
        rw [hself key hold which h] at htask
        cases htask
      rw [hother key hold which hne] at htask
      obtain ⟨e', he', heq⟩ := hs.tasks key hold (by rw [← hepochs key hold, hcurrent, hepoch]) which task htask
      refine ⟨e', (hmem e').mpr ⟨fun hfst => hne ?_, he'⟩, heq⟩
      rw [htask, ← heq, SortedMap.eq_of_mem_of_fst_eq s.worker.taskQueue.sorted he' he hfst]
    · rw [hnew key hkey hold] at htask
      cases htask
  · exact hs.distinct e' ((hmem e').mp he').2 e'' ((hmem e'').mp he'').2 hhalf heq
  · exact (hs.refs e' ((hmem e').mp he').2).trans_le hrefs

lemma System.Queued.of_issued (hs : s.Queued) (hissued : s.issued ⊆ s'.issued) (hepoch : s'.epoch = s.epoch)
    (hprogress : ∀ key ∈ s.issued, s'.progress key = s.progress key)
    (hnew : ∀ key ∈ s'.issued, key ∉ s.issued → ∀ which, (s'.progress key).awaits key.2 which = none)
    (hqueue : s'.worker.taskQueue = s.worker.taskQueue) (hrefs : s.worker.nextRef ≤ s'.worker.nextRef) : s'.Queued := by
  refine ⟨fun e he which hhalf => ?_, fun key hkey hcurrent which task htask => ?_, fun e he e' he' => ?_, fun e he => ?_⟩
  · rw [hqueue] at he
    obtain ⟨key, hkey, htask⟩ := hs.awaited e he which hhalf
    exact ⟨key, hissued hkey, by rw [hprogress key hkey]; exact htask⟩
  · rw [hqueue]
    by_cases hold : key ∈ s.issued
    · rw [hprogress key hold] at hcurrent htask
      exact hs.tasks key hold (hcurrent.trans hepoch) which task htask
    · rw [hnew key hkey hold] at htask
      cases htask
  · rw [hqueue] at he he'
    exact hs.distinct e he e' he'
  · rw [hqueue] at he
    exact (hs.refs e he).trans_le hrefs

lemma System.Queued.of_reset (hqueue : s'.worker.taskQueue = SortedMap.empty)
    (hold : ∀ key ∈ s'.issued, (s'.progress key).epoch ≠ s'.epoch) : s'.Queued := by
  refine ⟨fun e he => ?_, fun key hkey hcurrent => (hold key hkey hcurrent).elim, fun e he => ?_, fun e he => ?_⟩ <;>
    · rw [hqueue] at he
      cases he

/-- The solution of a first hash. -/
def Progress.solution (p : Progress Session Peer) (nonce : Option Nat) : Option (Candidate Session Peer) :=
  match p.first with
  | .solved chunk1 h1 => some { p.candidate with nonce := nonce, chunk1 := some chunk1, h1 := some h1 }
  | _ => none

structure System.Sound (s : System Session Peer) : Prop where
  accounted : s.Accounted
  queued : s.Queued
  posted : ∀ key ∈ s.issued, ∀ candidate, (s.progress key).solution key.2 = some candidate →
    .postSolution candidate ∈ s.effects

lemma System.Queued.of_update (hs : s.Queued) (key : CacheKey) (p' : Progress Session Peer) (hissued : s'.issued = s.issued) (hepoch : s'.epoch = s.epoch)
    (hprogress : s'.progress = Function.update s.progress key p') (hepoch' : p'.epoch = (s.progress key).epoch)
    (hawaits : p'.awaits key.2 = (s.progress key).awaits key.2) (hqueue : s'.worker.taskQueue = s.worker.taskQueue)
    (hrefs : s.worker.nextRef ≤ s'.worker.nextRef) : s'.Queued := by
  refine hs.of_same hissued hepoch (fun key' => ?_) (fun key' => ?_) hqueue hrefs <;>
    · by_cases heq : key' = key
      · simp [hprogress, heq, hepoch', hawaits]
      · simp [hprogress, heq]

lemma System.Queued.of_handled (hs : s.Queued) (p' : Progress Session Peer) (haccounted : s.Accounted) {e : TaskKey × Task Session Peer}
    (he : e ∈ s.worker.taskQueue.entries) (hkey : key ∈ s.issued) (hwhich : (s.progress key).awaits key.2 which = some e.2)
    (hissued : s'.issued = s.issued) (hepoch : s'.epoch = s.epoch) (hprogress : s'.progress = Function.update s.progress key p')
    (hepoch' : p'.epoch = (s.progress key).epoch) (hself : p'.awaits key.2 which = none)
    (hother : ∀ which', which' ≠ which → p'.awaits key.2 which' = (s.progress key).awaits key.2 which')
    (hqueue : s'.worker.taskQueue = s.worker.taskQueue.erase e.1) (hrefs : s.worker.nextRef ≤ s'.worker.nextRef) : s'.Queued := by
  refine hs.of_erase he hissued.ge hepoch (fun key' _ => ?_) hqueue hrefs (fun key' hkey' h => (h (hissued ▸ hkey')).elim)
    (fun key' hkey' which' htask => ?_) (fun key' hkey' which' htask => ?_)
  · by_cases heq : key' = key
    · rw [hprogress, heq, Function.update_self, hepoch']
    · rw [hprogress, Function.update_of_ne heq]
  · obtain ⟨rfl, rfl⟩ := haccounted.awaits_inj hkey' hkey htask hwhich
    rw [hprogress, Function.update_self, hself]
  · by_cases heq : key' = key
    · subst heq
      have hne : which' ≠ which := by
        rintro rfl
        exact htask hwhich
      rw [hprogress, Function.update_self, hother which' hne]
    · rw [hprogress, Function.update_of_ne heq]

lemma System.Sound.of_same (hs : s.Sound) (hissued : s'.issued = s.issued) (hepoch : s'.epoch = s.epoch)
    (hprogress : s'.progress = s.progress) (hcache : s'.worker.chunkCache = s.worker.chunkCache)
    (hsizes : s'.worker.chunkCacheSize = s.worker.chunkCacheSize) (hsession : s'.worker.sessionKey = s.worker.sessionKey)
    (hqueued : s'.Queued) (hrefs : s.worker.nextRef ≤ s'.worker.nextRef) {effects : List (Effect Session Peer)}
    (heffects : s'.effects = s.effects ++ effects) (hnone : ∀ key, effects.filterMap (h2For key) = []) : s'.Sound := by
  refine ⟨hs.accounted.of_same hissued hepoch (hprogress ▸ SamePhases.refl _) hcache hsizes hsession hrefs fun key => ?_,
    hqueued, fun key hkey candidate hcandidate => ?_⟩
  · rw [heffects, List.filterMap_append, hnone, List.append_nil]
  · rw [hprogress] at hcandidate
    rw [heffects]
    exact List.mem_append_left _ (hs.posted key (hissued ▸ hkey) candidate hcandidate)

lemma System.Sound.of_follows (hs : s.Accounted) (hposted : ∀ key ∈ s.issued, ∀ candidate,
      (s.progress key).solution key.2 = some candidate → .postSolution candidate ∈ s.effects) (hkey : key ∈ s.issued)
    (hepoch : (s.progress key).epoch = s.epoch) {w' : Worker Session Peer} {effects : List (Effect Session Peer)}
    (hfollows : Follows key (s.progress key) p' s.worker w' effects)
    (hcandidate' : p'.candidate = (s.progress key).candidate) (hepoch' : p'.epoch = (s.progress key).epoch)
    (hs' : s' = { s with worker := w', progress := Function.update s.progress key p', effects := s.effects ++ effects })
    (hqueued : s'.Queued)
    (hsolution : ∀ candidate, p'.solution key.2 = some candidate →
      (s.progress key).solution key.2 = some candidate ∨ .postSolution candidate ∈ effects) : s'.Sound := by
  refine ⟨hs.of_follows hkey hepoch hcandidate' hepoch' hfollows hs', hqueued, ?_⟩
  intro key' hkey' candidate hcandidate
  rw [hs'] at hkey' hcandidate ⊢
  dsimp only at hcandidate
  by_cases heq : key' = key
  · subst heq
    rw [Function.update_self] at hcandidate
    obtain hold | hnew := hsolution candidate hcandidate
    · exact List.mem_append_left _ (hposted key' hkey' candidate hold)
    · exact List.mem_append_right _ hnew
  · rw [Function.update_of_ne heq] at hcandidate
    exact List.mem_append_left _ (hposted key' hkey' candidate hcandidate)

lemma System.Sound.of_reset (hs : s.Sound) (hissued : s'.issued = s.issued) (hepoch : s'.epoch = s.epoch + 1)
    (hprogress : s'.progress = s.progress) (hqueue : s'.worker.taskQueue = SortedMap.empty)
    (hcache : s'.worker.chunkCache = fun _ => none) (hsizes : s'.worker.chunkCacheSize = fun _ => 0)
    (hrefs : s'.worker.nextRef = s.worker.nextRef) {effects : List (Effect Session Peer)}
    (heffects : s'.effects = s.effects ++ effects) (hnone : ∀ key, effects.filterMap (h2For key) = []) : s'.Sound := by
  refine ⟨hs.accounted.of_reset hissued hepoch hprogress hcache hsizes hrefs fun key => ?_,
    System.Queued.of_reset hqueue fun key hkey => ?_, fun key hkey candidate hcandidate => ?_⟩
  · rw [heffects, List.filterMap_append, hnone, List.append_nil]
  · have hle := hs.accounted.epochs key (hissued ▸ hkey)
    rw [hprogress, hepoch]
    omega
  · rw [hprogress] at hcandidate
    rw [heffects]
    exact List.mem_append_left _ (hs.posted key (hissued ▸ hkey) candidate hcandidate)

end Queue

section Handling

variable {Session Peer : Type} {recallRangeSize : Nat} {s s' : System Session Peer} {answers : Answers}
  {e : TaskKey × Task Session Peer} {key : CacheKey} {r : Worker Session Peer × List (Effect Session Peer)}

/-- A first chunk is sent to the hashing threads. -/
lemma System.Sound.handleChunk1 {chunk1 : Bytes} (hs : s.Sound) (he : e ∈ s.worker.taskQueue.entries)
    (hkey : key ∈ s.issued) (hfirst : (s.progress key).first = .queued chunk1)
    (htask : (s.progress key).awaits key.2 .chunk1 = some e.2)
    (hr : handleTask recallRangeSize answers e.2 { s.worker with taskQueue := s.worker.taskQueue.erase e.1 } = some r)
    (hs' : s' = { s.handled recallRangeSize e.2 r.2 with worker := r.1, effects := s.effects ++ r.2 }) : s'.Sound := by
  have htask' : e.2 = ⟨.chunk1, { (s.progress key).candidate with nonce := key.2, chunk1 := some chunk1 }⟩ := by
    rw [Progress.awaits, hfirst] at htask
    exact (Option.some.inj htask).symm
  have hprogress : s'.progress = s.setFirst key (.hashing chunk1) := by
    simp only [hs', htask', System.handled, hs.accounted.candidates key hkey]
  rw [htask'] at hr
  cases hr
  have hissued : s'.issued = s.issued := by
    simp only [hs', htask', System.handled, hs.accounted.candidates key hkey]
  have hepoch : s'.epoch = s.epoch := by
    simp only [hs', htask', System.handled, hs.accounted.candidates key hkey]
  refine ⟨hs.accounted.of_same hissued hepoch ?_ (by rw [hs']) (by rw [hs']) (by rw [hs']) (by rw [hs']) (fun key' => ?_), ?_,
    fun key' hkey' candidate hcandidate => ?_⟩
  · rw [hprogress]
    exact samePhases_setFirst (by rw [hfirst]; rfl)
  · rw [hs', List.filterMap_append]
    exact List.append_nil _
  · refine hs.queued.of_handled { s.progress key with first := .hashing chunk1 } hs.accounted he hkey htask hissued hepoch
      hprogress rfl rfl (fun which' hne => ?_) (by rw [hs'])
      (by rw [hs'])
    cases which' with
    | chunk1 => exact (hne rfl).elim
    | chunk2 => rfl
  · rw [hs']
    refine List.mem_append_left _ (hs.posted key' (hissued ▸ hkey') candidate ?_)
    rw [hprogress, System.setFirst] at hcandidate
    by_cases heq : key' = key
    · rw [heq, Function.update_self] at hcandidate
      cases hcandidate
    · rwa [Function.update_of_ne heq] at hcandidate

lemma System.Sound.handleChunk2 {chunk2 : Bytes} (hs : s.Sound) (he : e ∈ s.worker.taskQueue.entries)
    (hkey : key ∈ s.issued) (hsecond : (s.progress key).second = .queued chunk2)
    (htask : (s.progress key).awaits key.2 .chunk2 = some e.2)
    (hundisturbed : (s.progress key).epoch = s.epoch ∨ s.worker.chunkCache key = none)
    (hr : handleTask recallRangeSize answers e.2 { s.worker with taskQueue := s.worker.taskQueue.erase e.1 } = some r)
    (hs' : s' = { s.handled recallRangeSize e.2 r.2 with worker := r.1, effects := s.effects ++ r.2 }) : s'.Sound := by
  have htask' : e.2 = ⟨.chunk2, { (s.progress key).candidate with nonce := key.2, chunk2 := some chunk2 }⟩ := by
    rw [Progress.awaits, hsecond] at htask
    exact (Option.some.inj htask).symm
  have hs'' : s' = { s with worker := r.1, progress := s.setSecond key (.read chunk2), effects := s.effects ++ r.2 } := by
    simp only [hs', htask', System.handled, hs.accounted.candidates key hkey]
  rw [htask'] at hr
  have hissued : s'.issued = s.issued := by rw [hs'']
  have hepoch : s'.epoch = s.epoch := by rw [hs'']
  have haccounted : ({ s with worker := { s.worker with taskQueue := s.worker.taskQueue.erase e.1 } } : System Session Peer).Accounted :=
    hs.accounted.of_same rfl rfl (SamePhases.refl _) rfl rfl rfl le_rfl fun _ => rfl
  have hqueued : r.1.taskQueue = s.worker.taskQueue.erase e.1 → r.1.nextRef = s.worker.nextRef → s'.Queued := by
    intro hqueue hrefs
    refine hs.queued.of_handled { s.progress key with second := .read chunk2 } hs.accounted he hkey htask hissued hepoch
      (by rw [hs'', System.setSecond]) rfl rfl (fun which' hne => ?_) (by rw [hs'', hqueue]) (by rw [hs'', hrefs])
    cases which' with
    | chunk1 => rfl
    | chunk2 => exact (hne rfl).elim
  by_cases hcurrent : (s.progress key).epoch = s.epoch
  · obtain ⟨r', hr', hfollows⟩ := handleChunk2_follows { s.progress key with second := .read chunk2 }
      (haccounted.cache key hkey hcurrent) (hs.accounted.candidates key hkey) (by rw [hsecond]; rfl) rfl rfl rfl
    obtain rfl : r' = r := Option.some.inj (hr'.symm.trans hr)
    exact .of_follows haccounted hs.posted hkey hcurrent hfollows rfl rfl hs'' (hqueued hfollows.queue hfollows.ref)
      fun candidate hcandidate => Or.inl hcandidate
  · have hempty := hundisturbed.resolve_left hcurrent
    simp only [handleTask, Mining.handleChunk2, cycleChunkCache, hs.accounted.candidates key hkey, Option.bind_eq_bind,
      Option.bind_some, hempty] at hr
    cases hr
    refine ⟨haccounted.of_stale { s.progress key with second := .read chunk2 } { s.worker with
        taskQueue := s.worker.taskQueue.erase e.1
        chunkCache := Function.update s.worker.chunkCache key (some (.chunk2 (some chunk2))) }
      hkey hcurrent rfl rfl rfl rfl rfl rfl (by rw [hs'', List.append_nil]; rfl), hqueued rfl rfl,
      fun key' hkey' candidate hcandidate => ?_⟩
    rw [hs'', List.append_nil] at hkey' hcandidate ⊢
    refine hs.posted key' hkey' candidate ?_
    dsimp only [System.setSecond] at hcandidate
    by_cases heq : key' = key
    · rw [heq, Function.update_self] at hcandidate
      rw [heq]
      exact hcandidate
    · rwa [Function.update_of_ne heq] at hcandidate

lemma System.Sound.handleComputedH1 {chunk1 h1 : Bytes} (hs : s.Sound) (he : e ∈ s.worker.taskQueue.entries)
    (hkey : key ∈ s.issued) (hfirst : (s.progress key).first = .hashQueued chunk1 h1)
    (htask : (s.progress key).awaits key.2 .chunk1 = some e.2)
    (hundisturbed : (s.progress key).epoch = s.epoch ∨ s.worker.chunkCache key = none ∧
      (Bytes.toNat h1 : WithTop Nat) ≤ s.worker.diff)
    (hr : handleTask recallRangeSize answers e.2 { s.worker with taskQueue := s.worker.taskQueue.erase e.1 } = some r)
    (hs' : s' = { s.handled recallRangeSize e.2 r.2 with worker := r.1, effects := s.effects ++ r.2 }) : s'.Sound := by
  have htask' : e.2 = ⟨.computed_h1,
      { (s.progress key).candidate with nonce := key.2, chunk1 := some chunk1, h1 := some h1 }⟩ := by
    rw [Progress.awaits, hfirst] at htask
    exact (Option.some.inj htask).symm
  have hs'' : s' = { s with
      worker := r.1
      progress := s.setFirst key
        (if s.worker.diff < (Bytes.toNat h1 : WithTop Nat) then .solved chunk1 h1 else .hashed chunk1 h1)
      effects := s.effects ++ r.2 } := by
    simp only [hs', htask', System.handled, hs.accounted.candidates key hkey]
  rw [htask'] at hr
  have hissued : s'.issued = s.issued := by rw [hs'']
  have hepoch : s'.epoch = s.epoch := by rw [hs'']
  have haccounted : ({ s with worker := { s.worker with taskQueue := s.worker.taskQueue.erase e.1 } } : System Session Peer).Accounted :=
    hs.accounted.of_same rfl rfl (SamePhases.refl _) rfl rfl rfl le_rfl fun _ => rfl
  have hqueued : r.1.taskQueue = s.worker.taskQueue.erase e.1 → r.1.nextRef = s.worker.nextRef → s'.Queued := by
    intro hqueue hrefs
    refine hs.queued.of_handled { s.progress key with
        first := if s.worker.diff < (Bytes.toNat h1 : WithTop Nat) then .solved chunk1 h1 else .hashed chunk1 h1 }
      hs.accounted he hkey htask hissued hepoch (by rw [hs'', System.setFirst]) rfl ?_ (fun which' hne => ?_)
      (by rw [hs'', hqueue]) (by rw [hs'', hrefs])
    · rw [Progress.awaits]
      split_ifs <;> rfl
    · cases which' with
      | chunk1 => exact (hne rfl).elim
      | chunk2 => rfl
  by_cases hcurrent : (s.progress key).epoch = s.epoch
  · obtain ⟨r', hr', hfollows, hposts⟩ := handleComputedH1_follows answers { s.progress key with
        first := if s.worker.diff < (Bytes.toNat h1 : WithTop Nat) then .solved chunk1 h1 else .hashed chunk1 h1 }
      (haccounted.cache key hkey hcurrent) (hs.accounted.candidates key hkey) (by rw [hfirst]; rfl) rfl
      (First.phase_hashed _ chunk1 h1) rfl
    obtain rfl : r' = r := Option.some.inj (hr'.symm.trans hr)
    refine .of_follows haccounted hs.posted hkey hcurrent hfollows rfl rfl hs'' (hqueued hfollows.queue hfollows.ref)
      fun candidate hcandidate => Or.inr ?_
    simp only [Progress.solution] at hcandidate
    by_cases hsolution : s.worker.diff < (Bytes.toNat h1 : WithTop Nat)
    · rw [if_pos hsolution] at hcandidate
      cases hcandidate
      exact hposts hsolution
    · rw [if_neg hsolution] at hcandidate
      cases hcandidate
  · obtain ⟨hempty, hdiff⟩ := hundisturbed.resolve_left hcurrent
    simp only [handleTask, Mining.handleComputedH1, cycleChunkCache, hs.accounted.candidates key hkey, Option.bind_eq_bind,
      Option.bind_some, hempty, if_neg hdiff.not_gt] at hr
    cases hr
    rw [if_neg hdiff.not_gt] at hs''
    refine ⟨haccounted.of_stale { s.progress key with first := .hashed chunk1 h1 } { s.worker with
        taskQueue := s.worker.taskQueue.erase e.1
        chunkCache := Function.update s.worker.chunkCache key (some (.chunk1 (some chunk1) (some h1))) }
      hkey hcurrent rfl rfl rfl rfl rfl rfl (by rw [hs'', List.append_nil]; rfl), hqueued rfl rfl,
      fun key' hkey' candidate hcandidate => ?_⟩
    rw [hs'', List.append_nil] at hkey' hcandidate ⊢
    refine hs.posted key' hkey' candidate ?_
    dsimp only [System.setFirst] at hcandidate
    by_cases heq : key' = key
    · rw [heq, Function.update_self] at hcandidate
      cases hcandidate
    · rwa [Function.update_of_ne heq] at hcandidate

lemma issueProgress_first (recallRangeSize epoch : Nat) (candidate : Candidate Session Peer) (h1List : List (Bytes × Nat)) (own stored : Bool)
    (nonce : Option Nat) : (issueProgress recallRangeSize epoch candidate h1List own stored nonce).first = .reading ∧ own = true ∨
      (∃ h1, (issueProgress recallRangeSize epoch candidate h1List own stored nonce).first = .given h1) ∨
      (issueProgress recallRangeSize epoch candidate h1List own stored nonce).first = .absent := by
  cases own with
  | true => exact Or.inl ⟨rfl, rfl⟩
  | false =>
    simp only [issueProgress, Bool.false_eq_true, if_false]
    split
    · exact Or.inr (Or.inl ⟨_, rfl⟩)
    · exact Or.inr (Or.inr rfl)

lemma issueProgress_awaits (recallRangeSize epoch : Nat) (candidate : Candidate Session Peer) (h1List : List (Bytes × Nat)) (own stored : Bool)
    (nonce : Option Nat) (which : Which) :
    (issueProgress recallRangeSize epoch candidate h1List own stored nonce).awaits nonce which = none := by
  cases which with
  | chunk1 =>
    obtain ⟨h, -⟩ | ⟨h1, h⟩ | h := issueProgress_first recallRangeSize epoch candidate h1List own stored nonce <;>
      rw [Progress.awaits, h]
  | chunk2 =>
    simp only [Progress.awaits, issueProgress]
    split_ifs <;> rfl

lemma issueProgress_solution (recallRangeSize epoch : Nat) (candidate : Candidate Session Peer) (h1List : List (Bytes × Nat)) (own stored : Bool)
    (nonce : Option Nat) :
    (issueProgress recallRangeSize epoch candidate h1List own stored nonce).solution nonce = none := by
  obtain ⟨h, -⟩ | ⟨h1, h⟩ | h := issueProgress_first recallRangeSize epoch candidate h1List own stored nonce <;>
    rw [Progress.solution, h]

/-- Chunks are asked for. -/
lemma System.Sound.of_issue {ref : CacheRef} {candidate : Candidate Session Peer} {h1List : List (Bytes × Nat)} {own stored : Bool}
    {w' : Worker Session Peer} {effects : List (Effect Session Peer)} (hs : s.Sound)
    (h : Issues recallRangeSize s.worker w' effects ref candidate h1List own stored)
    (hsession : s.worker.sessionKey = candidate.sessionKey)
    (hs' : s' = { s.issue recallRangeSize candidate h1List own stored with worker := w', effects := s.effects ++ effects }) :
    s'.Sound := by
  have hissued : s'.issued = s.issued ∪ (issueNonces recallRangeSize h1List).image fun nonce => (ref, nonce) := by
    simp only [hs', System.issue, h.named]
  have hprogress : ∀ key, s'.progress key = if key.1 = ref ∧ key.2 ∈ issueNonces recallRangeSize h1List then
      issueProgress recallRangeSize s.epoch candidate h1List own stored key.2 else s.progress key := by
    simp only [hs', System.issue, h.named, implies_true]
  have hold : ∀ key ∈ s.issued, s'.progress key = s.progress key := by
    intro key hkey
    rw [hprogress, if_neg]
    rintro ⟨rfl, -⟩
    exact (hs.accounted.refs key hkey).ne h.new
  have hnew : ∀ key ∈ s'.issued, key ∉ s.issued →
      s'.progress key = issueProgress recallRangeSize s.epoch candidate h1List own stored key.2 := by
    intro key hkey hnot
    rw [hissued, Finset.mem_union, Finset.mem_image] at hkey
    obtain ⟨nonce, hnonce, rfl⟩ := hkey.resolve_left hnot
    rw [hprogress, if_pos ⟨rfl, hnonce⟩]
  refine ⟨hs.accounted.of_issue h hsession rfl hs', ?_, fun key hkey candidate' hcandidate => ?_⟩
  · refine hs.queued.of_issued (by rw [hissued]; exact Finset.subset_union_left) (by simp only [hs', System.issue, h.named]) hold
      (fun key hkey hnot which => ?_) (by rw [hs']; exact h.queue) (by rw [hs']; exact h.refs.ge.trans' (Nat.le_succ _))
    rw [hnew key hkey hnot]
    exact issueProgress_awaits _ _ _ _ _ _ _ _
  · rw [hs']
    refine List.mem_append_left _ (hs.posted key ?_ candidate' ?_) <;> by_cases hkey' : key ∈ s.issued
    · exact hkey'
    · rw [hnew key hkey hkey', issueProgress_solution] at hcandidate
      cases hcandidate
    · rw [← hold key hkey']
      exact hcandidate
    · rw [hnew key hkey hkey', issueProgress_solution] at hcandidate
      cases hcandidate

lemma handleComputedH2_spec {candidate : Candidate Session Peer} {w : Worker Session Peer}
    (h : handleComputedH2 answers candidate w = some r) : r.1 = w ∧ ∀ key, r.2.filterMap (h2For key) = [] := by
  simp only [handleComputedH2, Option.bind_eq_bind, Option.bind_eq_some_iff] at h
  obtain ⟨h2, -, h⟩ := h
  split_ifs at h with hsolution
  · cases hpeer : candidate.cmLeadPeer with
    | none =>
      rw [hpeer] at h
      cases h
      exact ⟨rfl, fun _ => rfl⟩
    | some peer =>
      simp only [hpeer, Option.bind_eq_some_iff] at h
      obtain ⟨h0, -, nonce, -, range, -, h⟩ := h
      split at h <;> cases h <;> exact ⟨rfl, fun _ => rfl⟩
  · cases h
    exact ⟨rfl, fun _ => rfl⟩

/-- A task about no nonce is handled: chunks are asked for, or the nonces are as before. -/
lemma System.Sound.handleOther (hs : s.Sound) (he : e ∈ s.worker.taskQueue.entries) (hhalf : e.2.type.half = none)
    (hsession : s.worker.sessionKey = e.2.candidate.sessionKey)
    (hpeer : e.2.type = .compute_h2_for_peer → answers.rangeExists .chunk2 = true → (e.2.candidate.cmH1List.map (·.2)).Nodup)
    (hr : handleTask recallRangeSize answers e.2 { s.worker with taskQueue := s.worker.taskQueue.erase e.1 } = some r)
    (hs' : s' = { s.handled recallRangeSize e.2 r.2 with worker := r.1, effects := s.effects ++ r.2 }) : s'.Sound := by
  have hdequeued : ({ s with worker := { s.worker with taskQueue := s.worker.taskQueue.erase e.1 } } : System Session Peer).Sound := by
    refine hs.of_same rfl rfl rfl rfl rfl rfl ?_ le_rfl (List.append_nil _).symm fun _ => rfl
    refine hs.queued.of_erase he Finset.Subset.rfl rfl (fun _ _ => rfl) rfl le_rfl (fun key hkey h => (h hkey).elim)
      (fun key hkey which htask => ?_) fun _ _ _ _ => rfl
    have htype := awaits_half htask
    rw [hhalf] at htype
    cases htype
  -- what the nonces look like when nothing is asked for
  have hkeep : s.handled recallRangeSize e.2 r.2 = s → r.1.chunkCache = s.worker.chunkCache →
      r.1.chunkCacheSize = s.worker.chunkCacheSize → r.1.sessionKey = s.worker.sessionKey →
      r.1.taskQueue = s.worker.taskQueue.erase e.1 → s.worker.nextRef ≤ r.1.nextRef →
      (∀ key, r.2.filterMap (h2For key) = []) → s'.Sound := by
    intro hhandled hcache hsizes hsame hqueue hrefs hnone
    rw [hhandled] at hs'
    have hqueued : s'.Queued := by
      refine hdequeued.queued.of_same ?_ ?_ (fun key => ?_) (fun key => ?_) ?_ ?_ <;> rw [hs']
      · exact hqueue
      · exact hrefs
    exact hdequeued.of_same (by rw [hs']) (by rw [hs']) (by rw [hs']) (by rw [hs', hcache]) (by rw [hs', hsizes])
      (by rw [hs', hsame]) hqueued (by rw [hs']; exact hrefs) (by rw [hs']) hnone
  obtain ⟨k, type, candidate⟩ := e
  cases type with
  | chunk1 => cases hhalf
  | chunk2 => cases hhalf
  | computed_h1 => cases hhalf
  | compute_h0 =>
    cases hr
    exact hkeep rfl rfl rfl rfl rfl le_rfl fun _ => rfl
  | computed_h2 =>
    obtain ⟨hworker, hnone⟩ := handleComputedH2_spec hr
    exact hkeep rfl (by rw [hworker]) (by rw [hworker]) (by rw [hworker]) (by rw [hworker]) (by rw [hworker]) hnone
  | computed_h0 =>
    obtain ⟨hasked, ⟨ref, hle, hworker⟩, hnone⟩ | ⟨ref, candidate', hasked, hsame, hissues⟩ := handleComputedH0_cases hr
    · have hhandled : s.handled recallRangeSize ⟨.computed_h0, candidate⟩ r.2 = s := by simp only [System.handled, hasked]
      exact hkeep hhandled (by rw [hworker]) (by rw [hworker]) (by rw [hworker]) (by rw [hworker]) (by rw [hworker]; exact hle)
        hnone
    · refine hdequeued.of_issue hissues (hsession.trans hsame.symm) ?_
      simp only [hs', System.handled, hasked, System.issue, hissues.named]
  | compute_h2_for_peer =>
    obtain ⟨hasked, ⟨ref, hle, hworker⟩, hnone⟩ | ⟨ref, candidate', hasked, hsame, hissues⟩ :=
      handleComputeH2ForPeer_cases recallRangeSize hr (hpeer rfl)
    · have hhandled : s.handled recallRangeSize ⟨.compute_h2_for_peer, candidate⟩ r.2 = s := by
        simp only [System.handled, hasked]
      exact hkeep hhandled (by rw [hworker]) (by rw [hworker]) (by rw [hworker]) (by rw [hworker]) (by rw [hworker]; exact hle)
        hnone
    · refine hdequeued.of_issue hissues (hsession.trans hsame.symm) ?_
      simp only [hs', System.handled, hasked, System.issue, hissues.named]

end Handling

end Arweave.Mining

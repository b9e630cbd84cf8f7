import Arweave.Mining.CacheLimit
import Arweave.Mining.Queue

/-!
# Interleavings of the events of mining

Whatever the order of the events, a message keeps the account of the slots, unless it is about a nonce of an earlier
epoch or a peer's candidate and takes space that nothing was reserved for.
-/

namespace Arweave.Mining

open Lib

section Steps

variable {Session Peer : Type} [DecidableEq Session] {recallRangeSize : Nat} {s s' : System Session Peer} {op : Op Session Peer}
  {task : Task Session Peer} {key : CacheKey} {which : Which} {p' : Progress Session Peer}

/-- The first chunk of a peer's candidate is not read. -/
def First.ofPeer : First → Bool
  | .given _ => true
  | .absent => true
  | _ => false

/-- A chunk or hash of an earlier epoch finds an empty slot and is no solution, and a peer sends no two hashes for one
nonce. -/
def System.Expects (s : System Session Peer) (answers : Answers) (task : Task Session Peer) : Prop :=
  match task.type, task.candidate.cacheRef with
  | .chunk2, some ref => (s.progress (ref, task.candidate.nonce)).epoch = s.epoch ∨
      s.worker.chunkCache (ref, task.candidate.nonce) = none
  | .computed_h1, some ref => (s.progress (ref, task.candidate.nonce)).epoch = s.epoch ∨
      s.worker.chunkCache (ref, task.candidate.nonce) = none ∧
        ∀ h1 ∈ task.candidate.h1, (Bytes.toNat h1 : WithTop Nat) ≤ s.worker.diff
  | .compute_h2_for_peer, _ => answers.rangeExists .chunk2 = true → (task.candidate.cmH1List.map (·.2)).Nodup
  | _, _ => True

instance (s : System Session Peer) (answers : Answers) : DecidablePred (s.Expects answers) := fun task => by
  unfold System.Expects
  split <;> infer_instance

/-- A skipped chunk is one of the node's own candidates of the current epoch, and the next task is expected. -/
def System.Undisturbed (s : System Session Peer) : Op Session Peer → Prop
  | .chunkSkipped _ key => (s.progress key).epoch = s.epoch ∧ (s.progress key).first.ofPeer = false
  | .handleTask answers => ∀ task ∈ s.worker.next, s.Expects answers task
  | _ => True

instance (s : System Session Peer) (op : Op Session Peer) : Decidable (s.Undisturbed op) := by
  cases op <;> unfold System.Undisturbed <;> infer_instance

lemma step_eq_some : s.step recallRangeSize op = some s' ↔ ∃ cast, s.message op = some cast ∧
    ∃ r, handleCast recallRangeSize s.worker cast = some r ∧
      s' = { s.track recallRangeSize r.2 op with worker := r.1, effects := s.effects ++ r.2 } := by
  simp only [System.step, Option.bind_eq_some_iff, Option.map_eq_some_iff, eq_comm (a := s')]

/-- The answer to a read or a first hash comes: a task, when the session is still that of the nonce. -/
lemma System.Sound.of_addTask (hs : s.Sound) (which : Which) (p' : Progress Session Peer) (hkey : key ∈ s.issued)
    (hcandidate' : p'.candidate = (s.progress key).candidate) (hepoch' : p'.epoch = (s.progress key).epoch)
    (hfirst' : p'.first.phase = (s.progress key).first.phase) (hsecond' : p'.second.phase = (s.progress key).second.phase)
    (hsolution : p'.solution key.2 = none ∨ p'.first = (s.progress key).first)
    (hnone : (s.progress key).awaits key.2 which = none)
    (hothers : ∀ which', which' ≠ which → p'.awaits key.2 which' = (s.progress key).awaits key.2 which')
    (hsome : p'.awaits key.2 which = if isSessionValid s.worker task.candidate then some task else none)
    (hhalf : task.type.half = some which) {r : Worker Session Peer × List (Effect Session Peer)}
    (hr : handleCast recallRangeSize s.worker (.addTask task) = some r)
    (hs' : s' = { s with progress := Function.update s.progress key p', worker := r.1, effects := s.effects ++ r.2 }) :
    s'.Sound := by
  have hphases : SamePhases s.progress s'.progress := by
    rw [hs']
    refine ⟨fun key' => ?_, fun key' => ?_, fun key' => ?_, fun key' => ?_⟩ <;>
      · by_cases heq : key' = key
        · simp [heq, hcandidate', hepoch', hfirst', hsecond']
        · simp [heq]
  have hissued : s'.issued = s.issued := by rw [hs']
  have hepoch : s'.epoch = s.epoch := by rw [hs']
  have hself : s'.progress key = p' := by
    rw [hs']
    exact Function.update_self _ _ _
  have hother : ∀ key', key' ≠ key → s'.progress key' = s.progress key' := fun key' hne => by
    rw [hs']
    exact Function.update_of_ne hne _ _
  have hposted : ∀ key' ∈ s'.issued, ∀ candidate, (s'.progress key').solution key'.2 = some candidate →
      .postSolution candidate ∈ s'.effects := by
    intro key' hkey' candidate hcandidate
    have hold : (s.progress key').solution key'.2 = some candidate := by
      by_cases heq : key' = key
      · rw [heq, hself] at hcandidate
        obtain hnone | hsame := hsolution
        · rw [hnone] at hcandidate
          cases hcandidate
        · rw [heq, ← hcandidate, Progress.solution, Progress.solution, hsame, hcandidate']
      · rw [← hother key' heq]
        exact hcandidate
    rw [hs']
    exact List.mem_append_left _ (hs.posted key' (hissued ▸ hkey') candidate hold)
  have hold : ∀ key' which' task', (s.progress key').awaits key'.2 which' = some task' →
      (s'.progress key').awaits key'.2 which' = some task' := by
    intro key' which' task' htask
    by_cases heq : key' = key
    · subst heq
      have hne : which' ≠ which := by
        rintro rfl
        rw [hnone] at htask
        cases htask
      rw [hself, hothers which' hne, htask]
    · rw [hother key' heq, htask]
  cases hvalid : isSessionValid s.worker task.candidate with
  | false =>
    simp only [handleCast, hvalid, Bool.false_eq_true, if_false, Option.some.injEq] at hr
    rw [hvalid, if_neg Bool.false_ne_true] at hsome
    subst hr
    refine ⟨hs.accounted.of_same hissued hepoch hphases (by rw [hs']) (by rw [hs']) (by rw [hs']) (by rw [hs'])
      (fun key => by rw [hs', List.append_nil]), ?_, hposted⟩
    refine hs.queued.of_same hissued hepoch hphases.epoch (fun key' => funext fun which' => ?_) (by rw [hs']) (by rw [hs'])
    by_cases heq : key' = key
    · rw [heq, hself]
      by_cases hwhich : which' = which
      · rw [hwhich, hsome, hnone]
      · exact hothers which' hwhich
    · rw [hother key' heq]
  | true =>
    simp only [handleCast, hvalid, if_true, Option.some.injEq] at hr
    rw [hvalid, if_pos rfl] at hsome
    subst hr
    refine ⟨hs.accounted.of_same hissued hepoch hphases (by rw [hs']) (by rw [hs']) (by rw [hs'])
      (by rw [hs']; exact Nat.le_succ _) (fun key => by rw [hs', List.append_nil]), ?_, hposted⟩
    refine hs.queued.of_insert hissued hepoch hphases.epoch (by rw [hs']) (by rw [hs'])
      (fun key' _ which' task' => hold key' which' task') (fun key' _ which' task' htask => ?_)
      (fun which' hwhich => ⟨key, hkey, ?_⟩) (fun _ e he heq => ?_)
    · by_cases heq : key' = key
      · subst heq
        rw [hself] at htask
        by_cases hwhich : which' = which
        · rw [hwhich, hsome] at htask
          exact Or.inl (Option.some.inj htask).symm
        · rw [hothers which' hwhich] at htask
          exact Or.inr htask
      · rw [hother key' heq] at htask
        exact Or.inr htask
    · rw [hhalf] at hwhich
      rw [hself, ← Option.some.inj hwhich, hsome]
    · obtain ⟨key', hkey', htask⟩ := hs.queued.awaited e he which (by rw [heq, hhalf])
      obtain ⟨href', hnonce', -⟩ := awaits_candidate htask
      obtain ⟨href, hnonce, -⟩ := awaits_candidate hsome
      rw [heq, hs.accounted.candidates key' hkey'] at href'
      rw [hcandidate', hs.accounted.candidates key hkey] at href
      rw [heq] at hnonce'
      have hsame : key' = key := Prod.ext (Option.some.inj (href'.symm.trans href)) (hnonce'.symm.trans hnonce)
      rw [hsame, hnone] at htask
      cases htask

lemma System.Sound.chunkRead {chunk : Bytes} (hs : s.Sound)
    (hstep : s.step recallRangeSize (.chunkRead which key chunk) = some s') : s'.Sound := by
  obtain ⟨cast, hmessage, r, hr, hs'⟩ := step_eq_some.mp hstep
  simp only [System.message] at hmessage
  split_ifs at hmessage with hread
  cases hmessage
  cases which with
  | chunk1 =>
    have hfirst : (s.progress key).first = .reading := hread.2
    refine hs.of_addTask .chunk1 { s.progress key with
      first := if isSessionValid s.worker (s.progress key).candidate then .queued chunk else .lost } hread.1 rfl rfl ?_ rfl
      (Or.inl ?_) ?_ (fun which' hne => ?_) ?_ rfl hr hs'
    · rw [hfirst]
      dsimp only
      split_ifs <;> rfl
    · rw [Progress.solution]
      split_ifs <;> rfl
    · simp only [Progress.awaits, hfirst]
    · cases which' with
      | chunk1 => exact (hne rfl).elim
      | chunk2 => rfl
    · change _ = if isSessionValid s.worker (s.progress key).candidate = true then _ else _
      rw [Progress.awaits]
      split_ifs <;> rfl
  | chunk2 =>
    have hsecond : (s.progress key).second = .reading := hread.2
    refine hs.of_addTask .chunk2 { s.progress key with
      second := if isSessionValid s.worker (s.progress key).candidate then .queued chunk else .lost } hread.1 rfl rfl rfl ?_
      (Or.inr rfl) ?_ (fun which' hne => ?_) ?_ rfl hr hs'
    · rw [hsecond]
      dsimp only
      split_ifs <;> rfl
    · simp only [Progress.awaits, hsecond]
    · cases which' with
      | chunk1 => rfl
      | chunk2 => exact (hne rfl).elim
    · change _ = if isSessionValid s.worker (s.progress key).candidate = true then _ else _
      rw [Progress.awaits]
      split_ifs <;> rfl

lemma System.Sound.h1Computed {h1 : Bytes} (hs : s.Sound)
    (hstep : s.step recallRangeSize (.h1Computed key h1) = some s') : s'.Sound := by
  obtain ⟨cast, hmessage, r, hr, hs'⟩ := step_eq_some.mp hstep
  simp only [System.message] at hmessage
  cases hfirst : (s.progress key).first with
  | hashing chunk1 =>
    rw [hfirst] at hmessage
    dsimp only at hmessage
    split_ifs at hmessage with hkey
    cases hmessage
    simp only [System.track, hfirst] at hs'
    refine hs.of_addTask .chunk1 { s.progress key with
      first := if isSessionValid s.worker (s.progress key).candidate then .hashQueued chunk1 h1 else .lost } hkey rfl rfl ?_ rfl
      (Or.inl ?_) ?_ (fun which' hne => ?_) ?_ rfl hr hs'
    · rw [hfirst]
      dsimp only
      split_ifs <;> rfl
    · rw [Progress.solution]
      split_ifs <;> rfl
    · simp only [Progress.awaits, hfirst]
    · cases which' with
      | chunk1 => exact (hne rfl).elim
      | chunk2 => rfl
    · change _ = if isSessionValid s.worker (s.progress key).candidate = true then _ else _
      rw [Progress.awaits]
      split_ifs <;> rfl
  | _ =>
    rw [hfirst] at hmessage
    cases hmessage

lemma System.Sound.chunkSkipped (hs : s.Sound) (hundisturbed : s.Undisturbed (.chunkSkipped which key))
    (hstep : s.step recallRangeSize (.chunkSkipped which key) = some s') : s'.Sound := by
  obtain ⟨cast, hmessage, r, hr, hs'⟩ := step_eq_some.mp hstep
  simp only [System.message] at hmessage
  split_ifs at hmessage with hread
  cases hmessage
  obtain ⟨hepoch, hown⟩ := hundisturbed
  have hkey := hread.1
  have hfirst : (s.progress key).first.phase = .waiting ∨ (s.progress key).first.phase = .over ∨
      ∃ chunk1 h1, (s.progress key).first.phase = .hashed chunk1 h1 := by
    cases h : (s.progress key).first <;> rw [h] at hown <;> simp [First.phase, First.ofPeer] at hown ⊢
  cases which with
  | chunk1 =>
    have hreading : (s.progress key).first = .reading := hread.2
    obtain ⟨r', hr', hfollows⟩ := removeChunkFromCache_follows .chunk1 { (s.progress key).candidate with nonce := key.2 }
      { s.progress key with first := .skipped } (hs.accounted.cache key hkey hepoch) (hs.accounted.candidates key hkey)
      rfl rfl rfl rfl hfirst (Or.inl ⟨rfl, by rw [hreading]; rfl, rfl, rfl⟩)
    obtain rfl : r' = r := Option.some.inj (hr'.symm.trans hr)
    refine .of_follows hs.accounted hs.posted hkey hepoch hfollows rfl rfl hs' ?_ fun candidate hcandidate => by cases hcandidate
    exact hs.queued.of_update key { s.progress key with first := .skipped } (by rw [hs']; rfl) (by rw [hs']; rfl) (by rw [hs']; rfl) rfl
      (by funext which; cases which <;> simp only [Progress.awaits, hreading])
      (by rw [hs']; exact hfollows.queue) (by rw [hs']; exact hfollows.ref.ge)
  | chunk2 =>
    have hreading : (s.progress key).second = .reading := hread.2
    obtain ⟨r', hr', hfollows⟩ := removeChunkFromCache_follows .chunk2 { (s.progress key).candidate with nonce := key.2 }
      { s.progress key with second := .skipped } (hs.accounted.cache key hkey hepoch) (hs.accounted.candidates key hkey)
      rfl rfl rfl rfl hfirst (Or.inr ⟨rfl, by rw [hreading]; rfl, rfl, rfl⟩)
    obtain rfl : r' = r := Option.some.inj (hr'.symm.trans hr)
    refine .of_follows hs.accounted hs.posted hkey hepoch hfollows rfl rfl hs' ?_ fun candidate hcandidate => Or.inl hcandidate
    exact hs.queued.of_update key { s.progress key with second := .skipped } (by rw [hs']; rfl) (by rw [hs']; rfl) (by rw [hs']; rfl) rfl
      (by funext which; cases which <;> simp only [Progress.awaits, hreading])
      (by rw [hs']; exact hfollows.queue) (by rw [hs']; exact hfollows.ref.ge)

lemma System.Sound.setDifficulty {diff : WithTop Nat} (hs : s.Sound)
    (hstep : s.step recallRangeSize (.setDifficulty diff) = some s') : s'.Sound := by
  obtain ⟨cast, hmessage, r, hr, hs'⟩ := step_eq_some.mp hstep
  cases hmessage
  cases hr
  subst hs'
  exact hs.of_same rfl rfl rfl rfl rfl rfl (hs.queued.of_same rfl rfl (fun _ => rfl) (fun _ => rfl) rfl le_rfl) le_rfl rfl
    fun _ => rfl

lemma System.Sound.submit (hs : s.Sound) (hstep : s.step recallRangeSize (.submit task) = some s') : s'.Sound := by
  obtain ⟨cast, hmessage, r, hr, hs'⟩ := step_eq_some.mp hstep
  simp only [System.message] at hmessage
  split_ifs at hmessage with htype
  cases hmessage
  have hhalf : task.type.half = none := by
    simp only [List.mem_cons, List.not_mem_nil, or_false] at htype
    obtain h | h | h | h := htype <;> rw [h] <;> rfl
  simp only [handleCast] at hr
  split_ifs at hr with hvalid <;> cases hr <;> subst hs'
  · refine hs.of_same rfl rfl rfl rfl rfl rfl ?_ (Nat.le_succ _) rfl fun _ => rfl
    exact hs.queued.of_insert rfl rfl (fun _ => rfl) rfl rfl (fun _ _ _ _ h => h) (fun _ _ _ _ h => Or.inr h)
      (fun which h => by rw [hhalf] at h; cases h) fun h => (h hhalf).elim
  · exact hs.of_same rfl rfl rfl rfl rfl rfl (hs.queued.of_same rfl rfl (fun _ => rfl) (fun _ => rfl) rfl le_rfl) le_rfl rfl
      fun _ => rfl

lemma System.Sound.reset {diff : WithTop Nat} (hs : s.Sound) (hstep : s.step recallRangeSize (.reset diff) = some s') :
    s'.Sound := by
  obtain ⟨cast, hmessage, r, hr, hs'⟩ := step_eq_some.mp hstep
  cases hmessage
  cases hr
  subst hs'
  exact hs.of_reset rfl rfl rfl rfl rfl rfl rfl rfl fun _ => rfl

lemma System.Sound.newSession {sessionKey : Session} {seed : Bytes} (hs : s.Sound)
    (hstep : s.step recallRangeSize (.newSession sessionKey seed) = some s') : s'.Sound := by
  obtain ⟨cast, hmessage, r, hr, hs'⟩ := step_eq_some.mp hstep
  cases hmessage
  cases hr
  subst hs'
  exact hs.of_reset rfl rfl rfl rfl rfl rfl rfl rfl fun _ => rfl

lemma step_handleTask {answers : Answers} (hstep : s.step recallRangeSize (.handleTask answers) = some s') :
    s' = s ∨ ∃ e ∈ s.worker.taskQueue.entries, s.worker.next = some e.2 ∧ isSessionValid s.worker e.2.candidate = true ∧
      ∃ r, handleTask recallRangeSize answers e.2 { s.worker with taskQueue := s.worker.taskQueue.erase e.1 } = some r ∧
        s' = { s.handled recallRangeSize e.2 r.2 with worker := r.1, effects := s.effects ++ r.2 } := by
  obtain ⟨cast, hmessage, r, hr, hs'⟩ := step_eq_some.mp hstep
  cases hmessage
  simp only [handleCast] at hr
  cases hqueue : s.worker.taskQueue.entries with
  | nil =>
    rw [hqueue] at hr
    cases hr
    left
    simp only [hs', System.track, Worker.next, hqueue, List.head?_nil, Option.bind_none, List.append_nil]
  | cons e rest =>
    rw [hqueue] at hr
    dsimp only at hr
    cases hvalid : isSessionValid s.worker e.2.candidate with
    | false =>
      rw [hvalid] at hr
      cases hr
      left
      simp only [hs', System.track, Worker.next, hqueue, List.head?_cons, Option.bind_some, hvalid, Bool.false_eq_true, if_false,
        List.append_nil]
    | true =>
      rw [hvalid, if_pos rfl] at hr
      have hnext : s.worker.next = some e.2 := by
        simp only [Worker.next, hqueue, List.head?_cons, Option.bind_some, hvalid, if_true]
      refine Or.inr ⟨e, List.mem_cons_self, hnext, hvalid, r, hr, ?_⟩
      rw [hs', System.track, hnext]

lemma System.Sound.handleTask {answers : Answers} (hs : s.Sound) (hundisturbed : s.Undisturbed (.handleTask answers))
    (hstep : s.step recallRangeSize (.handleTask answers) = some s') : s'.Sound := by
  obtain rfl | ⟨e, he, hnext, hvalid, r, hr, hs'⟩ := step_handleTask hstep
  · exact hs
  have htask := hundisturbed e.2 hnext
  unfold System.Expects at htask
  cases hhalf : e.2.type.half with
  | none =>
    refine hs.handleOther he hhalf (of_decide_eq_true hvalid) (fun htype => ?_) hr hs'
    rw [htype] at htask
    exact htask
  | some which =>
    obtain ⟨key, hkey, hawaits⟩ := hs.queued.awaited e he which hhalf
    have href := hs.accounted.candidates key hkey
    cases which with
    | chunk1 =>
      cases hfirst : (s.progress key).first with
      | queued chunk1 => exact hs.handleChunk1 he hkey hfirst hawaits hr hs'
      | hashQueued chunk1 h1 =>
        have heq := hawaits
        simp only [Progress.awaits, hfirst, Option.some.injEq] at heq
        rw [← heq] at htask
        simp only [href] at htask
        exact hs.handleComputedH1 he hkey hfirst hawaits (htask.imp_right fun h => ⟨h.1, h.2 h1 rfl⟩) hr hs'
      | _ =>
        simp only [Progress.awaits, hfirst] at hawaits
        cases hawaits
    | chunk2 =>
      cases hsecond : (s.progress key).second with
      | queued chunk2 =>
        have heq := hawaits
        simp only [Progress.awaits, hsecond, Option.some.injEq] at heq
        rw [← heq] at htask
        simp only [href] at htask
        exact hs.handleChunk2 he hkey hsecond hawaits htask hr hs'
      | _ =>
        simp only [Progress.awaits, hsecond] at hawaits
        cases hawaits

lemma System.Sound.step (hs : s.Sound) (hundisturbed : s.Undisturbed op) (hstep : s.step recallRangeSize op = some s') :
    s'.Sound := by
  cases op with
  | setDifficulty diff => exact hs.setDifficulty hstep
  | reset diff => exact hs.reset hstep
  | newSession sessionKey seed => exact hs.newSession hstep
  | submit task => exact hs.submit hstep
  | chunkRead which key chunk => exact hs.chunkRead hstep
  | chunkSkipped which key => exact hs.chunkSkipped hundisturbed hstep
  | h1Computed key h1 => exact hs.h1Computed hstep
  | handleTask answers => exact hs.handleTask hundisturbed hstep

omit [DecidableEq Session] in
lemma System.Sound.start {w : Worker Session Peer} (hqueue : w.taskQueue = SortedMap.empty) (hcache : w.chunkCache = fun _ => none)
    (hsizes : w.chunkCacheSize = fun _ => 0) (candidate : Candidate Session Peer) : (System.start w candidate).Sound := by
  refine ⟨⟨fun key hkey => ?_, fun key hkey => ?_, fun key hkey => ?_, fun key hkey => ?_, fun key hkey => ?_, fun _ _ => ?_,
    fun partition => ?_, fun key hkey => ?_, fun _ _ => rfl⟩,
    System.Queued.of_reset hqueue fun key hkey => ?_, fun key hkey => ?_⟩
  case refine_6 => exact congrFun hcache _
  case refine_7 => exact (congrFun hsizes partition).trans Finset.sum_empty.symm
  all_goals cases hkey

/-- In a run whose steps are undisturbed, the space that a worker has reserved in a partition is that of the chunks of the
current epoch that have neither been used nor skipped, and the mining server counts no other. -/
theorem chunkCacheSize_accounted {candidate : Candidate Session Peer} {ops : List (Op Session Peer)}
    (hundisturbed : Along (System.step recallRangeSize) System.Undisturbed (System.start {} candidate) ops)
    (hrun : ops.foldlM (System.step recallRangeSize) (System.start {} candidate) = some s) (partition : Option Nat) :
    0 ≤ s.worker.chunkCacheSize partition ∧ s.worker.chunkCacheSize partition = s.held partition ∧
      shared s.effects partition = s.held partition := by
  have hs : s.Sound := foldlM_invariant (System.Sound.start rfl rfl rfl candidate) (fun _ _ _ _ h hop hstep => h.step hop hstep)
    hundisturbed hrun
  rw [shared_eq_chunkCacheSize hrun, hs.accounted.sizes partition]
  refine ⟨Finset.sum_nonneg fun key _ => ?_, rfl, rfl⟩
  split_ifs
  · exact Progress.held_nonneg _ _
  · exact le_rfl

end Steps

/-- A recall range of one chunk. -/
def sampleCandidate : Candidate Nat Unit where
  h0 := some (List.replicate 32 0)
  partitionNumber := 0
  partitionUpperBound := 1
  sessionKey := some 1
  stepNumber := 1

def sampleAnswers : Answers := ⟨true, fun _ => true, false, fun _ _ _ => none⟩

def sampleKey (ref : Nat) : CacheKey := (⟨0, some 0, 1, ref⟩, some 0)

/-- The chunks of a nonce are asked for, and the session is reset before one of them comes, or not. -/
def resetOps (late : List (Op Nat Unit)) : List (Op Nat Unit) :=
  [.newSession 1 [], .submit ⟨.computed_h0, sampleCandidate⟩, .handleTask sampleAnswers, .reset ⊤] ++ late

/-- A second chunk that comes after the reset takes no space. -/
theorem chunkCacheSize_accounted_reset : ∃ s : System Nat Unit,
    (resetOps [.chunkRead .chunk2 (sampleKey 1) [2], .handleTask sampleAnswers]).foldlM (System.step dataChunkSize)
      (System.start {} sampleCandidate) = some s ∧
    0 ≤ s.worker.chunkCacheSize (some 0) ∧ s.worker.chunkCacheSize (some 0) = s.held (some 0) ∧
      shared s.effects (some 0) = s.held (some 0) := by
  have hrun : ((resetOps [.chunkRead .chunk2 (sampleKey 1) [2], .handleTask sampleAnswers]).foldlM
      (System.step dataChunkSize) (System.start {} sampleCandidate)).isSome := by decide
  obtain ⟨s, hs⟩ := Option.isSome_iff_exists.mp hrun
  exact ⟨s, hs, chunkCacheSize_accounted (along_of_checkAlong (fun _ _ => of_decide_eq_true) (by decide)) hs _⟩

/-- A first chunk that is skipped after the reset is taken off the space of the new epoch. -/
theorem chunkCacheSize_negative : ∃ s : System Nat Unit,
    (resetOps [.chunkSkipped .chunk1 (sampleKey 1)]).foldlM (System.step dataChunkSize) (System.start {} sampleCandidate) =
      some s ∧ s.worker.chunkCacheSize (some 0) = -1 ∧ s.held (some 0) = 0 := by
  have hrun : ((resetOps [.chunkSkipped .chunk1 (sampleKey 1)]).foldlM (System.step dataChunkSize)
      (System.start {} sampleCandidate)).map (fun s : System Nat Unit => (s.worker.chunkCacheSize (some 0), s.held (some 0))) =
      some (-1, 0) := by decide
  obtain ⟨s, hs, hsizes⟩ := Option.map_eq_some_iff.mp hrun
  exact ⟨s, hs, (Prod.mk.inj hsizes).1, (Prod.mk.inj hsizes).2⟩

end Arweave.Mining

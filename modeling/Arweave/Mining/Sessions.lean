import Mathlib.Algebra.BigOperators.Ring.Finset
import Mathlib.Algebra.Order.BigOperators.Group.Finset
import Arweave.Mining.Slots

/-!
# Mining sessions

The worker with the threads around it. Every read that the worker has asked for is answered once, by the chunk
or by a skip, and every first hash once, in any order and at any time, also after a reset.
-/

namespace Arweave.Mining

open Lib

section System

variable {Session Peer : Type} [DecidableEq Session] (recallRangeSize : Nat)

structure System (Session Peer : Type) where
  worker : Worker Session Peer
  epoch : Nat := 0
  issued : Finset CacheKey := ∅
  progress : CacheKey → Progress Session Peer
  effects : List (Effect Session Peer) := []

/-- What happens to the worker. The tasks that answer no read and no first hash come from the mining server, the peers
and the other hashing threads. -/
inductive Op (Session Peer : Type) where
  | setDifficulty (diff : WithTop Nat)
  | reset (diff : WithTop Nat)
  | newSession (sessionKey : Session) (seed : Bytes)
  | submit (task : Task Session Peer)
  | chunkRead (which : Which) (key : CacheKey) (chunk : Bytes)
  | chunkSkipped (which : Which) (key : CacheKey)
  | h1Computed (key : CacheKey) (h1 : Bytes)
  | handleTask (answers : Answers)

/-- The read of a chunk has not been answered. -/
def System.isRead (s : System Session Peer) (which : Which) (key : CacheKey) : Prop :=
  key ∈ s.issued ∧ match which with
    | .chunk1 => (s.progress key).first = .reading
    | .chunk2 => (s.progress key).second = .reading

instance (s : System Session Peer) (which : Which) (key : CacheKey) : Decidable (s.isRead which key) := by
  cases which <;> exact inferInstanceAs (Decidable (_ ∧ _))

/-- The message that the worker gets, if that can happen. -/
def System.message (s : System Session Peer) : Op Session Peer → Option (Cast Session Peer)
  | .setDifficulty diff => some (.setDifficulty diff)
  | .reset diff => some (.reset diff)
  | .newSession sessionKey seed => some (.newSession sessionKey seed)
  | .submit task =>
    if task.type ∈ [.compute_h0, .computed_h0, .computed_h2, .compute_h2_for_peer] then some (.addTask task) else none
  | .chunkRead which key chunk =>
    let candidate := (s.progress key).candidate
    if s.isRead which key then some (.addTask (match which with
      | .chunk1 => ⟨.chunk1, { candidate with nonce := key.2, chunk1 := some chunk }⟩
      | .chunk2 => ⟨.chunk2, { candidate with nonce := key.2, chunk2 := some chunk }⟩))
    else none
  | .chunkSkipped which key =>
    if s.isRead which key then some (.removeChunkFromCache which { (s.progress key).candidate with nonce := key.2 }) else none
  | .h1Computed key h1 =>
    match (s.progress key).first with
    | .hashing chunk1 =>
      if key ∈ s.issued then some (.addTask ⟨.computed_h1,
        { (s.progress key).candidate with nonce := key.2, chunk1 := some chunk1, h1 := some h1 }⟩)
      else none
    | _ => none
  | .handleTask answers => some (.handleTask answers)

/-- The task that the worker handles next. -/
def Worker.next (w : Worker Session Peer) : Option (Task Session Peer) :=
  w.taskQueue.entries.head?.bind fun e => if isSessionValid w e.2.candidate then some e.2 else none

def System.setFirst (s : System Session Peer) (key : CacheKey) (first : First) : CacheKey → Progress Session Peer :=
  Function.update s.progress key { s.progress key with first := first }

def System.setSecond (s : System Session Peer) (key : CacheKey) (second : Second) : CacheKey → Progress Session Peer :=
  Function.update s.progress key { s.progress key with second := second }

/-- The candidate that has been sent to the reading threads for a chunk. -/
def askedFor (which : Which) (effects : List (Effect Session Peer)) : Option (Candidate Session Peer) :=
  effects.findSome? fun
    | .readRecallRange which' candidate _ => if which' = which then some candidate else none
    | _ => none

/-- The nonces of a candidate that have been sent to the reading threads, and those that a peer has sent hashes for. -/
def issueNonces (h1List : List (Bytes × Nat)) : Finset (Option Nat) :=
  ((List.range (nonceMax recallRangeSize + 1) ++ h1List.map (·.2)).map some).toFinset

def issueProgress (epoch : Nat) (candidate : Candidate Session Peer) (h1List : List (Bytes × Nat)) (own stored : Bool)
    (nonce : Option Nat) : Progress Session Peer where
  candidate := candidate
  epoch := epoch
  first :=
    if own then .reading
    else match h1List.find? (fun e => some e.2 = nonce) with
      | some e => .given e.1
      | none => .absent
  second := if stored ∧ nonce ∈ (List.range (nonceMax recallRangeSize + 1)).map some then .reading else .absent

def System.issue (s : System Session Peer) (candidate : Candidate Session Peer) (h1List : List (Bytes × Nat))
    (own stored : Bool) : System Session Peer :=
  match candidate.cacheRef with
  | none => s
  | some ref => { s with
      issued := s.issued ∪ (issueNonces recallRangeSize h1List).image fun nonce => (ref, nonce)
      progress := fun key =>
        if key.1 = ref ∧ key.2 ∈ issueNonces recallRangeSize h1List then
          issueProgress recallRangeSize s.epoch candidate h1List own stored key.2
        else s.progress key }

/-- The progress after a task has been handled. -/
def System.handled (s : System Session Peer) (task : Task Session Peer) (effects : List (Effect Session Peer)) :
    System Session Peer :=
  match task.type, task.candidate.cacheRef with
  | .chunk1, some ref =>
    match task.candidate.chunk1 with
    | some chunk1 => { s with progress := s.setFirst (ref, task.candidate.nonce) (.hashing chunk1) }
    | none => s
  | .chunk2, some ref =>
    match task.candidate.chunk2 with
    | some chunk2 => { s with progress := s.setSecond (ref, task.candidate.nonce) (.read chunk2) }
    | none => s
  | .computed_h1, some ref =>
    match task.candidate.chunk1, task.candidate.h1 with
    | some chunk1, some h1 => { s with
        progress := s.setFirst (ref, task.candidate.nonce)
          (if s.worker.diff < (Bytes.toNat h1 : WithTop Nat) then .solved chunk1 h1 else .hashed chunk1 h1) }
    | _, _ => s
  | .computed_h0, _ =>
    match askedFor .chunk1 effects with
    | some candidate => s.issue recallRangeSize candidate [] true (askedFor .chunk2 effects).isSome
    | none => s
  | .compute_h2_for_peer, _ =>
    match askedFor .chunk2 effects with
    | some candidate => s.issue recallRangeSize candidate task.candidate.cmH1List false true
    | none => s
  | _, _ => s

/-- The progress after a message. A chunk or a hash of another session is lost. -/
def System.track (s : System Session Peer) (effects : List (Effect Session Peer)) : Op Session Peer → System Session Peer
  | .reset _ => { s with epoch := s.epoch + 1 }
  | .newSession _ _ => { s with epoch := s.epoch + 1 }
  | .chunkRead .chunk1 key chunk => { s with
      progress := s.setFirst key (if isSessionValid s.worker (s.progress key).candidate then .queued chunk else .lost) }
  | .chunkRead .chunk2 key chunk => { s with
      progress := s.setSecond key (if isSessionValid s.worker (s.progress key).candidate then .queued chunk else .lost) }
  | .chunkSkipped .chunk1 key => { s with progress := s.setFirst key .skipped }
  | .chunkSkipped .chunk2 key => { s with progress := s.setSecond key .skipped }
  | .h1Computed key h1 =>
    match (s.progress key).first with
    | .hashing chunk1 => { s with
        progress := s.setFirst key
          (if isSessionValid s.worker (s.progress key).candidate then .hashQueued chunk1 h1 else .lost) }
    | _ => s
  | .handleTask _ =>
    match s.worker.next with
    | some task => s.handled recallRangeSize task effects
    | none => s
  | _ => s

/-- A message that the worker handles. `none` is one that cannot come, or a crash. -/
def System.step (s : System Session Peer) (op : Op Session Peer) : Option (System Session Peer) :=
  (s.message op).bind fun cast => (handleCast recallRangeSize s.worker cast).map fun (worker, effects) =>
    { s.track recallRangeSize effects op with worker := worker, effects := s.effects ++ effects }

/-- A worker that has not asked for anything. -/
def System.start (worker : Worker Session Peer) (candidate : Candidate Session Peer) : System Session Peer where
  worker := worker
  progress := fun _ => ⟨candidate, 0, .absent, .absent⟩

end System

section Accounts

variable {Session Peer : Type} {s s' : System Session Peer} {w' : Worker Session Peer} {effects : List (Effect Session Peer)}
  {key : CacheKey} {p' : Progress Session Peer}

/-- The space that the nonces of the current epoch hold in a partition. -/
def System.held (s : System Session Peer) (partition : Option Nat) : Int :=
  ∑ key ∈ s.issued, if (s.progress key).epoch = s.epoch then (s.progress key).held partition else 0

/-- The slots of the current epoch hold what the progress of their nonces says, the space is accounted for, and the second
hashes are those that were due. -/
structure System.Accounted (s : System Session Peer) : Prop where
  refs : ∀ key ∈ s.issued, key.1.ref < s.worker.nextRef
  candidates : ∀ key ∈ s.issued, (s.progress key).candidate.cacheRef = some key.1
  epochs : ∀ key ∈ s.issued, (s.progress key).epoch ≤ s.epoch
  sessions : ∀ key ∈ s.issued, (s.progress key).epoch = s.epoch →
    s.worker.sessionKey = (s.progress key).candidate.sessionKey
  cache : ∀ key ∈ s.issued, (s.progress key).epoch = s.epoch → s.worker.chunkCache key = (s.progress key).content
  unused : ∀ key, key ∉ s.issued → s.worker.chunkCache key = none
  sizes : ∀ partition, s.worker.chunkCacheSize partition = s.held partition
  h2s : ∀ key ∈ s.issued, (s.progress key).epoch = s.epoch →
    s.effects.filterMap (h2For key) = (s.progress key).h2s key.2
  fresh : ∀ key, key ∉ s.issued → s.effects.filterMap (h2For key) = []

/-- The same nonces with halves in the same phases. -/
structure SamePhases (progress progress' : CacheKey → Progress Session Peer) : Prop where
  candidate : ∀ key, (progress' key).candidate = (progress key).candidate
  epoch : ∀ key, (progress' key).epoch = (progress key).epoch
  first : ∀ key, (progress' key).first.phase = (progress key).first.phase
  second : ∀ key, (progress' key).second.phase = (progress key).second.phase

lemma SamePhases.refl (progress : CacheKey → Progress Session Peer) : SamePhases progress progress :=
  ⟨fun _ => rfl, fun _ => rfl, fun _ => rfl, fun _ => rfl⟩

lemma samePhases_setFirst {first : First} (h : first.phase = (s.progress key).first.phase) :
    SamePhases s.progress (s.setFirst key first) := by
  refine ⟨fun key' => ?_, fun key' => ?_, fun key' => ?_, fun key' => ?_⟩ <;>
    · by_cases heq : key' = key
      · simp [System.setFirst, heq, h]
      · simp [System.setFirst, heq]

lemma System.Accounted.of_same (hs : s.Accounted) (hissued : s'.issued = s.issued) (hepoch : s'.epoch = s.epoch)
    (hphases : SamePhases s.progress s'.progress) (hcache : s'.worker.chunkCache = s.worker.chunkCache)
    (hsizes : s'.worker.chunkCacheSize = s.worker.chunkCacheSize) (hsession : s'.worker.sessionKey = s.worker.sessionKey)
    (hrefs : s.worker.nextRef ≤ s'.worker.nextRef)
    (heffects : ∀ key, s'.effects.filterMap (h2For key) = s.effects.filterMap (h2For key)) : s'.Accounted := by
  have hcontent : ∀ key, (s'.progress key).content = (s.progress key).content := fun key => by
    rw [Progress.content, Progress.content, hphases.first, hphases.second]
  have hheld : ∀ key partition, (s'.progress key).held partition = (s.progress key).held partition := fun key partition => by
    rw [Progress.held, Progress.held, hphases.first, hphases.second, hphases.candidate]
  refine ⟨fun key hkey => ?_, fun key hkey => ?_, fun key hkey => ?_, fun key hkey hcurrent => ?_,
    fun key hkey hcurrent => ?_, fun key hkey => ?_, fun partition => ?_, fun key hkey hcurrent => ?_, fun key hkey => ?_⟩
  · exact lt_of_lt_of_le (hs.refs key (hissued ▸ hkey)) hrefs
  · rw [hphases.candidate]
    exact hs.candidates key (hissued ▸ hkey)
  · rw [hphases.epoch, hepoch]
    exact hs.epochs key (hissued ▸ hkey)
  · rw [hsession, hphases.candidate]
    rw [hphases.epoch, hepoch] at hcurrent
    exact hs.sessions key (hissued ▸ hkey) hcurrent
  · rw [hcache, hcontent]
    rw [hphases.epoch, hepoch] at hcurrent
    exact hs.cache key (hissued ▸ hkey) hcurrent
  · rw [hcache]
    exact hs.unused key (hissued ▸ hkey)
  · rw [hsizes, hs.sizes, System.held, System.held, hissued, hepoch]
    exact Finset.sum_congr rfl fun key _ => by rw [hphases.epoch, hheld]
  · rw [hphases.epoch, hepoch] at hcurrent
    rw [heffects, hs.h2s key (hissued ▸ hkey) hcurrent, Progress.h2s, Progress.h2s, hphases.first, hphases.second,
      hphases.candidate]
  · rw [heffects, hs.fresh key (hissued ▸ hkey)]

/-- A message that moves the slot of one nonce of the current epoch. -/
lemma System.Accounted.of_follows (hs : s.Accounted) (hkey : key ∈ s.issued) (hepoch : (s.progress key).epoch = s.epoch)
    (hcandidate' : p'.candidate = (s.progress key).candidate) (hepoch' : p'.epoch = (s.progress key).epoch)
    (hfollows : Follows key (s.progress key) p' s.worker w' effects)
    (hs' : s' = { s with worker := w', progress := Function.update s.progress key p', effects := s.effects ++ effects }) :
    s'.Accounted := by
  have hother : ∀ key', key' ≠ key → s'.progress key' = s.progress key' := fun key' hne => by
    rw [hs']
    exact Function.update_of_ne hne _ _
  have hself : s'.progress key = p' := by
    rw [hs']
    exact Function.update_self _ _ _
  have hsame : ∀ key', (s'.progress key').epoch = (s.progress key').epoch ∧
      (s'.progress key').candidate = (s.progress key').candidate := fun key' => by
    by_cases heq : key' = key
    · rw [heq, hself]
      exact ⟨hepoch', hcandidate'⟩
    · rw [hother key' heq]
      exact ⟨rfl, rfl⟩
  have hissued : s'.issued = s.issued := by rw [hs']
  have hcurrent : s'.epoch = s.epoch := by rw [hs']
  have hworker : s'.worker = w' := by rw [hs']
  have heffects : s'.effects = s.effects ++ effects := by rw [hs']
  refine ⟨fun key' hkey' => ?_, fun key' hkey' => ?_, fun key' hkey' => ?_, fun key' hkey' hcurrent' => ?_,
    fun key' hkey' hcurrent' => ?_, fun key' hkey' => ?_, fun partition => ?_, fun key' hkey' hcurrent' => ?_,
    fun key' hkey' => ?_⟩
  · rw [hworker, hfollows.ref]
    exact hs.refs key' (hissued ▸ hkey')
  · rw [(hsame key').2]
    exact hs.candidates key' (hissued ▸ hkey')
  · rw [(hsame key').1, hcurrent]
    exact hs.epochs key' (hissued ▸ hkey')
  · rw [hworker, hfollows.session, (hsame key').2]
    rw [(hsame key').1, hcurrent] at hcurrent'
    exact hs.sessions key' (hissued ▸ hkey') hcurrent'
  · rw [hworker, hfollows.cache]
    by_cases heq : key' = key
    · rw [heq, Function.update_self, hself]
    · rw [(hsame key').1, hcurrent] at hcurrent'
      rw [Function.update_of_ne heq, hother key' heq]
      exact hs.cache key' (hissued ▸ hkey') hcurrent'
  · have hne : key' ≠ key := by
      rintro rfl
      exact hkey' (hissued ▸ hkey)
    rw [hworker, hfollows.cache, Function.update_of_ne hne]
    exact hs.unused key' (hissued ▸ hkey')
  · have hsize := hfollows.size partition
    have hrest : ∑ key' ∈ s.issued.erase key, (if (s'.progress key').epoch = s'.epoch then (s'.progress key').held partition else 0) =
        ∑ key' ∈ s.issued.erase key, if (s.progress key').epoch = s.epoch then (s.progress key').held partition else 0 :=
      Finset.sum_congr rfl fun key' hkey' => by rw [hother key' (Finset.ne_of_mem_erase hkey'), hcurrent]
    have hbefore := hs.sizes partition
    rw [System.held, ← Finset.add_sum_erase _ _ hkey, if_pos hepoch] at hbefore
    rw [hworker, System.held, hissued, ← Finset.add_sum_erase _ _ hkey, hrest, hself, hcurrent, if_pos (hepoch'.trans hepoch)]
    omega
  · rw [heffects, List.filterMap_append]
    by_cases heq : key' = key
    · rw [heq, hself, hs.h2s key hkey hepoch, hfollows.own]
    · rw [(hsame key').1, hcurrent] at hcurrent'
      rw [hother key' heq, hfollows.others key' heq, List.append_nil, hs.h2s key' (hissued ▸ hkey') hcurrent']
  · rw [heffects, List.filterMap_append]
    have hne : key' ≠ key := by
      rintro rfl
      exact hkey' (hissued ▸ hkey)
    rw [hfollows.others key' hne, List.append_nil, hs.fresh key' (hissued ▸ hkey')]

/-- A message about a nonce of an earlier epoch that takes no space. -/
lemma System.Accounted.of_stale (hs : s.Accounted) (p' : Progress Session Peer) (w' : Worker Session Peer) (hkey : key ∈ s.issued) (hepoch : (s.progress key).epoch ≠ s.epoch)
    (hcandidate' : p'.candidate = (s.progress key).candidate) (hepoch' : p'.epoch = (s.progress key).epoch)
    {entry : Option Entry} (hcache : w'.chunkCache = Function.update s.worker.chunkCache key entry)
    (hsizes : w'.chunkCacheSize = s.worker.chunkCacheSize) (hsession : w'.sessionKey = s.worker.sessionKey)
    (hrefs : w'.nextRef = s.worker.nextRef)
    (hs' : s' = { s with worker := w', progress := Function.update s.progress key p' }) : s'.Accounted := by
  have hother : ∀ key', key' ≠ key → s'.progress key' = s.progress key' := fun key' hne => by
    rw [hs']
    exact Function.update_of_ne hne _ _
  have hself : s'.progress key = p' := by
    rw [hs']
    exact Function.update_self _ _ _
  have hsame : ∀ key', (s'.progress key').epoch = (s.progress key').epoch ∧
      (s'.progress key').candidate = (s.progress key').candidate := fun key' => by
    by_cases heq : key' = key
    · rw [heq, hself]
      exact ⟨hepoch', hcandidate'⟩
    · rw [hother key' heq]
      exact ⟨rfl, rfl⟩
  have hissued : s'.issued = s.issued := by rw [hs']
  have hcurrent : s'.epoch = s.epoch := by rw [hs']
  have hworker : s'.worker = w' := by rw [hs']
  have heffects : s'.effects = s.effects := by rw [hs']
  -- the nonces of the current epoch are other nonces
  have hne : ∀ key', (s'.progress key').epoch = s'.epoch → key' ≠ key := by
    rintro key' hcurrent' rfl
    rw [(hsame key').1, hcurrent] at hcurrent'
    exact hepoch hcurrent'
  refine ⟨fun key' hkey' => ?_, fun key' hkey' => ?_, fun key' hkey' => ?_, fun key' hkey' hcurrent' => ?_,
    fun key' hkey' hcurrent' => ?_, fun key' hkey' => ?_, fun partition => ?_, fun key' hkey' hcurrent' => ?_,
    fun key' hkey' => ?_⟩
  · rw [hworker, hrefs]
    exact hs.refs key' (hissued ▸ hkey')
  · rw [(hsame key').2]
    exact hs.candidates key' (hissued ▸ hkey')
  · rw [(hsame key').1, hcurrent]
    exact hs.epochs key' (hissued ▸ hkey')
  · rw [hworker, hsession, (hsame key').2]
    rw [(hsame key').1, hcurrent] at hcurrent'
    exact hs.sessions key' (hissued ▸ hkey') hcurrent'
  · have hother' := hne key' hcurrent'
    rw [(hsame key').1, hcurrent] at hcurrent'
    rw [hworker, hcache, Function.update_of_ne hother', hother key' hother']
    exact hs.cache key' (hissued ▸ hkey') hcurrent'
  · have hother' : key' ≠ key := by
      rintro rfl
      exact hkey' (hissued ▸ hkey)
    rw [hworker, hcache, Function.update_of_ne hother']
    exact hs.unused key' (hissued ▸ hkey')
  · rw [hworker, hsizes, hs.sizes, System.held, System.held, hissued]
    refine Finset.sum_congr rfl fun key' _ => ?_
    by_cases heq : key' = key
    · rw [heq, if_neg hepoch, if_neg fun h => hne key h rfl]
    · rw [hother key' heq, hcurrent]
  · have hother' := hne key' hcurrent'
    rw [(hsame key').1, hcurrent] at hcurrent'
    rw [heffects, hother key' hother']
    exact hs.h2s key' (hissued ▸ hkey') hcurrent'
  · rw [heffects]
    exact hs.fresh key' (hissued ▸ hkey')

lemma System.Accounted.of_reset (hs : s.Accounted) (hissued : s'.issued = s.issued) (hepoch : s'.epoch = s.epoch + 1)
    (hprogress : s'.progress = s.progress) (hcache : s'.worker.chunkCache = fun _ => none)
    (hsizes : s'.worker.chunkCacheSize = fun _ => 0) (hrefs : s'.worker.nextRef = s.worker.nextRef)
    (heffects : ∀ key, s'.effects.filterMap (h2For key) = s.effects.filterMap (h2For key)) : s'.Accounted := by
  have hold : ∀ key ∈ s'.issued, (s'.progress key).epoch ≠ s'.epoch := fun key hkey => by
    have hle := hs.epochs key (hissued ▸ hkey)
    rw [hprogress, hepoch]
    omega
  refine ⟨fun key hkey => ?_, fun key hkey => ?_, fun key hkey => ?_, fun key hkey hcurrent => ?_,
    fun key hkey hcurrent => ?_, fun key hkey => ?_, fun partition => ?_, fun key hkey hcurrent => ?_, fun key hkey => ?_⟩
  · rw [hrefs]
    exact hs.refs key (hissued ▸ hkey)
  · rw [hprogress]
    exact hs.candidates key (hissued ▸ hkey)
  · rw [hprogress, hepoch]
    exact (hs.epochs key (hissued ▸ hkey)).trans (Nat.le_succ _)
  · exact (hold key hkey hcurrent).elim
  · exact (hold key hkey hcurrent).elim
  · rw [hcache]
  · rw [hsizes, System.held]
    exact (Finset.sum_eq_zero fun key hkey => if_neg (hold key hkey)).symm
  · exact (hold key hkey hcurrent).elim
  · rw [heffects]
    exact hs.fresh key (hissued ▸ hkey)

end Accounts

section Issuing

variable {Session Peer : Type} {s s' : System Session Peer} {w w' : Worker Session Peer} {effects : List (Effect Session Peer)}
  {ref : CacheRef} {candidate : Candidate Session Peer} {recallRangeSize : Nat} {h1List : List (Bytes × Nat)} {own stored : Bool}

lemma foldl_put {ι : Type} (l : List ι) (f : ι → Nat) (g : ι → Entry) (hnodup : (l.map f).Nodup) :
    l.foldl (fun w x => { w with chunkCache := Function.update w.chunkCache (ref, some (f x)) (some (g x)) }) w =
      { w with chunkCache := fun key => if key.1 = ref then
          match l.find? (fun x => some (f x) = key.2) with
          | some x => some (g x)
          | none => w.chunkCache key
        else w.chunkCache key } := by
  induction l generalizing w with
  | nil => simp
  | cons x l ih =>
    rw [List.map_cons, List.nodup_cons] at hnodup
    rw [List.foldl_cons, ih hnodup.2]
    congr 1
    funext key
    by_cases href : key.1 = ref
    · rw [if_pos href, if_pos href, List.find?_cons]
      by_cases hx : some (f x) = key.2
      · have hnone : l.find? (fun y => some (f y) = key.2) = none := by
          rw [List.find?_eq_none]
          intro y hy hsome
          rw [decide_eq_true_eq, ← hx] at hsome
          exact hnodup.1 (List.mem_map.mpr ⟨y, hy, Option.some.inj hsome⟩)
        rw [hnone, decide_eq_true hx]
        have hkey : key = (ref, some (f x)) := Prod.ext href hx.symm
        simp only [hkey, Function.update_self]
      · have hkey : key ≠ (ref, some (f x)) := fun h => hx (congrArg Prod.snd h).symm
        rw [decide_eq_false hx]
        simp only [Function.update_of_ne hkey]
    · have hkey : key ≠ (ref, some (f x)) := fun h => href (congrArg Prod.fst h)
      rw [if_neg href, if_neg href]
      exact Function.update_of_ne hkey _ _

lemma issueProgress_second (recallRangeSize epoch : Nat) (candidate : Candidate Session Peer) (h1List : List (Bytes × Nat))
    (own stored : Bool) (nonce : Option Nat) :
    (issueProgress recallRangeSize epoch candidate h1List own stored nonce).second.phase = .waiting ∨
      (issueProgress recallRangeSize epoch candidate h1List own stored nonce).second.phase = .absent := by
  simp only [issueProgress]
  split_ifs
  · exact Or.inl rfl
  · exact Or.inr rfl

/-- The worker sends the nonces of a candidate to the reading threads under a new reference. -/
structure Issues (recallRangeSize : Nat) (w w' : Worker Session Peer) (effects : List (Effect Session Peer)) (ref : CacheRef)
    (candidate : Candidate Session Peer) (h1List : List (Bytes × Nat)) (own stored : Bool) : Prop where
  new : ref.ref = w.nextRef
  named : candidate.cacheRef = some ref
  cache : (∀ nonce, w.chunkCache (ref, nonce) = none) → ∀ epoch key, w'.chunkCache key =
    if key.1 = ref ∧ key.2 ∈ issueNonces recallRangeSize h1List then
      (issueProgress recallRangeSize epoch candidate h1List own stored key.2).content
    else w.chunkCache key
  sizes : ∀ epoch partition, w'.chunkCacheSize partition = w.chunkCacheSize partition +
    ∑ nonce ∈ issueNonces recallRangeSize h1List,
      (issueProgress recallRangeSize epoch candidate h1List own stored nonce).held partition
  session : w'.sessionKey = w.sessionKey
  queue : w'.taskQueue = w.taskQueue
  refs : w'.nextRef = w.nextRef + 1
  h2s : ∀ key, effects.filterMap (h2For key) = []

lemma System.Accounted.of_issue (hs : s.Accounted) (h : Issues recallRangeSize w w' effects ref candidate h1List own stored)
    (hsession : s.worker.sessionKey = candidate.sessionKey) {queue : SortedMap TaskKey (Task Session Peer)}
    (hw : w = { s.worker with taskQueue := queue })
    (hs' : s' = { s.issue recallRangeSize candidate h1List own stored with worker := w', effects := s.effects ++ effects }) :
    s'.Accounted := by
  have hcandidate := h.named
  have href : ref.ref = s.worker.nextRef := by rw [h.new, hw]
  have hold : ∀ key ∈ s.issued, key.1 ≠ ref := by
    rintro key hkey rfl
    exact absurd (hs.refs key hkey) (by omega)
  have hissued : s'.issued = s.issued ∪ (issueNonces recallRangeSize h1List).image fun nonce => (ref, nonce) := by
    simp only [hs', System.issue, hcandidate]
  have hprogress : s'.progress = fun key => if key.1 = ref ∧ key.2 ∈ issueNonces recallRangeSize h1List then
      issueProgress recallRangeSize s.epoch candidate h1List own stored key.2 else s.progress key := by
    simp only [hs', System.issue, hcandidate]
  have hepoch : s'.epoch = s.epoch := by simp only [hs', System.issue, hcandidate]
  have hworker : s'.worker = w' := by rw [hs']
  have heffects' : s'.effects = s.effects ++ effects := by rw [hs']
  have heffects := h.h2s
  have hsession' : w'.sessionKey = s.worker.sessionKey := by rw [h.session, hw]
  have hrefs : w'.nextRef = s.worker.nextRef + 1 := by rw [h.refs, hw]
  have hsizes := h.sizes s.epoch
  have hcache := h.cache (by
    intro nonce
    rw [hw]
    exact hs.unused (ref, nonce) fun hkey => hold _ hkey rfl) s.epoch
  rw [hw] at hsizes hcache
  simp only at hsizes hcache
  have hmem : ∀ key, key ∈ s'.issued ↔ key ∈ s.issued ∨ key.1 = ref ∧ key.2 ∈ issueNonces recallRangeSize h1List := by
    intro key
    rw [hissued, Finset.mem_union, Finset.mem_image]
    constructor
    · rintro (h | ⟨nonce, hnonce, rfl⟩)
      · exact Or.inl h
      · exact Or.inr ⟨rfl, hnonce⟩
    · rintro (h | ⟨h, hnonce⟩)
      · exact Or.inl h
      · exact Or.inr ⟨key.2, hnonce, Prod.ext h.symm rfl⟩
  have holdProgress : ∀ key ∈ s.issued, s'.progress key = s.progress key := fun key hkey => by
    rw [hprogress]
    exact if_neg fun h => hold key hkey h.1
  have hnewProgress : ∀ key : CacheKey, key.1 = ref → key.2 ∈ issueNonces recallRangeSize h1List →
      s'.progress key = issueProgress recallRangeSize s.epoch candidate h1List own stored key.2 := fun key h hnonce => by
    rw [hprogress]
    exact if_pos ⟨h, hnonce⟩
  refine ⟨fun key hkey => ?_, fun key hkey => ?_, fun key hkey => ?_, fun key hkey hcurrent => ?_,
    fun key hkey hcurrent => ?_, fun key hkey => ?_, fun partition => ?_, fun key hkey hcurrent => ?_, fun key hkey => ?_⟩
  · rw [hworker, hrefs]
    obtain hkey | ⟨hkey, -⟩ := (hmem key).mp hkey
    · exact (hs.refs key hkey).trans (Nat.lt_succ_self _)
    · rw [hkey, href]
      exact Nat.lt_succ_self _
  · obtain hkey | ⟨hkey, hnonce⟩ := (hmem key).mp hkey
    · rw [holdProgress key hkey]
      exact hs.candidates key hkey
    · rw [hnewProgress key hkey hnonce, hkey]
      exact hcandidate
  · rw [hepoch]
    obtain hkey | ⟨hkey, hnonce⟩ := (hmem key).mp hkey
    · rw [holdProgress key hkey]
      exact hs.epochs key hkey
    · rw [hnewProgress key hkey hnonce]
      exact le_rfl
  · rw [hworker, hsession']
    obtain hkey | ⟨hkey, hnonce⟩ := (hmem key).mp hkey
    · rw [holdProgress key hkey] at hcurrent ⊢
      exact hs.sessions key hkey (hcurrent.trans hepoch)
    · rw [hnewProgress key hkey hnonce]
      exact hsession
  · rw [hworker, hcache]
    obtain hkey | hnew := (hmem key).mp hkey
    · rw [if_neg fun h => hold key hkey h.1]
      rw [holdProgress key hkey] at hcurrent ⊢
      exact hs.cache key hkey (hcurrent.trans hepoch)
    · rw [if_pos hnew, hnewProgress key hnew.1 hnew.2]
  · rw [hworker, hcache, if_neg fun h => hkey ((hmem key).mpr (Or.inr h))]
    exact hs.unused key fun h => hkey ((hmem key).mpr (Or.inl h))
  · have hdisjoint : Disjoint s.issued ((issueNonces recallRangeSize h1List).image fun nonce => (ref, nonce)) := by
      rw [Finset.disjoint_left]
      intro key hkey himage
      obtain ⟨nonce, -, rfl⟩ := Finset.mem_image.mp himage
      exact hold _ hkey rfl
    rw [hworker, hsizes, hs.sizes, System.held, System.held, hissued, Finset.sum_union hdisjoint, Finset.sum_image (by
      intro a _ b _ h
      exact congrArg Prod.snd h)]
    congr 1
    · exact Finset.sum_congr rfl fun key hkey => by rw [holdProgress key hkey, hepoch]
    · refine Finset.sum_congr rfl fun nonce hnonce => ?_
      rw [hnewProgress (ref, nonce) rfl hnonce, if_pos]
      exact hepoch.symm
  · rw [heffects', List.filterMap_append, heffects, List.append_nil]
    obtain hkey | ⟨hkey, hnonce⟩ := (hmem key).mp hkey
    · rw [holdProgress key hkey] at hcurrent ⊢
      exact hs.h2s key hkey (hcurrent.trans hepoch)
    · rw [hnewProgress key hkey hnonce, hs.fresh key fun h => hold key h hkey, Progress.h2s_eq_nil]
      intro chunk2 hread
      obtain h | h := issueProgress_second recallRangeSize s.epoch candidate h1List own stored key.2 <;> rw [h] at hread <;>
        cases hread
  · rw [heffects', List.filterMap_append, heffects, List.append_nil]
    exact hs.fresh key fun h => hkey ((hmem key).mpr (Or.inl h))

lemma mem_issueNonces {nonce : Option Nat} : nonce ∈ issueNonces recallRangeSize h1List ↔
    nonce ∈ (List.range (nonceMax recallRangeSize + 1)).map some ∨ ∃ e ∈ h1List, some e.2 = nonce := by
  rw [issueNonces, List.mem_toFinset, List.map_append, List.mem_append, List.map_map, List.mem_map (l := h1List)]
  rfl

lemma card_issueNonces : (issueNonces recallRangeSize []).card = nonceMax recallRangeSize + 1 := by
  rw [issueNonces, List.map_nil, List.append_nil, List.toFinset_card_of_nodup, List.length_map, List.length_range]
  exact List.nodup_range.map (Option.some_injective _)

lemma sum_held_own (candidate : Candidate Session Peer) (epoch : Nat) (stored : Bool) (partition : Option Nat) :
    ∑ nonce ∈ issueNonces recallRangeSize [], (issueProgress recallRangeSize epoch candidate [] true stored nonce).held partition =
      (if some candidate.partitionNumber = partition then ((nonceMax recallRangeSize + 1 : Nat) : Int) else 0) +
        if candidate.partitionNumber2 = partition ∧ stored then ((nonceMax recallRangeSize + 1 : Nat) : Int) else 0 := by
  have hheld : ∀ nonce ∈ issueNonces recallRangeSize [],
      (issueProgress recallRangeSize epoch candidate [] true stored nonce).held partition =
        (if some candidate.partitionNumber = partition then 1 else 0) +
          if candidate.partitionNumber2 = partition ∧ stored then 1 else 0 := by
    intro nonce hnonce
    have hrange : nonce ∈ (List.range (nonceMax recallRangeSize + 1)).map some :=
      (mem_issueNonces.mp hnonce).resolve_right fun ⟨e, he, _⟩ => nomatch he
    cases stored with
    | true =>
      simp only [Progress.held, issueProgress, if_pos, hrange, and_self, First.phase, Second.phase, held1, held2, and_true]
    | false =>
      simp only [Progress.held, issueProgress, if_pos, First.phase, Second.phase, held1, held2, Bool.false_eq_true, false_and,
        and_false, if_false, ite_self]
  rw [Finset.sum_congr rfl hheld, Finset.sum_const, card_issueNonces, nsmul_eq_mul, mul_add]
  split_ifs <;> simp

/-- The reserved space is that of the hashes that a peer has sent for different nonces. -/
lemma sum_held_peer (candidate : Candidate Session Peer) (epoch : Nat) (hnodup : (h1List.map (·.2)).Nodup)
    (partition : Option Nat) :
    ∑ nonce ∈ issueNonces recallRangeSize h1List,
        (issueProgress recallRangeSize epoch candidate h1List false true nonce).held partition =
      if candidate.partitionNumber2 = partition then (h1List.length : Int) else 0 := by
  have hheld : ∀ nonce, (issueProgress recallRangeSize epoch candidate h1List false true nonce).held partition =
      if nonce ∈ (h1List.map fun e => some e.2).toFinset ∧ candidate.partitionNumber2 = partition then 1 else 0 := by
    intro nonce
    have hgiven : nonce ∈ (h1List.map fun e => some e.2).toFinset ↔ (h1List.find? fun e => some e.2 = nonce) ≠ none := by
      rw [List.mem_toFinset, List.mem_map, ne_eq, List.find?_eq_none]
      simp
    have hsecond := issueProgress_second recallRangeSize epoch candidate h1List false true nonce
    cases hfind : h1List.find? (fun e => some e.2 = nonce) with
    | none =>
      have hfirst : (issueProgress recallRangeSize epoch candidate h1List false true nonce).first.phase = .absent := by
        simp only [issueProgress, Bool.false_eq_true, if_false, hfind, First.phase]
      rw [Progress.held, hfirst]
      simp [hgiven, hfind, held1, held2]
    | some e =>
      have hfirst : (issueProgress recallRangeSize epoch candidate h1List false true nonce).first.phase = .given e.1 := by
        simp only [issueProgress, Bool.false_eq_true, if_false, hfind, First.phase]
      rw [Progress.held, hfirst]
      obtain hsecond | hsecond := hsecond <;> rw [hsecond] <;> simp [hgiven, hfind, held1, held2, issueProgress]
  rw [Finset.sum_congr rfl fun nonce _ => hheld nonce]
  by_cases hpartition : candidate.partitionNumber2 = partition
  · have hsub : (issueNonces recallRangeSize h1List).filter (fun nonce => nonce ∈ (h1List.map fun e => some e.2).toFinset) =
        (h1List.map fun e => some e.2).toFinset := by
      ext nonce
      rw [Finset.mem_filter, mem_issueNonces, List.mem_toFinset]
      exact ⟨fun h => h.2, fun h => ⟨Or.inr (List.mem_map.mp h), h⟩⟩
    simp only [hpartition, and_true, if_true]
    rw [Finset.sum_boole, hsub, List.toFinset_card_of_nodup, List.length_map]
    have hmap := hnodup.map (Option.some_injective Nat)
    rw [List.map_map] at hmap
    exact hmap
  · simp [hpartition]

lemma doNotCache_eq (ref : CacheRef) (w : Worker Session Peer) : doNotCache recallRangeSize ref w =
    { w with chunkCache := fun key => if key.1 = ref ∧ key.2 ∈ issueNonces recallRangeSize [] then some .doNotCache
      else w.chunkCache key } := by
  refine (foldl_put _ (fun nonce => nonce) (fun _ => .doNotCache) (by rw [List.map_id']; exact List.nodup_range)).trans ?_
  congr 1
  funext key
  by_cases href : key.1 = ref
  · have hmem : key.2 ∈ issueNonces recallRangeSize [] ↔
        ((List.range (nonceMax recallRangeSize + 1)).find? fun nonce => some nonce = key.2) ≠ none := by
      rw [mem_issueNonces, List.mem_map, ne_eq, List.find?_eq_none]
      simp
    rw [if_pos href]
    cases hfind : (List.range (nonceMax recallRangeSize + 1)).find? fun nonce => some nonce = key.2 with
    | none => rw [if_neg fun h => hmem.mp h.2 hfind]
    | some nonce => rw [if_pos ⟨href, hmem.mpr (by rw [hfind]; exact Option.some_ne_none _)⟩]
  · rw [if_neg href, if_neg fun h => href h.1]

lemma content_issueProgress_own (candidate : Candidate Session Peer) (epoch : Nat) (stored : Bool) {nonce : Option Nat}
    (hnonce : nonce ∈ issueNonces recallRangeSize []) :
    (issueProgress recallRangeSize epoch candidate [] true stored nonce).content =
      if stored then none else some .doNotCache := by
  have hrange : nonce ∈ (List.range (nonceMax recallRangeSize + 1)).map some :=
    (mem_issueNonces.mp hnonce).resolve_right fun ⟨e, he, _⟩ => nomatch he
  cases stored with
  | true => simp only [Progress.content, issueProgress, if_pos, hrange, and_self, First.phase, Second.phase, content]
  | false => simp only [Progress.content, issueProgress, if_pos, Bool.false_eq_true, false_and, if_false, First.phase,
      Second.phase, content]

lemma cache_eq_of_fresh {nonces : Finset (Option Nat)} {f : Option Nat → Option Entry}
    (hfresh : ∀ nonce, w.chunkCache (ref, nonce) = none) (hnone : ∀ nonce ∈ nonces, f nonce = none) (key : CacheKey) :
    w.chunkCache key = if key.1 = ref ∧ key.2 ∈ nonces then f key.2 else w.chunkCache key := by
  split_ifs with hnew
  · rw [hnone key.2 hnew.2, ← hfresh key.2, ← hnew.1]
  · rfl

/-- What the first hash of a nonce limiter output leads to. -/
lemma handleComputedH0_cases {answers : Answers} {r : Worker Session Peer × List (Effect Session Peer)}
    (h : handleComputedH0 recallRangeSize answers candidate w = some r) :
    (askedFor .chunk1 r.2 = none ∧ (∃ ref, w.nextRef ≤ ref ∧ r.1 = { w with nextRef := ref }) ∧
      ∀ key, r.2.filterMap (h2For key) = []) ∨
    ∃ ref candidate', askedFor .chunk1 r.2 = some candidate' ∧ candidate'.sessionKey = candidate.sessionKey ∧
      Issues recallRangeSize w r.1 r.2 ref candidate' [] true (askedFor .chunk2 r.2).isSome := by
  unfold handleComputedH0 at h
  by_cases hspace : answers.hasCacheSpace
  swap
  · rw [if_neg hspace] at h
    cases h
    exact Or.inl ⟨rfl, ⟨_, le_rfl, rfl⟩, fun _ => rfl⟩
  rw [if_pos hspace] at h
  simp only [Option.bind_eq_bind, Option.bind_eq_some_iff] at h
  obtain ⟨h0, hh0, ⟨start1, start2⟩, hrange, h⟩ := h
  simp only [generateCacheRef] at h
  cases hexists1 : answers.rangeExists .chunk1 with
  | false =>
    rw [hexists1] at h
    cases h
    exact Or.inl ⟨rfl, ⟨_, Nat.le_succ _, rfl⟩, fun _ => rfl⟩
  | true =>
    right
    rw [hexists1] at h
    cases hexists2 : answers.rangeExists .chunk2 with
    | true =>
      rw [hexists2] at h
      cases h
      refine ⟨_, _, rfl, rfl, rfl, rfl, fun hfresh epoch key => ?_, fun epoch partition => ?_, rfl, rfl, rfl, fun _ => rfl⟩
      · exact cache_eq_of_fresh hfresh (fun _ hnonce => content_issueProgress_own _ epoch true hnonce) key
      · rw [show (askedFor Which.chunk2 _).isSome = true from rfl, sum_held_own]
        simp [add_assoc]
    | false =>
      rw [hexists2] at h
      cases h
      refine ⟨_, _, rfl, rfl, rfl, rfl, fun hfresh epoch key => ?_, fun epoch partition => ?_, ?_, ?_, ?_, fun _ => rfl⟩
      all_goals simp only [andThen_fst, doNotCache_eq]
      · split_ifs with hnew
        · exact (content_issueProgress_own _ epoch false hnew.2).symm
        · rfl
      · rw [show (askedFor Which.chunk2 _).isSome = false from rfl, sum_held_own]
        simp
      all_goals rfl

lemma content_issueProgress_peer (candidate : Candidate Session Peer) (epoch : Nat) {nonce : Option Nat}
    (hnonce : nonce ∈ issueNonces recallRangeSize h1List) :
    (issueProgress recallRangeSize epoch candidate h1List false true nonce).content =
      (h1List.find? fun e => some e.2 = nonce).map fun e => .peerH1 e.1 := by
  have hsecond := issueProgress_second recallRangeSize epoch candidate h1List false true nonce
  cases hfind : h1List.find? (fun e => some e.2 = nonce) with
  | none =>
    have hrange : nonce ∈ (List.range (nonceMax recallRangeSize + 1)).map some := by
      refine (mem_issueNonces.mp hnonce).resolve_right ?_
      rintro ⟨e, he, hnonce⟩
      exact List.find?_eq_none.mp hfind e he (decide_eq_true hnonce)
    simp only [Progress.content, issueProgress, Bool.false_eq_true, if_false, hfind, First.phase, hrange, and_self, if_true,
      Second.phase, content, Option.map_none]
  | some e =>
    have hfirst : (issueProgress recallRangeSize epoch candidate h1List false true nonce).first.phase = .given e.1 := by
      simp only [issueProgress, Bool.false_eq_true, if_false, hfind, First.phase]
    rw [Progress.content, hfirst]
    obtain hsecond | hsecond := hsecond <;> rw [hsecond] <;> rfl

/-- What the first hashes of a peer lead to. -/
lemma handleComputeH2ForPeer_cases (recallRangeSize : Nat) {answers : Answers} {r : Worker Session Peer × List (Effect Session Peer)}
    (h : handleComputeH2ForPeer answers candidate w = some r)
    (hnodup : answers.rangeExists .chunk2 = true → (candidate.cmH1List.map (·.2)).Nodup) :
    (askedFor .chunk2 r.2 = none ∧ (∃ ref, w.nextRef ≤ ref ∧ r.1 = { w with nextRef := ref }) ∧
      ∀ key, r.2.filterMap (h2For key) = []) ∨
    ∃ ref candidate', askedFor .chunk2 r.2 = some candidate' ∧ candidate'.sessionKey = candidate.sessionKey ∧
      Issues recallRangeSize w r.1 r.2 ref candidate' candidate.cmH1List false true := by
  simp only [handleComputeH2ForPeer, Option.bind_eq_bind, Option.bind_eq_some_iff] at h
  obtain ⟨h0, hh0, ⟨start1, start2⟩, hrange, h⟩ := h
  simp only [generateCacheRef] at h
  cases hexists : answers.rangeExists .chunk2 with
  | false =>
    rw [hexists] at h
    cases h
    exact Or.inl ⟨rfl, ⟨_, Nat.le_succ _, rfl⟩, fun _ => rfl⟩
  | true =>
    right
    rw [hexists] at h
    cases h
    refine ⟨_, _, rfl, rfl, rfl, rfl, fun hfresh epoch key => ?_, fun epoch partition => ?_, ?_, ?_, ?_, fun _ => rfl⟩
    all_goals simp only [andThen_fst, cacheH1List, foldl_put _ (fun e : Bytes × Nat => e.2) _ (hnodup hexists)]
    · by_cases href : key.1 = ⟨candidate.partitionNumber, some (start2 / partitionSize), candidate.partitionUpperBound, w.nextRef⟩
      · rw [if_pos href]
        by_cases hnonce : key.2 ∈ issueNonces recallRangeSize candidate.cmH1List
        · rw [if_pos ⟨href, hnonce⟩, content_issueProgress_peer _ epoch hnonce]
          cases hfind : candidate.cmH1List.find? (fun e => some e.2 = key.2) with
          | none =>
            refine Eq.trans ?_ (hfresh key.2)
            rw [← href]
            rfl
          | some e => rfl
        · rw [if_neg fun h => hnonce h.2, List.find?_eq_none.mpr fun e he hkey =>
            hnonce (mem_issueNonces.mpr (Or.inr ⟨e, he, of_decide_eq_true hkey⟩))]
          rfl
      · rw [if_neg href, if_neg fun h => href h.1]
        rfl
    · rw [sum_held_peer _ epoch (hnodup hexists)]
      exact updateChunkCacheSize_size
    all_goals rfl

end Issuing

end Arweave.Mining

import Mathlib.Algebra.GroupWithZero.Nat
import Arweave.Lib.Runs
import Arweave.Lib.Sorted

/-!
# The semaphore

A server gives out a number of slots. Processes call it and wait for a slot, the server monitors the
processes that hold one, and takes the slot back when such a process dies. A caller may give up after a
timeout and call again, which the server cannot see.
-/

namespace Arweave.Semaphore

open Lib

section Code

variable {Pid : Type} [LinearOrder Pid]

/-- The state of a server with a finite capacity. `waiting` are the processes that hold a slot. -/
structure Counter (Pid : Type) [LinearOrder Pid] where
  capacity : Int
  waiting : OrdSet Pid
  queue : List (Pid × Nat)

inductive Server (Pid : Type) [LinearOrder Pid] where
  | counting (counter : Counter Pid)
  | infinity

inductive Answer where
  | ok
  | process_already_waiting
  deriving DecidableEq

/-- What a handler does besides changing its state. -/
inductive Effect (Pid : Type) where
  | monitor (pid : Pid)
  | reply (pid : Pid) (ref : Nat) (answer : Answer)

def init : Option Int → Server Pid
  | some capacity => .counting ⟨capacity, OrdSet.empty, []⟩
  | none => .infinity

def acquire (k : Counter Pid) (fromPid : Pid) (fromRef : Nat) : Counter Pid × List (Effect Pid) :=
  if fromPid ∈ k.waiting then (k, [.reply fromPid fromRef .process_already_waiting])
  else if 0 < k.capacity then
    ({ k with capacity := k.capacity - 1, waiting := k.waiting.add fromPid },
      [.monitor fromPid, .reply fromPid fromRef .ok])
  else ({ k with queue := k.queue ++ [(fromPid, fromRef)] }, [])

def handleCall (server : Server Pid) (fromPid : Pid) (fromRef : Nat) : Server Pid × List (Effect Pid) :=
  match server with
  | .counting k => ((acquire k fromPid fromRef).map .counting id)
  | .infinity => (.infinity, [.reply fromPid fromRef .ok])

def dequeue (k : Counter Pid) : Counter Pid × List (Effect Pid) :=
  if 0 < k.capacity then
    match k.queue with
    | [] => (k, [])
    | (fromPid, fromRef) :: newQueue =>
      (⟨k.capacity - 1, k.waiting.add fromPid, newQueue⟩, [.monitor fromPid, .reply fromPid fromRef .ok])
  else (k, [])

def down (k : Counter Pid) (pid : Pid) : Counter Pid × List (Effect Pid) :=
  if pid ∈ k.waiting then dequeue { k with capacity := k.capacity + 1, waiting := k.waiting.erase pid }
  else (k, [])

/-- A server of infinite capacity monitors nothing. -/
def handleInfo (server : Server Pid) (pid : Pid) : Server Pid × List (Effect Pid) :=
  match server with
  | .counting k => ((down k pid).map .counting id)
  | .infinity => (.infinity, [])

inductive Message (Pid : Type) where
  | acquire (fromPid : Pid) (fromRef : Nat)
  | down (pid : Pid)
  deriving DecidableEq

/-- The server with its mailbox, its monitors of live processes, and the calls that processes wait in. -/
structure System (Pid : Type) [LinearOrder Pid] where
  server : Server Pid
  mailbox : List (Message Pid)
  monitors : List Pid
  dead : OrdSet Pid
  calls : SortedMap Pid Nat
  refs : Nat

def System.start (capacity : Option Int) : System Pid :=
  ⟨init capacity, [], [], OrdSet.empty, SortedMap.empty, 0⟩

/-- A monitor of a dead process fires at once. A late reply finds nobody waiting for it. -/
def System.perform (s : System Pid) : Effect Pid → System Pid
  | .monitor pid =>
    if pid ∈ s.dead then { s with mailbox := s.mailbox ++ [.down pid] }
    else { s with monitors := pid :: s.monitors }
  | .reply pid ref _ => if s.calls.lookup pid = some ref then { s with calls := s.calls.erase pid } else s

def System.receive (s : System Pid) (outcome : Server Pid × List (Effect Pid)) : System Pid :=
  outcome.2.foldl System.perform { s with server := outcome.1 }

inductive Event (Pid : Type) where
  | call (pid : Pid)
  | timeout (pid : Pid)
  | die (pid : Pid)
  | handle

/-- A process waits in one call at a time. The server takes its messages in order. -/
def System.step (s : System Pid) : Event Pid → Option (System Pid)
  | .call pid =>
    if pid ∈ s.dead ∨ s.calls.lookup pid ≠ none then none
    else some { s with
      mailbox := s.mailbox ++ [.acquire pid s.refs], calls := s.calls.insert pid s.refs, refs := s.refs + 1 }
  | .timeout pid =>
    if pid ∈ s.dead ∨ s.calls.lookup pid = none then none else some { s with calls := s.calls.erase pid }
  | .die pid =>
    if pid ∈ s.dead then none
    else some { s with
      mailbox := s.mailbox ++ (s.monitors.filter (· = pid)).map .down, monitors := s.monitors.filter (· ≠ pid),
      dead := s.dead.add pid }
  | .handle =>
    match s.mailbox with
    | [] => none
    | .acquire fromPid fromRef :: mailbox =>
      some ({ s with mailbox := mailbox }.receive (handleCall s.server fromPid fromRef))
    | .down pid :: mailbox => some ({ s with mailbox := mailbox }.receive (handleInfo s.server pid))

end Code

section Slots

variable {Pid : Type} [LinearOrder Pid] {k : Counter Pid} {s s' : System Pid} {pid fromPid : Pid} {ref fromRef : Nat}
  {c : Int} {event : Event Pid} {effects : List (Effect Pid)}

/-- The free slots and the held ones. -/
def Counter.slots (k : Counter Pid) : Int := k.capacity + k.waiting.elems.length

/-- The counter after a slot was taken back. -/
def Counter.release (k : Counter Pid) (pid : Pid) : Counter Pid :=
  { k with capacity := k.capacity + 1, waiting := k.waiting.erase pid }

/-- The first process in the queue does not hold a slot when it is given one. -/
def Counter.Clear (k : Counter Pid) : Prop :=
  0 < k.capacity → ∀ pid ref queue, k.queue = (pid, ref) :: queue → pid ∉ k.waiting

lemma slots_release (h : pid ∈ k.waiting) : (k.release pid).slots = k.slots := by
  have hlength := OrdSet.length_erase_add_one h
  unfold Counter.slots Counter.release
  simp only
  omega

lemma slots_grant (h : pid ∉ k.waiting) (queue : List (Pid × Nat)) :
    (⟨k.capacity - 1, k.waiting.add pid, queue⟩ : Counter Pid).slots = k.slots := by
  have hlength := OrdSet.length_add h
  unfold Counter.slots
  simp only
  omega

lemma slots_acquire : (acquire k fromPid fromRef).1.slots = k.slots := by
  unfold acquire
  split_ifs with hmem
  · rfl
  · exact slots_grant hmem _
  · rfl

lemma slots_dequeue : ((dequeue k).1.slots = k.slots ↔ k.Clear) ∧ (dequeue k).1.slots ≤ k.slots := by
  unfold dequeue Counter.Clear
  split_ifs with hcapacity
  · split
    · rename_i hqueue
      simp [hqueue]
    · rename_i fromPid fromRef newQueue hqueue
      by_cases hmem : fromPid ∈ k.waiting
      · have hslots : (⟨k.capacity - 1, k.waiting.add fromPid, newQueue⟩ : Counter Pid).slots = k.slots - 1 := by
          unfold Counter.slots
          rw [OrdSet.add_of_mem hmem]
          simp only
          omega
        simp only [hslots]
        refine ⟨⟨fun h => by omega, fun h => ?_⟩, by omega⟩
        exact (h hcapacity fromPid fromRef newQueue hqueue hmem).elim
      · have hslots := slots_grant hmem newQueue
        simp only [hslots]
        refine ⟨⟨fun _ _ pid ref queue heq => ?_, fun _ => trivial⟩, le_rfl⟩
        rw [hqueue] at heq
        cases heq
        exact hmem
  · exact ⟨⟨fun _ h => (hcapacity h).elim, fun _ => rfl⟩, le_rfl⟩

lemma slots_down (k : Counter Pid) (pid : Pid) : ((down k pid).1.slots = k.slots ↔ (pid ∈ k.waiting → (k.release pid).Clear)) ∧
    (down k pid).1.slots ≤ k.slots := by
  unfold down
  split_ifs with hmem
  · rw [← slots_release hmem]
    simp only [hmem, forall_const]
    exact slots_dequeue
  · exact ⟨⟨fun _ h => (hmem h).elim, fun _ => rfl⟩, le_rfl⟩

lemma perform_frame (effect : Effect Pid) :
    (s.perform effect).server = s.server ∧ (s.perform effect).dead = s.dead := by
  cases effect with
  | monitor pid =>
    simp only [System.perform]
    split_ifs <;> exact ⟨rfl, rfl⟩
  | reply pid ref answer =>
    simp only [System.perform]
    split_ifs <;> exact ⟨rfl, rfl⟩

lemma foldl_perform_frame :
    (effects.foldl System.perform s).server = s.server ∧ (effects.foldl System.perform s).dead = s.dead := by
  induction effects generalizing s with
  | nil => exact ⟨rfl, rfl⟩
  | cons effect effects ih =>
    obtain ⟨hserver, hdead⟩ := perform_frame (s := s) effect
    rw [List.foldl_cons, ih.1, ih.2, hserver, hdead]
    exact ⟨rfl, rfl⟩

lemma server_receive {outcome : Server Pid × List (Effect Pid)} : (s.receive outcome).server = outcome.1 :=
  foldl_perform_frame.1

lemma dead_receive {outcome : Server Pid × List (Effect Pid)} : (s.receive outcome).dead = s.dead :=
  foldl_perform_frame.2

def System.Conserved (c : Int) (s : System Pid) : Prop := ∃ k, s.server = .counting k ∧ k.slots = c

/-- A slot that the server takes back does not go to a process that holds one. -/
def Careful (s : System Pid) (event : Event Pid) : Prop :=
  ∀ k pid mailbox, event = .handle → s.server = .counting k → s.mailbox = .down pid :: mailbox → pid ∈ k.waiting →
    (k.release pid).Clear

/-- Every event but the return of a slot keeps the slots, and the return keeps them exactly when it is careful. -/
theorem step_conserved (hstep : s.step event = some s') (hs : s.Conserved c) : s'.Conserved c ↔ Careful s event := by
  obtain ⟨k, hserver, rfl⟩ := hs
  cases event with
  | call pid =>
    simp only [System.step] at hstep
    split_ifs at hstep
    cases hstep
    exact ⟨fun _ k pid mailbox heq => (by cases heq), fun _ => ⟨k, hserver, rfl⟩⟩
  | timeout pid =>
    simp only [System.step] at hstep
    split_ifs at hstep
    cases hstep
    exact ⟨fun _ k pid mailbox heq => (by cases heq), fun _ => ⟨k, hserver, rfl⟩⟩
  | die pid =>
    simp only [System.step] at hstep
    split_ifs at hstep
    cases hstep
    exact ⟨fun _ k pid mailbox heq => (by cases heq), fun _ => ⟨k, hserver, rfl⟩⟩
  | handle =>
    simp only [System.step] at hstep
    split at hstep
    · cases hstep
    · rename_i fromPid fromRef mailbox hmailbox
      cases hstep
      constructor
      · intro _ k' pid mailbox' _ _ heq
        rw [hmailbox] at heq
        cases heq
      · intro _
        refine ⟨(acquire k fromPid fromRef).1, ?_, slots_acquire⟩
        rw [server_receive, hserver]
        rfl
    · rename_i pid mailbox hmailbox
      cases hstep
      have hafter : ({ s with mailbox := mailbox }.receive (handleInfo s.server pid)).server =
          .counting (down k pid).1 := by
        rw [server_receive, hserver]
        rfl
      have hslots := (slots_down k pid).1
      constructor
      · rintro ⟨k', hk', heq⟩ k'' pid' mailbox' - hserver' hmailbox' hmem
        rw [hserver] at hserver'
        rw [hmailbox] at hmailbox'
        cases hserver'
        cases hmailbox'
        rw [hafter] at hk'
        cases hk'
        exact hslots.mp heq hmem
      · intro hcareful
        exact ⟨(down k pid).1, hafter, hslots.mpr fun hmem => hcareful k pid mailbox rfl hserver hmailbox hmem⟩

end Slots

section Holders

variable {Pid : Type} [LinearOrder Pid] {k : Counter Pid} {s s' : System Pid} {pid p fromPid : Pid} {ref fromRef : Nat}
  {c : Int} {event : Event Pid} {effects : List (Effect Pid)}

/-- The death of a process reaches the server: it is monitored, or the message is on its way. -/
structure System.Watches (s : System Pid) (p : Pid) : Prop where
  dead : p ∈ s.dead → .down p ∈ s.mailbox
  alive : p ∉ s.dead → p ∈ s.monitors

lemma watches_perform (effect : Effect Pid) (h : s.Watches p ∨ effect = .monitor p) : (s.perform effect).Watches p := by
  cases effect with
  | monitor pid =>
    simp only [System.perform]
    split_ifs with hdead
    · obtain h | ⟨⟨⟩⟩ := h
      · exact ⟨fun hp => List.mem_append_left _ (h.dead hp), h.alive⟩
      · exact ⟨fun _ => by simp, fun hp => (hp hdead).elim⟩
    · obtain h | ⟨⟨⟩⟩ := h
      · exact ⟨h.dead, fun hp => List.mem_cons_of_mem _ (h.alive hp)⟩
      · exact ⟨fun hp => (hdead hp).elim, fun _ => List.mem_cons_self⟩
  | reply pid ref answer =>
    have hwatch : s.Watches p := h.resolve_right (by rintro ⟨⟩)
    simp only [System.perform]
    split_ifs
    · exact ⟨hwatch.dead, hwatch.alive⟩
    · exact hwatch

lemma watches_foldl_perform (h : s.Watches p ∨ .monitor p ∈ effects) : (effects.foldl System.perform s).Watches p := by
  induction effects generalizing s with
  | nil => exact h.resolve_right List.not_mem_nil
  | cons effect effects ih =>
    apply ih
    obtain h | h := h
    · exact Or.inl (watches_perform effect (Or.inl h))
    · obtain rfl | h := List.mem_cons.mp h
      · exact Or.inl (watches_perform _ (Or.inr rfl))
      · exact Or.inr h

lemma waiting_acquire (h : p ∈ (acquire k fromPid fromRef).1.waiting) :
    p ∈ k.waiting ∨ .monitor p ∈ (acquire k fromPid fromRef).2 := by
  unfold acquire at h ⊢
  split_ifs at h ⊢
  · exact Or.inl h
  · obtain rfl | h := OrdSet.mem_add.mp h
    · exact Or.inr List.mem_cons_self
    · exact Or.inl h
  · exact Or.inl h

lemma waiting_dequeue (h : p ∈ (dequeue k).1.waiting) : p ∈ k.waiting ∨ .monitor p ∈ (dequeue k).2 := by
  unfold dequeue at h ⊢
  split_ifs at h ⊢
  · split at h
    · exact Or.inl h
    · obtain rfl | h := OrdSet.mem_add.mp h
      · exact Or.inr List.mem_cons_self
      · exact Or.inl h
  · exact Or.inl h

lemma waiting_down (h : p ∈ (down k pid).1.waiting) : (p ∈ k.waiting ∧ p ≠ pid) ∨ .monitor p ∈ (down k pid).2 := by
  unfold down at h ⊢
  split_ifs at h ⊢ with hmem
  · obtain h | h := waiting_dequeue h
    · exact Or.inl (OrdSet.mem_erase.mp h).symm
    · exact Or.inr h
  · refine Or.inl ⟨h, ?_⟩
    rintro rfl
    exact hmem h

/-- The free slots are not below their start, and no slot is created. -/
structure Counter.Bounded (c : Int) (k : Counter Pid) : Prop where
  low : min c 0 ≤ k.capacity
  high : k.slots ≤ c

lemma bounded_acquire (h : k.Bounded c) : (acquire k fromPid fromRef).1.Bounded c := by
  have hlow := h.low
  refine ⟨?_, slots_acquire.trans_le h.high⟩
  unfold acquire
  split_ifs
  · exact hlow
  · simp only
    omega
  · exact hlow

lemma bounded_down (h : k.Bounded c) : (down k pid).1.Bounded c := by
  have hlow := h.low
  refine ⟨?_, (slots_down _ _).2.trans h.high⟩
  unfold down
  split_ifs
  · unfold dequeue
    split_ifs with hcapacity
    · split <;> (simp only at hcapacity ⊢; omega)
    · simp only
      omega
  · exact hlow

/-- The server counts, within bounds, and every death of a holder reaches it. -/
structure System.Sound (c : Int) (s : System Pid) (k : Counter Pid) : Prop where
  server : s.server = .counting k
  bounded : k.Bounded c
  watches : ∀ p ∈ k.waiting, s.Watches p

lemma start_sound : (System.start (some c) : System Pid).Sound c ⟨c, OrdSet.empty, []⟩ := by
  refine ⟨rfl, ⟨min_le_left c 0, ?_⟩, fun p hp => (OrdSet.not_mem_empty hp).elim⟩
  simp [Counter.slots, OrdSet.empty]

lemma handle_cases (hserver : s.server = .counting k) (hstep : s.step .handle = some s') :
    (∃ fromPid fromRef mailbox, s.mailbox = .acquire fromPid fromRef :: mailbox ∧
      s' = { s with mailbox := mailbox }.receive (.counting (acquire k fromPid fromRef).1, (acquire k fromPid fromRef).2)) ∨
    ∃ pid mailbox, s.mailbox = .down pid :: mailbox ∧
      s' = { s with mailbox := mailbox }.receive (.counting (down k pid).1, (down k pid).2) := by
  simp only [System.step] at hstep
  split at hstep
  · cases hstep
  · rename_i fromPid fromRef mailbox hmailbox
    cases hstep
    rw [hserver]
    exact Or.inl ⟨fromPid, fromRef, mailbox, hmailbox, rfl⟩
  · rename_i pid mailbox hmailbox
    cases hstep
    rw [hserver]
    exact Or.inr ⟨pid, mailbox, hmailbox, rfl⟩

theorem step_sound (hs : s.Sound c k) (hstep : s.step event = some s') : ∃ k', s'.Sound c k' := by
  cases event with
  | call pid =>
    simp only [System.step] at hstep
    split_ifs at hstep
    cases hstep
    refine ⟨k, hs.server, hs.bounded, fun p hp => ?_⟩
    have hwatch := hs.watches p hp
    exact ⟨fun hdead => List.mem_append_left _ (hwatch.dead hdead), hwatch.alive⟩
  | timeout pid =>
    simp only [System.step] at hstep
    split_ifs at hstep
    cases hstep
    refine ⟨k, hs.server, hs.bounded, fun p hp => ?_⟩
    have hwatch := hs.watches p hp
    exact ⟨hwatch.dead, hwatch.alive⟩
  | die pid =>
    simp only [System.step] at hstep
    split_ifs at hstep
    cases hstep
    refine ⟨k, hs.server, hs.bounded, fun p hp => ?_⟩
    have hwatch := hs.watches p hp
    constructor
    · intro hdead
      by_cases hp' : p ∈ s.dead
      · exact List.mem_append_left _ (hwatch.dead hp')
      · -- the process that dies now was monitored
        obtain rfl := (OrdSet.mem_add.mp hdead).resolve_right hp'
        refine List.mem_append_right _ (List.mem_map.mpr ⟨p, ?_, rfl⟩)
        simpa using hwatch.alive hp'
    · intro hdead
      rw [OrdSet.mem_add, not_or] at hdead
      simpa [hdead.1] using hwatch.alive hdead.2
  | handle =>
    obtain ⟨fromPid, fromRef, mailbox, hmailbox, rfl⟩ | ⟨pid, mailbox, hmailbox, rfl⟩ := handle_cases hs.server hstep
    · refine ⟨_, server_receive, bounded_acquire hs.bounded, fun p hp => watches_foldl_perform ?_⟩
      obtain hold | hnew := waiting_acquire hp
      · have hwatch := hs.watches p hold
        refine Or.inl ⟨fun hdead => ?_, hwatch.alive⟩
        simpa [hmailbox] using hwatch.dead hdead
      · exact Or.inr hnew
    · refine ⟨_, server_receive, bounded_down hs.bounded, fun p hp => watches_foldl_perform ?_⟩
      obtain ⟨hold, hne⟩ | hnew := waiting_down hp
      · have hwatch := hs.watches p hold
        refine Or.inl ⟨fun hdead => ?_, hwatch.alive⟩
        simpa [hmailbox, hne] using hwatch.dead hdead
      · exact Or.inr hnew

end Holders

section Runs

variable {Pid : Type} [LinearOrder Pid] {k : Counter Pid} {s s' : System Pid} {pid p fromPid : Pid} {ref fromRef : Nat}
  {c : Int} {event : Event Pid} {events : List (Event Pid)} {effects : List (Effect Pid)}

/-- The slots are conserved all along a run exactly when every returned slot is passed on with care. -/
theorem run_conserved_iff (hs : s.Conserved c) (hrun : events.foldlM System.step s = some s') :
    (∀ before after r, events = before ++ after → before.foldlM System.step s = some r → r.Conserved c) ↔
      Along System.step Careful s events := by
  induction events generalizing s with
  | nil =>
    refine ⟨fun _ => along_nil, ?_⟩
    intro _ before after r heq hbefore
    obtain ⟨rfl, rfl⟩ := List.nil_eq_append_iff.mp heq
    cases hbefore
    exact hs
  | cons event events ih =>
    rw [List.foldlM_cons] at hrun
    obtain ⟨s1, hs1, hrest⟩ := Option.bind_eq_some_iff.mp hrun
    have hfirst := step_conserved hs1 hs
    rw [along_cons]
    constructor
    · intro h
      have hs1c : s1.Conserved c := h [event] events s1 rfl (by rw [List.foldlM_cons, hs1]; rfl)
      refine ⟨hfirst.mp hs1c, ?_⟩
      intro s1' hs1'
      obtain rfl := Option.some.inj (hs1.symm.trans hs1')
      refine (ih hs1c hrest).mp fun before after r heq hbefore => ?_
      exact h (event :: before) after r (by rw [heq]; rfl) (by rw [List.foldlM_cons, hs1]; exact hbefore)
    · rintro ⟨hcareful, halong⟩ before after r heq hbefore
      cases before with
      | nil =>
        cases hbefore
        exact hs
      | cons event' before =>
        obtain ⟨rfl, htail⟩ := List.cons.inj heq
        rw [List.foldlM_cons, hs1] at hbefore
        exact (ih (hfirst.mpr hcareful) hrest).mpr (halong s1 hs1) before after r htail hbefore

def Message.weight : Message Pid → Nat
  | .acquire .. => 3
  | .down _ => 1

/-- A bound on the messages that the server handles before its mailbox is empty. -/
def System.weight (s : System Pid) (k : Counter Pid) : Nat := (s.mailbox.map Message.weight).sum + 2 * k.queue.length

def Effect.isMonitor : Effect Pid → Bool
  | .monitor _ => true
  | .reply .. => false

lemma mailbox_foldl_perform (s : System Pid) (effects : List (Effect Pid)) :
    ((effects.foldl System.perform s).mailbox.map Message.weight).sum ≤
      (s.mailbox.map Message.weight).sum + effects.countP Effect.isMonitor ∧
    ∀ p ref, .acquire p ref ∈ (effects.foldl System.perform s).mailbox → .acquire p ref ∈ s.mailbox := by
  induction effects generalizing s with
  | nil => exact ⟨le_rfl, fun _ _ h => h⟩
  | cons effect effects ih =>
    rw [List.foldl_cons, List.countP_cons]
    obtain ⟨hweight, hacquire⟩ := ih (s := s.perform effect)
    have hone : ((s.perform effect).mailbox.map Message.weight).sum ≤
        (s.mailbox.map Message.weight).sum + (if effect.isMonitor then 1 else 0) ∧
        ∀ p ref, .acquire p ref ∈ (s.perform effect).mailbox → .acquire p ref ∈ s.mailbox := by
      cases effect with
      | monitor pid =>
        simp only [System.perform]
        by_cases hdead : pid ∈ s.dead
        · rw [if_pos hdead]
          refine ⟨by simp [Message.weight, Effect.isMonitor], fun p ref h => ?_⟩
          simpa using h
        · rw [if_neg hdead]
          exact ⟨Nat.le_add_right _ _, fun _ _ h => h⟩
      | reply pid ref answer =>
        simp only [System.perform]
        by_cases hcall : s.calls.lookup pid = some ref
        · rw [if_pos hcall]
          exact ⟨Nat.le_add_right _ _, fun _ _ h => h⟩
        · rw [if_neg hcall]
          exact ⟨Nat.le_add_right _ _, fun _ _ h => h⟩
    exact ⟨by omega, fun p ref h => hone.2 p ref (hacquire p ref h)⟩

omit [LinearOrder Pid] in
lemma countP_grant (fromPid : Pid) (fromRef : Nat) :
    [Effect.monitor fromPid, .reply fromPid fromRef .ok].countP Effect.isMonitor = 1 := rfl

lemma weight_acquire (k : Counter Pid) (fromPid : Pid) (fromRef : Nat) : 2 * (acquire k fromPid fromRef).1.queue.length +
    (acquire k fromPid fromRef).2.countP Effect.isMonitor ≤ 2 * k.queue.length + 2 := by
  unfold acquire
  split_ifs
  · exact Nat.le_add_right _ 2
  · rw [countP_grant]
    simp only
    omega
  · simp [Nat.mul_add]

lemma weight_down (k : Counter Pid) (pid : Pid) : 2 * (down k pid).1.queue.length + (down k pid).2.countP Effect.isMonitor ≤ 2 * k.queue.length := by
  unfold down
  split_ifs
  · unfold dequeue
    split_ifs
    · split
      · exact le_rfl
      · rename_i fromPid fromRef newQueue hqueue
        simp only at hqueue
        rw [countP_grant, hqueue, List.length_cons]
        simp only
        omega
    · exact le_rfl
  · exact le_rfl

/-- Whoever holds a slot, waits for one or asks for one is dead. -/
structure System.Deserted (s : System Pid) (k : Counter Pid) : Prop where
  waiting : ∀ p ∈ k.waiting, p ∈ s.dead
  queue : ∀ e ∈ k.queue, e.1 ∈ s.dead
  mailbox : ∀ p ref, .acquire p ref ∈ s.mailbox → p ∈ s.dead

lemma queue_acquire {e : Pid × Nat} (h : e ∈ (acquire k fromPid fromRef).1.queue) : e ∈ k.queue ∨ e.1 = fromPid := by
  unfold acquire at h
  split_ifs at h
  · exact Or.inl h
  · exact Or.inl h
  · obtain h | h := List.mem_append.mp h
    · exact Or.inl h
    · rw [List.mem_singleton.mp h]
      exact Or.inr rfl

lemma waiting_of_acquire (h : p ∈ (acquire k fromPid fromRef).1.waiting) : p ∈ k.waiting ∨ p = fromPid := by
  unfold acquire at h
  split_ifs at h
  · exact Or.inl h
  · exact (OrdSet.mem_add.mp h).symm
  · exact Or.inl h

lemma mem_down (k : Counter Pid) (pid : Pid) : (∀ p ∈ (down k pid).1.waiting, p ∈ k.waiting ∨ ∃ ref, (p, ref) ∈ k.queue) ∧
    ∀ e ∈ (down k pid).1.queue, e ∈ k.queue := by
  unfold down
  split_ifs
  · unfold dequeue
    split_ifs
    · split
      · rename_i hqueue
        exact ⟨fun p hp => Or.inl (OrdSet.mem_erase.mp hp).2, fun e he => he⟩
      · rename_i fromPid fromRef newQueue hqueue
        simp only at hqueue
        rw [hqueue]
        refine ⟨fun p hp => ?_, fun e he => List.mem_cons_of_mem _ he⟩
        obtain rfl | hp := OrdSet.mem_add.mp hp
        · exact Or.inr ⟨fromRef, List.mem_cons_self⟩
        · exact Or.inl (OrdSet.mem_erase.mp hp).2
    · exact ⟨fun p hp => Or.inl (OrdSet.mem_erase.mp hp).2, fun e he => he⟩
  · exact ⟨fun p hp => Or.inl hp, fun e he => he⟩

/-- Handling a message brings the server closer to an empty mailbox and gives no slot to a live process. -/
lemma handle_deserted (hs : s.Sound c k) (hd : s.Deserted k) (hne : s.mailbox ≠ []) :
    ∃ s' k', s.step .handle = some s' ∧ s'.Sound c k' ∧ s'.Deserted k' ∧ s'.weight k' < s.weight k := by
  obtain ⟨m, mailbox, hmailbox⟩ := List.exists_cons_of_ne_nil hne
  have hstep : ∃ s', s.step .handle = some s' := by
    simp only [System.step, hmailbox]
    cases m <;> exact ⟨_, rfl⟩
  obtain ⟨s', hs'⟩ := hstep
  obtain ⟨k', hsound⟩ := step_sound hs hs'
  refine ⟨s', k', hs', hsound, ?_⟩
  have hserver := hsound.server
  obtain ⟨fromPid, fromRef, mailbox, hmailbox, rfl⟩ | ⟨pid, mailbox, hmailbox, rfl⟩ := handle_cases hs.server hs'
  · rw [server_receive] at hserver
    cases hserver
    obtain ⟨hweight, hacquire⟩ := mailbox_foldl_perform
      { s with mailbox := mailbox, server := .counting (acquire k fromPid fromRef).1 } (acquire k fromPid fromRef).2
    have hfrom : fromPid ∈ s.dead := hd.mailbox fromPid fromRef (by rw [hmailbox]; exact List.mem_cons_self)
    refine ⟨⟨?_, ?_, ?_⟩, ?_⟩
    · intro p hp
      rw [dead_receive]
      obtain hp | rfl := waiting_of_acquire hp
      · exact hd.waiting p hp
      · exact hfrom
    · intro e he
      rw [dead_receive]
      obtain he | he := queue_acquire he
      · exact hd.queue e he
      · rw [he]
        exact hfrom
    · intro p ref hp
      rw [dead_receive]
      exact hd.mailbox p ref (by rw [hmailbox]; exact List.mem_cons_of_mem _ (hacquire p ref hp))
    · have hqueue := weight_acquire k fromPid fromRef
      unfold System.weight System.receive
      rw [hmailbox, List.map_cons, List.sum_cons]
      simp only [Message.weight] at hweight ⊢
      omega
  · rw [server_receive] at hserver
    cases hserver
    obtain ⟨hweight, hacquire⟩ := mailbox_foldl_perform
      { s with mailbox := mailbox, server := .counting (down k pid).1 } (down k pid).2
    obtain ⟨hwaiting, hqueue⟩ := mem_down k pid
    refine ⟨⟨?_, ?_, ?_⟩, ?_⟩
    · intro p hp
      rw [dead_receive]
      obtain hp | ⟨ref, hp⟩ := hwaiting p hp
      · exact hd.waiting p hp
      · exact hd.queue (p, ref) hp
    · intro e he
      rw [dead_receive]
      exact hd.queue e (hqueue e he)
    · intro p ref hp
      rw [dead_receive]
      exact hd.mailbox p ref (by rw [hmailbox]; exact List.mem_cons_of_mem _ (hacquire p ref hp))
    · have hlength := weight_down k pid
      unfold System.weight System.receive
      rw [hmailbox, List.map_cons, List.sum_cons]
      simp only [Message.weight] at hweight ⊢
      omega

/-- The server empties its mailbox, and then no dead process holds a slot. -/
theorem drains (hs : s.Sound c k) (hd : s.Deserted k) :
    ∃ n s' k', (List.replicate n .handle).foldlM System.step s = some s' ∧ s'.Sound c k' ∧ s'.mailbox = [] ∧
      k'.waiting = OrdSet.empty := by
  induction hw : s.weight k using Nat.strong_induction_on generalizing s k with
  | h w ih =>
    by_cases hne : s.mailbox = []
    · refine ⟨0, s, k, rfl, hs, hne, OrdSet.ext_mem fun p => ⟨fun hp => ?_, fun hp => (OrdSet.not_mem_empty hp).elim⟩⟩
      have hdown := (hs.watches p hp).dead (hd.waiting p hp)
      rw [hne] at hdown
      cases hdown
    · obtain ⟨s1, k1, hstep, hs1, hd1, hlt⟩ := handle_deserted hs hd hne
      obtain ⟨n, s', k', hrun, hrest⟩ := ih _ (hw ▸ hlt) hs1 hd1 rfl
      refine ⟨n + 1, s', k', ?_, hrest⟩
      rw [List.replicate_succ, List.foldlM_cons, hstep]
      exact hrun

lemma run_sound (hrun : events.foldlM System.step (System.start (some c)) = some s) : ∃ k, s.Sound c k :=
  foldlM_preserves (P := fun s => ∃ k, s.Sound c k) ⟨_, start_sound⟩ (fun _ _ _ _ ⟨_, hs⟩ hstep => step_sound hs hstep) hrun

/-- The free slots and the holders add up to the capacity all along a run exactly when no slot is passed on to a
process that holds one. At most as many live processes hold a slot as there are. Once everybody is dead the
server comes to rest without holders, and with the full capacity if it passed the slots on with care. -/
theorem semaphore_slots (c : Int) (events : List (Event Pid)) (s : System Pid)
    (hrun : events.foldlM System.step (System.start (some c)) = some s) :
    ((∀ before after r, events = before ++ after → before.foldlM System.step (System.start (some c)) = some r →
      r.Conserved c) ↔ Along System.step Careful (System.start (some c)) events) ∧
    ∃ k, s.server = .counting k ∧ ((k.waiting.elems.filter (· ∉ s.dead)).length ≤ max c 0) ∧
      (s.Deserted k → ∃ n s' k', (List.replicate n .handle).foldlM System.step s = some s' ∧ s'.mailbox = [] ∧
        s'.server = .counting k' ∧ k'.waiting = OrdSet.empty ∧
        (Along System.step Careful (System.start (some c)) (events ++ List.replicate n Event.handle) → k'.capacity = c)) := by
  have hstart : (System.start (some c) : System Pid).Conserved c := ⟨_, start_sound.server, by
    simp [Counter.slots, OrdSet.empty]⟩
  obtain ⟨k, hs⟩ := run_sound hrun
  refine ⟨run_conserved_iff hstart hrun, k, hs.server, ?_, ?_⟩
  · have hlow := hs.bounded.low
    have hhigh := hs.bounded.high
    have hle := List.length_filter_le (fun p => decide (p ∉ s.dead)) k.waiting.elems
    unfold Counter.slots at hhigh
    omega
  · intro hd
    obtain ⟨n, s', k', hdrain, hs', hempty, hnone⟩ := drains hs hd
    refine ⟨n, s', k', hdrain, hempty, hs'.server, hnone, ?_⟩
    intro hcareful
    have hwhole : (events ++ List.replicate n Event.handle).foldlM System.step (System.start (some c)) = some s' := by
      rw [List.foldlM_append, hrun]
      exact hdrain
    obtain ⟨k'', hserver, hslots⟩ := (run_conserved_iff hstart hwhole).mpr hcareful _ [] s' (List.append_nil _).symm hwhole
    rw [hs'.server] at hserver
    cases hserver
    rw [Counter.slots, hnone] at hslots
    simpa [OrdSet.empty] using hslots

/-- Processes one and two hold the slots. The third calls, gives up, calls again, and is given both slots. -/
def impatientRun : List (Event Nat) :=
  [.call 1, .handle, .call 2, .handle, .call 3, .handle, .timeout 3, .call 3, .handle, .die 1, .handle, .die 2, .handle]

/-- A process that is queued twice takes two slots and returns one. -/
theorem impatient_caller_loses_slot :
    (∃ s k, impatientRun.foldlM System.step (System.start (some 2)) = some s ∧ s.server = .counting k ∧
      k.capacity = 0 ∧ k.waiting.elems = [3]) ∧
    ∃ s k, (impatientRun ++ [Event.die 3, .handle, .handle]).foldlM System.step (System.start (some 2)) = some s ∧
      s.server = .counting k ∧ s.mailbox = [] ∧ k.waiting.elems = [] ∧ k.queue = [] ∧ k.capacity = 1 :=
  ⟨⟨_, _, rfl, rfl, rfl, rfl⟩, ⟨_, _, rfl, rfl, rfl, rfl, rfl, rfl⟩⟩

def sharedRun : List (Event Nat) := [.call 1, .handle, .call 2, .handle, .die 1, .handle]

/-- Two callers share one slot, the holder dies, and the other one is given it. -/
theorem semaphore_slots_sample : ∃ s k, sharedRun.foldlM System.step (System.start (some 1)) = some s ∧
    s.server = .counting k ∧ ((k.waiting.elems.filter (· ∉ s.dead)).length ≤ max (1 : Int) 0) ∧ k.waiting.elems = [2] := by
  obtain ⟨-, k, hserver, hholders, -⟩ := semaphore_slots 1 sharedRun _ rfl
  refine ⟨_, k, rfl, hserver, hholders, ?_⟩
  cases hserver
  rfl

end Runs

end Arweave.Semaphore

import Mathlib.Data.List.Nodup
import Arweave.Lib.Histories

/-!
# The ignore registry

A bag holds permanent and temporary records of identifiers. Putting a temporary record also starts a timer that
removes the temporary record of its identifier, whoever put it there. The permanent records are asked for by matching
the whole answer of a lookup, so a temporary record of the same identifier hides a permanent one.
-/

namespace Arweave.IgnoreRegistry

open Lib

section Code

variable {ID : Type} [DecidableEq ID]

inductive Kind where
  | permanent
  | temporary
  deriving DecidableEq

/-- The records, in the order they were put, and the timers that did not fire. -/
structure Registry (ID : Type) where
  ignoredIds : List (ID × Kind) := []
  timers : List (Nat × ID) := []
  deriving DecidableEq

/-- A bag keeps one copy of a record. -/
def Registry.insert (s : Registry ID) (record : ID × Kind) : Registry ID :=
  { s with ignoredIds := if record ∈ s.ignoredIds then s.ignoredIds else s.ignoredIds ++ [record] }

def Registry.deleteObject (s : Registry ID) (record : ID × Kind) : Registry ID :=
  { s with ignoredIds := s.ignoredIds.filter (· ≠ record) }

def Registry.lookup (s : Registry ID) (id : ID) : List (ID × Kind) := s.ignoredIds.filter (·.1 = id)

def add (s : Registry ID) (id : ID) : Registry ID := s.insert (id, .permanent)

def remove (s : Registry ID) (id : ID) : Registry ID := s.deleteObject (id, .permanent)

/-- The timer is the one that was started. -/
def addTemporary (s : Registry ID) (id : ID) (timer : Nat) : Registry ID :=
  { s.insert (id, .temporary) with timers := (timer, id) :: s.timers }

def removeTemporary (s : Registry ID) (id : ID) : Registry ID := s.deleteObject (id, .temporary)

def member (s : Registry ID) (id : ID) : Bool :=
  match s.lookup id with
  | [] => false
  | _ => true

def permanentMember (s : Registry ID) (id : ID) : Bool :=
  match s.lookup id with
  | [(_, .permanent)] => true
  | _ => false

inductive Op (ID : Type) where
  | add (id : ID)
  | remove (id : ID)
  | addTemporary (id : ID) (timer : Nat)
  | removeTemporary (id : ID)
  | expire (timer : Nat)
  deriving DecidableEq

/-- A new timer differs from those that run, and only a running timer fires. -/
def step (s : Registry ID) : Op ID → Option (Registry ID)
  | .add id => some (add s id)
  | .remove id => some (remove s id)
  | .addTemporary id timer => if timer ∈ s.timers.map Prod.fst then none else some (addTemporary s id timer)
  | .removeTemporary id => some (removeTemporary s id)
  | .expire timer =>
    match s.timers.find? (·.1 = timer) with
    | none => none
    | some (_, id) => some (removeTemporary { s with timers := s.timers.filter (·.1 ≠ timer) } id)

end Code

section Records

variable {ID : Type} [DecidableEq ID] {s s' : Registry ID} {id id' : ID} {timer : Nat} {kind : Kind} {op : Op ID}
  {record : ID × Kind}

@[simp] lemma mem_insert {record' : ID × Kind} :
    record' ∈ (s.insert record).ignoredIds ↔ record' ∈ s.ignoredIds ∨ record' = record := by
  unfold Registry.insert
  by_cases h : record ∈ s.ignoredIds
  · simp only [h, if_true]
    constructor
    · exact Or.inl
    · rintro (hmem | rfl)
      · exact hmem
      · exact h
  · simp [h]

@[simp] lemma mem_deleteObject {record' : ID × Kind} :
    record' ∈ (s.deleteObject record).ignoredIds ↔ record' ∈ s.ignoredIds ∧ record' ≠ record := by
  simp [Registry.deleteObject]

@[simp] lemma timers_insert : (s.insert record).timers = s.timers := rfl

@[simp] lemma timers_deleteObject : (s.deleteObject record).timers = s.timers := rfl

lemma nodup_insert (h : s.ignoredIds.Nodup) : (s.insert record).ignoredIds.Nodup := by
  unfold Registry.insert
  by_cases hmem : record ∈ s.ignoredIds
  · simpa [hmem] using h
  · simp only [hmem, if_false]
    exact List.nodup_append.mpr ⟨h, List.nodup_singleton record, by
      rintro a ha b hb rfl
      exact hmem (List.mem_singleton.mp hb ▸ ha)⟩

lemma nodup_deleteObject (h : s.ignoredIds.Nodup) : (s.deleteObject record).ignoredIds.Nodup := h.filter _

lemma nodup_lookup (h : s.ignoredIds.Nodup) : (s.lookup id).Nodup := h.filter _

lemma mem_lookup : record ∈ s.lookup id ↔ record ∈ s.ignoredIds ∧ record.1 = id := by
  simp [Registry.lookup]

lemma member_iff : member s id = true ↔ (id, Kind.permanent) ∈ s.ignoredIds ∨ (id, Kind.temporary) ∈ s.ignoredIds := by
  have hne : member s id = true ↔ s.lookup id ≠ [] := by
    unfold member
    cases s.lookup id <;> simp
  rw [hne, Ne, List.eq_nil_iff_forall_not_mem]
  constructor
  · intro h
    push Not at h
    obtain ⟨⟨id', kind⟩, hfound⟩ := h
    obtain ⟨hrecord, rfl⟩ := mem_lookup.mp hfound
    cases kind with
    | permanent => exact Or.inl hrecord
    | temporary => exact Or.inr hrecord
  · rintro (hmem | hmem) hnone
    · exact hnone _ (mem_lookup.mpr ⟨hmem, rfl⟩)
    · exact hnone _ (mem_lookup.mpr ⟨hmem, rfl⟩)

lemma permanentMember_eq_true : permanentMember s id = true ↔ ∃ id', s.lookup id = [(id', .permanent)] := by
  unfold permanentMember
  constructor
  · intro h
    split at h
    · exact ⟨_, ‹_›⟩
    · cases h
  · rintro ⟨id', hlookup⟩
    rw [hlookup]

lemma permanentMember_iff (h : s.ignoredIds.Nodup) :
    permanentMember s id = true ↔ (id, Kind.permanent) ∈ s.ignoredIds ∧ (id, Kind.temporary) ∉ s.ignoredIds := by
  rw [permanentMember_eq_true]
  constructor
  · rintro ⟨id', hlookup⟩
    have hfirst : (id', Kind.permanent) ∈ s.lookup id := by rw [hlookup]; simp
    obtain ⟨hmem, rfl⟩ := mem_lookup.mp hfirst
    refine ⟨hmem, fun htemp => ?_⟩
    have hsecond := mem_lookup.mpr ⟨htemp, rfl⟩
    rw [hlookup] at hsecond
    simp at hsecond
  · rintro ⟨hmem, htemp⟩
    refine ⟨id, List.perm_singleton.mp ((List.perm_ext_iff_of_nodup (nodup_lookup h) (List.nodup_singleton _)).mpr ?_)⟩
    rintro ⟨id', kind⟩
    rw [mem_lookup, List.mem_singleton]
    constructor
    · rintro ⟨hrecord, rfl⟩
      cases kind with
      | permanent => rfl
      | temporary => exact absurd hrecord htemp
    · rintro heq
      cases heq
      exact ⟨hmem, rfl⟩

end Records

section History

variable {ID : Type} {history : List (Op ID)} {op : Op ID} {s : Registry ID} {id id' : ID} {timer : Nat}

/-- The last addition or removal of an identifier is an addition. -/
def LastAdded (history : List (Op ID)) (id : ID) : Prop := Since (· = .remove id) (.add id) history

/-- A temporary record was put with a timer, no later call removed it, and its own timer did not fire. -/
def Unexpired (history : List (Op ID)) (id : ID) (timer : Nat) : Prop :=
  Since (fun op => op = .removeTemporary id ∨ op = .expire timer) (.addTemporary id timer) history

lemma lastAdded_concat :
    LastAdded (history ++ [op]) id ↔ op = .add id ∨ LastAdded history id ∧ op ≠ .remove id := since_concat

lemma unexpired_concat : Unexpired (history ++ [op]) id timer ↔
    op = .addTemporary id timer ∨ Unexpired history id timer ∧ op ≠ .removeTemporary id ∧ op ≠ .expire timer := by
  rw [Unexpired, since_concat, not_or]
  rfl

/-- A running timer has one identifier. -/
structure Running (s : Registry ID) : Prop where
  nodup : s.ignoredIds.Nodup
  timers : (s.timers.map Prod.fst).Nodup

lemma Running.unique (h : Running s) (hid : (timer, id) ∈ s.timers) (hid' : (timer, id') ∈ s.timers) : id = id' :=
  congrArg Prod.snd (List.inj_on_of_nodup_map h.timers hid hid' rfl)

end History

section Steps

variable {ID : Type} [DecidableEq ID] {history ops : List (Op ID)} {op : Op ID} {s s' : Registry ID} {id id' : ID}
  {timer : Nat}

lemma step_addTemporary (h : step s (.addTemporary id timer) = some s') :
    timer ∉ s.timers.map Prod.fst ∧ s' = addTemporary s id timer := by
  simp only [step] at h
  split at h
  · cases h
  · exact ⟨‹_›, (Option.some.inj h).symm⟩

lemma step_expire (h : step s (.expire timer) = some s') :
    ∃ id, (timer, id) ∈ s.timers ∧
      s' = removeTemporary { s with timers := s.timers.filter (·.1 ≠ timer) } id := by
  simp only [step] at h
  cases hfind : s.timers.find? (·.1 = timer) with
  | none =>
    rw [hfind] at h
    cases h
  | some entry =>
    rw [hfind] at h
    have htimer : entry.1 = timer := by simpa using List.find?_some hfind
    refine ⟨entry.2, ?_, (Option.some.inj h).symm⟩
    rw [← htimer]
    exact List.mem_of_find?_eq_some hfind

lemma running_step (h : Running s) (hs : step s op = some s') : Running s' := by
  cases op with
  | add id =>
    cases hs
    exact ⟨nodup_insert h.nodup, h.timers⟩
  | remove id =>
    cases hs
    exact ⟨nodup_deleteObject h.nodup, h.timers⟩
  | addTemporary id timer =>
    obtain ⟨hfresh, rfl⟩ := step_addTemporary hs
    exact ⟨nodup_insert h.nodup, List.nodup_cons.mpr ⟨hfresh, h.timers⟩⟩
  | removeTemporary id =>
    cases hs
    exact ⟨nodup_deleteObject h.nodup, h.timers⟩
  | expire timer =>
    obtain ⟨id, -, rfl⟩ := step_expire hs
    exact ⟨nodup_deleteObject h.nodup, h.timers.sublist (List.filter_sublist.map _)⟩

lemma permanent_step (hs : step s op = some s') :
    (id, Kind.permanent) ∈ s'.ignoredIds ↔ op = .add id ∨ (id, Kind.permanent) ∈ s.ignoredIds ∧ op ≠ .remove id := by
  cases op with
  | add id' =>
    cases hs
    simp [add, or_comm, eq_comm]
  | remove id' =>
    cases hs
    simp [remove, eq_comm]
  | addTemporary id' timer =>
    obtain ⟨-, rfl⟩ := step_addTemporary hs
    simp [addTemporary]
  | removeTemporary id' =>
    cases hs
    simp [removeTemporary]
  | expire timer =>
    obtain ⟨id', -, rfl⟩ := step_expire hs
    simp [removeTemporary]

lemma temporary_step (h : Running s) (hs : step s op = some s') : (id, Kind.temporary) ∈ s'.ignoredIds ↔
    (∃ timer, op = .addTemporary id timer) ∨
      (id, Kind.temporary) ∈ s.ignoredIds ∧ op ≠ .removeTemporary id ∧
        ∀ timer, op = .expire timer → (timer, id) ∉ s.timers := by
  cases op with
  | add id' =>
    cases hs
    simp [add]
  | remove id' =>
    cases hs
    simp [remove]
  | addTemporary id' timer =>
    obtain ⟨-, rfl⟩ := step_addTemporary hs
    simp [addTemporary, or_comm, eq_comm]
  | removeTemporary id' =>
    cases hs
    simp [removeTemporary, eq_comm]
  | expire timer =>
    obtain ⟨id', hid', rfl⟩ := step_expire hs
    have hone : (timer, id) ∈ s.timers ↔ id = id' := ⟨fun hid => h.unique hid hid', by rintro rfl; exact hid'⟩
    simp [removeTemporary, hone]

lemma timers_step (hs : step s op = some s') :
    (timer, id) ∈ s'.timers ↔ op = .addTemporary id timer ∨ (timer, id) ∈ s.timers ∧ op ≠ .expire timer := by
  cases op with
  | add id' =>
    cases hs
    simp [add]
  | remove id' =>
    cases hs
    simp [remove]
  | addTemporary id' timer' =>
    obtain ⟨-, rfl⟩ := step_addTemporary hs
    have hput : (timer, id) = (timer', id') ↔ Op.addTemporary id' timer' = .addTemporary id timer := by
      constructor <;> intro heq <;> cases heq <;> rfl
    simp only [addTemporary, List.mem_cons, hput]
    simp
  | removeTemporary id' =>
    cases hs
    simp [removeTemporary]
  | expire timer' =>
    obtain ⟨id', -, rfl⟩ := step_expire hs
    simp [removeTemporary, @eq_comm _ timer']

/-- The queries answer by the calls and the timers that went before. -/
def Exact (history : List (Op ID)) (s : Registry ID) : Prop :=
  ∀ id, (permanentMember s id = true ↔ LastAdded history id) ∧
    (member s id = true ↔ LastAdded history id ∨ ∃ timer, Unexpired history id timer)

/-- No operation brings a permanent and a temporary record of one identifier together, and no timer fires while
another temporary record of its identifier is to stay. -/
def Apart (history : List (Op ID)) (s : Registry ID) : Op ID → Prop
  | .add id => (id, Kind.temporary) ∉ s.ignoredIds
  | .addTemporary id _ => (id, Kind.permanent) ∉ s.ignoredIds
  | .expire timer => ∀ id, (timer, id) ∈ s.timers → ∀ timer', Unexpired history id timer' → timer' = timer
  | _ => True

/-- The permanent records are those that were added last, and a temporary record that is to stay has its timer. -/
structure Tracks (history : List (Op ID)) (s : Registry ID) : Prop extends Running s where
  permanent : ∀ id, (id, Kind.permanent) ∈ s.ignoredIds ↔ LastAdded history id
  live : ∀ id timer, Unexpired history id timer → (timer, id) ∈ s.timers

lemma Tracks.step (h : Tracks history s) (hs : step s op = some s') : Tracks (history ++ [op]) s' where
  toRunning := running_step h.toRunning hs
  permanent id := by rw [permanent_step hs, lastAdded_concat, h.permanent]
  live id timer hlive := by
    rw [timers_step hs]
    rcases unexpired_concat.mp hlive with hput | ⟨hlive, -, hfire⟩
    · exact Or.inl hput
    · exact Or.inr ⟨h.live id timer hlive, hfire⟩

/-- The temporary records are those that are to stay, and none is beside a permanent one. -/
structure Settled (history : List (Op ID)) (s : Registry ID) : Prop extends Tracks history s where
  temporary : ∀ id, (id, Kind.temporary) ∈ s.ignoredIds ↔ ∃ timer, Unexpired history id timer
  single : ∀ id, (id, Kind.permanent) ∈ s.ignoredIds → (id, Kind.temporary) ∉ s.ignoredIds

omit [DecidableEq ID] in
lemma settled_init : Settled [] ({} : Registry ID) where
  nodup := List.nodup_nil
  timers := List.nodup_nil
  permanent _ := by simp [LastAdded, since_nil]
  live _ _ h := absurd h since_nil
  temporary _ := by simp [Unexpired, since_nil]
  single _ _ := List.not_mem_nil

lemma Settled.exact (h : Settled history s) : Exact history s := by
  intro id
  rw [permanentMember_iff h.nodup, member_iff, h.permanent, h.temporary]
  refine ⟨⟨And.left, fun hadded => ⟨hadded, ?_⟩⟩, Iff.rfl⟩
  rw [← h.temporary]
  exact h.single id ((h.permanent id).mpr hadded)

lemma Settled.step (h : Settled history s) (hs : step s op = some s') (hop : Apart history s op) :
    Settled (history ++ [op]) s' where
  toTracks := h.toTracks.step hs
  temporary id := by
    simp only [temporary_step h.toRunning hs, unexpired_concat]
    constructor
    · rintro (⟨timer, hput⟩ | ⟨hmem, hremove, hfire⟩)
      · exact ⟨timer, Or.inl hput⟩
      · obtain ⟨timer, hlive⟩ := (h.temporary id).mp hmem
        exact ⟨timer, Or.inr ⟨hlive, hremove, fun hop => hfire timer hop (h.live id timer hlive)⟩⟩
    · rintro ⟨timer, hput | ⟨hlive, hremove, hfire⟩⟩
      · exact Or.inl ⟨timer, hput⟩
      · refine Or.inr ⟨(h.temporary id).mpr ⟨timer, hlive⟩, hremove, ?_⟩
        rintro timer' rfl hrun
        exact hfire (by rw [hop id hrun timer hlive])
  single id := by
    rw [temporary_step h.toRunning hs, permanent_step hs]
    rintro (rfl | ⟨hmem, -⟩) (⟨timer, hput⟩ | ⟨htemp, -⟩)
    · cases hput
    · exact hop htemp
    · subst hput
      exact hop hmem
    · exact h.single id hmem htemp

lemma Settled.apart (h : Settled history s) (hs : IgnoreRegistry.step s op = some s')
    (hexact : Exact (history ++ [op]) s') : Apart history s op := by
  have htracks := h.toTracks.step hs
  cases op with
  | add id =>
    intro htemp
    have hfound := (hexact id).1.mpr (lastAdded_concat.mpr (Or.inl rfl))
    refine ((permanentMember_iff htracks.nodup).mp hfound).2 ((temporary_step h.toRunning hs).mpr (Or.inr ⟨htemp, ?_⟩))
    simp
  | remove id => trivial
  | addTemporary id timer =>
    intro hmem
    have hadded := (htracks.permanent id).mp ((permanent_step hs).mpr (Or.inr ⟨hmem, by simp⟩))
    have hfound := (hexact id).1.mpr hadded
    exact ((permanentMember_iff htracks.nodup).mp hfound).2 ((temporary_step h.toRunning hs).mpr (Or.inl ⟨timer, rfl⟩))
  | removeTemporary id => trivial
  | expire timer =>
    intro id hrun timer' hlive
    by_contra hne
    have hstays : Unexpired (history ++ [.expire timer]) id timer' :=
      unexpired_concat.mpr (Or.inr ⟨hlive, by simp, by simpa using Ne.symm hne⟩)
    rcases member_iff.mp ((hexact id).2.mpr (Or.inr ⟨timer', hstays⟩)) with hmem | htemp
    · have hmem : (id, Kind.permanent) ∈ s.ignoredIds := by simpa [permanent_step hs] using hmem
      exact h.single id hmem ((h.temporary id).mpr ⟨timer', hlive⟩)
    · simp only [temporary_step h.toRunning hs, reduceCtorEq, exists_false, false_or] at htemp
      exact htemp.2.2 timer rfl hrun

/-- The queries answer by the calls and the timers that went before, in every state of a run, exactly when every
operation keeps the records of an identifier apart. -/
theorem members_exact_iff (ops : List (Op ID)) :
    AllReached step Exact {} ops ↔ AllPerformed step Apart {} ops :=
  allReached_iff_allPerformed settled_init (fun _ _ h => h.exact) (fun _ _ _ _ h hs hop => h.step hs hop)
    fun _ _ _ _ h hs hexact => h.apart hs hexact

end Steps

/-- A permanent record is not found beside a temporary one, and the timer of the first of two temporary records ends
the second. -/
theorem members_inexact :
    ¬ AllReached step Exact ({} : Registry Nat) [.addTemporary 1 0, .add 1] ∧
      ¬ AllReached step Exact ({} : Registry Nat) [.addTemporary 1 0, .addTemporary 1 1, .expire 0] := by
  constructor
  · intro h
    have hadded : LastAdded [Op.addTemporary 1 0, .add 1] 1 := ⟨[.addTemporary 1 0], [], rfl, by simp⟩
    have hfound := (h _ [] _ (List.append_nil _).symm rfl 1).1.mpr hadded
    exact absurd hfound (by decide)
  · intro h
    have hlive : Unexpired [Op.addTemporary 1 0, .addTemporary 1 1, .expire 0] 1 1 :=
      ⟨[.addTemporary 1 0], [.expire 0], rfl, by simp⟩
    have hfound := (h _ [] _ (List.append_nil _).symm rfl 1).2.mpr (Or.inr ⟨1, hlive⟩)
    exact absurd hfound (by decide)

end Arweave.IgnoreRegistry

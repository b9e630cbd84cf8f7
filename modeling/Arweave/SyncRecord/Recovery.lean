import Arweave.Lib.Runs
import Arweave.SyncRecord.Records
import Arweave.Wallet.Account

/-!
# Crash recovery of the sync records

The server stores a snapshot of its maps from time to time, and between two snapshots it logs every
operation under a number of its own before it replies. After a crash the numbers up to the stored
count are replayed over the snapshot. The snapshot, the log entries and the count are stored one
after another, and old entries stay in the store; nevertheless a restart finds the operations that
were acknowledged, and at most the one operation in progress besides.
-/

namespace Arweave.SyncRecord

open Lib Wallet IntervalStore

/-- What the key-value store holds under a key. -/
inductive Value (ID Kind : Type) [LinearOrder ID] [LinearOrder Kind]
  | records (r : Records ID Kind SyncSet)
  | entry (op : Op ID Kind)
  | count (b : Bytes)

abbrev StateDb (ID Kind : Type) [LinearOrder ID] [LinearOrder Kind] := SortedMap Bytes (Value ID Kind)

/-- The bytes of `sync_records`. -/
def syncRecordsKey : Bytes := [115, 121, 110, 99, 95, 114, 101, 99, 111, 114, 100, 115]

/-- The bytes of `wal`. -/
def walCountKey : Bytes := [119, 97, 108]

variable {ID Kind : Type} [LinearOrder ID] [LinearOrder Kind]

/-- The loop over the numbers from `n` on, with the number of those left. An entry that is not there
ends it. -/
def replayFrom (db : StateDb ID Kind) (wal : Nat) :
    Nat → Nat → Records ID Kind SyncSet → Option (Records ID Kind SyncSet × Nat)
  | 0, _, r => some (r, wal)
  | left + 1, n, r =>
    match db.lookup (encodeUnsigned n) with
    | none => some (r, wal)
    | some (.entry op) => replayFrom db wal left (n + 1) (op.apply r)
    | some _ => none

def replayWriteAheadLog (db : StateDb ID Kind) (r : Records ID Kind SyncSet) :
    Option (Records ID Kind SyncSet × Nat) :=
  match db.lookup walCountKey with
  | none => replayFrom db 0 0 1 r
  | some (.count b) => replayFrom db b.toNat b.toNat 1 r
  | some _ => none

def readSyncRecords (db : StateDb ID Kind) : Option (Records ID Kind SyncSet × Nat) :=
  match db.lookup syncRecordsKey with
  | none => replayWriteAheadLog db Records.empty
  | some (.records r) => replayWriteAheadLog db r
  | some _ => none

/-- What the server does next: nothing, the writes of an operation in progress and its reply, or the
writes of a snapshot. -/
inductive Control (ID Kind : Type)
  | idle
  | putEntry (op : Op ID Kind)
  | putCount (op : Op ID Kind)
  | reply (op : Op ID Kind)
  | putSnapshot
  | resetCount

structure State (ID Kind : Type) [LinearOrder ID] [LinearOrder Kind] where
  syncRecord : Records ID Kind SyncSet
  tables : Records ID Kind SyncTable
  wal : Nat
  stateDb : StateDb ID Kind
  control : Control ID Kind

/-- New tables are filled from the maps. -/
def initializeTables (r : Records ID Kind SyncSet) : Records ID Kind SyncTable where
  byId := r.byId.mapValues fun _ I => SyncTable.initFromGbSet I
  byIdType := r.byIdType.mapValues fun _ I => SyncTable.initFromGbSet I

/-- The start of the server from what is stored. -/
def init (db : StateDb ID Kind) : Option (State ID Kind) := do
  let (r, wal) ← readSyncRecords db
  pure { syncRecord := r, tables := initializeTables r, wal := wal, stateDb := db, control := .idle }

inductive Event (ID Kind : Type)
  | call (op : Op ID Kind)
  | storeState
  | put
  | reply
  | crash

/-- The next thing that happens. A crash leaves only what is stored. -/
def step (st : State ID Kind) : Event ID Kind → Option (State ID Kind)
  | .call op =>
    match st.control with
    | .idle =>
      some { st with syncRecord := op.apply st.syncRecord, tables := op.apply st.tables, control := .putEntry op }
    | _ => none
  | .storeState =>
    match st.control with
    | .idle => some { st with control := .putSnapshot }
    | _ => none
  | .put =>
    match st.control with
    | .putEntry op =>
      some { st with stateDb := st.stateDb.insert (encodeUnsigned (st.wal + 1)) (.entry op), control := .putCount op }
    | .putCount op =>
      some { st with
        stateDb := st.stateDb.insert walCountKey (.count (encodeUnsigned (st.wal + 1)))
        wal := st.wal + 1
        control := .reply op }
    | .putSnapshot =>
      some { st with stateDb := st.stateDb.insert syncRecordsKey (.records st.syncRecord), control := .resetCount }
    | .resetCount =>
      some { st with stateDb := st.stateDb.insert walCountKey (.count (encodeUnsigned 0)), wal := 0, control := .idle }
    | _ => none
  | .reply =>
    match st.control with
    | .reply _ => some { st with control := .idle }
    | _ => none
  | .crash => init st.stateDb

/-- The server with an empty store. -/
def fresh : State ID Kind := ⟨Records.empty, Records.empty, 0, SortedMap.empty, .idle⟩

/-- What the records are for: the operations that took effect, and the one that a caller waits for. -/
structure Outline (ID Kind : Type) where
  done : List (Op ID Kind)
  inflight : Option (Op ID Kind)

/-- A crash may keep or lose the operation in flight and keeps all others. -/
inductive Outline.Step : Outline ID Kind → Event ID Kind → Outline ID Kind → Prop
  | call {done : List (Op ID Kind)} {op : Op ID Kind} : Step ⟨done, none⟩ (.call op) ⟨done, some op⟩
  | reply {done : List (Op ID Kind)} {op : Op ID Kind} : Step ⟨done, some op⟩ .reply ⟨done ++ [op], none⟩
  | storeState {A : Outline ID Kind} : Step A .storeState A
  | put {A : Outline ID Kind} : Step A .put A
  | crashLoses {A : Outline ID Kind} : Step A .crash ⟨A.done, none⟩
  | crashKeeps {done : List (Op ID Kind)} {op : Op ID Kind} : Step ⟨done, some op⟩ .crash ⟨done ++ [op], none⟩

inductive Outline.Run : Outline ID Kind → List (Event ID Kind) → Outline ID Kind → Prop
  | nil {A : Outline ID Kind} : Run A [] A
  | cons {A A1 A2 : Outline ID Kind} {ev : Event ID Kind} {events : List (Event ID Kind)} :
    A.Step ev A1 → Run A1 events A2 → Run A (ev :: events) A2

/-- The same intervals under every name. -/
def SameSets (r r' : Records ID Kind SyncSet) : Prop := ∀ key, r.get key = r'.get key

lemma sameSets_of_holds_eq {r r' : Records ID Kind SyncSet} (h : r.holds = r'.holds) : SameSets r r' :=
  fun key => SyncSet.ext_bytes fun x => iff_of_eq (congrFun h (key, x))

section Log

variable {db : StateDb ID Kind} {snapshot r : Records ID Kind SyncSet} {log : List (Op ID Kind)} {n : Nat}

/-- The number that is stored like the key of the count. -/
def walLimit : Nat := 7823724

lemma encodeUnsigned_ne_walCountKey (h : n < walLimit) : encodeUnsigned n ≠ walCountKey := by
  intro heq
  have hn : n = Bytes.toNat walCountKey := by rw [← heq, toNat_encodeUnsigned]
  rw [hn] at h
  exact absurd h (by decide)

lemma encodeUnsigned_ne_syncRecordsKey (h : n < walLimit) : encodeUnsigned n ≠ syncRecordsKey := by
  intro heq
  have hn : n = Bytes.toNat syncRecordsKey := by rw [← heq, toNat_encodeUnsigned]
  rw [hn] at h
  exact absurd h (by decide)

/-- The store holds a snapshot and a log. Entries beyond the log may be there too. -/
structure Stored (db : StateDb ID Kind) (snapshot : Records ID Kind SyncSet) (log : List (Op ID Kind)) : Prop where
  snapshot_eq : db.lookup syncRecordsKey = some (.records snapshot) ∨
    db.lookup syncRecordsKey = none ∧ snapshot = Records.empty
  count_eq : (∃ b, db.lookup walCountKey = some (.count b) ∧ b.toNat = log.length) ∨
    db.lookup walCountKey = none ∧ log = []
  entry_eq : ∀ i op, log[i]? = some op → db.lookup (encodeUnsigned (i + 1)) = some (.entry op)
  length_lt : log.length < walLimit

lemma replayFrom_eq {wal : Nat} (hentry : ∀ i op, log[i]? = some op → db.lookup (encodeUnsigned (n + i)) = some (.entry op)) :
    replayFrom db wal log.length n r = some (log.foldl (fun r op => op.apply r) r, wal) := by
  induction log generalizing n r with
  | nil => rfl
  | cons op log ih =>
    have hfirst : db.lookup (encodeUnsigned n) = some (.entry op) := hentry 0 op rfl
    rw [List.length_cons, replayFrom, hfirst]
    refine ih fun i op' hop' => ?_
    rw [Nat.add_assoc, Nat.add_comm 1 i]
    exact hentry (i + 1) op' hop'

lemma Stored.replay_eq (h : Stored db snapshot log) (r : Records ID Kind SyncSet) :
    replayWriteAheadLog db r = some (log.foldl (fun r op => op.apply r) r, log.length) := by
  have hentry : ∀ i op, log[i]? = some op → db.lookup (encodeUnsigned (1 + i)) = some (.entry op) :=
    fun i op hop => Nat.add_comm i 1 ▸ h.entry_eq i op hop
  rw [replayWriteAheadLog]
  obtain ⟨b, hcount, hb⟩ | ⟨hnone, rfl⟩ := h.count_eq
  · rw [hcount]
    change replayFrom db b.toNat b.toNat 1 r = _
    rw [hb]
    exact replayFrom_eq hentry
  · rw [hnone]
    rfl

lemma Stored.read_eq (h : Stored db snapshot log) :
    readSyncRecords db = some (log.foldl (fun r op => op.apply r) snapshot, log.length) := by
  rw [readSyncRecords]
  obtain hsnapshot | ⟨hnone, rfl⟩ := h.snapshot_eq
  · rw [hsnapshot]
    exact h.replay_eq snapshot
  · rw [hnone]
    exact h.replay_eq Records.empty

lemma Stored.putEntry (h : Stored db snapshot log) (hlt : log.length + 1 < walLimit) (op : Op ID Kind) :
    Stored (db.insert (encodeUnsigned (log.length + 1)) (.entry op)) snapshot log where
  snapshot_eq := by
    rw [SortedMap.lookup_insert, if_neg (encodeUnsigned_ne_syncRecordsKey hlt).symm]
    exact h.snapshot_eq
  count_eq := by
    rw [SortedMap.lookup_insert, if_neg (encodeUnsigned_ne_walCountKey hlt).symm]
    exact h.count_eq
  entry_eq i op' hop' := by
    have hi : i < log.length := (List.getElem?_eq_some_iff.mp hop').1
    have hne : encodeUnsigned (i + 1) ≠ encodeUnsigned (log.length + 1) := by
      intro heq
      have := encodeUnsigned_injective heq
      omega
    rw [SortedMap.lookup_insert, if_neg hne]
    exact h.entry_eq i op' hop'
  length_lt := h.length_lt

lemma Stored.putCount (h : Stored db snapshot log) (hlt : log.length + 1 < walLimit) {op : Op ID Kind}
    (hentry : db.lookup (encodeUnsigned (log.length + 1)) = some (.entry op)) :
    Stored (db.insert walCountKey (.count (encodeUnsigned (log.length + 1)))) snapshot (log ++ [op]) where
  snapshot_eq := by
    rw [SortedMap.lookup_insert, if_neg (by decide)]
    exact h.snapshot_eq
  count_eq := by
    refine Or.inl ⟨_, by rw [SortedMap.lookup_insert, if_pos rfl], ?_⟩
    rw [toNat_encodeUnsigned, List.length_append, List.length_singleton]
  entry_eq i op' hop' := by
    have hi : i < log.length + 1 := by simpa using (List.getElem?_eq_some_iff.mp hop').1
    rw [SortedMap.lookup_insert, if_neg (encodeUnsigned_ne_walCountKey (by omega))]
    obtain hlast | hbefore := Nat.eq_or_lt_of_le (Nat.le_of_lt_succ hi)
    · subst hlast
      rw [List.getElem?_concat_length] at hop'
      cases hop'
      exact hentry
    · rw [List.getElem?_append_left hbefore] at hop'
      exact h.entry_eq i op' hop'
  length_lt := by simpa using hlt

lemma Stored.putSnapshot (h : Stored db snapshot log) (r : Records ID Kind SyncSet) :
    Stored (db.insert syncRecordsKey (.records r)) r log where
  snapshot_eq := Or.inl (by rw [SortedMap.lookup_insert, if_pos rfl])
  count_eq := by
    rw [SortedMap.lookup_insert, if_neg (by decide)]
    exact h.count_eq
  entry_eq i op hop := by
    have hi : i < log.length := (List.getElem?_eq_some_iff.mp hop).1
    have hlt := h.length_lt
    rw [SortedMap.lookup_insert, if_neg (encodeUnsigned_ne_syncRecordsKey (by omega))]
    exact h.entry_eq i op hop
  length_lt := h.length_lt

lemma Stored.resetCount (h : Stored db snapshot log) :
    Stored (db.insert walCountKey (.count (encodeUnsigned 0))) snapshot [] where
  snapshot_eq := by
    rw [SortedMap.lookup_insert, if_neg (by decide)]
    exact h.snapshot_eq
  count_eq := Or.inl ⟨_, by rw [SortedMap.lookup_insert, if_pos rfl], by rw [toNat_encodeUnsigned]; rfl⟩
  entry_eq i op hop := by simp at hop
  length_lt := Nat.zero_lt_succ _

end Log

section Recovery

variable {st st' : State ID Kind} {A : Outline ID Kind} {ev : Event ID Kind} {events : List (Event ID Kind)}
  {snapshot r : Records ID Kind SyncSet} {log ops : List (Op ID Kind)} {op : Op ID Kind}

/-- The bytes of all sets after the operations. -/
def effect (ops : List (Op ID Kind)) : Key ID Kind × Int → Prop := ops.foldl (overwrite assign) fun _ => False

lemma effect_append_singleton : effect (ops ++ [op]) = overwrite assign (effect ops) op := by
  rw [effect, List.foldl_append]
  rfl

lemma holds_initializeTables : (initializeTables r).holds = r.holds := by
  funext ⟨key, x⟩
  cases key with
  | id i =>
    simp only [Records.holds, Records.get, initializeTables, SortedMap.lookup_mapValues]
    cases r.byId.lookup i with
    | none => simp [bytes_new]
    | some I => simp [bytes_initFromGbSet]
  | idType i kind =>
    simp only [Records.holds, Records.get, initializeTables, SortedMap.lookup_mapValues]
    cases r.byIdType.lookup (toLex (i, kind)) with
    | none => simp [bytes_new]
    | some I => simp [bytes_initFromGbSet]

/-- The operations that a restart finds. -/
def durable (st : State ID Kind) (A : Outline ID Kind) : List (Op ID Kind) :=
  match st.control with
  | .reply op => A.done ++ [op]
  | _ => A.done

/-- What the server does next fits the operation in flight and the store. -/
def ControlFits (st : State ID Kind) (snapshot : Records ID Kind SyncSet) (inflight : Option (Op ID Kind)) : Prop :=
  match st.control with
  | .idle => inflight = none
  | .putEntry op => inflight = some op ∧ st.wal + 1 < walLimit
  | .putCount op => inflight = some op ∧ st.wal + 1 < walLimit ∧
      st.stateDb.lookup (encodeUnsigned (st.wal + 1)) = some (.entry op)
  | .reply op => inflight = some op
  | .putSnapshot => inflight = none
  | .resetCount => inflight = none ∧ snapshot.holds = st.syncRecord.holds

/-- The server with the snapshot and the log of its store. -/
structure Keeps (st : State ID Kind) (A : Outline ID Kind) (snapshot : Records ID Kind SyncSet)
    (log : List (Op ID Kind)) : Prop where
  stored : Stored st.stateDb snapshot log
  wal_eq : st.wal = log.length
  memory : st.syncRecord.holds = effect (A.done ++ A.inflight.toList)
  tables : st.tables.holds = st.syncRecord.holds
  replayed : log.foldl (overwrite assign) snapshot.holds = effect (durable st A)
  control : ControlFits st snapshot A.inflight

def Follows (st : State ID Kind) (A : Outline ID Kind) : Prop := ∃ snapshot log, Keeps st A snapshot log

lemma follows_fresh : Follows (fresh : State ID Kind) ⟨[], none⟩ := by
  refine ⟨Records.empty, [], ?_⟩
  constructor
  · exact ⟨Or.inr ⟨rfl, rfl⟩, Or.inr ⟨rfl, rfl⟩, fun i op hop => by simp at hop, Nat.zero_lt_succ _⟩
  · rfl
  · exact holds_empty
  · exact holds_empty.trans holds_empty.symm
  · exact holds_empty
  · rfl

lemma Keeps.read (h : Keeps st A snapshot log) :
    ∃ r, readSyncRecords st.stateDb = some (r, st.wal) ∧ r.holds = effect (durable st A) := by
  refine ⟨_, by rw [h.wal_eq]; exact h.stored.read_eq, ?_⟩
  rw [holds_foldl_apply, h.replayed]

lemma Keeps.crash (h : Keeps st A snapshot log) (hinit : init st.stateDb = some st') :
    Keeps st' ⟨durable st A, none⟩ snapshot log := by
  obtain ⟨r, hread, hholds⟩ := h.read
  rw [init, hread] at hinit
  cases hinit
  constructor
  · exact h.stored
  · exact h.wal_eq
  · simpa using hholds
  · exact holds_initializeTables
  · exact h.replayed
  · rfl

lemma Follows.crash (h : Follows st A) (hinit : init st.stateDb = some st') :
    ∃ A', A.Step .crash A' ∧ Follows st' A' := by
  obtain ⟨snapshot, log, h⟩ := h
  refine ⟨_, ?_, snapshot, log, h.crash hinit⟩
  obtain ⟨syncRecord, tables, wal, db, control⟩ := st
  obtain ⟨done, inflight⟩ := A
  cases control with
  | reply op =>
    have hinflight : inflight = some op := h.control
    subst hinflight
    exact .crashKeeps
  | idle => exact .crashLoses
  | putEntry op => exact .crashLoses
  | putCount op => exact .crashLoses
  | putSnapshot => exact .crashLoses
  | resetCount => exact .crashLoses

lemma Follows.put (h : Follows st A) (hstep : step st .put = some st') : Follows st' A := by
  obtain ⟨snapshot, log, h⟩ := h
  obtain ⟨syncRecord, tables, wal, db, control⟩ := st
  have hwal : wal = log.length := h.wal_eq
  subst hwal
  cases control with
  | idle => cases hstep
  | reply op => cases hstep
  | putEntry op =>
    cases hstep
    obtain ⟨hinflight, hlt⟩ := h.control
    have hentry : (db.insert (encodeUnsigned (log.length + 1)) (.entry op)).lookup (encodeUnsigned (log.length + 1)) =
        some (.entry op) := by rw [SortedMap.lookup_insert, if_pos rfl]
    exact ⟨snapshot, log, h.stored.putEntry hlt op, rfl, h.memory, h.tables, h.replayed, hinflight, hlt, hentry⟩
  | putCount op =>
    cases hstep
    obtain ⟨hinflight, hlt, hentry⟩ := h.control
    refine ⟨snapshot, log ++ [op], h.stored.putCount hlt hentry, by simp, h.memory, h.tables, ?_, hinflight⟩
    have hreplayed : log.foldl (overwrite assign) snapshot.holds = effect A.done := h.replayed
    rw [List.foldl_append, List.foldl_cons, List.foldl_nil, hreplayed, durable, effect_append_singleton]
  | putSnapshot =>
    cases hstep
    have hinflight : A.inflight = none := h.control
    have hreplayed : log.foldl (overwrite assign) snapshot.holds = effect A.done := h.replayed
    have hmemory : syncRecord.holds = effect A.done := by simpa [hinflight] using h.memory
    refine ⟨syncRecord, log, h.stored.putSnapshot _, rfl, h.memory, h.tables, ?_, hinflight, rfl⟩
    -- the new snapshot contains the effects of the log already
    rw [hmemory, ← hreplayed, foldl_overwrite_idem, hreplayed]
    rfl
  | resetCount =>
    cases hstep
    obtain ⟨hinflight, hsnapshot⟩ := h.control
    refine ⟨snapshot, [], h.stored.resetCount, rfl, h.memory, h.tables, ?_, hinflight⟩
    have hmemory : syncRecord.holds = effect A.done := by simpa [hinflight] using h.memory
    exact hsnapshot.trans hmemory

lemma Follows.call (h : Follows st A) (hlimit : st.wal + 1 < walLimit) (hstep : step st (.call op) = some st') :
    ∃ A', A.Step (.call op) A' ∧ Follows st' A' := by
  obtain ⟨snapshot, log, h⟩ := h
  obtain ⟨syncRecord, tables, wal, db, control⟩ := st
  obtain ⟨done, inflight⟩ := A
  cases control with
  | idle =>
    cases hstep
    have hinflight : inflight = none := h.control
    subst hinflight
    refine ⟨_, .call, snapshot, log, h.stored, h.wal_eq, ?_, ?_, h.replayed, rfl, hlimit⟩
    · have hmemory : syncRecord.holds = effect done := by simpa using h.memory
      rw [holds_apply, hmemory]
      exact effect_append_singleton.symm
    · have htables : tables.holds = syncRecord.holds := h.tables
      rw [holds_apply, holds_apply, htables]
  | putEntry op => cases hstep
  | putCount op => cases hstep
  | reply op => cases hstep
  | putSnapshot => cases hstep
  | resetCount => cases hstep

lemma Follows.reply (h : Follows st A) (hstep : step st .reply = some st') :
    ∃ A', A.Step .reply A' ∧ Follows st' A' := by
  obtain ⟨snapshot, log, h⟩ := h
  obtain ⟨syncRecord, tables, wal, db, control⟩ := st
  obtain ⟨done, inflight⟩ := A
  cases control with
  | reply op =>
    cases hstep
    have hinflight : inflight = some op := h.control
    subst hinflight
    exact ⟨_, .reply, snapshot, log, h.stored, h.wal_eq, by simpa using h.memory, h.tables, h.replayed, rfl⟩
  | idle => cases hstep
  | putEntry op => cases hstep
  | putCount op => cases hstep
  | putSnapshot => cases hstep
  | resetCount => cases hstep

lemma Follows.storeState (h : Follows st A) (hstep : step st .storeState = some st') : Follows st' A := by
  obtain ⟨snapshot, log, h⟩ := h
  obtain ⟨syncRecord, tables, wal, db, control⟩ := st
  cases control with
  | idle =>
    cases hstep
    exact ⟨snapshot, log, h.stored, h.wal_eq, h.memory, h.tables, h.replayed, h.control⟩
  | putEntry op => cases hstep
  | putCount op => cases hstep
  | reply op => cases hstep
  | putSnapshot => cases hstep
  | resetCount => cases hstep

lemma Follows.step (h : Follows st A) (hlimit : ∀ op, ev = .call op → st.wal + 1 < walLimit)
    (hstep : step st ev = some st') : ∃ A', A.Step ev A' ∧ Follows st' A' := by
  cases ev with
  | call op => exact h.call (hlimit op rfl) hstep
  | storeState => exact ⟨A, .storeState, h.storeState hstep⟩
  | put => exact ⟨A, .put, h.put hstep⟩
  | reply => exact h.reply hstep
  | crash => exact h.crash hstep

lemma Follows.run (h : Follows st A)
    (hlimit : Along SyncRecord.step (fun st ev => ∀ op, ev = .call op → st.wal + 1 < walLimit) st events)
    (hrun : events.foldlM SyncRecord.step st = some st') : ∃ A', A.Run events A' ∧ Follows st' A' := by
  induction events generalizing st A with
  | nil =>
    cases hrun
    exact ⟨A, .nil, h⟩
  | cons ev events ih =>
    rw [List.foldlM_cons] at hrun
    obtain ⟨st1, hfirst, hrest⟩ := Option.bind_eq_some_iff.mp hrun
    obtain ⟨hlimit1, hlimits⟩ := along_cons.mp hlimit
    obtain ⟨A1, hstep, h1⟩ := h.step hlimit1 hfirst
    obtain ⟨A2, hrun2, h2⟩ := ih h1 (hlimits st1 hfirst) hrest
    exact ⟨A2, .cons hstep hrun2, h2⟩

/-- Whatever operations, snapshots and crashes a run consists of, at every point of it the maps hold
the operations that took effect and the one in flight, the tables hold the same intervals, the sets
of an ID and a type are within the set of the ID, and a restart finds the operations that took
effect, with or without the one in flight. Between operations a replay of the log over the maps
changes nothing. A set after operations has the bytes that were added to it and not removed since. -/
theorem restart_recovers (events : List (Event ID Kind)) (st : State ID Kind)
    (hlimit : Along step (fun st ev => ∀ op, ev = .call op → st.wal + 1 < walLimit) fresh events)
    (hrun : events.foldlM step fresh = some st) :
    ∃ A, Outline.Run ⟨[], none⟩ events A ∧
      SameSets st.syncRecord (after SyncSet (A.done ++ A.inflight.toList)) ∧
      (∀ key, EtsIntervals.Agrees (st.tables.get key).table (st.syncRecord.get key).set) ∧
      (∀ i kind, bytes (st.syncRecord.get (.idType i kind)) ⊆ bytes (st.syncRecord.get (.id i))) ∧
      (∃ r, readSyncRecords st.stateDb = some (r, st.wal) ∧
        (SameSets r (after SyncSet A.done) ∨ ∃ op, A.inflight = some op ∧ SameSets r (after SyncSet (A.done ++ [op])))) ∧
      (A.inflight = none → ∃ r, replayWriteAheadLog st.stateDb st.syncRecord = some (r, st.wal) ∧
        SameSets r st.syncRecord) ∧
      ∀ (ops : List (Op ID Kind)) key x, x ∈ bytes ((after SyncSet ops).get key) ↔ ∃ before op later,
        ops = before ++ op :: later ∧ assign op (key, x) = some True ∧ ∀ op' ∈ later, assign op' (key, x) = none := by
  obtain ⟨A, hA, snapshot, log, h⟩ := follows_fresh.run hlimit hrun
  have hmemory : SameSets st.syncRecord (after SyncSet (A.done ++ A.inflight.toList)) :=
    sameSets_of_holds_eq (h.memory.trans (holds_after _).symm)
  refine ⟨A, hA, hmemory, fun key => ?_, fun i kind x hx => ?_, ?_, fun hinflight => ?_, fun ops key x => ?_⟩
  · have hpoints := Set.ext fun x => iff_of_eq (congrFun h.tables (key, x))
    exact EtsIntervals.agrees_of_points_eq (st.tables.get key).separated (st.syncRecord.get key).canonical hpoints
  · rw [hmemory] at hx ⊢
    exact holds_after_idType _ hx
  · obtain ⟨r, hread, hholds⟩ := h.read
    refine ⟨r, hread, ?_⟩
    have hsets : SameSets r (after SyncSet (durable st A)) := sameSets_of_holds_eq (hholds.trans (holds_after _).symm)
    rw [durable] at hsets
    have hcontrol := h.control
    rw [ControlFits] at hcontrol
    split at hsets
    case h_1 op heq =>
      rw [heq] at hcontrol
      exact Or.inr ⟨op, hcontrol, hsets⟩
    case h_2 => exact Or.inl hsets
  · refine ⟨_, by rw [h.wal_eq]; exact h.stored.replay_eq _, sameSets_of_holds_eq ?_⟩
    have hdone : st.syncRecord.holds = effect A.done := by simpa [hinflight] using h.memory
    have hdurable : durable st A = A.done := by
      have hcontrol := h.control
      rw [ControlFits] at hcontrol
      rw [durable]
      split
      case h_1 op heq =>
        rw [heq, hinflight] at hcontrol
        cases hcontrol
      case h_2 => rfl
    rw [holds_foldl_apply, hdone, ← hdurable, ← h.replayed, foldl_overwrite_idem]
  · rw [← foldl_overwrite_iff ops (key, x), ← holds_after (σ := SyncSet) ops]
    rfl

/-- A snapshot is interrupted before the count is reset, and the operation that follows it before its
count is stored. -/
theorem restart_recovers_sample :
    let events : List (Event Nat Nat) := [.call (.addTyped 30 10 (by decide) 1 0), .put, .put, .reply,
      .call (.delete 20 15 (by decide) 0), .put, .put, .reply, .storeState, .put, .crash,
      .call (.cut 12 0), .put, .crash, .call (.add 14 11 (by decide) 0), .put, .put]
    ∃ st, events.foldlM step fresh = some st ∧ ∃ A, Outline.Run ⟨[], none⟩ events A ∧
      SameSets st.syncRecord (after SyncSet (A.done ++ A.inflight.toList)) ∧
      (∀ key, EtsIntervals.Agrees (st.tables.get key).table (st.syncRecord.get key).set) ∧
      (∀ i kind, bytes (st.syncRecord.get (.idType i kind)) ⊆ bytes (st.syncRecord.get (.id i))) ∧
      (∃ r, readSyncRecords st.stateDb = some (r, st.wal) ∧
        (SameSets r (after SyncSet A.done) ∨ ∃ op, A.inflight = some op ∧ SameSets r (after SyncSet (A.done ++ [op])))) ∧
      (A.inflight = none → ∃ r, replayWriteAheadLog st.stateDb st.syncRecord = some (r, st.wal) ∧
        SameSets r st.syncRecord) ∧
      ∀ (ops : List (Op Nat Nat)) key x, x ∈ bytes ((after SyncSet ops).get key) ↔ ∃ before op later,
        ops = before ++ op :: later ∧ assign op (key, x) = some True ∧ ∀ op' ∈ later, assign op' (key, x) = none := by
  intro events
  have hsome : (events.foldlM step fresh).isSome = true := by decide
  obtain ⟨st, hrun⟩ := Option.isSome_iff_exists.mp hsome
  have hlimit : checkAlong step (fun st _ => st.wal + 1 < walLimit) fresh events = true := by decide
  exact ⟨st, hrun, restart_recovers events st
    (along_of_checkAlong (fun st ev h op _ => of_decide_eq_true h) hlimit) hrun⟩

end Recovery

end Arweave.SyncRecord

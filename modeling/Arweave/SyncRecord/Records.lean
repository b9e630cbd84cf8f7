import Arweave.Intervals.EtsTable
import Arweave.Lib.Overwrite

/-!
# Sync records

For every record ID, and for every pair of an ID and a type, the server keeps the synced intervals
twice: in maps of interval sets, which are stored on disk, and in ETS tables, which other processes
read. An operation changes both in the same way. It puts every byte of every set in, takes it out or
leaves it where it is.
-/

namespace Arweave.SyncRecord

open Lib Intervals EtsIntervals

/-- A change of one set of intervals. -/
abbrev Change := EtsIntervals.Op

/-- What a change says about a byte. -/
def assignByte : Change → Int → Option Prop
  | .add e s _, x => if s < x ∧ x ≤ e then some True else none
  | .delete e s _, x => if s < x ∧ x ≤ e then some False else none
  | .cut c, x => if c < x then some False else none

/-- A representation of sets of intervals. -/
class IntervalStore (σ : Type) where
  new : σ
  update : σ → Change → σ
  bytes : σ → Set Int
  bytes_new : bytes new = ∅
  mem_bytes_update : ∀ I change x, x ∈ bytes (update I change) ↔ (assignByte change x).getD (x ∈ bytes I)

open IntervalStore

section Stores

variable {e s c x : Int} {P Q : Set Int} {change : Change}

section Changes

variable {σ : Type} [IntervalStore σ] {I : σ}

lemma mem_bytes_add {hlt : s < e} : x ∈ bytes (update I (.add e s hlt)) ↔ (s < x ∧ x ≤ e) ∨ x ∈ bytes I := by
  rw [mem_bytes_update, assignByte]
  split_ifs with hx <;> simp [hx]

lemma mem_bytes_delete {hlt : s < e} : x ∈ bytes (update I (.delete e s hlt)) ↔ ¬ (s < x ∧ x ≤ e) ∧ x ∈ bytes I := by
  rw [mem_bytes_update, assignByte]
  split_ifs with hx <;> simp [hx]

lemma mem_bytes_cut : x ∈ bytes (update I (.cut c)) ↔ ¬ c < x ∧ x ∈ bytes I := by
  rw [mem_bytes_update, assignByte]
  split_ifs with hx <;> simp [hx]

end Changes

lemma mem_of_eq_union {hlt : s < e} (h : Q = P ∪ Set.Ioc s e) :
    x ∈ Q ↔ (assignByte (.add e s hlt) x).getD (x ∈ P) := by
  rw [h, assignByte]
  split_ifs with hx
  · simp [hx]
  · simp only [Set.mem_union, Set.mem_Ioc, hx, or_false, Option.getD_none]

lemma mem_of_eq_diff {hlt : s < e} (h : Q = P \ Set.Ioc s e) :
    x ∈ Q ↔ (assignByte (.delete e s hlt) x).getD (x ∈ P) := by
  rw [h, assignByte]
  split_ifs with hx
  · simp [hx]
  · simp only [Set.mem_sdiff, Set.mem_Ioc, hx, not_false_eq_true, and_true, Option.getD_none]

lemma mem_of_eq_cut (h : Q = P \ Set.Ioi c) : x ∈ Q ↔ (assignByte (.cut c) x).getD (x ∈ P) := by
  rw [h, assignByte]
  split_ifs with hx
  · simp [hx]
  · simp only [Set.mem_sdiff, Set.mem_Ioi, hx, not_false_eq_true, and_true, Option.getD_none]

/-- A set of intervals that neither meet nor touch. -/
structure SyncSet where
  set : IntervalSet
  canonical : Canonical set

/-- A table of intervals that neither meet nor touch. -/
structure SyncTable where
  table : Table
  separated : Separated (EtsIntervals.family table)

lemma onSet_spec (I : SyncSet) (change : Change) : ∃ J, change.onSet I.set = some J ∧ Canonical J ∧
    ∀ x, x ∈ points (Intervals.family J) ↔ (assignByte change x).getD (x ∈ points (Intervals.family I.set)) := by
  cases change with
  | add e s hlt =>
    obtain ⟨J, hadd, hJ, hpts⟩ := Intervals.add_spec I.canonical hlt
    exact ⟨J, hadd, hJ, fun x => mem_of_eq_union hpts⟩
  | delete e s hlt =>
    obtain ⟨J, hdelete, hJ, hpts⟩ := Intervals.delete_spec I.canonical hlt
    exact ⟨J, hdelete, hJ, fun x => mem_of_eq_diff hpts⟩
  | cut c =>
    obtain ⟨hJ, hpts⟩ := Intervals.cut_spec (c := c) I.canonical
    exact ⟨_, rfl, hJ, fun x => mem_of_eq_cut hpts⟩

lemma onTable_spec (t : SyncTable) (change : Change) :
    ∃ t', change.onTable t.table = some t' ∧ Separated (EtsIntervals.family t') ∧
      ∀ x, x ∈ points (EtsIntervals.family t') ↔
        (assignByte change x).getD (x ∈ points (EtsIntervals.family t.table)) := by
  cases change with
  | add e s hlt =>
    obtain ⟨t', hadd, ht', hpts⟩ := EtsIntervals.add_spec t.separated hlt
    exact ⟨t', hadd, ht', fun x => mem_of_eq_union hpts⟩
  | delete e s hlt =>
    obtain ⟨t', hdelete, ht', hpts⟩ := EtsIntervals.delete_spec t.separated hlt
    exact ⟨t', hdelete, ht', fun x => mem_of_eq_diff hpts⟩
  | cut c =>
    obtain ⟨ht', hpts⟩ := EtsIntervals.cut_spec (c := c) t.separated
    exact ⟨_, rfl, ht', fun x => mem_of_eq_cut hpts⟩

lemma isSome_onSet (I : SyncSet) (change : Change) : (change.onSet I.set).isSome := by
  obtain ⟨J, h, -⟩ := onSet_spec I change
  rw [h]
  rfl

lemma isSome_onTable (t : SyncTable) (change : Change) : (change.onTable t.table).isSome := by
  obtain ⟨t', h, -⟩ := onTable_spec t change
  rw [h]
  rfl

def SyncSet.new : SyncSet := ⟨Intervals.new, by rw [Canonical, family_new]; exact Separated.empty⟩

/-- The set after a change, which does not fail. -/
def SyncSet.update (I : SyncSet) (change : Change) : SyncSet where
  set := (change.onSet I.set).get (isSome_onSet I change)
  canonical := by
    obtain ⟨J, h, hJ, -⟩ := onSet_spec I change
    simpa only [h, Option.get_some] using hJ

lemma family_empty : EtsIntervals.family SortedMap.empty = ∅ := by
  ext p
  simp [SortedMap.empty, EtsIntervals.family]

def SyncTable.new : SyncTable := ⟨SortedMap.empty, family_empty ▸ Separated.empty⟩

/-- The table after a change, which does not fail. -/
def SyncTable.update (t : SyncTable) (change : Change) : SyncTable where
  table := (change.onTable t.table).get (isSome_onTable t change)
  separated := by
    obtain ⟨t', h, ht', -⟩ := onTable_spec t change
    simpa only [h, Option.get_some] using ht'

lemma isSome_initFromGbSet (I : SyncSet) : (initFromGbSet SortedMap.empty I.set).isSome := by
  obtain ⟨t, h, -⟩ := initFromGbSet_agrees I.canonical
  rw [h]
  rfl

/-- The table that is filled from a set. -/
def SyncTable.initFromGbSet (I : SyncSet) : SyncTable where
  table := (EtsIntervals.initFromGbSet SortedMap.empty I.set).get (isSome_initFromGbSet I)
  separated := by
    obtain ⟨t, h, ht⟩ := initFromGbSet_agrees I.canonical
    simpa only [h, Option.get_some] using ht.separated

instance : IntervalStore SyncSet where
  new := SyncSet.new
  update := SyncSet.update
  bytes I := points (Intervals.family I.set)
  bytes_new := by simp [SyncSet.new]
  mem_bytes_update I change := by
    obtain ⟨J, h, -, hpts⟩ := onSet_spec I change
    simpa only [SyncSet.update, h, Option.get_some] using hpts

instance : IntervalStore SyncTable where
  new := SyncTable.new
  update := SyncTable.update
  bytes t := points (EtsIntervals.family t.table)
  bytes_new := by simp [SyncTable.new, family_empty]
  mem_bytes_update t change := by
    obtain ⟨t', h, -, hpts⟩ := onTable_spec t change
    simpa only [SyncTable.update, h, Option.get_some] using hpts

lemma SyncSet.ext_bytes {I J : SyncSet} (h : ∀ x, x ∈ bytes I ↔ x ∈ bytes J) : I = J := by
  obtain ⟨I, hI⟩ := I
  obtain ⟨J, hJ⟩ := J
  congr
  exact eq_of_family_eq (hI.eq_of_points_eq hJ (Set.ext h))

lemma bytes_initFromGbSet (I : SyncSet) : bytes (SyncTable.initFromGbSet I) = bytes I := by
  obtain ⟨t, h, ht⟩ := initFromGbSet_agrees I.canonical
  simp only [bytes, SyncTable.initFromGbSet, h, Option.get_some, ht.family_eq]

end Stores

section Records

variable {ID Kind : Type} [LinearOrder ID] [LinearOrder Kind] {σ : Type}

/-- The sets by ID and by ID and type: the maps of the server, or the tables of its store. -/
structure Records (ID Kind σ : Type) [LinearOrder ID] [LinearOrder Kind] where
  byId : SortedMap ID σ
  byIdType : SortedMap (ID ×ₗ Kind) σ

/-- The name of a set. -/
inductive Key (ID Kind : Type)
  | id (id : ID)
  | idType (id : ID) (kind : Kind)
  deriving DecidableEq

def Key.recordId : Key ID Kind → ID
  | .id i => i
  | .idType i _ => i

inductive Op (ID Kind : Type)
  | add (e s : Int) (hlt : s < e) (id : ID)
  | addTyped (e s : Int) (hlt : s < e) (kind : Kind) (id : ID)
  | delete (e s : Int) (hlt : s < e) (id : ID)
  | cut (offset : Int) (id : ID)

variable [IntervalStore σ]

def Records.empty : Records ID Kind σ := ⟨SortedMap.empty, SortedMap.empty⟩

/-- A set that is not there is empty. -/
def Records.get (r : Records ID Kind σ) : Key ID Kind → σ
  | .id id => (r.byId.lookup id).getD new
  | .idType id kind => (r.byIdType.lookup (toLex (id, kind))).getD new

/-- The change of the set of an ID. -/
def Records.updateId (r : Records ID Kind σ) (id : ID) (change : Change) : SortedMap ID σ :=
  r.byId.insert id (update (r.get (.id id)) change)

/-- The change of all sets of an ID and a type. -/
def Records.updateTypes (r : Records ID Kind σ) (id : ID) (change : Change) : SortedMap (ID ×ₗ Kind) σ :=
  r.byIdType.mapValues fun key I => if (ofLex key).1 = id then update I change else I

/-- The call handlers and the replay of the log make these updates. -/
def Op.apply (r : Records ID Kind σ) : Op ID Kind → Records ID Kind σ
  | .add e s hlt id => { r with byId := r.updateId id (.add e s hlt) }
  | .addTyped e s hlt kind id =>
    { byId := r.updateId id (.add e s hlt)
      byIdType := r.byIdType.insert (toLex (id, kind)) (update (r.get (.idType id kind)) (.add e s hlt)) }
  | .delete e s hlt id =>
    { byId := r.updateId id (.delete e s hlt)
      byIdType := r.updateTypes id (.delete e s hlt) }
  | .cut offset id =>
    { byId := r.updateId id (.cut offset)
      byIdType := r.updateTypes id (.cut offset) }

/-- What an operation says about a byte of a set. -/
def assign : Op ID Kind → Key ID Kind × Int → Option Prop
  | .add e s hlt id, (key, x) => if key = .id id then assignByte (.add e s hlt) x else none
  | .addTyped e s hlt kind id, (key, x) =>
    if key = .id id ∨ key = .idType id kind then assignByte (.add e s hlt) x else none
  | .delete e s hlt id, (key, x) => if key.recordId = id then assignByte (.delete e s hlt) x else none
  | .cut offset id, (key, x) => if key.recordId = id then assignByte (.cut offset) x else none

/-- The bytes of all sets. -/
def Records.holds (r : Records ID Kind σ) : Key ID Kind × Int → Prop := fun p => p.2 ∈ bytes (r.get p.1)

variable {r : Records ID Kind σ} {id : ID} {change : Change}

lemma holds_empty : (Records.empty : Records ID Kind σ).holds = fun _ => False := by
  funext ⟨key, x⟩
  cases key <;> simp [Records.holds, Records.get, Records.empty, bytes_new]

lemma holds_updateId {byIdType : SortedMap (ID ×ₗ Kind) σ} {i : ID} {x : Int} :
    Records.holds ⟨r.updateId id change, byIdType⟩ (.id i, x) =
      if i = id then (assignByte change x).getD (r.holds (.id i, x)) else r.holds (.id i, x) := by
  simp only [Records.holds, Records.get, Records.updateId, SortedMap.lookup_insert]
  split_ifs with hi
  · subst hi
    exact propext (mem_bytes_update _ _ _)
  · rfl

lemma holds_updateTypes {byId : SortedMap ID σ} {i : ID} {kind : Kind} {x : Int}
    (hremoves : assignByte change x = none ∨ assignByte change x = some False) :
    Records.holds ⟨byId, r.updateTypes id change⟩ (.idType i kind, x) =
      if i = id then (assignByte change x).getD (r.holds (.idType i kind, x)) else r.holds (.idType i kind, x) := by
  simp only [Records.holds, Records.get, Records.updateTypes, SortedMap.lookup_mapValues]
  cases r.byIdType.lookup (toLex (i, kind)) with
  | none => rcases hremoves with h | h <;> simp [h, bytes_new]
  | some I =>
    by_cases hi : i = id
    · simp [hi, mem_bytes_update]
    · simp [hi]

lemma holds_insertType {byId : SortedMap ID σ} {i : ID} {kind kind' : Kind} {x : Int} :
    Records.holds ⟨byId, r.byIdType.insert (toLex (id, kind)) (update (r.get (.idType id kind)) change)⟩
        (.idType i kind', x) =
      if i = id ∧ kind' = kind then (assignByte change x).getD (r.holds (.idType i kind', x))
      else r.holds (.idType i kind', x) := by
  simp only [Records.holds, Records.get, SortedMap.lookup_insert, toLex_inj, Prod.mk.injEq]
  split_ifs with h
  · obtain ⟨rfl, rfl⟩ := h
    exact propext (mem_bytes_update _ _ _)
  · rfl

lemma assignByte_delete {e s : Int} {hlt : s < e} (x : Int) :
    assignByte (.delete e s hlt) x = none ∨ assignByte (.delete e s hlt) x = some False := by
  rw [assignByte]
  split_ifs <;> simp

lemma assignByte_cut {c : Int} (x : Int) : assignByte (.cut c) x = none ∨ assignByte (.cut c) x = some False := by
  rw [assignByte]
  split_ifs <;> simp

lemma getD_ite {p : Prop} [Decidable p] {o : Option Prop} {q : Prop} :
    (if p then o else none).getD q = if p then o.getD q else q := by
  split_ifs <;> rfl

lemma holds_apply (op : Op ID Kind) : (op.apply r).holds = overwrite assign r.holds op := by
  funext ⟨key, x⟩
  rw [overwrite_apply]
  cases op with
  | add e s hlt id =>
    simp only [Op.apply, assign, getD_ite]
    cases key with
    | id i => simp only [holds_updateId, Key.id.injEq]
    | idType i kind => rfl
  | addTyped e s hlt kind id =>
    simp only [Op.apply, assign, getD_ite]
    cases key with
    | id i => simp only [holds_updateId, Key.id.injEq, reduceCtorEq, or_false]
    | idType i kind' => simp only [holds_insertType, Key.idType.injEq, reduceCtorEq, false_or]
  | delete e s hlt id =>
    rw [assign, getD_ite]
    cases key with
    | id i => exact holds_updateId
    | idType i kind => exact holds_updateTypes (assignByte_delete x)
  | cut offset id =>
    rw [assign, getD_ite]
    cases key with
    | id i => exact holds_updateId
    | idType i kind => exact holds_updateTypes (assignByte_cut x)

/-- The records after the operations. -/
def after (σ : Type) [IntervalStore σ] (ops : List (Op ID Kind)) : Records ID Kind σ :=
  ops.foldl (fun r op => op.apply r) Records.empty

lemma holds_foldl_apply (ops : List (Op ID Kind)) :
    (ops.foldl (fun r op => op.apply r) r).holds = ops.foldl (overwrite assign) r.holds := by
  induction ops generalizing r with
  | nil => rfl
  | cons op ops ih => rw [List.foldl_cons, List.foldl_cons, ih, holds_apply]

lemma holds_after (ops : List (Op ID Kind)) : (after σ ops).holds = ops.foldl (overwrite assign) fun _ => False := by
  rw [after, holds_foldl_apply, holds_empty]

lemma assign_id (op : Op ID Kind) (i : ID) (kind : Kind) (x : Int) :
    assign op (.id i, x) = some True ∨ assign op (.id i, x) = assign op (.idType i kind, x) := by
  cases op with
  | add e s hlt id =>
    simp only [assign, assignByte, reduceCtorEq, if_false]
    split_ifs <;> simp
  | addTyped e s hlt kind' id =>
    by_cases hx : s < x ∧ x ≤ e
    · by_cases hi : i = id
      · simp [assign, assignByte, hx, hi]
      · simp [assign, hi]
    · simp [assign, assignByte, hx]
  | delete e s hlt id => exact Or.inr rfl
  | cut offset id => exact Or.inr rfl

lemma holds_after_idType (ops : List (Op ID Kind)) {i : ID} {kind : Kind} {x : Int}
    (h : (after σ ops).holds (.idType i kind, x)) : (after σ ops).holds (.id i, x) := by
  induction ops using List.reverseRecOn with
  | nil => simp [holds_after] at h
  | append_singleton ops op ih =>
    rw [after, List.foldl_append, List.foldl_cons, List.foldl_nil, holds_apply, overwrite_apply] at h ⊢
    obtain hadds | hsame := assign_id op i kind x
    · rw [hadds]
      trivial
    · rw [hsame]
      cases hassign : assign op (.idType i kind, x) with
      | some v =>
        rw [hassign] at h
        exact h
      | none =>
        rw [hassign] at h
        exact ih h

end Records

end Arweave.SyncRecord

import Arweave.Lib.Runs
import Arweave.Mempool.Pool

/-!
# Bookkeeping of the mempool

The indices hold what is stored, after any sequence of additions and drops. A drop names its
transactions by their identifiers, and a received block may bring them without their data.
The sizes are exact as long as the data of a dropped transaction has the stored length.
-/

namespace Arweave.Mempool
open Arweave.Lib Arweave.Tx Arweave.Ledger

section Steps

variable {σ : Type} [LinearOrder σ] {m m' : Pool σ} {tx : TX} {data : TxMetadata σ} {status : σ} {time : Int}
  {size size' : Int × Int} {txs : List TX} {node : Node}

def Stored (m : Pool σ) (data : TxMetadata σ) : Prop := m.txs.lookup data.tx.id = some data

/-- The entry of the priority set. -/
def TxMetadata.entry (data : TxMetadata σ) : Priority ×ₗ Bytes ×ₗ σ :=
  toLex (priority data.tx data.timestamp, toLex (data.tx.id, data.status))

/-- The sizes that a transaction counts for. -/
def sizes (tx : TX) : Int × Int := (txMempoolSize tx).getD 0

structure Indexed (m : Pool σ) : Prop where
  id_eq : ∀ id data, m.txs.lookup id = some data → data.tx.id = id
  sized : ∀ id data, m.txs.lookup id = some data → (txMempoolSize data.tx).isSome = true
  mem_prioritySet : ∀ e, e ∈ m.prioritySet ↔ ∃ data, Stored m data ∧ data.entry = e
  mem_lastTxMap : ∀ anchor e, e ∈ m.lastTxMap.group anchor ↔
    ∃ data, Stored m data ∧ data.tx.lastTx = anchor ∧ unconfirmedTx data.tx = e
  mem_originTxMap : ∀ origin e, e ∈ m.originTxMap.group origin ↔
    ∃ data, Stored m data ∧ data.tx.address = origin ∧ unconfirmedTx data.tx = e

/-- The sizes are those of the stored transactions. -/
def Measured (m : Pool σ) : Prop := m.mempoolSize = m.txs.sum fun data => sizes data.tx

lemma txMempoolSize_eq_some (h : txMempoolSize tx = some size) : sizes tx = size := by
  rw [sizes, h]
  rfl

lemma increaseMempoolSize_eq (h : increaseMempoolSize size tx = some size') : size' = size + sizes tx := by
  obtain ⟨s, hs, hsome⟩ := Option.bind_eq_some_iff.mp h
  rw [txMempoolSize_eq_some hs]
  exact (Option.some.inj hsome).symm

lemma decreaseMempoolSize_eq (h : decreaseMempoolSize size tx = some size') : size' = size - sizes tx := by
  obtain ⟨s, hs, hsome⟩ := Option.bind_eq_some_iff.mp h
  rw [txMempoolSize_eq_some hs]
  exact (Option.some.inj hsome).symm

lemma storeTx_cases (h : storeTx m time tx status = some m') :
    (m.txs.lookup tx.id = none ∧ (txMempoolSize tx).isSome = true ∧ m' = {
      txs := m.txs.insert tx.id ⟨tx, status, -time⟩
      mempoolSize := m.mempoolSize + sizes tx
      prioritySet := addToPrioritySet m.prioritySet tx status (-time)
      propagationQueue := addToPropagationQueue m.propagationQueue tx (-time)
      lastTxMap := addToLastTxMap m.lastTxMap tx
      originTxMap := addToOriginTxMap m.originTxMap tx }) ∨
    ∃ prevStatus timestamp, m.txs.lookup tx.id = some ⟨tx, prevStatus, timestamp⟩ ∧ m' = { m with
      txs := m.txs.insert tx.id ⟨tx, status, timestamp⟩
      prioritySet := addToPrioritySet (delFromPrioritySet m.prioritySet tx prevStatus timestamp) tx status
        timestamp } := by
  unfold storeTx at h
  cases hlookup : m.txs.lookup tx.id with
  | none =>
    rw [hlookup] at h
    obtain ⟨size, hsize, hsome⟩ := Option.bind_eq_some_iff.mp h
    obtain ⟨s, hs, -⟩ := Option.bind_eq_some_iff.mp hsize
    cases increaseMempoolSize_eq hsize
    cases hsome
    exact .inl ⟨rfl, by rw [hs, Option.isSome_some], rfl⟩
  | some data =>
    obtain ⟨stored, prevStatus, timestamp⟩ := data
    simp only [hlookup, Option.ite_none_right_eq_some] at h
    obtain ⟨rfl, hsome⟩ := h
    cases hsome
    exact .inr ⟨prevStatus, timestamp, rfl, rfl⟩

lemma dropTx_cases (h : dropTx m tx = some m') :
    (m.txs.lookup tx.id = none ∧ m' = m) ∨
    ∃ data, m.txs.lookup tx.id = some data ∧ m' = {
      txs := m.txs.erase tx.id
      mempoolSize := m.mempoolSize - sizes tx
      prioritySet := delFromPrioritySet m.prioritySet tx data.status data.timestamp
      propagationQueue := delFromPropagationQueue m.propagationQueue tx data.timestamp
      lastTxMap := delFromLastTxMap m.lastTxMap tx
      originTxMap := delFromOriginTxMap m.originTxMap tx } := by
  unfold dropTx at h
  cases hlookup : m.txs.lookup tx.id with
  | none =>
    rw [hlookup] at h
    exact .inl ⟨rfl, (Option.some.inj h).symm⟩
  | some data =>
    rw [hlookup] at h
    obtain ⟨size, hsize, hsome⟩ := Option.bind_eq_some_iff.mp h
    cases decreaseMempoolSize_eq hsize
    cases hsome
    exact .inr ⟨data, rfl, rfl⟩

lemma stored_insert {m' : Pool σ} {new : TxMetadata σ} (htxs : m'.txs = m.txs.insert new.tx.id new) :
    Stored m' data ↔ data = new ∨ data.tx.id ≠ new.tx.id ∧ Stored m data := by
  unfold Stored
  rw [htxs, SortedMap.lookup_insert]
  split_ifs with heq
  · rw [Option.some.injEq, eq_comm]
    simp [heq]
  · constructor
    · exact fun h => .inr ⟨heq, h⟩
    · rintro (rfl | h)
      · exact absurd rfl heq
      · exact h.2

lemma stored_erase {m' : Pool σ} {id : Bytes} (htxs : m'.txs = m.txs.erase id) :
    Stored m' data ↔ data.tx.id ≠ id ∧ Stored m data := by
  unfold Stored
  rw [htxs, SortedMap.lookup_erase]
  split_ifs with heq <;> simp [heq]

lemma unconfirmedTx_id {tx' : TX} (h : unconfirmedTx tx = unconfirmedTx tx') : tx.id = tx'.id :=
  congrArg (fun e => (ofLex e).2) h

omit [LinearOrder σ] in
lemma entry_id {data' : TxMetadata σ} (h : data.entry = data'.entry) : data.tx.id = data'.tx.id :=
  congrArg (fun e => (ofLex (ofLex e).2).1) h

lemma mem_group_addTo_stored {map : SortedMap Bytes (OrdSet (Utility ×ₗ Bytes))} {key : TX → Bytes}
    {new : TxMetadata σ} (hmap : ∀ k e, e ∈ map.group k ↔
      ∃ data, Stored m data ∧ key data.tx = k ∧ unconfirmedTx data.tx = e)
    (hnone : m.txs.lookup new.tx.id = none) (htxs : m'.txs = m.txs.insert new.tx.id new) (k : Bytes)
    (e : Utility ×ₗ Bytes) :
    e ∈ (map.addTo (key new.tx) (unconfirmedTx new.tx)).group k ↔
      ∃ data, Stored m' data ∧ key data.tx = k ∧ unconfirmedTx data.tx = e := by
  rw [SortedMap.mem_group_addTo, hmap]
  constructor
  · rintro (⟨rfl, rfl⟩ | ⟨data, hdata, hkey⟩)
    · exact ⟨new, (stored_insert htxs).mpr (.inl rfl), rfl, rfl⟩
    · refine ⟨data, (stored_insert htxs).mpr (.inr ⟨?_, hdata⟩), hkey⟩
      intro heq
      rw [Stored, heq, hnone] at hdata
      cases hdata
  · rintro ⟨data, hdata, hkey, he⟩
    rcases (stored_insert htxs).mp hdata with rfl | ⟨-, hold⟩
    · exact .inl ⟨hkey.symm, he.symm⟩
    · exact .inr ⟨data, hold, hkey, he⟩

lemma exists_stored_update {new old : TxMetadata σ} (P : TX → Prop)
    (hold : m.txs.lookup new.tx.id = some old) (htx : old.tx = new.tx)
    (htxs : m'.txs = m.txs.insert new.tx.id new) :
    (∃ data, Stored m data ∧ P data.tx) ↔ ∃ data, Stored m' data ∧ P data.tx := by
  constructor
  · rintro ⟨data, hdata, hP⟩
    by_cases heq : data.tx.id = new.tx.id
    · rw [Stored, heq, hold, Option.some.injEq] at hdata
      exact ⟨new, (stored_insert htxs).mpr (.inl rfl), by rwa [← htx, hdata]⟩
    · exact ⟨data, (stored_insert htxs).mpr (.inr ⟨heq, hdata⟩), hP⟩
  · rintro ⟨data, hdata, hP⟩
    rcases (stored_insert htxs).mp hdata with rfl | ⟨-, hdata⟩
    · exact ⟨old, by rw [Stored, htx, hold], by rwa [htx]⟩
    · exact ⟨data, hdata, hP⟩

lemma mem_group_delFrom_stored {map : SortedMap Bytes (OrdSet (Utility ×ₗ Bytes))} {key : TX → Bytes}
    (hmap : ∀ k e, e ∈ map.group k ↔ ∃ data, Stored m data ∧ key data.tx = k ∧ unconfirmedTx data.tx = e)
    (hdata : Stored m data) (hid : data.tx.id = tx.id) (hkey : key data.tx = key tx)
    (hutility : utility data.tx = utility tx) (htxs : m'.txs = m.txs.erase tx.id) (k : Bytes)
    (e : Utility ×ₗ Bytes) :
    e ∈ (map.delFrom (key tx) (unconfirmedTx tx)).group k ↔
      ∃ data, Stored m' data ∧ key data.tx = k ∧ unconfirmedTx data.tx = e := by
  rw [SortedMap.mem_group_delFrom, hmap]
  constructor
  · rintro ⟨⟨other, hother, rfl, rfl⟩, hne⟩
    refine ⟨other, (stored_erase htxs).mpr ⟨?_, hother⟩, rfl, rfl⟩
    intro heq
    have hsame : other = data := by
      rw [Stored, heq, ← hid, hdata] at hother
      exact (Option.some.inj hother).symm
    rw [hsame] at hne
    exact hne ⟨hkey, by rw [unconfirmedTx, unconfirmedTx, hid, hutility]⟩
  · rintro ⟨other, hother, hk, rfl⟩
    obtain ⟨hne, hother⟩ := (stored_erase htxs).mp hother
    exact ⟨⟨other, hother, hk, rfl⟩, fun h => hne (unconfirmedTx_id h.2)⟩

lemma lookup_of_insert {new : TxMetadata σ} {id : Bytes} (h : Indexed m)
    (hsized : (txMempoolSize new.tx).isSome = true) (htxs : m'.txs = m.txs.insert new.tx.id new)
    (hlookup : m'.txs.lookup id = some data) : data.tx.id = id ∧ (txMempoolSize data.tx).isSome = true := by
  rw [htxs, SortedMap.lookup_insert] at hlookup
  split_ifs at hlookup with heq
  · cases hlookup
    exact ⟨heq.symm, hsized⟩
  · exact ⟨h.id_eq id data hlookup, h.sized id data hlookup⟩

lemma indexed_of_insert (h : Indexed m) (new : TxMetadata σ) (hnone : m.txs.lookup new.tx.id = none)
    (hsized : (txMempoolSize new.tx).isSome = true) (htxs : m'.txs = m.txs.insert new.tx.id new)
    (hset : m'.prioritySet = m.prioritySet.add new.entry)
    (hlast : m'.lastTxMap = m.lastTxMap.addTo new.tx.lastTx (unconfirmedTx new.tx))
    (horigin : m'.originTxMap = m.originTxMap.addTo new.tx.address (unconfirmedTx new.tx)) : Indexed m' := by
  constructor
  · intro id data hlookup
    exact (lookup_of_insert h hsized htxs hlookup).1
  · intro id data hlookup
    exact (lookup_of_insert h hsized htxs hlookup).2
  · intro e
    rw [hset, OrdSet.mem_add, h.mem_prioritySet]
    constructor
    · rintro (rfl | ⟨data, hdata, rfl⟩)
      · exact ⟨new, (stored_insert htxs).mpr (.inl rfl), rfl⟩
      · refine ⟨data, (stored_insert htxs).mpr (.inr ⟨?_, hdata⟩), rfl⟩
        intro heq
        rw [Stored, heq, hnone] at hdata
        cases hdata
    · rintro ⟨data, hdata, rfl⟩
      rcases (stored_insert htxs).mp hdata with rfl | ⟨-, hdata⟩
      · exact .inl rfl
      · exact .inr ⟨data, hdata, rfl⟩
  · rw [hlast]
    exact mem_group_addTo_stored h.mem_lastTxMap hnone htxs
  · rw [horigin]
    exact mem_group_addTo_stored h.mem_originTxMap hnone htxs

lemma indexed_of_update (h : Indexed m) (new old : TxMetadata σ) (hold : m.txs.lookup new.tx.id = some old)
    (htx : old.tx = new.tx) (htxs : m'.txs = m.txs.insert new.tx.id new)
    (hset : m'.prioritySet = (m.prioritySet.erase old.entry).add new.entry) (hlast : m'.lastTxMap = m.lastTxMap)
    (horigin : m'.originTxMap = m.originTxMap) : Indexed m' := by
  have hsized : (txMempoolSize new.tx).isSome = true := htx ▸ h.sized _ old hold
  constructor
  · intro id data hlookup
    exact (lookup_of_insert h hsized htxs hlookup).1
  · intro id data hlookup
    exact (lookup_of_insert h hsized htxs hlookup).2
  · intro e
    rw [hset, OrdSet.mem_add, OrdSet.mem_erase, h.mem_prioritySet]
    constructor
    · rintro (rfl | ⟨hne, data, hdata, rfl⟩)
      · exact ⟨new, (stored_insert htxs).mpr (.inl rfl), rfl⟩
      · refine ⟨data, (stored_insert htxs).mpr (.inr ⟨?_, hdata⟩), rfl⟩
        intro heq
        rw [Stored, heq, hold, Option.some.injEq] at hdata
        exact hne (by rw [hdata])
    · rintro ⟨data, hdata, rfl⟩
      rcases (stored_insert htxs).mp hdata with rfl | ⟨hne, hdata⟩
      · exact .inl rfl
      · exact .inr ⟨fun heq => hne ((entry_id heq).trans (by rw [htx])), data, hdata, rfl⟩
  · intro anchor e
    rw [hlast, h.mem_lastTxMap]
    exact exists_stored_update (fun tx => tx.lastTx = anchor ∧ unconfirmedTx tx = e) hold htx htxs
  · intro origin e
    rw [horigin, h.mem_originTxMap]
    exact exists_stored_update (fun tx => tx.address = origin ∧ unconfirmedTx tx = e) hold htx htxs

lemma storeTx_indexed (h : Indexed m) (hstore : storeTx m time tx status = some m') : Indexed m' := by
  rcases storeTx_cases hstore with ⟨hnone, hsized, rfl⟩ | ⟨prevStatus, timestamp, hsome, rfl⟩
  · exact indexed_of_insert h ⟨tx, status, -time⟩ hnone hsized rfl rfl rfl rfl
  · exact indexed_of_update h ⟨tx, status, timestamp⟩ ⟨tx, prevStatus, timestamp⟩ hsome rfl rfl rfl rfl rfl

lemma lookup_of_dropTx {id : Bytes} (hdrop : dropTx m tx = some m') (hlookup : m'.txs.lookup id = some data) :
    m.txs.lookup id = some data := by
  rcases dropTx_cases hdrop with ⟨-, rfl⟩ | ⟨_, _, rfl⟩
  · exact hlookup
  · change (m.txs.erase tx.id).lookup id = some data at hlookup
    rw [SortedMap.lookup_erase] at hlookup
    split_ifs at hlookup
    exact hlookup

/-- The transaction as it is stored, but with other data. -/
def SameButData (tx stored : TX) : Prop := tx = { stored with data := tx.data }

lemma dropTx_indexed (h : Indexed m) (hsame : ∀ data, m.txs.lookup tx.id = some data → SameButData tx data.tx)
    (hdrop : dropTx m tx = some m') : Indexed m' := by
  rcases dropTx_cases hdrop with ⟨-, rfl⟩ | ⟨data, hsome, rfl⟩
  · exact h
  have hid := h.id_eq _ _ hsome
  have hdata : Stored m data := by rw [Stored, hid, hsome]
  have hlast : data.tx.lastTx = tx.lastTx := by rw [hsame data hsome]
  have haddress : data.tx.address = tx.address := by
    rw [hsame data hsome]
    rfl
  have hutility : utility data.tx = utility tx := by
    rw [hsame data hsome]
    rfl
  constructor
  · intro id other hlookup
    exact h.id_eq id other (lookup_of_dropTx hdrop hlookup)
  · intro id other hlookup
    exact h.sized id other (lookup_of_dropTx hdrop hlookup)
  · intro e
    have hentry : toLex (priority tx data.timestamp, toLex (tx.id, data.status)) = data.entry := by
      rw [TxMetadata.entry, priority, priority, hid, hutility]
    change e ∈ m.prioritySet.erase _ ↔ _
    rw [hentry, OrdSet.mem_erase, h.mem_prioritySet]
    constructor
    · rintro ⟨hne, other, hother, rfl⟩
      refine ⟨other, (stored_erase rfl).mpr ⟨?_, hother⟩, rfl⟩
      intro heq
      rw [Stored, heq, hsome, Option.some.injEq] at hother
      exact hne (by rw [hother])
    · rintro ⟨other, hother, rfl⟩
      obtain ⟨hne, hother⟩ := (stored_erase rfl).mp hother
      exact ⟨fun heq => hne ((entry_id heq).trans hid), other, hother, rfl⟩
  · exact mem_group_delFrom_stored h.mem_lastTxMap hdata hid hlast hutility rfl
  · exact mem_group_delFrom_stored h.mem_originTxMap hdata hid haddress hutility rfl

lemma storeTx_measured (h : Measured m) (hstore : storeTx m time tx status = some m') : Measured m' := by
  unfold Measured at h ⊢
  rcases storeTx_cases hstore with ⟨hnone, -, rfl⟩ | ⟨prevStatus, timestamp, hsome, rfl⟩
  · change m.mempoolSize + sizes tx = (m.txs.insert tx.id _).sum _
    rw [SortedMap.sum_insert, SortedMap.sum_erase_of_none hnone, h, add_comm]
  · change m.mempoolSize = (m.txs.insert tx.id _).sum _
    rw [SortedMap.sum_insert, h, ← SortedMap.sum_erase hsome]

lemma dropTx_measured (h : Measured m) (hsizes : ∀ data, m.txs.lookup tx.id = some data → sizes tx = sizes data.tx)
    (hdrop : dropTx m tx = some m') : Measured m' := by
  unfold Measured at h ⊢
  rcases dropTx_cases hdrop with ⟨-, rfl⟩ | ⟨data, hsome, rfl⟩
  · exact h
  · change m.mempoolSize - sizes tx = (m.txs.erase tx.id).sum _
    rw [h, hsizes data hsome, ← SortedMap.sum_erase hsome]
    exact add_sub_cancel_left _ _

lemma dropTxs_invariant {P : Pool σ → Prop} (Q : TX → TX → Prop)
    (hstep : ∀ m tx m', P m → (∀ data, m.txs.lookup tx.id = some data → Q tx data.tx) → dropTx m tx = some m' → P m')
    (h : P m) (hgiven : ∀ tx ∈ txs, ∀ data, m.txs.lookup tx.id = some data → Q tx data.tx)
    (hdrop : dropTxs m txs = some m') : P m' := by
  induction txs generalizing m with
  | nil =>
    cases hdrop
    exact h
  | cons tx txs ih =>
    rw [dropTxs, List.foldlM_cons] at hdrop
    obtain ⟨m1, hfirst, hrest⟩ := Option.bind_eq_some_iff.mp hdrop
    apply ih (hstep m tx m1 h (hgiven tx List.mem_cons_self) hfirst) _ hrest
    intro tx' htx' data hlookup
    exact hgiven tx' (List.mem_cons_of_mem tx htx') data (lookup_of_dropTx hfirst hlookup)

end Steps

section Evictions

variable {σ : Type} [LinearOrder σ] {m m' : Pool σ} {tx : TX} {status : σ} {time : Int} {txs : List TX}
  {node : Node}

/-- The record is the stored one. -/
def Holds (m : Pool σ) (tx : TX) : Prop := getTx m tx.id = some tx

def Found (m : Pool σ) (txs : List TX) : Prop := ∀ tx ∈ txs, Holds m tx

lemma getTx_eq_some {id : Bytes} : getTx m id = some tx ↔ ∃ data, m.txs.lookup id = some data ∧ data.tx = tx :=
  Option.map_eq_some_iff

lemma Found.cons {id : Bytes} (h : Indexed m) (hget : getTx m id = some tx) (htxs : Found m txs) :
    Found m (tx :: txs) := by
  intro tx' htx'
  rcases List.mem_cons.mp htx' with rfl | htx'
  · obtain ⟨data, hlookup, rfl⟩ := getTx_eq_some.mp hget
    rw [Holds, h.id_eq id data hlookup]
    exact hget
  · exact htxs tx' htx'

lemma Found.nil : Found m [] := by
  intro tx htx
  cases htx

lemma found_of_toTxs {ids : List (Utility ×ₗ Bytes)} (h : Indexed m) (htxs : toTxs m ids = some txs) :
    Found m txs := by
  induction ids generalizing txs with
  | nil =>
    cases htxs
    exact Found.nil
  | cons e ids ih =>
    rw [toTxs, List.mapM_cons] at htxs
    obtain ⟨tx, htx, hrest⟩ := Option.bind_eq_some_iff.mp htxs
    obtain ⟨rest, hids, hsome⟩ := Option.bind_eq_some_iff.mp hrest
    cases hsome
    exact Found.cons h htx (ih hids)

lemma found_of_findClashingTxs (h : Indexed m) (hfind : findClashingTxs node m tx = some txs) : Found m txs := by
  unfold findClashingTxs filterClashingTxs at hfind
  split_ifs at hfind
  · cases hfind
    exact Found.nil
  · split at hfind
    · cases hfind
      exact Found.nil
    · exact found_of_toTxs h hfind
  · cases hfind
    exact Found.nil

lemma found_of_findOverspentTxsFrom {origin : Bytes} {denomination : Nat} {ids : List (Utility ×ₗ Bytes)}
    {wallet : Accounts} (h : Indexed m)
    (hfind : findOverspentTxsFrom m origin denomination ids wallet = some txs) : Found m txs := by
  induction ids generalizing wallet with
  | nil =>
    cases hfind
    exact Found.nil
  | cons e ids ih =>
    obtain ⟨tx, htx, hfind⟩ := Option.bind_eq_some_iff.mp hfind
    obtain ⟨wallet2, -, hfind⟩ := Option.bind_eq_some_iff.mp hfind
    split_ifs at hfind
    · obtain ⟨remaining, hremaining, hsome⟩ := Option.bind_eq_some_iff.mp hfind
      cases hsome
      exact Found.cons h htx (found_of_toTxs h hremaining)
    · exact ih hfind

lemma found_of_findOverspentTxs (h : Indexed m) (hfind : findOverspentTxs node m tx = some txs) : Found m txs := by
  unfold findOverspentTxs at hfind
  split_ifs at hfind
  · exact found_of_findOverspentTxsFrom h hfind
  · cases hfind
    exact Found.nil

lemma found_of_findLowPriorityTxsFrom {elems : List (Priority ×ₗ Bytes ×ₗ σ)} {size : Int × Int} (h : Indexed m)
    (hfind : findLowPriorityTxsFrom m elems size = some txs) : Found m txs := by
  induction elems generalizing size txs with
  | nil =>
    unfold findLowPriorityTxsFrom at hfind
    split_ifs at hfind
    cases hfind
    exact Found.nil
  | cons e elems ih =>
    unfold findLowPriorityTxsFrom at hfind
    split_ifs at hfind
    · obtain ⟨tx, htx, hfind⟩ := Option.bind_eq_some_iff.mp hfind
      split_ifs at hfind
      · obtain ⟨size2, -, hfind⟩ := Option.bind_eq_some_iff.mp hfind
        obtain ⟨rest, hrest, hsome⟩ := Option.bind_eq_some_iff.mp hfind
        cases hsome
        exact Found.cons h htx (ih hrest)
      · exact ih hfind
    · cases hfind
      exact Found.nil

lemma Found.eq {data : TxMetadata σ} (h : Found m txs) (htx : tx ∈ txs) (hlookup : m.txs.lookup tx.id = some data) :
    data.tx = tx := by
  obtain ⟨data', hlookup', heq⟩ := getTx_eq_some.mp (h tx htx)
  cases hlookup.symm.trans hlookup'
  exact heq

lemma dropTxs_indexed (h : Indexed m) (hfound : Found m txs) (hdrop : dropTxs m txs = some m') : Indexed m' := by
  apply dropTxs_invariant SameButData (fun m tx m' hm hsame => dropTx_indexed hm hsame) h _ hdrop
  intro tx htx data hlookup
  rw [hfound.eq htx hlookup]
  rfl

lemma dropTxs_measured (h : Measured m) (hfound : Found m txs) (hdrop : dropTxs m txs = some m') : Measured m' := by
  apply dropTxs_invariant (fun tx stored => sizes tx = sizes stored)
    (fun m tx m' hm hsizes => dropTx_measured hm hsizes) h _ hdrop
  intro tx htx data hlookup
  rw [hfound.eq htx hlookup]

lemma addTx_cases (hadd : addTx node time m tx status = some m') :
    ∃ m1, storeTx m time tx status = some m1 ∧ (node.joined = false ∧ m' = m1 ∨
      node.joined = true ∧ ∃ clashing m2 overspent m3 low, findClashingTxs node m1 tx = some clashing ∧
        dropTxs m1 clashing = some m2 ∧ findOverspentTxs node m2 tx = some overspent ∧
        dropTxs m2 overspent = some m3 ∧ findLowPriorityTxs m3 = some low ∧ dropTxs m3 low = some m') := by
  obtain ⟨m1, hstore, hrest⟩ := Option.bind_eq_some_iff.mp hadd
  refine ⟨m1, hstore, ?_⟩
  split_ifs at hrest with hjoined
  · obtain ⟨clashing, hclashing, hrest⟩ := Option.bind_eq_some_iff.mp hrest
    obtain ⟨m2, hm2, hrest⟩ := Option.bind_eq_some_iff.mp hrest
    obtain ⟨overspent, hoverspent, hrest⟩ := Option.bind_eq_some_iff.mp hrest
    obtain ⟨m3, hm3, hrest⟩ := Option.bind_eq_some_iff.mp hrest
    obtain ⟨low, hlow, hm'⟩ := Option.bind_eq_some_iff.mp hrest
    exact .inr ⟨hjoined, clashing, m2, overspent, m3, low, hclashing, hm2, hoverspent, hm3, hlow, hm'⟩
  · exact .inl ⟨by simpa using hjoined, (Option.some.inj hrest).symm⟩

lemma addTx_indexed (h : Indexed m) (hadd : addTx node time m tx status = some m') : Indexed m' := by
  obtain ⟨m1, hstore, ⟨-, rfl⟩ | ⟨-, clashing, m2, overspent, m3, low, hclashing, hm2, hoverspent, hm3, hlow, hm'⟩⟩ :=
    addTx_cases hadd
  · exact storeTx_indexed h hstore
  · have h1 := storeTx_indexed h hstore
    have h2 := dropTxs_indexed h1 (found_of_findClashingTxs h1 hclashing) hm2
    have h3 := dropTxs_indexed h2 (found_of_findOverspentTxs h2 hoverspent) hm3
    exact dropTxs_indexed h3 (found_of_findLowPriorityTxsFrom h3 hlow) hm'

lemma addTx_measured (h : Indexed m) (hsize : Measured m) (hadd : addTx node time m tx status = some m') :
    Measured m' := by
  obtain ⟨m1, hstore, ⟨-, rfl⟩ | ⟨-, clashing, m2, overspent, m3, low, hclashing, hm2, hoverspent, hm3, hlow, hm'⟩⟩ :=
    addTx_cases hadd
  · exact storeTx_measured hsize hstore
  · have h1 := storeTx_indexed h hstore
    have hfound1 := found_of_findClashingTxs h1 hclashing
    have h2 := dropTxs_indexed h1 hfound1 hm2
    have hfound2 := found_of_findOverspentTxs h2 hoverspent
    have h3 := dropTxs_indexed h2 hfound2 hm3
    have hsize3 := dropTxs_measured (dropTxs_measured (storeTx_measured hsize hstore) hfound1 hm2) hfound2 hm3
    exact dropTxs_measured hsize3 (found_of_findLowPriorityTxsFrom h3 hlow) hm'

end Evictions

section Runs

variable {σ : Type} [LinearOrder σ] {m m' : Pool σ}

/-- The operations on the mempool. The propagation takes entries off its queue by itself. -/
inductive Op (σ : Type) where
  | addTx (node : Node) (time : Int) (tx : TX) (status : σ)
  | dropTxs (txs : List TX)
  | delFromPropagationQueue (priority : Priority) (id : Bytes)

def perform (m : Pool σ) : Op σ → Option (Pool σ)
  | .addTx node time tx status => addTx node time m tx status
  | .dropTxs txs => dropTxs m txs
  | .delFromPropagationQueue priority id =>
    some { m with propagationQueue := m.propagationQueue.erase (toLex (priority, id)) }

/-- The stored transactions that are dropped are those of the argument, up to their data. -/
def Op.Received (m : Pool σ) : Op σ → Prop
  | .dropTxs txs => ∀ tx ∈ txs, ∀ data, m.txs.lookup tx.id = some data → SameButData tx data.tx
  | _ => True

/-- The stored transactions that are dropped come with data of the stored length. -/
def Op.Complete (m : Pool σ) : Op σ → Prop
  | .dropTxs txs => ∀ tx ∈ txs, ∀ data, m.txs.lookup tx.id = some data →
      tx.data.length = data.tx.data.length
  | _ => True

lemma sizes_eq {tx stored : TX} (hsame : SameButData tx stored) (hlength : tx.data.length = stored.data.length) :
    sizes tx = sizes stored := by
  have hformat : tx.format = stored.format := by rw [hsame]
  unfold sizes txMempoolSize
  rw [hformat, hlength]

lemma perform_indexed {op : Op σ} (h : Indexed m) (hreceived : op.Received m) (hperform : perform m op = some m') :
    Indexed m' := by
  cases op with
  | addTx node time tx status => exact addTx_indexed h hperform
  | dropTxs txs => exact dropTxs_invariant SameButData (fun m tx m' hm hsame => dropTx_indexed hm hsame) h hreceived hperform
  | delFromPropagationQueue priority id =>
    cases hperform
    exact ⟨h.id_eq, h.sized, h.mem_prioritySet, h.mem_lastTxMap, h.mem_originTxMap⟩

lemma perform_measured {op : Op σ} (h : Indexed m) (hsize : Measured m) (hreceived : op.Received m)
    (hcomplete : op.Complete m) (hperform : perform m op = some m') : Measured m' := by
  cases op with
  | addTx node time tx status => exact addTx_measured h hsize hperform
  | dropTxs txs =>
    apply dropTxs_invariant (fun tx stored => sizes tx = sizes stored)
      (fun m tx m' hm hsizes => dropTx_measured hm hsizes) hsize _ hperform
    intro tx htx data hlookup
    exact sizes_eq (hreceived tx htx data hlookup) (hcomplete tx htx data hlookup)
  | delFromPropagationQueue priority id =>
    cases hperform
    exact hsize

lemma indexed_empty : Indexed ({} : Pool σ) := by
  constructor
  · intro id data hlookup
    cases hlookup
  · intro id data hlookup
    cases hlookup
  · intro e
    constructor
    · intro he
      cases he
    · rintro ⟨data, hdata, -⟩
      cases hdata
  all_goals
    intro k e
    constructor
    · intro he
      cases he
    · rintro ⟨data, hdata, -⟩
      cases hdata

/-- After any sequence of additions and drops the indices hold the stored transactions. The
sizes are their sums when the dropped transactions came with data of the stored length. -/
theorem run_bookkeeping {ops : List (Op σ)} {m : Pool σ} (hrun : ops.foldlM perform {} = some m)
    (hreceived : Along perform (fun m op => op.Received m) {} ops) :
    Indexed m ∧ (Along perform (fun m op => op.Complete m) {} ops → Measured m) := by
  constructor
  · exact foldlM_invariant indexed_empty (fun s op s' _ hs hop hstep => perform_indexed hs hop hstep) hreceived hrun
  · intro hcomplete
    have hboth : Indexed m ∧ Measured m := by
      apply foldlM_invariant ⟨indexed_empty, rfl⟩ _ (hreceived.and hcomplete) hrun
      intro s op s' _ hs hop hstep
      exact ⟨perform_indexed hs.1 hop.1 hstep, perform_measured hs.1 hs.2 hop.1 hop.2 hstep⟩
    exact hboth.2

end Runs

def sampleAddress : Bytes := List.replicate 32 7

/-- One account with ten winstons. -/
def sampleNode : Node := ⟨true, SortedMap.empty.insert sampleAddress (.pair 10 []), 1⟩

def sampleTx (id : UInt8) (reward : Int) (data : Bytes) : TX :=
  { format := 2, id := [id], owner := sampleAddress, reward := reward, data := data, dataSize := 2 }

/-- Two transactions arrive, one of them twice, and the other one is dropped with its data. -/
def sampleOps : List (Op Status) :=
  [.addTx sampleNode 5 (sampleTx 1 3 [4, 2]) .waiting, .addTx sampleNode 6 (sampleTx 2 4 [8, 9]) .waiting,
    .addTx sampleNode 7 (sampleTx 1 3 [4, 2]) .readyForMining, .dropTxs [sampleTx 2 4 [8, 9]]]

theorem run_bookkeeping_sampleOps :
    ∃ m, sampleOps.foldlM perform {} = some m ∧ m.mempoolSize = (3210, 2) ∧ Indexed m ∧ Measured m := by
  have hrun : (sampleOps.foldlM perform {}).map (·.mempoolSize) = some (3210, 2) := by decide
  obtain ⟨m, hm, hsize⟩ := Option.map_eq_some_iff.mp hrun
  have hdropped : ∀ r : Pool Status, (sampleOps.take 3).foldlM perform {} = some r →
      ∀ data, r.txs.lookup [2] = some data → sampleTx 2 4 [8, 9] = data.tx := by
    intro r hr data hdata
    have htx : ((sampleOps.take 3).foldlM perform {}).bind (getTx · [2]) = some (sampleTx 2 4 [8, 9]) := by
      decide
    rw [hr, Option.bind_some, getTx_eq_some] at htx
    obtain ⟨data', hdata', htx⟩ := htx
    cases hdata.symm.trans hdata'
    exact htx.symm
  have halong : ∀ C : Pool Status → Op Status → Prop, (∀ r node time tx status, C r (.addTx node time tx status)) →
      (∀ r, (∀ data, r.txs.lookup [2] = some data → sampleTx 2 4 [8, 9] = data.tx) →
        C r (.dropTxs [sampleTx 2 4 [8, 9]])) → Along perform C {} sampleOps := by
    intro C hadd hdrop
    refine along_cons.mpr ⟨hadd _ _ _ _ _, fun r1 h1 => along_cons.mpr ⟨hadd _ _ _ _ _, fun r2 h2 =>
      along_cons.mpr ⟨hadd _ _ _ _ _, fun r3 h3 => along_cons.mpr ⟨hdrop r3 (hdropped r3 ?_), fun _ _ => along_nil⟩⟩⟩⟩
    simp only [sampleOps, List.take_succ_cons, List.take_zero, List.foldlM_cons, List.foldlM_nil, h1, h2, h3,
      Option.bind_eq_bind, Option.bind_some, Option.pure_def]
  have hreceived := halong (fun m op => op.Received m) (fun _ _ _ _ _ => trivial) (by
    intro r hr tx htx data hlookup
    cases List.mem_singleton.mp htx
    rw [hr data hlookup]
    rfl)
  have hcomplete := halong (fun m op => op.Complete m) (fun _ _ _ _ _ => trivial) (by
    intro r hr tx htx data hlookup
    cases List.mem_singleton.mp htx
    rw [hr data hlookup])
  obtain ⟨hindexed, hmeasured⟩ := run_bookkeeping hm hreceived
  exact ⟨m, hm, hsize, hindexed, hmeasured hcomplete⟩

/-- A transaction that a block brings without its data leaves the size of the data behind. -/
theorem not_measured_without_data :
    let ops : List (Op Status) := [.addTx sampleNode 5 (sampleTx 1 3 [4, 2]) .waiting, .dropTxs [sampleTx 1 3 []]]
    ∃ m, ops.foldlM perform {} = some m ∧ Along perform (fun m op => op.Received m) {} ops ∧
      m.txs = .empty ∧ m.mempoolSize = (0, 2) ∧ ¬ Measured m := by
  intro ops
  have hrun : (ops.foldlM perform {}).map (fun m => (m.txs, m.mempoolSize)) = some (.empty, (0, 2)) := by
    decide
  obtain ⟨m, hm, heq⟩ := Option.map_eq_some_iff.mp hrun
  obtain ⟨htxs, hsize⟩ := Prod.mk.inj heq
  refine ⟨m, hm, ?_, htxs, hsize, ?_⟩
  · refine along_cons.mpr ⟨trivial, fun r hr => along_cons.mpr ⟨?_, fun _ _ => along_nil⟩⟩
    intro tx htx data hlookup
    cases List.mem_singleton.mp htx
    have hget : (perform {} (ops.get ⟨0, by decide⟩)).bind (getTx · [1]) = some (sampleTx 1 3 [4, 2]) := by
      decide
    rw [show perform {} (ops.get ⟨0, by decide⟩) = some r from hr, Option.bind_some, getTx_eq_some] at hget
    obtain ⟨data', hdata', htx⟩ := hget
    cases hlookup.symm.trans hdata'
    rw [SameButData, htx]
    rfl
  · unfold Measured
    rw [hsize, htxs]
    decide

end Arweave.Mempool

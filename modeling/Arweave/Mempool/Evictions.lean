import Mathlib.Algebra.Order.Monoid.Prod
import Arweave.Mempool.Bookkeeping

/-!
# Evictions from the mempool

A mempool with exact indices is the set of the transactions that it holds. A new transaction
joins this set, and the transactions that a search of the indices finds leave it.
-/

namespace Arweave.Mempool
open Arweave.Lib Arweave.Tx Arweave.Ledger

/-- The arguments of `add_tx` with what it reads outside. -/
structure Addition (σ : Type) where
  node : Node
  time : Int
  tx : TX
  status : σ

def add {σ : Type} [LinearOrder σ] (m : Pool σ) (a : Addition σ) : Option (Pool σ) :=
  addTx a.node a.time m a.tx a.status

variable {σ : Type} [LinearOrder σ] {m m' : Pool σ} {tx tx' : TX} {txs : List TX} {a : Addition σ}

lemma holds_iff : Holds m tx ↔ ∃ data, Stored m data ∧ data.tx = tx := by
  unfold Holds Stored
  rw [getTx_eq_some]
  constructor
  · rintro ⟨data, hdata, rfl⟩
    exact ⟨data, hdata, rfl⟩
  · rintro ⟨data, hdata, rfl⟩
    exact ⟨data, hdata, rfl⟩

lemma Holds.eq (h : Holds m tx) (h' : Holds m tx') (hid : tx.id = tx'.id) : tx = tx' := by
  rw [Holds, hid, h', Option.some.injEq] at h
  exact h.symm

lemma mem_group_lastTxMap (h : Indexed m) {anchor : Bytes} {e : Utility ×ₗ Bytes} :
    e ∈ m.lastTxMap.group anchor ↔ ∃ tx, Holds m tx ∧ tx.lastTx = anchor ∧ unconfirmedTx tx = e := by
  rw [h.mem_lastTxMap]
  constructor
  · rintro ⟨data, hdata, hrest⟩
    exact ⟨data.tx, holds_iff.mpr ⟨data, hdata, rfl⟩, hrest⟩
  · rintro ⟨tx, htx, hrest⟩
    obtain ⟨data, hdata, rfl⟩ := holds_iff.mp htx
    exact ⟨data, hdata, hrest⟩

lemma mem_group_originTxMap (h : Indexed m) {origin : Bytes} {e : Utility ×ₗ Bytes} :
    e ∈ m.originTxMap.group origin ↔ ∃ tx, Holds m tx ∧ tx.address = origin ∧ unconfirmedTx tx = e := by
  rw [h.mem_originTxMap]
  constructor
  · rintro ⟨data, hdata, hrest⟩
    exact ⟨data.tx, holds_iff.mpr ⟨data, hdata, rfl⟩, hrest⟩
  · rintro ⟨tx, htx, hrest⟩
    obtain ⟨data, hdata, rfl⟩ := holds_iff.mp htx
    exact ⟨data, hdata, hrest⟩

lemma lookup_eq_none_iff (h : Indexed m) {id : Bytes} :
    m.txs.lookup id = none ↔ ∀ tx, Holds m tx → tx.id ≠ id := by
  constructor
  · rintro hnone tx htx rfl
    rw [Holds, getTx, hnone] at htx
    cases htx
  · intro hall
    rw [Option.eq_none_iff_forall_ne_some]
    intro data hdata
    have hid := h.id_eq id data hdata
    exact hall data.tx (holds_iff.mpr ⟨data, by rw [Stored, hid, hdata], rfl⟩) hid

lemma sizes_nonneg (tx : TX) : 0 ≤ sizes tx := by
  unfold sizes txMempoolSize txSizeBase
  split_ifs
  · exact ⟨by simp; omega, le_rfl⟩
  · exact ⟨by simp, by simp⟩
  · exact le_rfl

lemma storeTx_new (h : Indexed m) (hnew : ∀ other, Holds m other → other.id ≠ tx.id)
    (hformat : tx.format = 1 ∨ tx.format = 2) (time : Int) (status : σ) :
    ∃ m1, storeTx m time tx status = some m1 ∧ Indexed m1 ∧ (∀ other, Holds m1 other ↔ other = tx ∨ Holds m other) ∧
      m1.mempoolSize = m.mempoolSize + sizes tx := by
  have hnone := (lookup_eq_none_iff h).mpr hnew
  obtain ⟨size, hsize⟩ : ∃ size, txMempoolSize tx = some size := by
    unfold txMempoolSize
    rcases hformat with hformat | hformat
    · exact ⟨_, if_pos hformat⟩
    · exact ⟨_, by rw [if_neg (by omega), if_pos hformat]⟩
  obtain ⟨m1, hstore⟩ : ∃ m1, storeTx m time tx status = some m1 := by
    unfold storeTx increaseMempoolSize
    rw [hnone, hsize]
    exact ⟨_, rfl⟩
  refine ⟨m1, hstore, storeTx_indexed h hstore, ?_⟩
  rcases storeTx_cases hstore with ⟨-, -, rfl⟩ | ⟨prevStatus, timestamp, hsome, -⟩
  · refine ⟨?_, rfl⟩
    intro other
    change ((m.txs.insert tx.id ⟨tx, status, -time⟩).lookup other.id).map TxMetadata.tx = some other ↔ _
    rw [SortedMap.lookup_insert]
    split_ifs with heq
    · constructor
      · intro hsome
        exact .inl (Option.some.inj hsome).symm
      · rintro (rfl | hother)
        · rfl
        · exact absurd heq (hnew other hother)
    · constructor
      · exact .inr
      · rintro (rfl | hother)
        · exact absurd rfl heq
        · exact hother
  · rw [hnone] at hsome
    cases hsome

lemma dropTx_found (h : Indexed m) (htx : Holds m tx) :
    ∃ m1, dropTx m tx = some m1 ∧ Indexed m1 ∧ (∀ other, Holds m1 other ↔ Holds m other ∧ other ≠ tx) ∧
      m1.mempoolSize ≤ m.mempoolSize := by
  obtain ⟨data, hdata, rfl⟩ := getTx_eq_some.mp htx
  obtain ⟨size, hsize⟩ := Option.isSome_iff_exists.mp (h.sized _ data hdata)
  obtain ⟨m1, hdrop⟩ : ∃ m1, dropTx m data.tx = some m1 := by
    unfold dropTx decreaseMempoolSize
    rw [hdata, hsize]
    exact ⟨_, rfl⟩
  have hsame : ∀ data', m.txs.lookup data.tx.id = some data' → SameButData data.tx data'.tx := by
    intro data' hdata'
    cases hdata.symm.trans hdata'
    rfl
  refine ⟨m1, hdrop, dropTx_indexed h hsame hdrop, ?_⟩
  rcases dropTx_cases hdrop with ⟨hnone, -⟩ | ⟨data', -, rfl⟩
  · rw [hnone] at hdata
    cases hdata
  · refine ⟨?_, sub_le_self _ (sizes_nonneg data.tx)⟩
    intro other
    change ((m.txs.erase data.tx.id).lookup other.id).map TxMetadata.tx = some other ↔ _
    rw [SortedMap.lookup_erase]
    split_ifs with heq
    · constructor
      · intro hsome
        cases hsome
      · rintro ⟨hother, hne⟩
        exact absurd (hother.eq htx heq) hne
    · constructor
      · intro hother
        refine ⟨hother, ?_⟩
        rintro rfl
        exact heq rfl
      · exact And.left

lemma dropTxs_found (h : Indexed m) (htxs : Found m txs) (hnodup : txs.Nodup) :
    ∃ m1, dropTxs m txs = some m1 ∧ Indexed m1 ∧ (∀ other, Holds m1 other ↔ Holds m other ∧ other ∉ txs) ∧
      m1.mempoolSize ≤ m.mempoolSize := by
  induction txs generalizing m with
  | nil => exact ⟨m, rfl, h, by simp, le_rfl⟩
  | cons tx txs ih =>
    obtain ⟨hnot, hnodup⟩ := List.nodup_cons.mp hnodup
    obtain ⟨m1, hdrop, h1, hholds1, hsize1⟩ := dropTx_found h (htxs tx List.mem_cons_self)
    have hfound : Found m1 txs := by
      intro other hother
      refine (hholds1 other).mpr ⟨htxs other (List.mem_cons_of_mem tx hother), ?_⟩
      rintro rfl
      exact hnot hother
    obtain ⟨m2, hrest, h2, hholds2, hsize2⟩ := ih h1 hfound hnodup
    refine ⟨m2, ?_, h2, ?_, hsize2.trans hsize1⟩
    · rw [dropTxs, List.foldlM_cons, hdrop]
      exact hrest
    · intro other
      rw [hholds2, hholds1, List.mem_cons, not_or, and_assoc]

lemma toTxs_map (htxs : Found m txs) : toTxs m (txs.map unconfirmedTx) = some txs := by
  induction txs with
  | nil => rfl
  | cons tx txs ih =>
    have hget : getTx m (ofLex (unconfirmedTx tx)).2 = some tx := htxs tx List.mem_cons_self
    have hrest : List.mapM (fun e => getTx m (ofLex e).2) (txs.map unconfirmedTx) = some txs :=
      ih fun other hother => htxs other (List.mem_cons_of_mem tx hother)
    rw [toTxs, List.map_cons, List.mapM_cons, hget, hrest]
    rfl

lemma exists_found {ids : List (Utility ×ₗ Bytes)} (hids : ∀ e ∈ ids, ∃ tx, Holds m tx ∧ unconfirmedTx tx = e) :
    ∃ txs, Found m txs ∧ txs.map unconfirmedTx = ids := by
  induction ids with
  | nil => exact ⟨[], Found.nil, rfl⟩
  | cons e ids ih =>
    obtain ⟨txs, hfound, hmap⟩ := ih fun e he => hids e (List.mem_cons_of_mem _ he)
    obtain ⟨tx, htx, rfl⟩ := hids e List.mem_cons_self
    refine ⟨tx :: txs, ?_, by rw [List.map_cons, hmap]⟩
    intro other hother
    rcases List.mem_cons.mp hother with rfl | hother
    · exact htx
    · exact hfound other hother

lemma mem_of_mem_map (htxs : Found m txs) (htx : Holds m tx) :
    unconfirmedTx tx ∈ txs.map unconfirmedTx ↔ tx ∈ txs := by
  rw [List.mem_map]
  constructor
  · rintro ⟨other, hother, heq⟩
    rwa [(htxs other hother).eq htx (unconfirmedTx_id heq)] at hother
  · exact fun hmem => ⟨tx, hmem, rfl⟩

lemma add_of_joined {m1 m2 m3 m4 : Pool σ} {clashing overspent low : List TX} (hjoined : a.node.joined = true)
    (hstore : storeTx m a.time a.tx a.status = some m1) (hclashing : findClashingTxs a.node m1 a.tx = some clashing)
    (hdrop1 : dropTxs m1 clashing = some m2) (hoverspent : findOverspentTxs a.node m2 a.tx = some overspent)
    (hdrop2 : dropTxs m2 overspent = some m3) (hlow : findLowPriorityTxs m3 = some low)
    (hdrop3 : dropTxs m3 low = some m4) : add m a = some m4 := by
  simp only [add, addTx, hstore, hjoined, hclashing, hdrop1, hoverspent, hdrop2, hlow, hdrop3, bind, Option.bind_some,
    if_true]

end Arweave.Mempool

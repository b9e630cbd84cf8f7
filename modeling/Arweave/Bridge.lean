import Arweave.Tx.Transaction

/-!
# The transactions of a gossiped block

A peer that was announced a block answers with the transactions it lacks, by identifier or by position. The block is
sent with the full records of those and with the identifiers of the others, or not sent when a record that the peer
lacks is not at hand. The requests are consumed along with the transactions.
-/

namespace Arweave.Bridge

open Lib Tx

/-- A gossiped block holds a record or an identifier of every transaction. -/
inductive TxidOrTx where
  | tx (tx : TX)
  | txid (id : Bytes)
  deriving DecidableEq

inductive TxidOrIndex where
  | txid (id : Bytes)
  | index (n : Nat)
  deriving DecidableEq

def txId : TxidOrTx → Bytes
  | .tx tx => tx.id
  | .txid id => id

def stripV2Data (tx : TX) : TX := if tx.format = 2 then { tx with data := [] } else tx

/-- The transactions that remain, the requests that remain, those included so far, latest first, and the position. The
position is not counted on once no request remains. -/
def determineIncluded : List TxidOrTx → List TxidOrIndex → List TxidOrTx → Nat → Option (List TxidOrTx)
  | [], _, included, _ => some included.reverse
  | txidOrTx :: txs, [], included, n => determineIncluded txs [] (.txid (txId txidOrTx) :: included) n
  | txidOrTx :: txs, txidOrIndex :: missingTxs, included, n =>
    if txidOrIndex = .index n ∨ txidOrIndex = .txid (txId txidOrTx) then
      match txidOrTx with
      | .txid _ => none
      | .tx tx => determineIncluded txs missingTxs (.tx (stripV2Data tx) :: included) (n + 1)
    else determineIncluded txs (txidOrIndex :: missingTxs) (.txid (txId txidOrTx) :: included) (n + 1)

/-- No list is given when a transaction is missing. -/
def determineIncludedTransactions (txs : List TxidOrTx) (missingTxs : List TxidOrIndex) : Option (List TxidOrTx) :=
  determineIncluded txs missingTxs [] 0

section Positions

variable {txs before rest : List TxidOrTx} {item : TxidOrTx} {request : TxidOrIndex} {missingTxs : List TxidOrIndex}
  {positions : List Nat} {included : List TxidOrTx} {p n : Nat}

/-- The position of the transaction that a request names. -/
def Names (txs : List TxidOrTx) : TxidOrIndex → Nat → Prop
  | .txid id, p => (txs[p]?).map txId = some id
  | .index i, p => p = i

/-- What is sent of a transaction. -/
def send (positions : List Nat) (entry : TxidOrTx × Nat) : TxidOrTx :=
  if entry.2 ∈ positions then
    match entry.1 with
    | .tx tx => .tx (stripV2Data tx)
    | .txid id => .txid id
  else .txid (txId entry.1)

lemma determineIncluded_nil : determineIncluded txs [] included n = some (included.reverse ++ txs.map (.txid ∘ txId)) := by
  induction txs generalizing included with
  | nil => simp [determineIncluded]
  | cons item txs ih => simp [determineIncluded, ih]

lemma matches_iff (hids : ((before ++ item :: rest).map txId).Nodup) (hnames : Names (before ++ item :: rest) request p)
    (hp : before.length ≤ p) :
    (request = .index before.length ∨ request = .txid (txId item)) ↔ p = before.length := by
  cases request with
  | index i =>
    obtain rfl : p = i := hnames
    simp
  | txid id =>
    have hitem : (before ++ item :: rest)[before.length]? = some item := by simp
    simp only [reduceCtorEq, false_or, TxidOrIndex.txid.injEq]
    constructor
    · rintro rfl
      have hsame : ((before ++ item :: rest).map txId)[before.length]? = ((before ++ item :: rest).map txId)[p]? := by
        rw [List.getElem?_map, List.getElem?_map, hitem]
        exact hnames.symm
      have hlen : before.length < ((before ++ item :: rest).map txId).length := by simp
      exact ((List.getElem?_inj hlen hids).mp hsame).symm
    · rintro rfl
      simpa [Names] using hnames.symm

lemma determineIncluded_match (h : request = .index n ∨ request = .txid (txId item)) :
    determineIncluded (item :: rest) (request :: missingTxs) included n =
      match item with
      | .txid _ => none
      | .tx tx => determineIncluded rest missingTxs (.tx (stripV2Data tx) :: included) (n + 1) := by
  cases item <;> simp [determineIncluded, h]

lemma determineIncluded_skip (h : ¬ (request = .index n ∨ request = .txid (txId item))) :
    determineIncluded (item :: rest) (request :: missingTxs) included n =
      determineIncluded rest (request :: missingTxs) (.txid (txId item) :: included) (n + 1) := by
  cases item <;> simp [determineIncluded, h]

/-- Whether a transaction is requested whose record is not at hand. -/
def Lacks (positions : List Nat) (entries : List (TxidOrTx × Nat)) : Prop :=
  ∃ entry ∈ entries, entry.2 ∈ positions ∧ entry.1 = .txid (txId entry.1)

lemma mem_positions_cons {entry : TxidOrTx × Nat} (hentry : entry ∈ rest.zipIdx (n + 1)) :
    entry.2 ∈ n :: positions ↔ entry.2 ∈ positions := by
  have hbound := List.le_snd_of_mem_zipIdx hentry
  have hne : entry.2 ≠ n := by omega
  simp [hne]

lemma lacks_passed : Lacks (n :: positions) (rest.zipIdx (n + 1)) ↔ Lacks positions (rest.zipIdx (n + 1)) := by
  unfold Lacks
  exact exists_congr fun entry => and_congr_right fun hentry => and_congr_left' (mem_positions_cons hentry)

lemma map_send_passed :
    (rest.zipIdx (n + 1)).map (send (n :: positions)) = (rest.zipIdx (n + 1)).map (send positions) := by
  refine List.map_congr_left fun entry hentry => ?_
  simp only [send, mem_positions_cons hentry]

lemma map_send_nil : (rest.zipIdx n).map (send []) = rest.map (.txid ∘ txId) := by
  have hsend : send [] = (.txid ∘ txId) ∘ Prod.fst := by
    funext entry
    simp [send]
  rw [hsend, ← List.map_map, List.zipIdx_map_fst]

lemma lacks_cons : Lacks positions ((item :: rest).zipIdx n) ↔
    (n ∈ positions ∧ item = .txid (txId item)) ∨ Lacks positions (rest.zipIdx (n + 1)) := by
  simp [Lacks, List.zipIdx_cons]

/-- The loop over the rest of the transactions, with the requests at positions that did not pass yet. -/
lemma determineIncluded_spec (before included : List TxidOrTx) (hids : ((before ++ rest).map txId).Nodup)
    (hnames : List.Forall₂ (Names (before ++ rest)) missingTxs positions) (hsorted : positions.Pairwise (· < ·))
    (hahead : ∀ p ∈ positions, before.length ≤ p) :
    (Lacks positions (rest.zipIdx before.length) → determineIncluded rest missingTxs included before.length = none) ∧
      (¬ Lacks positions (rest.zipIdx before.length) →
        determineIncluded rest missingTxs included before.length =
          some (included.reverse ++ (rest.zipIdx before.length).map (send positions))) := by
  induction rest generalizing before missingTxs positions included with
  | nil => simp [determineIncluded, Lacks]
  | cons item rest ih =>
    have hnext : (before ++ [item]).length = before.length + 1 := by simp
    rw [lacks_cons, List.zipIdx_cons, List.map_cons]
    rw [List.append_cons] at hids hnames
    cases hnames with
    | nil =>
      have hnone : ∀ l : List (TxidOrTx × Nat), ¬ Lacks [] l := by simp [Lacks]
      simp [hnone, determineIncluded_nil, map_send_nil, send]
    | @cons request p missingTxs positions hfirst hrest =>
      have hmatch := matches_iff (by simpa using hids) (by simpa using hfirst) (hahead p List.mem_cons_self)
      obtain ⟨hfollow, hsorted'⟩ := List.pairwise_cons.mp hsorted
      by_cases hp : p = before.length
      · subst hp
        rw [determineIncluded_match (hmatch.mpr rfl), lacks_passed, map_send_passed]
        cases item with
        | txid id => simp [txId]
        | tx tx =>
          have hsend : send (before.length :: positions) (.tx tx, before.length) = .tx (stripV2Data tx) := by simp [send]
          have hrec := ih (before ++ [.tx tx]) (.tx (stripV2Data tx) :: included) hids hrest hsorted'
            fun q hq => hnext ▸ hfollow q hq
          rw [hnext, List.reverse_cons, List.append_assoc] at hrec
          simpa [hsend] using hrec
      · have hlt : before.length < p := lt_of_le_of_ne (hahead p List.mem_cons_self) (Ne.symm hp)
        have hall : ∀ q ∈ p :: positions, before.length < q :=
          List.forall_mem_cons.mpr ⟨hlt, fun q hq => hlt.trans (hfollow q hq)⟩
        have hne : before.length ∉ p :: positions := fun hmem => (hall _ hmem).false
        have hrec := ih (before ++ [item]) (.txid (txId item) :: included) hids (.cons hfirst hrest) hsorted
          fun q hq => hnext ▸ hall q hq
        rw [determineIncluded_skip (hmatch.not.mpr hp)]
        rw [hnext, List.reverse_cons, List.append_assoc] at hrec
        simpa [send, hne] using hrec

lemma lacks_iff : Lacks positions (txs.zipIdx 0) ↔ ∃ i ∈ positions, ∃ id, txs[i]? = some (.txid id) := by
  constructor
  · rintro ⟨⟨item, i⟩, hentry, hi, hitem⟩
    exact ⟨i, hi, txId item, hitem ▸ List.mk_mem_zipIdx_iff_getElem?.mp hentry⟩
  · rintro ⟨i, hi, id, hitem⟩
    exact ⟨(.txid id, i), List.mk_mem_zipIdx_iff_getElem?.mpr hitem, hi, rfl⟩

/-- The list is missing exactly when a requested position holds an identifier. Otherwise it has the records at the
requested positions, without their data when that is sent apart, and the identifiers at the others. -/
theorem determine_included_transactions_spec (txs : List TxidOrTx) (missingTxs : List TxidOrIndex)
    (positions : List Nat) (hids : (txs.map txId).Nodup) (hnames : List.Forall₂ (Names txs) missingTxs positions)
    (hsorted : positions.Pairwise (· < ·)) :
    (determineIncludedTransactions txs missingTxs = none ↔ ∃ i ∈ positions, ∃ id, txs[i]? = some (.txid id)) ∧
      ∀ included, determineIncludedTransactions txs missingTxs = some included →
        included.length = txs.length ∧
        ∀ i item, txs[i]? = some item →
          (i ∈ positions → ∃ tx, item = .tx tx ∧ included[i]? = some (.tx (stripV2Data tx))) ∧
          (i ∉ positions → included[i]? = some (.txid (txId item))) := by
  obtain ⟨hnone, hsome⟩ : (Lacks positions (txs.zipIdx 0) → determineIncluded txs missingTxs [] 0 = none) ∧ _ :=
    determineIncluded_spec [] [] hids hnames hsorted fun _ _ => Nat.zero_le _
  by_cases h : Lacks positions (txs.zipIdx 0)
  · have hresult : determineIncludedTransactions txs missingTxs = none := hnone h
    refine ⟨iff_of_true hresult (lacks_iff.mp h), fun included hincluded => ?_⟩
    rw [hresult] at hincluded
    cases hincluded
  · have hresult : determineIncludedTransactions txs missingTxs = some ((txs.zipIdx 0).map (send positions)) := hsome h
    refine ⟨iff_of_false (by simp [hresult]) (lacks_iff.not.mp h), fun included hincluded => ?_⟩
    obtain rfl := Option.some.inj (hresult.symm.trans hincluded)
    refine ⟨by simp, fun i item hitem => ?_⟩
    have hsent : ((txs.zipIdx 0).map (send positions))[i]? = some (send positions (item, i)) := by
      simp [hitem]
    rw [hsent]
    constructor
    · intro hi
      cases item with
      | tx tx => exact ⟨tx, rfl, by simp [send, hi]⟩
      | txid id => exact absurd ⟨i, hi, id, hitem⟩ (lacks_iff.not.mp h)
    · intro hi
      simp [send, hi]

/-- The transactions of a block, one of them only with its identifier. -/
def gossiped : List TxidOrTx :=
  [.tx { id := [1], format := 2, data := [7] }, .txid [2], .tx { id := [3], data := [8] }, .tx { id := [4] }]

/-- One request by identifier between two by index. -/
theorem determine_included_transactions_sample :
    determineIncludedTransactions gossiped [.index 0, .txid [3], .index 3] =
      some [.tx { id := [1], format := 2 }, .txid [2], .tx { id := [3], data := [8] }, .tx { id := [4] }] ∧
    (determineIncludedTransactions gossiped [.index 0, .txid [3], .index 3] = none ↔
      ∃ i ∈ [0, 2, 3], ∃ id, gossiped[i]? = some (.txid id)) := by
  have hnames : List.Forall₂ (Names gossiped) [.index 0, .txid [3], .index 3] [0, 2, 3] :=
    .cons rfl (.cons rfl (.cons rfl .nil))
  exact ⟨by decide, (determine_included_transactions_spec gossiped _ _ (by decide) hnames (by decide)).1⟩

end Positions

end Arweave.Bridge

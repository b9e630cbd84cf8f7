import Arweave.Ledger.Supply
import Arweave.Mempool.Overspending

/-!
# What an account is left to spend

An addition looks at the transactions of one account from the highest one down and keeps them up to
the first that overspends, so what it leaves is within the balance. This holds of the accounts that have
two fields after a transfer. No clause looks at the balance of an account with four fields.
-/

namespace Arweave.Mempool
open Arweave.Lib Arweave.Tx Arweave.Ledger

/-- A transaction that passed its verification before it came. -/
def Validated (tx : TX) : Prop :=
  0 ≤ tx.dataSize ∧ ∃ args accounts verifySignature, verify args tx accounts verifySignature = some true

def cost (tx : TX) : Int := tx.reward + tx.quantity

lemma Validated.spent_eq {tx : TX} (h : Validated tx) : spent tx = cost tx := by
  obtain ⟨-, args, accounts, verifySignature, hverify⟩ := h
  rw [spent, if_neg (verified_of_verify hverify).target_ne.symm, cost]

lemma Validated.cost_nonneg {tx : TX} (h : Validated tx) : 0 ≤ cost tx := by
  obtain ⟨hdata, args, accounts, verifySignature, hverify⟩ := h
  have hverified := verified_of_verify hverify
  exact add_nonneg (reward_nonneg_of_verified hverified hdata) hverified.quantity

section Totals

variable {σ : Type} [LinearOrder σ] {m m' : Pool σ} {origin : Bytes} {tx other : TX} {kept : List TX}

/-- The transactions of the mempool that an account has sent. -/
def sentBy (m : Pool σ) (origin : Bytes) : List TX :=
  (m.txs.entries.map fun e => e.2.tx).filter fun tx => tx.address = origin

def totalOf (m : Pool σ) (origin : Bytes) : Int := ((sentBy m origin).map cost).sum

lemma mem_sentBy (h : Indexed m) : tx ∈ sentBy m origin ↔ Holds m tx ∧ tx.address = origin := by
  rw [sentBy, List.mem_filter, List.mem_map, decide_eq_true_eq]
  apply and_congr_left'
  rw [holds_iff]
  constructor
  · rintro ⟨e, he, rfl⟩
    have hlookup : m.txs.lookup e.1 = some e.2 := SortedMap.lookup_eq_some.mpr he
    refine ⟨e.2, ?_, rfl⟩
    rw [Stored, h.id_eq _ _ hlookup, hlookup]
  · rintro ⟨data, hstored, rfl⟩
    exact ⟨_, SortedMap.lookup_eq_some.mp hstored, rfl⟩

lemma nodup_sentBy (h : Indexed m) : (sentBy m origin).Nodup := by
  apply List.Nodup.filter
  rw [List.Nodup, List.pairwise_map]
  refine m.txs.sorted.imp_of_mem fun {e e'} he he' hlt heq => ?_
  have hid := h.id_eq e.1 e.2 (SortedMap.lookup_eq_some.mpr he)
  have hid' := h.id_eq e'.1 e'.2 (SortedMap.lookup_eq_some.mpr he')
  rw [← hid, ← hid', heq] at hlt
  exact lt_irrefl _ hlt

lemma totalOf_le (h : Indexed m) (hkept : ∀ tx, Holds m tx → tx.address = origin → tx ∈ kept)
    (hcost : ∀ tx ∈ kept, 0 ≤ cost tx) : totalOf m origin ≤ (kept.map cost).sum := by
  have hsubset : sentBy m origin ⊆ kept := fun tx htx =>
    let ⟨hholds, haddress⟩ := (mem_sentBy h).mp htx
    hkept tx hholds haddress
  obtain ⟨l, hperm, hsub⟩ := List.subperm_of_subset (nodup_sentBy h) hsubset
  rw [totalOf, ← (hperm.map cost).sum_eq]
  apply (hsub.map cost).sum_le_sum
  intro x hx
  obtain ⟨tx, htx, rfl⟩ := List.mem_map.mp hx
  exact hcost tx htx

end Totals

section Search

variable {σ : Type} [LinearOrder σ] {m m' : Pool σ} {origin : Bytes} {wallet : Accounts} {account : Account} {tx : TX}
  {txs dropped : List TX}

lemma mem_dropped_of_first {first : TX} (hfound : Found m txs)
    (hremaining : toTxs m (txs.map unconfirmedTx).reverse = some dropped) (htx : tx ∈ first :: txs) :
    tx ∈ first :: dropped := by
  rw [← List.map_reverse, toTxs_map fun tx htx => hfound tx (List.mem_reverse.mp htx)] at hremaining
  cases hremaining
  rwa [List.mem_cons, List.mem_reverse, ← List.mem_cons]

lemma findOverspentTxsFrom_unknown {denomination : Nat} (hfound : Found m txs) (haddress : ∀ tx ∈ txs, tx.address = origin)
    (hlookup : wallet.lookup origin = none)
    (h : findOverspentTxsFrom m origin denomination (txs.map unconfirmedTx) wallet = some dropped) :
    ∀ tx ∈ txs, tx ∈ dropped := by
  cases txs with
  | nil => simp
  | cons first txs =>
    have hget : getTx m (ofLex (unconfirmedTx first)).2 = some first := hfound first List.mem_cons_self
    have hsame : applyTx wallet denomination first = some wallet := by
      apply applyTx_of_unknown
      rw [haddress first List.mem_cons_self, hlookup]
    have hoverspent : isOverspent origin wallet = true := by rw [isOverspent, hlookup]
    rw [List.map_cons, findOverspentTxsFrom, hget, Option.bind_eq_bind, Option.bind_some, hsame, Option.bind_eq_bind,
      Option.bind_some, if_pos hoverspent] at h
    obtain ⟨remaining, hremaining, hsome⟩ := Option.bind_eq_some_iff.mp h
    cases hsome
    intro tx htx
    exact mem_dropped_of_first (fun tx htx => hfound tx (List.mem_cons_of_mem first htx)) hremaining htx

/-- What the search leaves of an account that has two fields after a transfer is within its balance. -/
lemma findOverspentTxsFrom_known (hfound : Found m txs) (haddress : ∀ tx ∈ txs, tx.address = origin)
    (hlookup : wallet.lookup origin = some account) (hpermission : account.miningPermission = true)
    (h : findOverspentTxsFrom m origin 1 (txs.map unconfirmedTx) wallet = some dropped) :
    ∃ kept, (∀ tx ∈ txs, tx ∉ dropped → tx ∈ kept) ∧ kept ⊆ txs ∧
      (kept = [] ∨ account.denomination ≤ 1 ∧ (kept.map spent).sum ≤ account.value 1) := by
  induction txs generalizing wallet account dropped with
  | nil => exact ⟨[], by simp, List.Subset.refl _, .inl rfl⟩
  | cons first txs ih =>
    have hget : getTx m (ofLex (unconfirmedTx first)).2 = some first := hfound first List.mem_cons_self
    have hfirst := haddress first List.mem_cons_self
    have hfoundRest : Found m txs := fun tx htx => hfound tx (List.mem_cons_of_mem first htx)
    rw [List.map_cons, findOverspentTxsFrom, hget, Option.bind_eq_bind, Option.bind_some] at h
    obtain ⟨wallet2, happly, hrest⟩ := Option.bind_eq_some_iff.mp h
    have hlookupFirst : wallet.lookup first.address = some account := by rw [hfirst, hlookup]
    obtain ⟨hdenomination, htx, -⟩ := applyTx_eq happly (by rw [hlookupFirst]; rfl)
    obtain ⟨lastTx, hlookup2⟩ := lookup_applyTx_sender hlookupFirst happly
    rw [scale_one htx, mul_one, hpermission, hfirst] at hlookup2
    -- the account is a pair again
    have hoverspent : isOverspent origin wallet2 = decide (account.value 1 - spent first < 0) := by
      rw [isOverspent, hlookup2]
      rfl
    rw [hoverspent] at hrest
    split_ifs at hrest with hneg
    · obtain ⟨remaining, hremaining, hsome⟩ := Option.bind_eq_some_iff.mp hrest
      cases hsome
      refine ⟨[], fun tx htx hnot => ?_, List.nil_subset _, .inl rfl⟩
      exact absurd (mem_dropped_of_first hfoundRest hremaining htx) hnot
    · obtain ⟨kept, hkept, hsubset, hsum⟩ := ih hfoundRest (fun tx htx => haddress tx (List.mem_cons_of_mem first htx))
        hlookup2 Account.miningPermission_of hrest
      rw [decide_eq_true_eq, not_lt] at hneg
      refine ⟨first :: kept, fun tx htx hnot => ?_, List.cons_subset_cons _ hsubset,
        .inr ⟨hdenomination account hlookupFirst, ?_⟩⟩
      · rcases List.mem_cons.mp htx with rfl | htx
        · exact List.mem_cons_self
        · exact List.mem_cons_of_mem first (hkept tx htx hnot)
      · rw [List.map_cons, List.sum_cons]
        rcases hsum with rfl | ⟨-, hsum⟩
        · rw [List.map_nil, List.sum_nil]
          omega
        · rw [Account.value_of] at hsum
          omega

/-- The account has no transactions to pay for, or it has two fields after a transfer. -/
def LooksAt (node : Node) (origin : Bytes) : Prop :=
  ∀ account, node.accounts.lookup origin = some account →
    node.denomination = 1 ∧ account.miningPermission = true ∧ 0 ≤ account.balance

def balanceOf (node : Node) (origin : Bytes) : Int := ((node.accounts.lookup origin).map Account.balance).getD 0

lemma findOverspentTxs_within {node : Node} (h : Indexed m) (hvalidated : ∀ tx, Holds m tx → Validated tx)
    (hpays : Pays tx) (hlooks : LooksAt node tx.address) (hfind : findOverspentTxs node m tx = some dropped) :
    ∃ kept : List TX, (∀ other, Holds m other → other.address = tx.address → other ∉ dropped → other ∈ kept) ∧
      (∀ other ∈ kept, 0 ≤ cost other) ∧ (kept.map cost).sum ≤ balanceOf node tx.address := by
  obtain ⟨txs, hfound, hmem, hmap⟩ := exists_sent h tx.address
  have haddress : ∀ other ∈ txs, other.address = tx.address := fun other hother => ((hmem other).mp hother).2
  have hlookup : (node.wallets [tx.address]).lookup tx.address = node.accounts.lookup tx.address := by
    rw [Node.wallets, SortedMap.lookup_filterKeys]
    simp
  unfold Pays at hpays
  unfold findOverspentTxs at hfind
  rw [if_pos hpays, ← hmap] at hfind
  rw [balanceOf]
  cases haccount : node.accounts.lookup tx.address with
  | none =>
    rw [haccount] at hlookup
    refine ⟨[], fun other hother heq hnot => ?_, by simp, le_rfl⟩
    exact absurd (findOverspentTxsFrom_unknown hfound haddress hlookup hfind other ((hmem other).mpr ⟨hother, heq⟩)) hnot
  | some account =>
    obtain ⟨hone, hpermission, hbalance⟩ := hlooks account haccount
    rw [haccount] at hlookup
    rw [hone] at hfind
    obtain ⟨kept, hkept, hsubset, hsum⟩ := findOverspentTxsFrom_known hfound haddress hlookup hpermission hfind
    have hvalid : ∀ other ∈ kept, Validated other := fun other hother =>
      hvalidated other ((hmem other).mp (hsubset hother)).1
    refine ⟨kept, fun other hother heq => hkept other ((hmem other).mpr ⟨hother, heq⟩),
      fun other hother => (hvalid other hother).cost_nonneg, ?_⟩
    have hcosts : kept.map cost = kept.map spent :=
      List.map_congr_left fun other hother => (hvalid other hother).spent_eq.symm
    rw [hcosts, Option.map_some, Option.getD_some]
    rcases hsum with rfl | ⟨hdenomination, hsum⟩
    · exact hbalance
    · rwa [Account.value, scale_one hdenomination, mul_one] at hsum

end Search

section Runs

variable {σ : Type} [LinearOrder σ] {m m' : Pool σ} {tx other : TX} {txs : List TX} {a : Addition σ} {ops : List (Op σ)}

lemma holds_of_dropTxs (hdrop : dropTxs m txs = some m') (h : Holds m' other) :
    Holds m other ∧ ∀ tx ∈ txs, tx.id ≠ other.id := by
  induction txs generalizing m with
  | nil =>
    cases hdrop
    exact ⟨h, by simp⟩
  | cons tx txs ih =>
    rw [dropTxs, List.foldlM_cons] at hdrop
    obtain ⟨m1, hfirst, hrest⟩ := Option.bind_eq_some_iff.mp hdrop
    obtain ⟨hholds, hnot⟩ := ih hrest
    obtain ⟨data, hdata, htx⟩ := getTx_eq_some.mp hholds
    refine ⟨getTx_eq_some.mpr ⟨data, lookup_of_dropTx hfirst hdata, htx⟩, List.forall_mem_cons.mpr ⟨?_, hnot⟩⟩
    rcases dropTx_cases hfirst with ⟨hnone, rfl⟩ | ⟨_, -, rfl⟩
    · intro heq
      rw [heq, hdata] at hnone
      cases hnone
    · intro heq
      change (m.txs.erase tx.id).lookup other.id = some data at hdata
      rw [SortedMap.lookup_erase, if_pos heq.symm] at hdata
      cases hdata

lemma holds_of_storeTx {time : Int} {status : σ} (hstore : storeTx m time tx status = some m') (h : Holds m' other) :
    other = tx ∨ Holds m other := by
  have htxs : ∃ data, data.tx = tx ∧ m'.txs = m.txs.insert tx.id data := by
    rcases storeTx_cases hstore with ⟨-, -, rfl⟩ | ⟨_, _, -, rfl⟩
    · exact ⟨_, rfl, rfl⟩
    · exact ⟨_, rfl, rfl⟩
  obtain ⟨new, hnew, htxs⟩ := htxs
  obtain ⟨data, hdata, rfl⟩ := getTx_eq_some.mp h
  rw [htxs, SortedMap.lookup_insert] at hdata
  split_ifs at hdata
  · cases hdata
    exact .inl hnew
  · exact .inr (getTx_eq_some.mpr ⟨data, hdata, rfl⟩)

lemma holds_of_addTx {node : Node} {time : Int} {status : σ} (hadd : addTx node time m tx status = some m')
    (h : Holds m' other) : other = tx ∨ Holds m other := by
  obtain ⟨m1, hstore, ⟨-, rfl⟩ | ⟨-, clashing, m2, overspent, m3, low, -, hm2, -, hm3, -, hm'⟩⟩ := addTx_cases hadd
  · exact holds_of_storeTx hstore h
  · have h3 := (holds_of_dropTxs hm' h).1
    have h2 := (holds_of_dropTxs hm3 h3).1
    exact holds_of_storeTx hstore (holds_of_dropTxs hm2 h2).1

/-- The transactions that come are verified before. -/
def Op.Verified : Op σ → Prop
  | .addTx _ _ tx _ => Validated tx
  | _ => True

lemma perform_validated {op : Op σ} (h : ∀ tx, Holds m tx → Validated tx) (hverified : op.Verified)
    (hperform : perform m op = some m') : ∀ tx, Holds m' tx → Validated tx := by
  intro other hother
  cases op with
  | addTx node time tx status =>
    rcases holds_of_addTx hperform hother with rfl | hother
    · exact hverified
    · exact h other hother
  | dropTxs txs => exact h other (holds_of_dropTxs hperform hother).1
  | delFromPropagationQueue priority id =>
    cases hperform
    exact h other hother

/-- What the account has sent with a transaction that comes. -/
def totalWith (m : Pool σ) (tx : TX) : Int :=
  totalOf m tx.address + if getTx m tx.id = some tx then 0 else cost tx

lemma totalOf_le_totalWith (h : Indexed m) (hvalidated : ∀ tx, Holds m tx → Validated tx) (hvalid : Validated a.tx)
    (h' : Indexed m') (hadd : add m a = some m') : totalOf m' a.tx.address ≤ totalWith m a.tx := by
  have hcost : ∀ other ∈ sentBy m a.tx.address, 0 ≤ cost other := fun other hother =>
    (hvalidated other ((mem_sentBy h).mp hother).1).cost_nonneg
  unfold totalWith
  split_ifs with hholds
  · rw [add_zero]
    refine totalOf_le h' (fun other hother heq => ?_) hcost
    rcases holds_of_addTx hadd hother with rfl | hother
    · exact (mem_sentBy h).mpr ⟨hholds, heq⟩
    · exact (mem_sentBy h).mpr ⟨hother, heq⟩
  · have hle : totalOf m' a.tx.address ≤ ((a.tx :: sentBy m a.tx.address).map cost).sum := by
      refine totalOf_le h' (fun other hother heq => ?_) (List.forall_mem_cons.mpr ⟨hvalid.cost_nonneg, hcost⟩)
      rcases holds_of_addTx hadd hother with rfl | hother
      · exact List.mem_cons_self
      · exact List.mem_cons_of_mem _ ((mem_sentBy h).mpr ⟨hother, heq⟩)
    rwa [List.map_cons, List.sum_cons, add_comm] at hle

lemma totalOf_le_balanceOf (h : Indexed m) (hvalidated : ∀ tx, Holds m tx → Validated tx) (hvalid : Validated a.tx)
    (hadd : add m a = some m') (hjoined : a.node.joined = true) (hpays : Pays a.tx)
    (hlooks : LooksAt a.node a.tx.address) : totalOf m' a.tx.address ≤ balanceOf a.node a.tx.address := by
  have h' : Indexed m' := addTx_indexed h hadd
  obtain ⟨m1, hstore, ⟨hnot, -⟩ | ⟨-, clashing, m2, overspent, m3, low, hclashing, hm2, hoverspent, hm3, hlow, hm'⟩⟩ :=
    addTx_cases hadd
  · rw [hjoined] at hnot
    cases hnot
  · have h1 := storeTx_indexed h hstore
    have h2 := dropTxs_indexed h1 (found_of_findClashingTxs h1 hclashing) hm2
    have hvalidated2 : ∀ other, Holds m2 other → Validated other := by
      intro other hother
      rcases holds_of_storeTx hstore (holds_of_dropTxs hm2 hother).1 with rfl | hother
      · exact hvalid
      · exact hvalidated other hother
    obtain ⟨kept, hkept, hcost, hsum⟩ := findOverspentTxs_within h2 hvalidated2 hpays hlooks hoverspent
    refine (totalOf_le h' (fun other hother heq => ?_) hcost).trans hsum
    obtain ⟨hother2, hnot⟩ := holds_of_dropTxs hm3 (holds_of_dropTxs hm' hother).1
    exact hkept other hother2 heq fun hmem => hnot other hmem rfl

/-- In every run an addition leaves the transactions of the account within its balance if the account is
looked at, or if they were within it with the transaction that comes. -/
theorem mempool_within_balance (ops : List (Op σ)) (m : Pool σ) (hrun : ops.foldlM perform {} = some m)
    (hreceived : Along perform (fun m op => op.Received m) {} ops) (hverified : ∀ op ∈ ops, op.Verified)
    (a : Addition σ) (hvalid : Validated a.tx) (m' : Pool σ) (hadd : add m a = some m')
    (hcond : a.node.joined = true ∧ Pays a.tx ∧ LooksAt a.node a.tx.address ∨
      totalWith m a.tx ≤ balanceOf a.node a.tx.address) :
    totalOf m' a.tx.address ≤ balanceOf a.node a.tx.address := by
  have hboth : Indexed m ∧ ∀ tx, Holds m tx → Validated tx := by
    apply foldlM_invariant ⟨indexed_empty, fun tx htx => by cases htx⟩ _ hreceived hrun
    intro s op s' hop hs hreceived hstep
    exact ⟨perform_indexed hs.1 hreceived hstep, perform_validated hs.2 (hverified op hop) hstep⟩
  obtain ⟨h, hvalidated⟩ := hboth
  rcases hcond with ⟨hjoined, hpays, hlooks⟩ | hroom
  · exact totalOf_le_balanceOf h hvalidated hvalid hadd hjoined hpays hlooks
  · exact (totalOf_le_totalWith h hvalidated hvalid (addTx_indexed h hadd) hadd).trans hroom

end Runs

def fullFeeTx (signature : UInt8) : TX where
  format := 2
  id := Sha2.sha256 [signature]
  lastTx := [signature, signature]
  owner := sampleAddress
  signature := [signature]
  reward := 3000000

/-- A node where the account has five million winstons. -/
def nodeWith (account : Account) : Node := ⟨true, SortedMap.empty.insert sampleAddress account, 1⟩

def fullFeeAddition (account : Account) (signature : UInt8) : Addition Status :=
  ⟨nodeWith account, 5, fullFeeTx signature, .waiting⟩

def fullFeeOps (account : Account) : List (Op Status) := [.addTx (nodeWith account) 5 (fullFeeTx 1) .waiting]

set_option maxRecDepth 10000 in
lemma validated_fullFeeTx : Validated (fullFeeTx 1) ∧ Validated (fullFeeTx 2) := by
  have hverify : ∀ signature ∈ [(1 : UInt8), 2], verify sampleContext.toArgs (fullFeeTx signature)
      (nodeWith (.pair 5000000 [])).accounts false = some true := by decide
  exact ⟨⟨by decide, _, _, _, hverify 1 (by simp)⟩, ⟨by decide, _, _, _, hverify 2 (by simp)⟩⟩

lemma verified_fullFeeOps (account : Account) : ∀ op ∈ fullFeeOps account, op.Verified := by
  intro op hop
  cases List.mem_singleton.mp hop
  exact validated_fullFeeTx.1

lemma received_fullFeeOps (account : Account) : Along perform (fun m op => op.Received m) {} (fullFeeOps account) :=
  along_cons.mpr ⟨trivial, fun _ _ => along_nil⟩

set_option maxRecDepth 10000 in
/-- The account has two fields, and one of the two transactions is left. -/
theorem mempool_within_balance_pair : ∃ m m', (fullFeeOps (.pair 5000000 [])).foldlM perform {} = some m ∧
    add m (fullFeeAddition (.pair 5000000 []) 2) = some m' ∧ totalOf m' sampleAddress ≤ 5000000 := by
  have hadd : (((fullFeeOps (.pair 5000000 [])).foldlM perform {}).bind fun m =>
      add m (fullFeeAddition (.pair 5000000 []) 2)).isSome = true := by decide
  obtain ⟨m', hm'⟩ := Option.isSome_iff_exists.mp hadd
  obtain ⟨m, hm, hm'⟩ := Option.bind_eq_some_iff.mp hm'
  refine ⟨m, m', hm, hm', ?_⟩
  refine mempool_within_balance _ m hm (received_fullFeeOps _) (verified_fullFeeOps _)
    (fullFeeAddition (.pair 5000000 []) 2) validated_fullFeeTx.2 m' hm' (.inl ⟨rfl, by decide, ?_⟩)
  intro account hlookup
  have hpair : (nodeWith (.pair 5000000 [])).accounts.lookup (fullFeeTx 2).address = some (.pair 5000000 []) := by
    decide
  cases hpair.symm.trans hlookup
  decide

set_option maxRecDepth 10000 in
/-- The account has four fields because it was banned. Both transactions stay, for six million winstons. -/
theorem mempool_over_balance_quad : ∃ m m', (fullFeeOps (.quad 5000000 [] 1 false)).foldlM perform {} = some m ∧
    Along perform (fun m op => op.Received m) {} (fullFeeOps (.quad 5000000 [] 1 false)) ∧
    (∀ op ∈ fullFeeOps (.quad 5000000 [] 1 false), op.Verified) ∧ Validated (fullFeeTx 2) ∧
    (nodeWith (.quad 5000000 [] 1 false)).joined = true ∧ Pays (fullFeeTx 2) ∧
    add m (fullFeeAddition (.quad 5000000 [] 1 false) 2) = some m' ∧ totalOf m' sampleAddress = 6000000 ∧
    balanceOf (nodeWith (.quad 5000000 [] 1 false)) sampleAddress = 5000000 := by
  have hadd : (((fullFeeOps (.quad 5000000 [] 1 false)).foldlM perform {}).bind fun m =>
      add m (fullFeeAddition (.quad 5000000 [] 1 false) 2)).map (totalOf · sampleAddress) = some 6000000 := by
    decide
  obtain ⟨m', hm', htotal⟩ := Option.map_eq_some_iff.mp hadd
  obtain ⟨m, hm, hm'⟩ := Option.bind_eq_some_iff.mp hm'
  exact ⟨m, m', hm, received_fullFeeOps _, verified_fullFeeOps _, validated_fullFeeTx.2, rfl, by decide, hm', htotal,
    by decide⟩

end Arweave.Mempool

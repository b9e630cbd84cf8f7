import Arweave.Ledger.Rewards
import Arweave.Lib.Budget
import Arweave.Mempool.Clashes

/-!
# Overspending transactions

A transaction that pays something makes a joined node go through the transactions of its
account, from the one with the greatest utility and identifier down, and drop the first one
that the account cannot bear with all the lower ones. What is left depends on the order of
arrival in general: a low transaction that fits beside the kept ones is lost only if a higher
one that does not fit arrives after it.
-/

namespace Arweave.Mempool
open Arweave.Lib Arweave.Lib.Budget Arweave.Tx Arweave.Ledger

def Pays (tx : TX) : Prop := 0 < tx.reward ∨ 0 < tx.quantity

instance : DecidablePred Pays := fun tx => inferInstanceAs (Decidable (0 < tx.reward ∨ 0 < tx.quantity))

/-- What a transaction takes from the account that it is sent from. -/
def spent (tx : TX) : Int := tx.reward + if tx.target = tx.address then 0 else tx.quantity

/-- Whether an account bears a total. Only accounts that are pairs after a transfer are looked
at, the ones in the first denomination with the mining permission. -/
def bears (node : Node) (origin : Bytes) (total : Int) : Bool :=
  match node.accounts.lookup origin with
  | none => false
  | some account => if node.denomination = 1 ∧ account.miningPermission then total ≤ account.balance else true

lemma bears_of_le {node : Node} {origin : Bytes} (x y : Int) (hle : x ≤ y) (h : bears node origin y = true) :
    bears node origin x = true := by
  unfold bears at h ⊢
  split at h
  · cases h
  · split_ifs at h ⊢
    · rw [decide_eq_true_eq] at h ⊢
      exact hle.trans h
    · rfl

section Accounts

variable {node : Node} {origin : Bytes} {wallet wallet2 : Accounts} {total : Int} {tx : TX} {denomination : Nat}

lemma exists_applyTx (h : Denominated denomination wallet) (htx : tx.denomination ≤ denomination) :
    ∃ wallet2, applyTx wallet denomination tx = some wallet2 := by
  cases hlookup : wallet.lookup tx.address with
  | none => exact ⟨wallet, applyTx_of_unknown hlookup⟩
  | some account =>
    have hsender : updateSenderBalance wallet denomination tx = some (wallet.insert tx.address
        (.of (account.value denomination - (tx.quantity + tx.reward) * scale tx.denomination denomination) tx.id
          denomination account.miningPermission)) := by
      unfold updateSenderBalance
      simp only [hlookup, Account.balanceIn, redenominate_eq, if_pos (h _ _ hlookup), if_pos htx, bind, Option.bind_some]
      rfl
    have hdenominated : Denominated denomination (wallet.insert tx.address
        (.of (account.value denomination - (tx.quantity + tx.reward) * scale tx.denomination denomination) tx.id
          denomination account.miningPermission)) := h.insert (by rw [Account.denomination_of])
    simp only [applyTx, applyTx2, hlookup, hsender, bind, Option.bind_some]
    unfold updateRecipientBalance
    split_ifs
    · exact ⟨_, rfl⟩
    · split
      · rw [redenominate_eq, if_pos htx]
        exact ⟨_, rfl⟩
      · rename_i target htarget
        simp only [Account.balanceIn, redenominate_eq, if_pos htx, if_pos (hdenominated _ _ htarget), bind,
          Option.bind_some]
        exact ⟨_, rfl⟩

/-- The accounts after a total was taken from one of them. -/
structure Drawn (node : Node) (origin : Bytes) (wallet : Accounts) (total : Int) : Prop where
  denominated : Denominated node.denomination wallet
  unknown : node.accounts.lookup origin = none → wallet.lookup origin = none
  known : ∀ account, node.accounts.lookup origin = some account → ∃ account', wallet.lookup origin = some account' ∧
    account'.miningPermission = account.miningPermission ∧
    (node.denomination = 1 → account'.balance = account.balance - total)

lemma scale_one {base : Nat} (h : base ≤ 1) : scale base 1 = 1 := by
  rcases Nat.le_one_iff_eq_zero_or_eq_one.mp h with rfl | rfl <;> rfl

lemma lookup_applyTx_sender {account : Account} (hlookup : wallet.lookup tx.address = some account)
    (happly : applyTx wallet denomination tx = some wallet2) :
    ∃ lastTx, wallet2.lookup tx.address = some (.of (account.value denomination -
      spent tx * scale tx.denomination denomination) lastTx denomination account.miningPermission) := by
  have hvalue : balanceAt wallet denomination tx.address = account.value denomination := by
    rw [balanceAt, hlookup]
    rfl
  have hpermission : permissionAt wallet tx.address = account.miningPermission := by
    rw [permissionAt, hlookup]
    rfl
  obtain ⟨-, -, wallet1, rfl, hrest⟩ := applyTx_eq happly (by rw [hlookup]; rfl)
  rw [hvalue, hpermission] at hrest
  rcases hrest with ⟨hq, rfl⟩ | ⟨-, hadd⟩
  · refine ⟨tx.id, ?_⟩
    rw [SortedMap.lookup_insert, if_pos rfl, spent, hq, zero_add, ite_self, add_zero]
  · rw [(addAmountToAccount_eq hadd).2]
    by_cases htarget : tx.target = tx.address
    · refine ⟨tx.id, ?_⟩
      rw [htarget, SortedMap.lookup_insert, if_pos rfl]
      simp only [balanceAt, permissionAt, lastTxAt, SortedMap.lookup_insert, if_true, Option.elim_some,
        Account.value_of, Account.miningPermission_of, Account.lastTx_of, spent, htarget, add_zero]
      rw [show account.value denomination - (tx.quantity + tx.reward) * scale tx.denomination denomination +
        tx.quantity * scale tx.denomination denomination =
          account.value denomination - tx.reward * scale tx.denomination denomination by ring]
    · refine ⟨tx.id, ?_⟩
      rw [SortedMap.lookup_insert, if_neg (Ne.symm htarget), SortedMap.lookup_insert, if_pos rfl, spent,
        if_neg htarget, add_comm tx.reward]

/-- A transaction is overspent when the account does not bear the total with it. -/
lemma Drawn.applyTx (h : Drawn node origin wallet total) (haddress : tx.address = origin)
    (htx : tx.denomination ≤ node.denomination) :
    ∃ wallet2, applyTx wallet node.denomination tx = some wallet2 ∧ Drawn node origin wallet2 (total + spent tx) ∧
      isOverspent origin wallet2 = !bears node origin (total + spent tx) := by
  subst haddress
  obtain ⟨wallet2, happly⟩ := exists_applyTx h.denominated htx
  have hdenominated : Denominated node.denomination wallet2 := by
    intro addr account hlookup
    rcases (rewrites_applyTx happly).account addr account hlookup with hold | heq
    · exact h.denominated addr account hold
    · exact heq.le
  refine ⟨wallet2, happly, ?_⟩
  cases haccount : node.accounts.lookup tx.address with
  | none =>
    have hnone := h.unknown haccount
    have hsame : wallet2 = wallet := by
      rw [applyTx_of_unknown hnone] at happly
      exact (Option.some.inj happly).symm
    refine ⟨⟨hdenominated, fun _ => by rw [hsame, hnone], ?_⟩, ?_⟩
    · intro account hsome
      rw [haccount] at hsome
      cases hsome
    · rw [isOverspent, bears, hsame, hnone, haccount]
      rfl
  | some account =>
    obtain ⟨account', hlookup, hpermission, hbalance⟩ := h.known account haccount
    obtain ⟨lastTx, hlookup2⟩ := lookup_applyTx_sender hlookup happly
    have hbalance2 : node.denomination = 1 → account'.value node.denomination -
        spent tx * scale tx.denomination node.denomination = account.balance - (total + spent tx) := by
      intro hone
      rw [hone] at htx
      have hle := h.denominated _ _ hlookup
      rw [hone] at hle
      rw [hone, Account.value, scale_one htx, scale_one hle, hbalance hone]
      ring
    refine ⟨⟨hdenominated, ?_, ?_⟩, ?_⟩
    · intro hnone
      rw [haccount] at hnone
      cases hnone
    · intro other hsome
      rw [haccount] at hsome
      cases hsome
      refine ⟨_, hlookup2, ?_, ?_⟩
      · rw [Account.miningPermission_of, hpermission]
      · rw [Account.balance_of]
        exact hbalance2
    · rw [isOverspent, bears, hlookup2, haccount, hpermission]
      unfold Account.of
      by_cases hpair : node.denomination = 1 ∧ account.miningPermission = true
      · simp only [if_pos hpair]
        rw [hbalance2 hpair.1, ← decide_not]
        congr 1
        rw [eq_iff_iff]
        omega
      · simp only [if_neg hpair]
        rfl

end Accounts

section Search

variable {σ : Type} [LinearOrder σ] {m : Pool σ} {node : Node} {origin : Bytes} {wallet : Accounts} {total : Int}
  {tx : TX} {txs : List TX}

lemma sum_spent_from_first {first : TX} (hbelow : ∀ tx ∈ txs, unconfirmedTx tx < unconfirmedTx first) :
    (((first :: txs).filter (unconfirmedTx first ≤ unconfirmedTx ·)).map spent).sum = spent first := by
  have hfirst : (first :: txs).filter (unconfirmedTx first ≤ unconfirmedTx ·) = [first] := by
    rw [List.filter_cons_of_pos (by simp), List.filter_eq_nil_iff.mpr]
    intro tx htx
    simpa using hbelow tx htx
  rw [hfirst, List.map_singleton, List.sum_singleton]

lemma sum_spent_from_other {first : TX} (hbelow : ∀ tx ∈ txs, unconfirmedTx tx < unconfirmedTx first) (htx : tx ∈ txs) :
    (((first :: txs).filter (unconfirmedTx tx ≤ unconfirmedTx ·)).map spent).sum =
      spent first + ((txs.filter (unconfirmedTx tx ≤ unconfirmedTx ·)).map spent).sum := by
  rw [List.filter_cons_of_pos (by simpa using (hbelow tx htx).le), List.map_cons, List.sum_cons]

/-- What the search from the highest transaction down drops. -/
lemma findOverspentTxsFrom_spec (hfound : Found m txs)
    (htxs : ∀ tx ∈ txs, tx.address = origin ∧ tx.denomination ≤ node.denomination ∧ 0 ≤ spent tx)
    (hsorted : txs.Pairwise fun a b => unconfirmedTx b < unconfirmedTx a) (hdrawn : Drawn node origin wallet total) :
    ∃ dropped, findOverspentTxsFrom m origin node.denomination (txs.map unconfirmedTx) wallet = some dropped ∧
      dropped.Nodup ∧ ∀ tx, tx ∈ dropped ↔ tx ∈ txs ∧
        bears node origin (total + ((txs.filter (unconfirmedTx tx ≤ unconfirmedTx ·)).map spent).sum) = false := by
  induction txs generalizing wallet total with
  | nil => exact ⟨[], rfl, List.nodup_nil, by simp⟩
  | cons first txs ih =>
    obtain ⟨hbelow, hsorted⟩ := List.pairwise_cons.mp hsorted
    obtain ⟨haddress, hdenomination, -⟩ := htxs first List.mem_cons_self
    have hrest := fun tx htx => htxs tx (List.mem_cons_of_mem first htx)
    have hfoundRest : Found m txs := fun tx htx => hfound tx (List.mem_cons_of_mem first htx)
    have hnodup : (first :: txs).Nodup := by
      refine List.nodup_cons.mpr ⟨fun hmem => lt_irrefl _ (hbelow first hmem), hsorted.imp ?_⟩
      rintro a b hlt rfl
      exact lt_irrefl _ hlt
    obtain ⟨wallet2, happly, hdrawn2, hoverspent⟩ := hdrawn.applyTx haddress hdenomination
    have hget : getTx m (ofLex (unconfirmedTx first)).2 = some first := hfound first List.mem_cons_self
    rw [List.map_cons, findOverspentTxsFrom, hget, Option.bind_eq_bind, Option.bind_some, happly,
      Option.bind_eq_bind, Option.bind_some, hoverspent]
    by_cases hbears : bears node origin (total + spent first) = true
    · rw [hbears, Bool.not_true, if_neg Bool.false_ne_true]
      obtain ⟨dropped, hdropped, hdroppedNodup, hmem⟩ := ih hfoundRest hrest hsorted hdrawn2
      refine ⟨dropped, hdropped, hdroppedNodup, ?_⟩
      intro tx
      rw [hmem, List.mem_cons]
      constructor
      · rintro ⟨htx, hnot⟩
        refine ⟨.inr htx, ?_⟩
        rwa [sum_spent_from_other hbelow htx, ← add_assoc]
      · rintro ⟨rfl | htx, hnot⟩
        · rw [sum_spent_from_first hbelow, hbears] at hnot
          cases hnot
        · refine ⟨htx, ?_⟩
          rwa [sum_spent_from_other hbelow htx, ← add_assoc] at hnot
    · rw [Bool.not_eq_true] at hbears
      rw [hbears, Bool.not_false, if_pos rfl, ← List.map_reverse,
        toTxs_map fun tx htx => hfoundRest tx (List.mem_reverse.mp htx), Option.bind_eq_bind, Option.bind_some]
      refine ⟨first :: txs.reverse, rfl, ?_, ?_⟩
      · rw [List.nodup_cons, List.mem_reverse, List.nodup_reverse]
        exact List.nodup_cons.mp hnodup
      · intro tx
        rw [List.mem_cons, List.mem_reverse, List.mem_cons]
        refine (and_iff_left_of_imp ?_).symm
        rintro (rfl | htx)
        · rwa [sum_spent_from_first hbelow]
        · rw [← Bool.not_eq_true] at hbears ⊢
          refine fun hfit => hbears (bears_of_le _ _ ?_ hfit)
          rw [sum_spent_from_other hbelow htx, ← add_assoc]
          apply le_add_of_nonneg_right
          apply List.sum_nonneg
          intro x hx
          obtain ⟨u, hu, rfl⟩ := List.mem_map.mp hx
          exact (hrest u (List.mem_of_mem_filter hu)).2.2

lemma exists_sent (h : Indexed m) (origin : Bytes) : ∃ txs, Found m txs ∧ (∀ tx, tx ∈ txs ↔ Holds m tx ∧ tx.address = origin) ∧
    txs.map unconfirmedTx = (m.originTxMap.group origin).elems.reverse := by
  have hids : ∀ e ∈ (m.originTxMap.group origin).elems.reverse, ∃ tx, Holds m tx ∧ unconfirmedTx tx = e := by
    intro e he
    obtain ⟨other, hother, -, heq⟩ := (mem_group_originTxMap h).mp (List.mem_reverse.mp he)
    exact ⟨other, hother, heq⟩
  obtain ⟨txs, hfound, hmap⟩ := exists_found hids
  refine ⟨txs, hfound, fun tx => ?_, hmap⟩
  constructor
  · intro htx
    have hgroup : unconfirmedTx tx ∈ m.originTxMap.group origin := by
      rw [← OrdSet.mem_elems, ← List.mem_reverse, ← hmap]
      exact List.mem_map_of_mem htx
    obtain ⟨tx', htx', haddress, heq⟩ := (mem_group_originTxMap h).mp hgroup
    rw [htx'.eq (hfound tx htx) (unconfirmedTx_id heq)] at haddress
    exact ⟨hfound tx htx, haddress⟩
  · rintro ⟨htx, haddress⟩
    rw [← mem_of_mem_map hfound htx, hmap, List.mem_reverse]
    exact (mem_group_originTxMap h).mpr ⟨tx, htx, haddress, rfl⟩

/-- What the search drops is what is not affordable among the transactions of the account. -/
lemma findOverspentTxs_spec {S : Finset TX} (h : Indexed m)
    (hS : ∀ other, other ∈ S ↔ Holds m other ∧ other.address = tx.address)
    (htxs : ∀ tx ∈ S, tx.denomination ≤ node.denomination ∧ 0 ≤ spent tx)
    (haccount : ∀ account, node.accounts.lookup tx.address = some account → account.denomination ≤ node.denomination)
    (hpays : Pays tx) :
    ∃ dropped, findOverspentTxs node m tx = some dropped ∧ Found m dropped ∧ dropped.Nodup ∧
      ∀ other, other ∈ dropped ↔
        other ∈ S ∧ other ∉ affordable (fun total => bears node tx.address total = true) spent unconfirmedTx S := by
  obtain ⟨txs, hfound, hsent, hmap⟩ := exists_sent h tx.address
  have hmem : ∀ other, other ∈ txs ↔ other ∈ S := fun other => by rw [hsent, hS]
  have hsorted : txs.Pairwise fun a b => unconfirmedTx b < unconfirmedTx a := by
    rw [← List.pairwise_map (f := unconfirmedTx) (R := fun a b => b < a), hmap, List.pairwise_reverse]
    exact (m.originTxMap.group tx.address).sorted
  have hnodup : txs.Nodup := by
    refine hsorted.imp ?_
    rintro a b hlt rfl
    exact lt_irrefl _ hlt
  have hdrawn : Drawn node tx.address (node.wallets [tx.address]) 0 := by
    have hlookup : ∀ addr, (node.wallets [tx.address]).lookup addr =
        if addr = tx.address then node.accounts.lookup addr else none := by
      intro addr
      rw [Node.wallets, SortedMap.lookup_filterKeys]
      simp
    constructor
    · intro addr account hsome
      rw [hlookup, Option.ite_none_right_eq_some] at hsome
      obtain ⟨rfl, hsome⟩ := hsome
      exact haccount account hsome
    · intro hnone
      rw [hlookup, if_pos rfl, hnone]
    · intro account hsome
      refine ⟨account, by rw [hlookup, if_pos rfl, hsome], rfl, fun _ => (sub_zero _).symm⟩
  obtain ⟨dropped, hdropped, hdroppedNodup, hiff⟩ := findOverspentTxsFrom_spec hfound (fun other hother =>
    ⟨((hS other).mp ((hmem other).mp hother)).2, htxs other ((hmem other).mp hother)⟩) hsorted hdrawn
  have hset : S = txs.toFinset := by
    ext other
    rw [List.mem_toFinset, hmem]
  refine ⟨dropped, ?_, fun other hother => hfound other ((hiff other).mp hother).1, hdroppedNodup, ?_⟩
  · unfold Pays at hpays
    unfold findOverspentTxs
    rw [if_pos hpays, ← hmap, hdropped]
  · intro other
    have hsum : ((txs.filter (unconfirmedTx other ≤ unconfirmedTx ·)).map spent).sum =
        ∑ u ∈ S with unconfirmedTx other ≤ unconfirmedTx u, spent u := by
      rw [← List.sum_toFinset _ (hnodup.filter _), List.toFinset_filter, hset]
      simp only [decide_eq_true_eq]
    rw [hiff, hmem, mem_affordable, not_and, Bool.not_eq_true, zero_add, hsum]
    constructor
    · rintro ⟨hother, hnot⟩
      exact ⟨hother, fun _ => hnot⟩
    · rintro ⟨hother, hnot⟩
      exact ⟨hother, hnot hother⟩

lemma findClashingTxs_eq_nil (h : Indexed m) (htx : Holds m tx)
    (honly : tx.lastTx ≠ [] → WalletAnchored node tx → ∀ other, Holds m other → other.lastTx = tx.lastTx → other = tx) :
    findClashingTxs node m tx = some [] := by
  by_cases hanchor : tx.lastTx = []
  · exact if_pos hanchor
  by_cases hwallet : WalletAnchored node tx
  · obtain ⟨clashing, top, hclashing, hfound, -, htop, hmem⟩ := findClashingTxs_spec h htx hanchor hwallet
    rw [hclashing, Option.some.injEq, List.eq_nil_iff_forall_not_mem]
    intro other hother
    obtain ⟨hlastTx, hne⟩ := (hmem other (hfound other hother)).mp hother
    apply hne
    rw [honly hanchor hwallet other (hfound other hother) hlastTx, honly hanchor hwallet top htop.1.1 htop.1.2]
  · unfold WalletAnchored at hwallet
    unfold findClashingTxs
    rw [if_neg hanchor, if_neg hwallet]

lemma findLowPriorityTxs_eq_nil (hsize : m.mempoolSize ≤ (headerSizeLimit, dataSizeLimit)) :
    findLowPriorityTxs m = some [] := by
  obtain ⟨hheader, hdata⟩ := Prod.le_def.mp hsize
  have hnot : ¬ (headerSizeLimit < m.mempoolSize.1 ∨ dataSizeLimit < m.mempoolSize.2) :=
    not_or.mpr ⟨not_lt.mpr hheader, not_lt.mpr hdata⟩
  unfold findLowPriorityTxs
  cases m.prioritySet.elems with
  | nil => exact if_neg hnot
  | cons e elems => exact if_neg hnot

end Search

section Runs

variable {σ : Type} [LinearOrder σ] {m₀ m : Pool σ} {node : Node} {origin : Bytes} {txs : List TX} {S : Finset TX}
  {a : Addition σ}

/-- New transactions of one account, which clash with nothing and fit into the mempool. -/
structure Candidates (m : Pool σ) (node : Node) (origin : Bytes) (txs : List TX) : Prop where
  ids : (txs.map TX.id).Nodup
  address : ∀ tx ∈ txs, tx.address = origin
  format : ∀ tx ∈ txs, tx.format = 1 ∨ tx.format = 2
  amounts : ∀ tx ∈ txs, 0 ≤ tx.quantity ∧ 0 ≤ tx.reward
  denomination : ∀ tx ∈ txs, tx.denomination ≤ node.denomination
  account : ∀ account, node.accounts.lookup origin = some account → account.denomination ≤ node.denomination
  fresh : ∀ other, Holds m other → other.address ≠ origin ∧ ∀ tx ∈ txs, other.id ≠ tx.id
  anchors : ∀ tx ∈ txs, tx.lastTx ≠ [] → WalletAnchored node tx →
    ∀ other, Holds m other ∨ other ∈ txs → other.lastTx = tx.lastTx → other = tx
  sizes : m.mempoolSize + (txs.map sizes).sum ≤ (headerSizeLimit, dataSizeLimit)

/-- The transactions of the account after an addition. -/
def nextTxs (node : Node) (origin : Bytes) (S : Finset TX) (tx : TX) : Finset TX :=
  if node.joined then arrive (fun total => bears node origin total = true) Pays spent unconfirmedTx S tx
  else insert tx S

lemma spent_nonneg {tx : TX} (h : 0 ≤ tx.quantity ∧ 0 ≤ tx.reward) : 0 ≤ spent tx := by
  unfold spent
  split_ifs <;> omega

lemma add_candidate (hc : Candidates m₀ node origin txs) (h : Indexed m)
    (hholds : ∀ tx, Holds m tx ↔ Holds m₀ tx ∨ tx ∈ S) (hS : ∀ tx ∈ S, tx ∈ txs) (ha : a.tx ∈ txs) (hnot : a.tx ∉ S)
    (hnode : a.node = node) (hsize : m.mempoolSize + Mempool.sizes a.tx ≤ (headerSizeLimit, dataSizeLimit)) :
    ∃ m', add m a = some m' ∧ Indexed m' ∧ (∀ tx, Holds m' tx ↔ Holds m₀ tx ∨ tx ∈ nextTxs node origin S a.tx) ∧
      m'.mempoolSize ≤ m.mempoolSize + Mempool.sizes a.tx := by
  have hnew : ∀ other, Holds m other → other.id ≠ a.tx.id := by
    intro other hother heq
    rcases (hholds other).mp hother with hother | hother
    · exact (hc.fresh other hother).2 a.tx ha heq
    · rw [List.inj_on_of_nodup_map hc.ids (hS other hother) ha heq] at hother
      exact hnot hother
  obtain ⟨m1, hstore, h1, hholds1, hsize1⟩ := storeTx_new h hnew (hc.format a.tx ha) a.time a.status
  have hinsert : ∀ tx, Holds m1 tx ↔ Holds m₀ tx ∨ tx ∈ insert a.tx S := by
    intro tx
    rw [hholds1, hholds, Finset.mem_insert]
    exact or_left_comm
  have hcandidate : ∀ tx ∈ insert a.tx S, tx ∈ txs := by
    intro tx htx
    rcases Finset.mem_insert.mp htx with rfl | htx
    · exact ha
    · exact hS tx htx
  unfold nextTxs
  by_cases hjoined : node.joined = true
  · rw [if_pos hjoined, arrive]
    have ha1 : Holds m1 a.tx := (hholds1 a.tx).mpr (.inl rfl)
    have hclashing : findClashingTxs a.node m1 a.tx = some [] := by
      apply findClashingTxs_eq_nil h1 ha1
      intro hanchor hwallet other hother
      exact hc.anchors a.tx ha hanchor (hnode ▸ hwallet) other (((hinsert other).mp hother).imp_right (hcandidate other))
    by_cases hpays : Pays a.tx
    · rw [if_pos hpays]
      have haddress := hc.address a.tx ha
      have hS1 : ∀ other, other ∈ insert a.tx S ↔ Holds m1 other ∧ other.address = a.tx.address := by
        intro other
        rw [hinsert, haddress]
        constructor
        · exact fun hother => ⟨.inr hother, hc.address other (hcandidate other hother)⟩
        · rintro ⟨hother | hother, heq⟩
          · exact absurd heq (hc.fresh other hother).1
          · exact hother
      obtain ⟨dropped, hoverspent, hfound, hnodup, hmem⟩ := findOverspentTxs_spec h1 hS1
        (fun tx htx => ⟨hc.denomination tx (hcandidate tx htx), spent_nonneg (hc.amounts tx (hcandidate tx htx))⟩)
        (haddress ▸ hc.account) hpays
      obtain ⟨m2, hdrop, h2, hholds2, hsize2⟩ := dropTxs_found h1 hfound hnodup
      have hle : m2.mempoolSize ≤ m.mempoolSize + Mempool.sizes a.tx := hsize1 ▸ hsize2
      refine ⟨m2, ?_, h2, ?_, hle⟩
      · exact add_of_joined (hnode ▸ hjoined) hstore hclashing rfl (hnode ▸ hoverspent) hdrop
          (findLowPriorityTxs_eq_nil (hle.trans hsize)) rfl
      · intro tx
        rw [hholds2, hmem, haddress, hinsert, not_and, not_not]
        constructor
        · rintro ⟨htx | htx, himp⟩
          · exact .inl htx
          · exact .inr (himp htx)
        · rintro (htx | htx)
          · exact ⟨.inl htx, fun hin => absurd (hc.address tx (hcandidate tx hin)) (hc.fresh tx htx).1⟩
          · exact ⟨.inr (affordable_subset htx), fun _ => htx⟩
    · rw [if_neg hpays]
      have hoverspent : findOverspentTxs a.node m1 a.tx = some [] := by
        unfold Pays at hpays
        exact if_neg hpays
      refine ⟨m1, ?_, h1, hinsert, hsize1.le⟩
      exact add_of_joined (hnode ▸ hjoined) hstore hclashing rfl hoverspent rfl
        (findLowPriorityTxs_eq_nil (hsize1 ▸ hsize)) rfl
  · rw [if_neg hjoined]
    refine ⟨m1, ?_, h1, hinsert, hsize1.le⟩
    rw [add, addTx, hstore, hnode, Option.bind_eq_bind, Option.bind_some, if_neg hjoined]

/-- The transactions of the account after all the additions. -/
lemma foldlM_add_candidates {adds : List (Addition σ)} (hc : Candidates m₀ node origin txs) (h : Indexed m)
    (hholds : ∀ tx, Holds m tx ↔ Holds m₀ tx ∨ tx ∈ S) (hS : ∀ tx ∈ S, tx ∈ txs)
    (hadds : ∀ a ∈ adds, a.tx ∈ txs ∧ a.tx ∉ S ∧ a.node = node) (hnodup : (adds.map Addition.tx).Nodup)
    (hsize : m.mempoolSize + ((adds.map Addition.tx).map Mempool.sizes).sum ≤ (headerSizeLimit, dataSizeLimit)) :
    ∃ m', adds.foldlM add m = some m' ∧ ∀ tx, Holds m' tx ↔
      Holds m₀ tx ∨ tx ∈ (adds.map Addition.tx).foldl (nextTxs node origin) S := by
  induction adds generalizing m S with
  | nil => exact ⟨m, rfl, hholds⟩
  | cons a adds ih =>
    obtain ⟨ha, hnot, hnode⟩ := hadds a List.mem_cons_self
    obtain ⟨hnew, hnodup⟩ := List.nodup_cons.mp hnodup
    rw [List.map_cons, List.map_cons, List.sum_cons, ← add_assoc] at hsize
    have hrest : 0 ≤ ((adds.map Addition.tx).map Mempool.sizes).sum := by
      apply List.sum_nonneg
      intro x hx
      obtain ⟨tx, -, rfl⟩ := List.mem_map.mp hx
      exact sizes_nonneg tx
    obtain ⟨m1, hadd, h1, hholds1, hsize1⟩ := add_candidate hc h hholds hS ha hnot hnode
      ((le_add_of_nonneg_right hrest).trans hsize)
    have hnext : ∀ tx ∈ nextTxs node origin S a.tx, tx = a.tx ∨ tx ∈ S := by
      intro tx htx
      unfold nextTxs arrive at htx
      split_ifs at htx
      · exact Finset.mem_insert.mp (affordable_subset htx)
      · exact Finset.mem_insert.mp htx
      · exact Finset.mem_insert.mp htx
    obtain ⟨m', hrun, hholds'⟩ := ih h1 hholds1 (fun tx htx => (hnext tx htx).elim (fun heq => heq ▸ ha) (hS tx))
      (by
        intro b hb
        obtain ⟨hbtxs, hbS, hbnode⟩ := hadds b (List.mem_cons_of_mem a hb)
        refine ⟨hbtxs, fun hmem => ?_, hbnode⟩
        rcases hnext b.tx hmem with heq | hmem
        · exact hnew (heq ▸ List.mem_map_of_mem hb)
        · exact hbS hmem) hnodup ((add_le_add_left hsize1 _).trans hsize)
    refine ⟨m', ?_, hholds'⟩
    rw [List.foldlM_cons, hadd]
    exact hrun

lemma foldl_nextTxs_of_joined {l : List TX} (hjoined : node.joined = true) : l.foldl (nextTxs node origin) ∅ =
    settle (fun total => bears node origin total = true) Pays spent unconfirmedTx l := by
  have hnext : nextTxs node origin = arrive (fun total => bears node origin total = true) Pays spent unconfirmedTx := by
    funext S tx
    exact if_pos hjoined
  rw [hnext, settle]

lemma foldl_nextTxs_of_not_joined {l : List TX} (hjoined : node.joined = false) :
    l.foldl (nextTxs node origin) ∅ = l.toFinset := by
  induction l using List.reverseRecOn with
  | nil => rfl
  | append_singleton l tx ih =>
    rw [List.foldl_append, List.foldl_cons, List.foldl_nil, ih, nextTxs, hjoined, if_neg Bool.false_ne_true]
    ext other
    simp

/-- The transactions that the account bears, from the highest one down. -/
def kept (node : Node) (origin : Bytes) (txs : List TX) : Finset TX :=
  affordable (fun total => bears node origin total = true) spent unconfirmedTx txs.toFinset

lemma foldl_nextTxs_perm_iff (hc : Candidates m₀ node origin txs) :
    (∀ l l' : List TX, l.Perm txs → l'.Perm txs →
      l.foldl (nextTxs node origin) ∅ = l'.foldl (nextTxs node origin) ∅) ↔
      node.joined = false ∨ (∀ tx ∈ txs, ¬ Pays tx) ∨ ∀ tx ∈ txs, tx ∉ kept node origin txs →
        Pays tx ∧ bears node origin (∑ u ∈ kept node origin txs, spent u + spent tx) = false := by
  cases hjoined : node.joined with
  | false =>
    simp only [true_or, iff_true]
    intro l l' hl hl'
    rw [foldl_nextTxs_of_not_joined hjoined, foldl_nextTxs_of_not_joined hjoined,
      List.toFinset_eq_of_perm l txs hl, List.toFinset_eq_of_perm l' txs hl']
  | true =>
    have hfree : ∀ tx ∈ txs.toFinset, ¬ Pays tx → spent tx = 0 := by
      intro tx htx hnot
      have hamounts := hc.amounts tx (List.mem_toFinset.mp htx)
      unfold Pays at hnot
      unfold spent
      split_ifs <;> omega
    have hinj : Set.InjOn unconfirmedTx txs.toFinset := fun tx htx tx' htx' heq =>
      List.inj_on_of_nodup_map hc.ids (List.mem_toFinset.mp htx) (List.mem_toFinset.mp htx') (unconfirmedTx_id heq)
    simp only [foldl_nextTxs_of_joined hjoined, ← Bool.not_eq_true, not_true, false_or]
    exact settle_perm_iff bears_of_le (fun tx htx => spent_nonneg (hc.amounts tx (List.mem_toFinset.mp htx))) hfree
      hinj (List.Nodup.of_map TX.id hc.ids)

/-- All orders of arrival leave the same transactions exactly when the node has not joined, or
no transaction pays anything, or every transaction beyond the ones that the account bears pays
something and cannot be borne beside them. -/
theorem same_txs_left_iff [Inhabited σ] (m : Pool σ) (h : Indexed m) (node : Node) (origin : Bytes) (txs : List TX)
    (hc : Candidates m node origin txs) :
    (∀ adds adds' : List (Addition σ), (adds.map Addition.tx).Perm txs → (adds'.map Addition.tx).Perm txs →
      (∀ a ∈ adds ++ adds', a.node = node) → ∃ r r', adds.foldlM add m = some r ∧ adds'.foldlM add m = some r' ∧
        ∀ tx, Holds r tx ↔ Holds r' tx) ↔
      node.joined = false ∨ (∀ tx ∈ txs, ¬ Pays tx) ∨ ∀ tx ∈ txs, tx ∉ kept node origin txs →
        Pays tx ∧ bears node origin (∑ u ∈ kept node origin txs, spent u + spent tx) = false := by
  have hnodup : txs.Nodup := List.Nodup.of_map TX.id hc.ids
  have hrun : ∀ adds : List (Addition σ), (adds.map Addition.tx).Perm txs → (∀ a ∈ adds, a.node = node) →
      ∃ r, adds.foldlM add m = some r ∧ ∀ tx, Holds r tx ↔
        Holds m tx ∨ tx ∈ (adds.map Addition.tx).foldl (nextTxs node origin) ∅ := by
    intro adds hperm hnode
    refine foldlM_add_candidates hc h (by simp) (by simp) ?_ (hperm.nodup_iff.mpr hnodup) ?_
    · intro a ha
      exact ⟨hperm.mem_iff.mp (List.mem_map_of_mem ha), by simp, hnode a ha⟩
    · rw [(hperm.map Mempool.sizes).sum_eq]
      exact hc.sizes
  have hnew : ∀ l : List TX, l.Perm txs → ∀ tx ∈ l.foldl (nextTxs node origin) ∅, ¬ Holds m tx := by
    intro l hl tx htx hholds
    have hmem : tx ∈ l := by
      cases hjoined : node.joined with
      | false =>
        rw [foldl_nextTxs_of_not_joined hjoined] at htx
        exact List.mem_toFinset.mp htx
      | true =>
        rw [foldl_nextTxs_of_joined hjoined] at htx
        exact List.mem_toFinset.mp (settle_subset htx)
    exact (hc.fresh tx hholds).2 tx (hl.mem_iff.mp hmem) rfl
  rw [← foldl_nextTxs_perm_iff hc]
  constructor
  · intro hsame l l' hl hl'
    have hmap : ∀ l : List TX, (l.map fun tx => (⟨node, 0, tx, default⟩ : Addition σ)).map Addition.tx = l := by
      intro l
      rw [List.map_map]
      exact List.map_id l
    have hnode : ∀ l : List TX, ∀ a ∈ l.map fun tx => (⟨node, 0, tx, default⟩ : Addition σ), a.node = node := by
      intro l a ha
      obtain ⟨tx, -, rfl⟩ := List.mem_map.mp ha
      rfl
    obtain ⟨r, r', hr, hr', heq⟩ := hsame _ _ ((hmap l).symm ▸ hl) ((hmap l').symm ▸ hl') (by
      intro a ha
      rcases List.mem_append.mp ha with ha | ha
      · exact hnode l a ha
      · exact hnode l' a ha)
    obtain ⟨s, hs, hholds⟩ := hrun _ ((hmap l).symm ▸ hl) (hnode l)
    obtain ⟨s', hs', hholds'⟩ := hrun _ ((hmap l').symm ▸ hl') (hnode l')
    cases hr.symm.trans hs
    cases hr'.symm.trans hs'
    rw [hmap] at hholds hholds'
    ext tx
    constructor
    · intro htx
      exact ((hholds' tx).mp ((heq tx).mp ((hholds tx).mpr (.inr htx)))).resolve_left (hnew l hl tx htx)
    · intro htx
      exact ((hholds tx).mp ((heq tx).mpr ((hholds' tx).mpr (.inr htx)))).resolve_left (hnew l' hl' tx htx)
  · intro hsame adds adds' hperm hperm' hnode
    obtain ⟨r, hr, hholds⟩ := hrun adds hperm fun a ha => hnode a (List.mem_append_left _ ha)
    obtain ⟨r', hr', hholds'⟩ := hrun adds' hperm' fun a ha => hnode a (List.mem_append_right _ ha)
    refine ⟨r, r', hr, hr', fun tx => ?_⟩
    rw [hholds, hholds', hsame _ _ hperm hperm']

end Runs

/-- A transaction with an anchor of its own. -/
def spendingTx (id : UInt8) (reward : Int) : TX := { sampleTx id reward [] with lastTx := [id, id] }

def spendingAddition (id : UInt8) (reward : Int) : Addition Status := ⟨sampleNode, 5, spendingTx id reward, .waiting⟩

lemma candidates_sampleNode {txs : List TX} (hids : (txs.map TX.id).Nodup)
    (htxs : ∀ tx ∈ txs, tx.address = sampleAddress ∧ tx.format = 2 ∧ (0 ≤ tx.quantity ∧ 0 ≤ tx.reward) ∧
      tx.denomination = 0 ∧ checkLastTx (sampleNode.wallets [tx.address, tx.target]) tx = false)
    (hsizes : (txs.map sizes).sum ≤ (headerSizeLimit, dataSizeLimit)) :
    Candidates ({} : Pool Status) sampleNode sampleAddress txs where
  ids := hids
  address tx htx := (htxs tx htx).1
  format tx htx := .inr (htxs tx htx).2.1
  amounts tx htx := (htxs tx htx).2.2.1
  denomination tx htx := by
    rw [(htxs tx htx).2.2.2.1]
    exact Nat.zero_le _
  account account hlookup := by
    have hpair : sampleNode.accounts.lookup sampleAddress = some (.pair 10 []) := by decide
    cases hpair.symm.trans hlookup
    decide
  fresh other hother := by cases hother
  anchors tx htx _ hwallet := by
    rw [WalletAnchored, (htxs tx htx).2.2.2.2] at hwallet
    cases hwallet
  sizes := by
    rw [show ({} : Pool Status).mempoolSize = 0 from rfl, zero_add]
    exact hsizes

theorem same_txs_left_two :
    Candidates ({} : Pool Status) sampleNode sampleAddress [spendingTx 1 8, spendingTx 2 5] ∧
    ∀ adds adds' : List (Addition Status), (adds.map Addition.tx).Perm [spendingTx 1 8, spendingTx 2 5] →
      (adds'.map Addition.tx).Perm [spendingTx 1 8, spendingTx 2 5] → (∀ a ∈ adds ++ adds', a.node = sampleNode) →
      ∃ r r', adds.foldlM add {} = some r ∧ adds'.foldlM add {} = some r' ∧ ∀ tx, Holds r tx ↔ Holds r' tx := by
  have : Inhabited Status := ⟨.waiting⟩
  have hc : Candidates ({} : Pool Status) sampleNode sampleAddress [spendingTx 1 8, spendingTx 2 5] :=
    candidates_sampleNode (by decide) (by decide) (by decide)
  refine ⟨hc, (same_txs_left_iff ({} : Pool Status) indexed_empty sampleNode sampleAddress
    [spendingTx 1 8, spendingTx 2 5] hc).mpr ?_⟩
  right
  right
  decide

/-- An account with ten winstons. The transaction of two is kept when it comes after the one of
five, which does not fit beside the one of eight, and lost when it comes before. -/
theorem txs_left_differ :
    Candidates ({} : Pool Status) sampleNode sampleAddress [spendingTx 1 8, spendingTx 2 5, spendingTx 3 2] ∧
    ∃ r r' : Pool Status,
      [spendingAddition 1 8, spendingAddition 2 5, spendingAddition 3 2].foldlM add {} = some r ∧
      [spendingAddition 3 2, spendingAddition 1 8, spendingAddition 2 5].foldlM add {} = some r' ∧
      Holds r (spendingTx 3 2) ∧ ¬ Holds r' (spendingTx 3 2) := by
  refine ⟨candidates_sampleNode (by decide) (by decide) (by decide), ?_⟩
  have hfirst : ([spendingAddition 1 8, spendingAddition 2 5, spendingAddition 3 2].foldlM add {}).map (getTx · [3]) =
      some (some (spendingTx 3 2)) := by decide
  have hsecond : ([spendingAddition 3 2, spendingAddition 1 8, spendingAddition 2 5].foldlM add {}).map (getTx · [3]) =
      some none := by decide
  obtain ⟨r, hr, hget⟩ := Option.map_eq_some_iff.mp hfirst
  obtain ⟨r', hr', hget'⟩ := Option.map_eq_some_iff.mp hsecond
  refine ⟨r, r', hr, hr', hget, ?_⟩
  intro hholds
  cases hget'.symm.trans hholds

end Arweave.Mempool

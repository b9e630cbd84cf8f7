import Arweave.P3.Deposits

/-!
# Scans

A scan goes over the confirmed blocks that have not been scanned and credits their deposits. The results of the
calls of the ledger are matched against `{ok, _}`, so a deposit that the ledger does not take stops this scan and
all later ones at its block.
-/

namespace Arweave.P3

open Lib Tx

section Regular

variable {depositAddress : Bytes} {weave : Weave} {db db' : Db} {now : Nat} {call : Call} {P : Db → Prop}
  {first second : Caller} {tx : TX} {txs : List TX}

/-- The key and the address of a sender of the weave. -/
def Weave.Sender (weave : Weave) (address : Bytes) (publicKey : SignatureType × Bytes) : Prop :=
  ∃ height, ∃ tx ∈ weave.blocks height, tx.address = address ∧ publicKey = (tx.signatureType, tx.owner)

/-- All stores are open, and the accounts belong to senders. -/
structure Regular (weave : Weave) (db : Db) : Prop where
  balanced : db.Balanced
  serving : db.Serving
  keyed : ∀ address account, getAccount2 db address = some account →
    weave.Sender address account.publicKey ∧ account.asset = arweaveAR

lemma Regular.not_closed (h : Regular weave db) (address : Bytes) : ¬db.Closed address := by
  rintro ⟨ho, hsize⟩
  refine ho (h.serving address fun hnone => hsize ?_)
  exact (h.balanced.store address).unused hnone

lemma Regular.after (h : Regular weave db)
    (hsender : ∀ address publicKey asset, call = .getOrCreateAccount address publicKey asset →
      weave.Sender address publicKey) :
    Regular weave ((Caller.call now call db).1.foldl Db.apply db) := by
  have hperform : perform db now call = ((perform db now call).1, (perform db now call).2) := rfl
  refine ⟨?_, h.serving.perform h.balanced hperform, fun address account hget => ?_⟩
  · exact h.balanced.perform hperform fun address _ _ _ hget => h.balanced.size_eq_zero h.serving hget
  · obtain ⟨old, hold, hkey, hasset⟩ | ⟨publicKey, hcall, hkey, hasset⟩ := getAccount2_after h.balanced hperform hget
    · rw [hkey, hasset]
      exact h.keyed address old hold
    · rw [hkey]
      exact ⟨hsender _ _ _ hcall, hasset⟩

/-- The caller leaves a property of the stores as it is, whether its calls match or not. -/
def Caller.Keeps (P : Db → Prop) (caller : Caller) : Prop := ∀ db, P db → P ((caller db).1.foldl Db.apply db)

lemma Caller.Keeps.andThen (h : first.Keeps P) (h' : second.Keeps P) : (first.andThen second).Keeps P := by
  intro db hdb
  cases hok : (first db).2 with
  | true =>
    rw [andThen_of_ok hok, List.foldl_append]
    exact h' _ (h db hdb)
  | false =>
    rw [andThen_of_not_ok hok]
    exact h db hdb

lemma applyDeposits_keeps (h : ∀ tx ∈ txs, tx.target = depositAddress → (applyDeposit now tx).Keeps P) :
    (applyDeposits depositAddress now txs).Keeps P := by
  induction txs with
  | nil => exact fun db hdb => hdb
  | cons tx txs ih =>
    rw [List.forall_mem_cons] at h
    rw [applyDeposits]
    split_ifs with htarget
    · exact (h.1 htarget).andThen (ih h.2)
    · exact ih h.2

lemma scanBlocks_keeps {available : Nat → Bool} {lastConfirmed : Int} {left : Nat}
    (hblock : ∀ height, (applyDeposits depositAddress now (weave.blocks height)).Keeps P)
    (hset : ∀ height, (Caller.call now (.setScanHeight height)).Keeps P) :
    (scanBlocksForDeposits depositAddress now (weave.served available) lastConfirmed left).Keeps P := by
  induction left with
  | zero => exact fun db hdb => hdb
  | succ left ih =>
    intro db hdb
    obtain hleft | hleft := lt_or_ge (getScanHeight2 db) lastConfirmed
    · rw [scanBlocks_succ hleft]
      split
      · exact hdb
      · rename_i scan hscan
        have hscan : scan.Keeps P := by
          unfold scanBlockForDeposits Weave.served at hscan
          split_ifs at hscan
          · cases hscan
            exact hblock _
          · cases hscan
          · cases hscan
            exact fun db hdb => hdb
        exact (hscan.andThen ((hset _).andThen ih)) db hdb
    · rw [scanBlocks_of_le hleft]
      exact hdb

lemma applyDeposit_regular {height : Nat} (htx : tx ∈ weave.blocks height) :
    (applyDeposit now tx).Keeps (Regular weave) := by
  apply Caller.Keeps.andThen
  · intro db hdb
    apply hdb.after
    rintro _ _ _ ⟨⟩
    exact ⟨height, tx, htx, rfl, rfl⟩
  · intro db hdb
    apply hdb.after
    rintro _ _ _ ⟨⟩

lemma setScanHeight_regular (now : Nat) (height : Int) : (Caller.call now (.setScanHeight height)).Keeps (Regular weave) := by
  intro db hdb
  apply hdb.after
  rintro _ _ _ ⟨⟩

/-- New accounts are accounts of senders. -/
def Op.Signed (weave : Weave) : Op → Prop
  | .createAccount address publicKey => weave.Sender address publicKey
  | _ => True

lemma caller_regular {op : Op} (h : op.Signed weave) : (op.caller depositAddress now weave).Keeps (Regular weave) := by
  cases op with
  | createAccount address publicKey =>
    intro db hdb
    apply hdb.after
    rintro _ _ _ ⟨⟩
    exact h
  | charge address amount minimum request =>
    intro db hdb
    apply hdb.after
    rintro _ _ _ ⟨⟩
  | reverse address id =>
    intro db hdb
    apply hdb.after
    rintro _ _ _ ⟨⟩
  | newTip lastConfirmed available =>
    intro db hdb
    exact scanBlocks_keeps (fun height => applyDeposits_keeps fun tx htx _ => applyDeposit_regular htx)
      (setScanHeight_regular now) db hdb

/-- The requests of a node that is not killed. A scan may raise. -/
structure Event.Plain (weave : Weave) (event : Event) : Prop where
  crash : event.crash = none
  signed : event.op.Signed weave

lemma Event.Plain.cautious {s : Ledger} {event : Event} (h : event.Plain weave) (hs : Regular weave s.db) :
    event.Cautious depositAddress weave s := by
  constructor
  · intro k restart hcrash
    rw [h.crash] at hcrash
    cases hcrash
  · obtain ⟨time, op, crash⟩ := event
    cases op with
    | createAccount address publicKey => exact hs.not_closed address
    | charge => trivial
    | reverse => trivial
    | newTip lastConfirmed available => exact fun tx _ => hs.not_closed tx.address

theorem run_regular (depositAddress : Bytes) {events : List Event} (h : ∀ event ∈ events, event.Plain weave) :
    Regular weave (runEvents depositAddress weave events).db ∧
      (runEvents depositAddress weave events).Sound depositAddress weave := by
  induction events using List.reverseRecOn with
  | nil =>
    refine ⟨⟨Db.Balanced.empty, fun _ h => (h rfl).elim, ?_⟩, run_sound ?_⟩
    · rintro _ _ ⟨⟩
    · intro before event after heq
      simp at heq
  | append_singleton events event ih =>
    obtain ⟨hregular, hsound⟩ := ih fun event hevent => h event (List.mem_append_left _ hevent)
    have hplain := h event (by simp)
    rw [runEvents, List.foldl_append]
    refine ⟨?_, step_sound hsound (hplain.cautious hregular)⟩
    change Regular weave (Ledger.step depositAddress weave (runEvents depositAddress weave events) event).db
    unfold Ledger.step
    rw [hplain.crash]
    dsimp only
    rw [foldl_apply_db]
    exact caller_regular hplain.signed _ hregular

end Regular

section Credits

variable {depositAddress : Bytes} {weave : Weave} {db db' : Db} {now : Nat} {deposits : TX → Prop} {tx : TX}
  {txs : List TX} {lastConfirmed : Int} {left : Nat}

lemma postDeposit_writes (now : Nat) (tx : TX) (hdb : db.Balanced) :
    (Caller.call now (.postDeposit tx.address tx.quantity (.binary tx.id)) db).1 = [] ∨
      0 < tx.quantity ∧ ∃ (account : Account) (transaction : Transaction), account.address = tx.address ∧
        (db.store tx.address).transactions.lookup (.binary tx.id) = none ∧ transaction.id = .binary tx.id ∧
        transaction.amount = tx.quantity ∧
        (Caller.call now (.postDeposit tx.address tx.quantity (.binary tx.id)) db).1 = account.postings transaction := by
  have hperform : perform db now (.postDeposit tx.address tx.quantity (.binary tx.id)) =
      handleCall db now (.postDeposit tx.address tx.quantity (.binary tx.id)) := by
    rw [perform, validatedCall_eq (tx_address_ne_nil tx) rfl]
    simp
  have hcall : (Caller.call now (.postDeposit tx.address tx.quantity (.binary tx.id)) db).1 =
      (perform db now (.postDeposit tx.address tx.quantity (.binary tx.id))).2 := rfl
  rw [hcall, hperform]
  simp only [handleCall]
  cases hget : getAccount2 db tx.address with
  | none => exact .inl rfl
  | some account =>
    obtain ⟨ho, hacc⟩ := getAccount2_eq_some hget
    obtain ⟨haddress, -, -⟩ := (hdb.store tx.address).account account hacc
    simp only [postTxTransaction, Txid.term]
    split_ifs with hquantity
    · exact .inl rfl
    · rw [← haddress] at ho
      obtain ⟨t, -, -, hwrites⟩ | ⟨hnone, t, hid, hamount, -, hwrites⟩ :=
        postTransaction_cases ho (rfl : postTransaction db now account _ _ _ = (_, _))
      · exact .inl hwrites
      · rw [haddress] at hnone
        exact .inr ⟨not_le.mp hquantity, account, t, haddress, hnone, hid, hamount, hwrites⟩

/-- Nothing stored is changed, and what is new are positive deposits. -/
structure Credits (deposits : TX → Prop) (db db' : Db) : Prop where
  kept : ∀ address id transaction, (db.store address).transactions.lookup id = some transaction →
    (db'.store address).transactions.lookup id = some transaction
  only : ∀ address id transaction, (db'.store address).transactions.lookup id = some transaction →
    (db.store address).transactions.lookup id = some transaction ∨
      ∃ tx, deposits tx ∧ 0 < tx.quantity ∧ tx.address = address ∧ id = .binary tx.id ∧ transaction.amount = tx.quantity

lemma Credits.refl : Credits deposits db db := ⟨fun _ _ _ h => h, fun _ _ _ h => .inl h⟩

lemma Credits.trans {db'' : Db} (h : Credits deposits db db') (h' : Credits deposits db' db'') :
    Credits deposits db db'' := by
  refine ⟨fun address id t ht => h'.kept address id t (h.kept address id t ht), fun address id t ht => ?_⟩
  obtain ht | hnew := h'.only address id t ht
  · exact h.only address id t ht
  · exact .inr hnew

lemma Credits.mono {deposits' : TX → Prop} (h : Credits deposits' db db') (hsub : ∀ tx, deposits' tx → deposits tx) :
    Credits deposits db db' := by
  refine ⟨h.kept, fun address id t ht => ?_⟩
  obtain ht | ⟨tx, htx, hrest⟩ := h.only address id t ht
  · exact .inl ht
  · exact .inr ⟨tx, hsub tx htx, hrest⟩

lemma Credits.of_transactions (h : ∀ address, (db'.store address).transactions = (db.store address).transactions) :
    Credits deposits db db' := by
  constructor
  · intro address id t ht
    rw [h]
    exact ht
  · intro address id t ht
    rw [h] at ht
    exact .inl ht

/-- The stores are regular and have been credited since. -/
def Since (weave : Weave) (deposits : TX → Prop) (db db' : Db) : Prop := Regular weave db' ∧ Credits deposits db db'

lemma create_credits (now : Nat) (tx : TX) (db : Db) :
    Credits deposits db ((Caller.call now (.getOrCreateAccount tx.address (tx.signatureType, tx.owner) arweaveAR) db).1.foldl
      Db.apply db) := by
  have hperform : perform db now (.getOrCreateAccount tx.address (tx.signatureType, tx.owner) arweaveAR) =
      getOrCreateAccount db now tx.address (tx.signatureType, tx.owner) arweaveAR := by
    rw [perform, if_pos rfl, validatedCall_eq (tx_address_ne_nil tx) rfl]
    rfl
  have hcall : (Caller.call now (.getOrCreateAccount tx.address (tx.signatureType, tx.owner) arweaveAR) db).1 =
      (perform db now (.getOrCreateAccount tx.address (tx.signatureType, tx.owner) arweaveAR)).2 := rfl
  rw [hcall, hperform, getOrCreateAccount]
  split
  · apply Credits.of_transactions
    intro address
    rw [store_create]
    split_ifs with heq
    · rw [heq]
    · rfl
  · split_ifs
    · exact Credits.refl
    · exact Credits.refl

lemma post_credits (now : Nat) (hdb : db.Balanced) (htx : deposits tx) :
    Credits deposits db
      ((Caller.call now (.postDeposit tx.address tx.quantity (.binary tx.id)) db).1.foldl Db.apply db) := by
  obtain hnil | ⟨hpos, account, t, haddress, hnone, hid, hamount, hwrites⟩ := postDeposit_writes now tx hdb
  · rw [hnil]
    exact Credits.refl
  · rw [hwrites]
    constructor
    · intro address id t' ht'
      rw [store_post]
      split_ifs with heq
      · rw [Store.post, SortedMap.lookup_insert, hid]
        rw [heq, haddress] at ht'
        split_ifs with hkey
        · rw [hkey, hnone] at ht'
          cases ht'
        · rw [haddress]
          exact ht'
      · exact ht'
    · intro address id t' ht'
      rw [store_post] at ht'
      split_ifs at ht' with heq
      · rw [Store.post, SortedMap.lookup_insert] at ht'
        split_ifs at ht' with hkey
        · cases ht'
          exact .inr ⟨tx, htx, hpos, (heq.trans haddress).symm, hkey.trans hid, hamount⟩
        · rw [← heq] at ht'
          exact .inl ht'
      · exact .inl ht'

lemma applyDeposit_since {height : Nat} (hmem : tx ∈ weave.blocks height) (htx : deposits tx) :
    (applyDeposit now tx).Keeps (Since weave deposits db) := by
  apply Caller.Keeps.andThen
  · rintro db' ⟨hregular, hcredits⟩
    refine ⟨hregular.after ?_, hcredits.trans (create_credits now tx db')⟩
    rintro _ _ _ ⟨⟩
    exact ⟨height, tx, hmem, rfl, rfl⟩
  · rintro db' ⟨hregular, hcredits⟩
    refine ⟨hregular.after ?_, hcredits.trans (post_credits now hregular.balanced htx)⟩
    rintro _ _ _ ⟨⟩

end Credits

section Scans

variable {depositAddress : Bytes} {weave : Weave} {db : Db} {now : Nat} {tx : TX} {txs : List TX} {lastConfirmed : Int}
  {left : Nat}

lemma postDeposit_ok_iff {account : Account} (hget : getAccount2 db tx.address = some account) :
    (Caller.call now (.postDeposit tx.address tx.quantity (.binary tx.id)) db).2 = true ↔ 0 < tx.quantity := by
  refine ⟨fun hok => ?_, fun hpos => postDeposit_ok now hpos hget⟩
  by_contra hquantity
  have hreply : (perform db now (.postDeposit tx.address tx.quantity (.binary tx.id))).1 = .error .invalid_amount := by
    rw [perform, validatedCall_eq (tx_address_ne_nil tx) rfl]
    · simp only [handleCall, hget, postTxTransaction, Txid.term, if_pos (not_lt.mp hquantity)]
    · simp
  change (perform db now (.postDeposit tx.address tx.quantity (.binary tx.id))).1.ok = true at hok
  rw [hreply] at hok
  cases hok

lemma applyDeposit_ok_iff (now : Nat) (h : Regular weave db) {height : Nat} (hmem : tx ∈ weave.blocks height) :
    ((applyDeposit now tx db).2 = true ↔ 0 < tx.quantity) ∧
      ((applyDeposit now tx db).2 = true →
        (((applyDeposit now tx db).1.foldl Db.apply db).store tx.address).transactions.lookup (.binary tx.id) ≠ none) := by
  have hmatch : ∀ account, getAccount2 db tx.address = some account →
      account.publicKey = (tx.signatureType, tx.owner) ∧ account.asset = arweaveAR := by
    intro account hget
    obtain ⟨⟨height', tx', hmem', haddress, hkey⟩, hasset⟩ := h.keyed _ account hget
    exact ⟨hkey.trans (weave.keys height' height tx' tx hmem' hmem haddress), hasset⟩
  obtain ⟨hok, account, hget⟩ := getOrCreate_ok now h.balanced hmatch
  have hcreated : Regular weave ((Caller.call now (.getOrCreateAccount tx.address (tx.signatureType, tx.owner)
      arweaveAR) db).1.foldl Db.apply db) := by
    apply h.after
    rintro _ _ _ ⟨⟩
    exact ⟨height, tx, hmem, rfl, rfl⟩
  rw [applyDeposit, andThen_of_ok hok, List.foldl_append]
  exact ⟨postDeposit_ok_iff hget, perform_ok_postDeposit hcreated.balanced rfl⟩

lemma applyDeposits_ok_iff (depositAddress : Bytes) (now : Nat) (h : Regular weave db)
    (hsub : ∀ tx ∈ txs, ∃ height, tx ∈ weave.blocks height) :
    ((applyDeposits depositAddress now txs db).2 = true ↔ ∀ tx ∈ txs, tx.target = depositAddress → 0 < tx.quantity) ∧
      ((applyDeposits depositAddress now txs db).2 = true → ∀ tx ∈ txs, tx.target = depositAddress →
        (((applyDeposits depositAddress now txs db).1.foldl Db.apply db).store tx.address).transactions.lookup
          (.binary tx.id) ≠ none) := by
  induction txs generalizing db with
  | nil => exact ⟨iff_of_true rfl (by simp), by simp⟩
  | cons tx txs ih =>
    obtain ⟨⟨height, hmem⟩, hsub⟩ := List.forall_mem_cons.mp hsub
    rw [applyDeposits, List.forall_mem_cons]
    split_ifs with htarget
    · obtain ⟨hiff, hstored⟩ := applyDeposit_ok_iff now h hmem
      cases hok : (applyDeposit now tx db).2 with
      | false =>
        rw [andThen_of_not_ok hok]
        refine ⟨iff_of_false (by simp) fun hpos => ?_, by simp⟩
        rw [hiff.mpr (hpos.1 htarget)] at hok
        cases hok
      | true =>
        have hregular : Regular weave ((applyDeposit now tx db).1.foldl Db.apply db) := applyDeposit_regular hmem db h
        obtain ⟨hrest, hrestStored⟩ := ih hregular hsub
        rw [andThen_of_ok hok, List.foldl_append]
        refine ⟨hrest.trans (and_iff_right fun _ => hiff.mp hok).symm, fun hrestok => ?_⟩
        rw [List.forall_mem_cons]
        refine ⟨fun _ => ?_, hrestStored hrestok⟩
        obtain ⟨t, ht⟩ := Option.ne_none_iff_exists'.mp (hstored hok)
        have hkeeps : (applyDeposits depositAddress now txs).Keeps
            (Since weave (fun _ => True) ((applyDeposit now tx db).1.foldl Db.apply db)) := by
          refine applyDeposits_keeps fun tx' htx' _ => ?_
          obtain ⟨height', hmem'⟩ := hsub tx' htx'
          exact applyDeposit_since hmem' trivial
        rw [(hkeeps _ ⟨hregular, Credits.refl⟩).2.kept _ _ t ht]
        simp
    · obtain ⟨hrest, hrestStored⟩ := ih h hsub
      refine ⟨hrest.trans (and_iff_right fun heq => absurd heq htarget).symm, fun hok => ?_⟩
      rw [List.forall_mem_cons]
      exact ⟨fun heq => absurd heq htarget, hrestStored hok⟩

/-- What a scan does: it goes through if all deposits in its reach are positive, then reaches the last confirmed block with
all of them stored, and stores nothing else. -/
structure Scanned (depositAddress : Bytes) (weave : Weave) (lastConfirmed : Int) (db : Db)
    (result : List Write × Bool) : Prop where
  ok_iff : result.2 = true ↔ ∀ tx, weave.reached depositAddress db lastConfirmed tx → 0 < tx.quantity
  height : result.2 = true → getScanHeight2 (result.1.foldl Db.apply db) = max (getScanHeight2 db) lastConfirmed
  stored : result.2 = true → ∀ tx, weave.reached depositAddress db lastConfirmed tx →
    ((result.1.foldl Db.apply db).store tx.address).transactions.lookup (.binary tx.id) ≠ none
  since : Since weave (weave.reached depositAddress db lastConfirmed) db (result.1.foldl Db.apply db)

lemma scanned_done (h : Regular weave db) (hle : lastConfirmed ≤ getScanHeight2 db) :
    Scanned depositAddress weave lastConfirmed db ([], true) := by
  have hnone : ∀ tx, ¬ weave.reached depositAddress db lastConfirmed tx := by
    rintro tx ⟨height, hlow, hhigh, -⟩
    omega
  refine ⟨iff_of_true rfl fun tx htx => (hnone tx htx).elim, fun _ => ?_, fun _ tx htx => (hnone tx htx).elim,
    h, Credits.refl⟩
  exact (max_eq_left hle).symm

lemma reached_iff {db' : Db} (hleft : getScanHeight2 db < lastConfirmed)
    (hheight : getScanHeight2 db' = nextHeight db lastConfirmed) :
    weave.reached depositAddress db lastConfirmed tx ↔
      (tx ∈ weave.blocks (nextHeight db lastConfirmed).toNat ∧ tx.target = depositAddress) ∨
        weave.reached depositAddress db' lastConfirmed tx := by
  have hscan : maxBlockScan = 200 := rfl
  unfold Weave.reached Weave.pending
  rw [hheight]
  have hnext : nextHeight db lastConfirmed = max (getScanHeight2 db) (lastConfirmed - maxBlockScan) + 1 := rfl
  constructor
  · rintro ⟨height, hlow, hhigh, hmem, htarget⟩
    obtain rfl | hne := eq_or_ne height (nextHeight db lastConfirmed)
    · exact .inl ⟨hmem, htarget⟩
    · exact .inr ⟨height, by omega, hhigh, hmem, htarget⟩
  · rintro (⟨hmem, htarget⟩ | ⟨height, hlow, hhigh, hmem, htarget⟩)
    · exact ⟨_, by omega, by omega, hmem, htarget⟩
    · exact ⟨height, by omega, hhigh, hmem, htarget⟩

lemma Scanned.after {writes : List Write} {result : List Write × Bool} {deposits : TX → Prop}
    (hfold : writes.foldl Db.apply db = db') (hleft : getScanHeight2 db ≤ lastConfirmed)
    (hheight : getScanHeight2 db' ≤ lastConfirmed)
    (hreached : ∀ tx, weave.reached depositAddress db lastConfirmed tx ↔
      deposits tx ∨ weave.reached depositAddress db' lastConfirmed tx)
    (hpositive : ∀ tx, deposits tx → 0 < tx.quantity)
    (hstored : ∀ tx, deposits tx → (db'.store tx.address).transactions.lookup (.binary tx.id) ≠ none)
    (hcredits : Credits (weave.reached depositAddress db lastConfirmed) db db')
    (hrest : Scanned depositAddress weave lastConfirmed db' result) :
    Scanned depositAddress weave lastConfirmed db (writes ++ result.1, result.2) where
  ok_iff := by
    refine hrest.ok_iff.trans ⟨fun hall tx htx => ?_, fun hall tx htx => hall tx ((hreached tx).mpr (.inr htx))⟩
    exact ((hreached tx).mp htx).elim (hpositive tx) (hall tx)
  height hok := by
    rw [List.foldl_append, hfold, hrest.height hok, max_eq_right hheight, max_eq_right hleft]
  stored hok tx htx := by
    rw [List.foldl_append, hfold]
    obtain hdeposit | htx := (hreached tx).mp htx
    · obtain ⟨t, ht⟩ := Option.ne_none_iff_exists'.mp (hstored tx hdeposit)
      rw [hrest.since.2.kept _ _ t ht]
      exact Option.some_ne_none _
    · exact hrest.stored hok tx htx
  since := by
    rw [List.foldl_append, hfold]
    exact ⟨hrest.since.1, hcredits.trans (hrest.since.2.mono fun tx htx => (hreached tx).mpr (.inr htx))⟩

theorem scanBlocks_spec (h : Regular weave db) (hpos : 0 ≤ getScanHeight2 db)
    (hleft : (lastConfirmed - getScanHeight2 db).toNat ≤ left) :
    Scanned depositAddress weave lastConfirmed db
      (scanBlocksForDeposits depositAddress now (weave.served fun _ => true) lastConfirmed left db) := by
  induction left generalizing db with
  | zero =>
    rw [scanBlocks_of_le (by omega)]
    exact scanned_done h (by omega)
  | succ left ih =>
    obtain hle | hlt := le_or_gt lastConfirmed (getScanHeight2 db)
    · rw [scanBlocks_of_le hle]
      exact scanned_done h hle
    obtain ⟨hnext, hnextle⟩ := nextHeight_bounds hlt
    have hscan : scanBlockForDeposits depositAddress now (weave.served fun _ => true) (nextHeight db lastConfirmed) =
        some (applyDeposits depositAddress now (weave.blocks (nextHeight db lastConfirmed).toNat)) := by
      rw [scanBlockForDeposits, if_pos (hpos.trans hnext.le)]
      rfl
    set block := weave.blocks (nextHeight db lastConfirmed).toNat with hblock
    obtain ⟨hiff, hstored⟩ := applyDeposits_ok_iff depositAddress now h (fun tx (htx : tx ∈ block) => ⟨_, htx⟩)
    set db1 := (applyDeposits depositAddress now block db).1.foldl Db.apply db with hdb1
    set db2 := db1.apply (.putScanHeight (nextHeight db lastConfirmed)) with hdb2
    have hreached : ∀ tx, weave.reached depositAddress db lastConfirmed tx ↔
        (tx ∈ block ∧ tx.target = depositAddress) ∨ weave.reached depositAddress db2 lastConfirmed tx :=
      fun tx => reached_iff hlt rfl
    have hsince : Since weave (weave.reached depositAddress db lastConfirmed) db db1 := by
      apply applyDeposits_keeps _ db ⟨h, Credits.refl⟩
      intro tx htx htarget
      exact applyDeposit_since htx ((hreached tx).mpr (.inl ⟨htx, htarget⟩))
    have hheight : getScanHeight2 db1 = getScanHeight2 db := applyDeposits_scanHeight depositAddress now db block
    have hset := setScanHeight_ok now db1 (hpos.trans hnext.le) (by rw [hheight]; exact hnext)
    rw [scanBlocks_succ hlt, hscan]
    dsimp only
    cases hok : (applyDeposits depositAddress now block db).2 with
    | false =>
      rw [andThen_of_not_ok hok]
      refine ⟨iff_of_false (by simp) fun hall => ?_, by simp, by simp, hsince⟩
      rw [hiff.mpr fun tx htx htarget => hall tx ((hreached tx).mpr (.inl ⟨htx, htarget⟩))] at hok
      cases hok
    | true =>
      rw [andThen_of_ok hok, ← hdb1, andThen_of_ok (by rw [hset]), hset]
      simp only [List.foldl_cons, List.foldl_nil]
      rw [← hdb2]
      have hregular : Regular weave db2 := by
        have hkept := setScanHeight_regular now (nextHeight db lastConfirmed) db1 hsince.1
        rw [hset] at hkept
        exact hkept
      have hless : (lastConfirmed - getScanHeight2 db2).toNat ≤ left := by
        change (lastConfirmed - nextHeight db lastConfirmed).toNat ≤ left
        omega
      have hfold : ((applyDeposits depositAddress now block db).1 ++ [Write.putScanHeight (nextHeight db lastConfirmed)]).foldl
          Db.apply db = db2 := List.foldl_append
      have hmarked : Credits (weave.reached depositAddress db lastConfirmed) db1 db2 := Credits.of_transactions fun _ => rfl
      rw [← List.append_assoc]
      refine Scanned.after hfold hlt.le hnextle hreached ?_ ?_ (hsince.2.trans hmarked)
        (ih hregular (hpos.trans hnext.le) hless)
      · rintro tx ⟨hmem, htarget⟩
        exact hiff.mp hok tx hmem htarget
      · rintro tx ⟨hmem, htarget⟩
        exact hstored hok tx hmem htarget

/-- The positive deposits are stored with their quantities, nothing else is changed, and the accounts sum up. -/
structure CreditsExactly (deposits : TX → Prop) (db db' : Db) : Prop where
  credits : Credits deposits db db'
  credited : ∀ tx, deposits tx → 0 < tx.quantity → ∃ transaction,
    (db'.store tx.address).transactions.lookup (.binary tx.id) = some transaction ∧ transaction.amount = tx.quantity
  balance : ∀ address account, (db'.store address).account = some account →
    account.balance = (db'.store address).transactions.sum (·.amount)

/-- In every run of a node that is not killed, the scan at a new tip reaches the last confirmed block and credits exactly
the positive deposits, unless it has been scanned already or there is a deposit that is not positive. -/
theorem scan_completes_iff (depositAddress : Bytes) (weave : Weave) (events : List Event)
    (hevents : ∀ event ∈ events, event.Plain weave) (now : Nat) (lastConfirmed : Int) :
    let db := (runEvents depositAddress weave events).db
    let result := handleNewTip depositAddress now (weave.served fun _ => true) lastConfirmed db
    let db' := result.1.foldl Db.apply db
    (result.2 = true ∧ getScanHeight2 db' = lastConfirmed ∧
        CreditsExactly (weave.reached depositAddress db lastConfirmed) db db') ↔
      getScanHeight2 db ≤ lastConfirmed ∧ ∀ tx, weave.reached depositAddress db lastConfirmed tx → 0 < tx.quantity := by
  intro db result db'
  obtain ⟨hregular, hsound⟩ := run_regular depositAddress hevents
  have hscan : Scanned depositAddress weave lastConfirmed db result := scanBlocks_spec hregular hsound.height le_rfl
  have hafter : (Ledger.step depositAddress weave (runEvents depositAddress weave events)
      ⟨now, .newTip lastConfirmed fun _ => true, none⟩).Sound depositAddress weave := by
    apply step_sound hsound
    exact Event.Plain.cautious ⟨rfl, trivial⟩ hregular
  have hdb : (Ledger.step depositAddress weave (runEvents depositAddress weave events)
      ⟨now, .newTip lastConfirmed fun _ => true, none⟩).db = db' := foldl_apply_db
  constructor
  · rintro ⟨hok, hheight, -⟩
    rw [hscan.height hok] at hheight
    exact ⟨by omega, hscan.ok_iff.mp hok⟩
  · rintro ⟨hle, hall⟩
    have hok := hscan.ok_iff.mpr hall
    refine ⟨hok, (hscan.height hok).trans (max_eq_right hle), hscan.since.2, fun tx htx _ => ?_,
      fun address account hacc => ?_⟩
    · obtain ⟨t, ht⟩ := Option.ne_none_iff_exists'.mp (hscan.stored hok tx htx)
      obtain ⟨height, -, -, hmem, -⟩ := htx
      obtain ⟨height', tx', hmem', hid, hamount⟩ := hafter.recorded tx.address tx.id t (by rw [hdb]; exact ht)
      obtain rfl := weave.ids _ _ tx' tx hmem' hmem hid
      exact ⟨t, ht, hamount⟩
    · exact ((hscan.since.1.balanced.store address).account account hacc).2.1

/-- A scan of two blocks, after one of the first block alone. -/
theorem scan_completes_iff_sample :
    let db := (runEvents [9] sampleWeave [sampleTip 1 none]).db
    (handleNewTip [9] 5 (sampleWeave.served fun _ => true) 2 db).2 = true := by
  intro db
  have hplain : ∀ event ∈ [sampleTip 1 none], event.Plain sampleWeave := by
    intro event hevent
    rw [List.mem_singleton.mp hevent]
    exact ⟨rfl, trivial⟩
  refine ((scan_completes_iff [9] sampleWeave [sampleTip 1 none] hplain 5 2).mpr ⟨by decide, ?_⟩).1
  rintro tx ⟨height, -, -, hmem, -⟩
  change tx ∈ (if height.toNat = 1 then [sampleDeposit 1] else if height.toNat = 2 then [sampleDeposit 2] else []) at hmem
  split_ifs at hmem
  · rw [List.mem_singleton.mp hmem]
    decide
  · rw [List.mem_singleton.mp hmem]
    decide
  · cases hmem

/-- A transaction without a quantity to the deposit address, and a deposit in the next block. -/
def emptyTransfer : TX := { format := 2, id := [7], owner := List.replicate 32 1, target := [9], quantity := 0 }

def emptyTransferWeave : Weave where
  blocks h := if h = 1 then [emptyTransfer] else if h = 2 then [sampleDeposit 2] else []
  ids := by
    intro h h' tx tx' htx htx' heq
    split_ifs at htx htx' <;> simp_all [sampleDeposit, emptyTransfer]
  keys := by
    intro h h' tx tx' htx htx' heq
    split_ifs at htx htx' <;> simp_all [sampleDeposit, emptyTransfer]

/-- The scan raises at the first block, and again when there is a second one. The deposit is never reached. -/
theorem empty_transfer_wedges_scan :
    let db := (runEvents [9] emptyTransferWeave [sampleTip 1 none]).db
    let result := handleNewTip [9] 5 (emptyTransferWeave.served fun _ => true) 2 db
    (handleNewTip [9] 5 (emptyTransferWeave.served fun _ => true) 1 Db.empty).2 = false ∧ result.2 = false ∧
      getScanHeight2 (result.1.foldl Db.apply db) = 0 ∧
      ((result.1.foldl Db.apply db).store sampleSender).transactions.size = 0 := by
  decide

end Scans

end Arweave.P3

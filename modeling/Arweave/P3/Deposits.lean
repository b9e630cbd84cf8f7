import Arweave.Lib.Crashes
import Arweave.P3.Ledger

/-!
# Deposits and crashes

Confirmed blocks are scanned for transactions to the deposit address, block by block, and the height of
the last scanned block is stored. A crash cuts off the writes of the call or of the scan that is under way,
and the next scan goes on from the stored height.
-/

namespace Arweave.P3

open Lib Tx

/-- The transactions of the confirmed blocks. Ids name transactions and addresses name keys. -/
structure Weave where
  blocks : Nat → List TX
  ids : ∀ h h' tx tx', tx ∈ blocks h → tx' ∈ blocks h' → tx.id = tx'.id → tx = tx'
  keys : ∀ h h' tx tx', tx ∈ blocks h → tx' ∈ blocks h' → tx.address = tx'.address →
    (tx.signatureType, tx.owner) = (tx'.signatureType, tx'.owner)

section Code

/-- `?MAX_BLOCK_SCAN` -/
def maxBlockScan : Int := 200

variable (depositAddress : Bytes) (now : Nat)

/-- A caller of the ledger: what its calls write, and whether all of them matched `{ok, _}`. -/
abbrev Caller := Db → List Write × Bool

def Caller.done : Caller := fun _ => ([], true)

/-- A caller that crashes at its first call without `{ok, _}`. -/
def Caller.andThen (first second : Caller) : Caller := fun db =>
  let (writes, ok) := first db
  if ok then
    let (rest, ok') := second (writes.foldl Db.apply db)
    (writes ++ rest, ok')
  else (writes, false)

def Reply.ok : Reply → Bool
  | .error _ => false
  | _ => true

def Caller.call (call : Call) : Caller := fun db =>
  let (reply, writes) := perform db now call
  (writes, reply.ok)

def applyDeposit (tx : TX) : Caller :=
  (Caller.call now (.getOrCreateAccount tx.address (tx.signatureType, tx.owner) arweaveAR)).andThen
    (Caller.call now (.postDeposit tx.address tx.quantity (.binary tx.id)))

def applyDeposits : List TX → Caller
  | [] => Caller.done
  | tx :: txs =>
    if tx.target = depositAddress then (applyDeposit now tx).andThen (applyDeposits txs) else applyDeposits txs

/-- Nothing when the block is unavailable. -/
def scanBlockForDeposits (getBlockTxs : Nat → Option (List TX)) (height : Int) : Option Caller :=
  if 0 ≤ height then (getBlockTxs height.toNat).map (applyDeposits depositAddress now) else some Caller.done

/-- The scan, with a bound on the blocks that are left to it. -/
def scanBlocksForDeposits (getBlockTxs : Nat → Option (List TX)) (lastConfirmed : Int) : Nat → Caller
  | 0 => Caller.done
  | left + 1 => fun db =>
    if getScanHeight2 db < lastConfirmed then
      let height := max (getScanHeight2 db) (lastConfirmed - maxBlockScan) + 1
      match scanBlockForDeposits depositAddress now getBlockTxs height with
      | none => Caller.done db
      | some scan =>
        (scan.andThen ((Caller.call now (.setScanHeight height)).andThen
          (scanBlocksForDeposits getBlockTxs lastConfirmed left))) db
    else Caller.done db

/-- The scan at a new tip. -/
def handleNewTip (getBlockTxs : Nat → Option (List TX)) (lastConfirmed : Int) : Caller := fun db =>
  scanBlocksForDeposits depositAddress now getBlockTxs lastConfirmed (lastConfirmed - getScanHeight2 db).toNat db

/-- What `ar_p3` asks of the ledger. -/
inductive Op where
  | createAccount (address : Bytes) (publicKey : SignatureType × Bytes)
  | charge (address : Bytes) (amount minimum : Int) (request : Request)
  | reverse (address : Bytes) (id : Term)
  | newTip (lastConfirmed : Int) (available : Nat → Bool)

/-- A restarted node has no open stores, a restarted process finds them open. -/
inductive Restart where
  | process
  | node

/-- A request, and the number of its writes that are done before a crash if there is one. -/
structure Event where
  now : Nat
  op : Op
  crash : Option (Nat × Restart)

variable (weave : Weave)

/-- The transactions of the blocks that can be read. -/
def Weave.served (available : Nat → Bool) (height : Nat) : Option (List TX) :=
  if available height then some (weave.blocks height) else none

def Op.caller : Op → Caller
  | .createAccount address publicKey => Caller.call now (.getOrCreateAccount address publicKey arweaveAR)
  | .charge address amount minimum request => Caller.call now (.postCharge address amount minimum request)
  | .reverse address id => Caller.call now (.reverseTransaction address id)
  | .newTip lastConfirmed available =>
    handleNewTip depositAddress now (weave.served available) lastConfirmed

/-- The stores, and the heights that have been stored as scanned. -/
structure Ledger where
  db : Db
  scanned : List Int

def Ledger.empty : Ledger := ⟨Db.empty, []⟩

def Ledger.apply (s : Ledger) (write : Write) : Ledger where
  db := s.db.apply write
  scanned :=
    match write with
    | .putScanHeight height => height :: s.scanned
    | _ => s.scanned

def Ledger.restart (s : Ledger) : Restart → Ledger
  | .process => s
  | .node => { s with db := { s.db with opened := OrdSet.empty } }

def Event.writes (event : Event) (db : Db) : List Write := (event.op.caller depositAddress event.now weave db).1

def Ledger.step (s : Ledger) (event : Event) : Ledger :=
  match event.crash with
  | none => (event.writes depositAddress weave s.db).foldl Ledger.apply s
  | some (k, restart) => (((event.writes depositAddress weave s.db).take k).foldl Ledger.apply s).restart restart

def runEvents (events : List Event) : Ledger := events.foldl (Ledger.step depositAddress weave) Ledger.empty

end Code

section Invariant

variable {depositAddress : Bytes} {weave : Weave} {s s' : Ledger} {db db' : Db} {now : Nat} {call : Call} {reply : Reply}
  {writes : List Write}

/-- A transaction that is put before its account. -/
def Torn : Write → Prop
  | .putTransaction .. => True
  | _ => False

/-- A closed store with transactions: creating the account again would overwrite its record. -/
def Db.Closed (db : Db) (address : Bytes) : Prop :=
  address ∉ db.opened ∧ (db.store address).transactions.size ≠ 0

/-- The stored deposits are deposits of the weave, and those of the scanned blocks are all stored. -/
structure Ledger.Sound (depositAddress : Bytes) (weave : Weave) (s : Ledger) : Prop where
  balanced : s.db.Balanced
  height : 0 ≤ getScanHeight2 s.db
  recorded : ∀ address id transaction, (s.db.store address).transactions.lookup (.binary id) = some transaction →
    ∃ h, ∃ tx ∈ weave.blocks h, tx.id = id ∧ transaction.amount = tx.quantity
  credited : ∀ h ∈ s.scanned, ∀ tx ∈ weave.blocks h.toNat, tx.target = depositAddress →
    (s.db.store tx.address).transactions.lookup (.binary tx.id) ≠ none

/-- Nothing stored is lost and no store is closed. -/
structure Extends (db db' : Db) : Prop where
  kept : ∀ address id, (db.store address).transactions.lookup id ≠ none →
    (db'.store address).transactions.lookup id ≠ none
  closed : ∀ address, db'.Closed address → db.Closed address

lemma Extends.refl : Extends db db := ⟨fun _ _ h => h, fun _ h => h⟩

lemma Extends.trans {db'' : Db} (h : Extends db db') (h' : Extends db' db'') : Extends db db'' :=
  ⟨fun address id hid => h'.kept address id (h.kept address id hid),
    fun address hc => h.closed address (h'.closed address hc)⟩

lemma foldl_apply_db : (writes.foldl Ledger.apply s).db = writes.foldl Db.apply s.db := by
  induction writes generalizing s with
  | nil => rfl
  | cons write writes ih =>
    rw [List.foldl_cons, List.foldl_cons, ih]
    rfl

/-- Writes after which the ledger is sound, wherever a crash cuts them off between calls' halves. -/
structure Completes (depositAddress : Bytes) (weave : Weave) (s : Ledger) (writes : List Write) : Prop where
  survives : Survives Ledger.apply Torn (Ledger.Sound depositAddress weave) s writes
  sound : (writes.foldl Ledger.apply s).Sound depositAddress weave
  keeps : Extends s.db (writes.foldl Db.apply s.db)

lemma Completes.nil (h : s.Sound depositAddress weave) : Completes depositAddress weave s [] :=
  ⟨survives_nil h, h, Extends.refl⟩

lemma Completes.append {rest : List Write} (h : Completes depositAddress weave s writes)
    (hrest : Completes depositAddress weave (writes.foldl Ledger.apply s) rest) :
    Completes depositAddress weave s (writes ++ rest) := by
  refine ⟨h.survives.append hrest.survives, ?_, ?_⟩
  · rw [List.foldl_append]
    exact hrest.sound
  · rw [List.foldl_append]
    have hkeeps := hrest.keeps
    rw [foldl_apply_db] at hkeeps
    exact h.keeps.trans hkeeps

lemma Ledger.Sound.of_transactions (h : s.Sound depositAddress weave) (hb : s'.db.Balanced)
    (hh : s'.db.scanHeight = s.db.scanHeight)
    (ht : ∀ address, (s'.db.store address).transactions = (s.db.store address).transactions)
    (hs : s'.scanned = s.scanned) : s'.Sound depositAddress weave := by
  refine ⟨hb, ?_, ?_, ?_⟩
  · unfold getScanHeight2
    rw [hh]
    exact h.height
  · intro address id transaction hlookup
    rw [ht] at hlookup
    exact h.recorded address id transaction hlookup
  · intro height hheight tx htx htarget
    rw [hs] at hheight
    rw [ht]
    exact h.credited height hheight tx htx htarget

lemma Db.Balanced.openStore (h : db.Balanced) (address : Bytes) : (db.apply (.openStore address)).Balanced := by
  constructor
  · intro address'
    rw [store_openStore]
    exact h.store address'
  · rw [store_openStore]
    exact h.named

/-- A posted transaction leaves the ledger sound if it is a charge, a reversal or a deposit of the weave. -/
lemma Ledger.Sound.post (h : s.Sound depositAddress weave) {account : Account} {transaction : Transaction}
    (hopened : account.address ∈ s.db.opened)
    (hb : ((account.postings transaction).foldl Db.apply s.db).Balanced)
    (hid : ∀ id, transaction.id = .binary id → ∃ h, ∃ tx ∈ weave.blocks h, tx.id = id ∧ transaction.amount = tx.quantity) :
    ((account.postings transaction).foldl Ledger.apply s).Sound depositAddress weave ∧
      Extends s.db ((account.postings transaction).foldl Db.apply s.db) := by
  have hkept : ∀ address id, (s.db.store address).transactions.lookup id ≠ none →
      (((account.postings transaction).foldl Db.apply s.db).store address).transactions.lookup id ≠ none := by
    intro address id hlookup
    rw [store_post]
    split_ifs with heq
    · rw [Store.post, SortedMap.lookup_insert]
      split_ifs with hkey
      · simp
      · rw [← heq]
        exact hlookup
    · exact hlookup
  refine ⟨⟨?_, ?_, ?_, ?_⟩, hkept, ?_⟩
  · rw [foldl_apply_db]
    exact hb
  · rw [foldl_apply_db]
    exact h.height
  · rw [foldl_apply_db]
    intro address id t hlookup
    rw [store_post] at hlookup
    split_ifs at hlookup with heq
    · rw [Store.post, SortedMap.lookup_insert] at hlookup
      split_ifs at hlookup with hkey
      · cases hlookup
        exact hid id hkey.symm
      · exact h.recorded _ id t hlookup
    · exact h.recorded address id t hlookup
  · rw [foldl_apply_db]
    intro height hheight tx htx htarget
    exact hkept tx.address (.binary tx.id) (h.credited height hheight tx htx htarget)
  · rintro address ⟨ho, hsize⟩
    refine ⟨ho, ?_⟩
    rw [store_post] at hsize
    split_ifs at hsize with heq
    · exact (ho (heq ▸ hopened)).elim
    · exact hsize

/-- A call leaves the ledger sound wherever a crash cuts its writes off, if the account that it creates is not
one of a closed store, its deposit is one of the weave, and the block at its scan height is credited. -/
theorem perform_completes (hs : s.Sound depositAddress weave) (h : perform s.db now call = (reply, writes))
    (hopen : ∀ address publicKey asset, call = .getOrCreateAccount address publicKey asset → ¬s.db.Closed address)
    (hdeposit : ∀ address amount txid, call = .postDeposit address amount txid →
      ∃ h, ∃ tx ∈ weave.blocks h, txid = .binary tx.id ∧ amount = tx.quantity)
    (hscan : ∀ height, call = .setScanHeight height → 0 ≤ height → ∀ tx ∈ weave.blocks height.toNat, tx.target = depositAddress →
      (s.db.store tx.address).transactions.lookup (.binary tx.id) ≠ none) :
    Completes depositAddress weave s writes := by
  have hb : (writes.foldl Db.apply s.db).Balanced := by
    apply hs.balanced.perform h
    intro address publicKey asset heq hget
    by_contra hsize
    refine hopen address publicKey asset heq ⟨?_, hsize⟩
    intro ho
    rw [getAccount2, if_pos ho] at hget
    exact hsize ((hs.balanced.store address).unused hget)
  obtain rfl | ⟨address, publicKey, hne, rfl, hget, hcreate⟩ |
    ⟨address, account, id, amount, description, hne, -, hget, hid, hpost⟩ | ⟨height, rfl, hpos, -, -, rfl⟩ :=
    perform_cases h
  · exact Completes.nil hs
  · obtain rfl : writes = (createAccount now address publicKey arweaveAR).2 := by rw [← hcreate]
    have hsound : (((createAccount now address publicKey arweaveAR).2).foldl Ledger.apply s).Sound depositAddress weave := by
      refine hs.of_transactions ?_ rfl ?_ rfl
      · rw [foldl_apply_db]
        exact hb
      · intro address'
        rw [foldl_apply_db, store_create]
        split_ifs with heq
        · rw [heq]
        · rfl
    refine ⟨survives_pair hs (fun _ => ?_) hsound, hsound, ?_, ?_⟩
    · exact hs.of_transactions (hs.balanced.openStore address) rfl (fun _ => congrArg _ store_openStore) rfl
    · intro address' id hlookup
      rw [store_create]
      split_ifs with heq
      · rw [← heq]
        exact hlookup
      · exact hlookup
    · rintro address' ⟨ho, hsize⟩
      have hopened : ((createAccount now address publicKey arweaveAR).2.foldl Db.apply s.db).opened =
          s.db.opened.add address := rfl
      rw [hopened, OrdSet.mem_add, not_or] at ho
      rw [store_create, if_neg ho.1] at hsize
      exact ⟨ho.2, hsize⟩
  · obtain ⟨ho, hacc⟩ := getAccount2_eq_some hget
    obtain ⟨rfl, -, -⟩ := (hs.balanced.store address).account account hacc
    obtain ⟨t, -, -, rfl⟩ | ⟨-, t, rfl, rfl, -, rfl⟩ := postTransaction_cases ho hpost.symm
    · exact Completes.nil hs
    · obtain ⟨hsound, hext⟩ := hs.post ho hb fun id hbinary => by
        obtain hnext | ⟨txid, rfl, hterm⟩ := hid
        · rw [hbinary] at hnext
          cases hnext
        · obtain ⟨height, tx, htx, rfl, hamount⟩ := hdeposit _ _ txid rfl
          rw [hbinary] at hterm
          exact ⟨height, tx, htx, Term.binary.inj (Option.some.inj hterm), hamount⟩
      exact ⟨survives_pair hs (fun hfree => (hfree trivial).elim) hsound, hsound, hext⟩
  · have hsound : (s.apply (.putScanHeight height)).Sound depositAddress weave := by
      refine ⟨hb, hpos, hs.recorded, ?_⟩
      intro height' hmem tx htx htarget
      obtain rfl | hmem := List.mem_cons.mp hmem
      · exact hscan _ rfl hpos tx htx htarget
      · exact hs.credited height' hmem tx htx htarget
    exact ⟨survives_singleton hs hsound, hsound, fun _ _ h => h, fun _ h => h⟩

lemma perform_ok_postDeposit {address : Bytes} {amount : Int} {id : Bytes}
    (hdb : db.Balanced) (h : perform db now (.postDeposit address amount (.binary id)) = (reply, writes)) (hok : reply.ok = true) :
    ((writes.foldl Db.apply db).store address).transactions.lookup (.binary id) ≠ none := by
  obtain ⟨-, hcall⟩ | rfl := validatedCall_cases (.postDeposit address amount (.binary id)) h
  · simp only [handleCall] at hcall
    split at hcall
    · obtain ⟨rfl, -⟩ := Prod.mk.inj hcall
      cases hok
    · rename_i account hget
      obtain ⟨ho, hacc⟩ := getAccount2_eq_some hget
      obtain ⟨rfl, -, -⟩ := (hdb.store address).account account hacc
      simp only [postTxTransaction, Txid.term] at hcall
      split_ifs at hcall
      · obtain ⟨rfl, -⟩ := Prod.mk.inj hcall
        cases hok
      · obtain ⟨t, hsome, -, rfl⟩ | ⟨-, t, hid, -, -, rfl⟩ := postTransaction_cases ho hcall
        · rw [List.foldl_nil, hsome]
          simp
        · rw [store_post, if_pos rfl, Store.post, SortedMap.lookup_insert, if_pos hid.symm]
          simp
  · cases hok

lemma andThen_of_ok {first second : Caller} (hok : (first db).2 = true) :
    first.andThen second db = ((first db).1 ++ (second ((first db).1.foldl Db.apply db)).1,
      (second ((first db).1.foldl Db.apply db)).2) := by
  unfold Caller.andThen
  exact if_pos hok

lemma andThen_of_not_ok {first second : Caller} (hok : (first db).2 = false) :
    first.andThen second db = ((first db).1, false) := by
  unfold Caller.andThen
  exact if_neg (by rw [hok]; simp)

lemma andThen_completes {first second : Caller} (h : Completes depositAddress weave s (first s.db).1)
    (h' : (first s.db).2 = true →
      Completes depositAddress weave ((first s.db).1.foldl Ledger.apply s) (second ((first s.db).1.foldl Db.apply s.db)).1) :
    Completes depositAddress weave s (first.andThen second s.db).1 := by
  cases hok : (first s.db).2 with
  | true =>
    rw [andThen_of_ok hok]
    exact h.append (h' hok)
  | false =>
    rw [andThen_of_not_ok hok]
    exact h

lemma call_completes (hs : s.Sound depositAddress weave)
    (hopen : ∀ address publicKey asset, call = .getOrCreateAccount address publicKey asset → ¬s.db.Closed address)
    (hdeposit : ∀ address amount txid, call = .postDeposit address amount txid →
      ∃ h, ∃ tx ∈ weave.blocks h, txid = .binary tx.id ∧ amount = tx.quantity)
    (hscan : ∀ height, call = .setScanHeight height → 0 ≤ height → ∀ tx ∈ weave.blocks height.toNat, tx.target = depositAddress →
      (s.db.store tx.address).transactions.lookup (.binary tx.id) ≠ none) :
    Completes depositAddress weave s (Caller.call now call s.db).1 :=
  perform_completes hs (rfl : perform s.db now call = (_, _)) hopen hdeposit hscan

lemma applyDeposit_completes (now : Nat) (hs : s.Sound depositAddress weave) {height : Nat} {tx : TX} (htx : tx ∈ weave.blocks height)
    (hopen : ¬s.db.Closed tx.address) :
    Completes depositAddress weave s (applyDeposit now tx s.db).1 ∧
      ((applyDeposit now tx s.db).2 = true →
        (((applyDeposit now tx s.db).1.foldl Db.apply s.db).store tx.address).transactions.lookup (.binary tx.id) ≠
          none) := by
  have hcreate : Completes depositAddress weave s
      (Caller.call now (.getOrCreateAccount tx.address (tx.signatureType, tx.owner) arweaveAR) s.db).1 := by
    apply call_completes hs
    · rintro _ _ _ ⟨⟩
      exact hopen
    · rintro _ _ _ ⟨⟩
    · rintro _ ⟨⟩
  constructor
  · apply andThen_completes hcreate
    intro _
    rw [← foldl_apply_db]
    apply call_completes hcreate.sound
    · rintro _ _ _ ⟨⟩
    · rintro _ _ _ ⟨⟩
      exact ⟨height, tx, htx, rfl, rfl⟩
    · rintro _ ⟨⟩
  · unfold applyDeposit
    cases hfirst : (Caller.call now (.getOrCreateAccount tx.address (tx.signatureType, tx.owner) arweaveAR) s.db).2 with
    | false =>
      rw [andThen_of_not_ok hfirst]
      rintro ⟨⟩
    | true =>
      rw [andThen_of_ok hfirst, List.foldl_append]
      have hbalanced := hcreate.sound.balanced
      rw [foldl_apply_db] at hbalanced
      exact perform_ok_postDeposit hbalanced rfl

lemma applyDeposits_completes (now : Nat) {txs : List TX} (hs : s.Sound depositAddress weave)
    (hsub : ∀ tx ∈ txs, ∃ h, tx ∈ weave.blocks h)
    (hopen : ∀ tx ∈ txs, tx.target = depositAddress → ¬s.db.Closed tx.address) :
    Completes depositAddress weave s (applyDeposits depositAddress now txs s.db).1 ∧
      ((applyDeposits depositAddress now txs s.db).2 = true → ∀ tx ∈ txs, tx.target = depositAddress →
        (((applyDeposits depositAddress now txs s.db).1.foldl Db.apply s.db).store tx.address).transactions.lookup
          (.binary tx.id) ≠ none) := by
  induction txs generalizing s with
  | nil => exact ⟨Completes.nil hs, fun _ tx htx => by cases htx⟩
  | cons tx txs ih =>
    rw [List.forall_mem_cons] at hsub hopen
    obtain ⟨⟨height, htx⟩, hsub⟩ := hsub
    rw [applyDeposits]
    split_ifs with htarget
    · obtain ⟨hfirst, hcredited⟩ := applyDeposit_completes now hs htx (hopen.1 htarget)
      have hopen' : ∀ tx' ∈ txs, tx'.target = depositAddress →
          ¬((applyDeposit now tx s.db).1.foldl Ledger.apply s).db.Closed tx'.address := by
        intro tx' htx' htarget' hclosed
        rw [foldl_apply_db] at hclosed
        exact hopen.2 tx' htx' htarget' (hfirst.keeps.closed _ hclosed)
      obtain ⟨hrest, hcredit⟩ := ih hfirst.sound hsub hopen'
      rw [foldl_apply_db] at hrest hcredit
      refine ⟨andThen_completes hfirst fun _ => hrest, ?_⟩
      cases hok : (applyDeposit now tx s.db).2 with
      | false =>
        rw [andThen_of_not_ok hok]
        rintro ⟨⟩
      | true =>
        rw [andThen_of_ok hok]
        intro hrestok tx' htx' htarget'
        rw [List.foldl_append]
        obtain rfl | htx' := List.mem_cons.mp htx'
        · have hkeeps := hrest.keeps.kept tx'.address (.binary tx'.id)
          rw [foldl_apply_db] at hkeeps
          exact hkeeps (hcredited hok)
        · exact hcredit hrestok tx' htx' htarget'
    · obtain ⟨hrest, hcredit⟩ := ih hs hsub hopen.2
      refine ⟨hrest, ?_⟩
      intro hok tx' htx' htarget'
      obtain rfl | htx' := List.mem_cons.mp htx'
      · exact (htarget htarget').elim
      · exact hcredit hok tx' htx' htarget'

lemma getScanHeight2_set {height : Int} (hok : (Caller.call now (.setScanHeight height) db).2 = true) :
    getScanHeight2 ((Caller.call now (.setScanHeight height) db).1.foldl Db.apply db) = height := by
  have hcall : Caller.call now (.setScanHeight height) db =
      ((setScanHeight2 db height).2, (setScanHeight2 db height).1.ok) := rfl
  rw [hcall] at hok ⊢
  unfold setScanHeight2 at hok ⊢
  split_ifs at hok ⊢
  · rfl
  · cases hok

/-- The height that is scanned next. -/
def nextHeight (db : Db) (lastConfirmed : Int) : Int := max (getScanHeight2 db) (lastConfirmed - maxBlockScan) + 1

/-- The deposits of the blocks above `low` and up to `high`. -/
def Weave.pending (weave : Weave) (depositAddress : Bytes) (low high : Int) (tx : TX) : Prop :=
  ∃ height, low < height ∧ height ≤ high ∧ tx ∈ weave.blocks height.toNat ∧ tx.target = depositAddress

/-- The deposits of the blocks that a scan reaches. -/
def Weave.reached (weave : Weave) (depositAddress : Bytes) (db : Db) (lastConfirmed : Int) : TX → Prop :=
  weave.pending depositAddress (max (getScanHeight2 db) (lastConfirmed - maxBlockScan)) lastConfirmed

lemma scanBlocks_succ {getBlockTxs : Nat → Option (List TX)} {lastConfirmed : Int} {left : Nat}
    (hleft : getScanHeight2 db < lastConfirmed) :
    scanBlocksForDeposits depositAddress now getBlockTxs lastConfirmed (left + 1) db =
      match scanBlockForDeposits depositAddress now getBlockTxs (nextHeight db lastConfirmed) with
      | none => Caller.done db
      | some scan =>
        scan.andThen ((Caller.call now (.setScanHeight (nextHeight db lastConfirmed))).andThen
          (scanBlocksForDeposits depositAddress now getBlockTxs lastConfirmed left)) db :=
  if_pos hleft

lemma scanBlocks_of_le {getBlockTxs : Nat → Option (List TX)} {lastConfirmed : Int} {left : Nat}
    (hleft : lastConfirmed ≤ getScanHeight2 db) :
    scanBlocksForDeposits depositAddress now getBlockTxs lastConfirmed left db = ([], true) := by
  cases left with
  | zero => rfl
  | succ left => exact if_neg (not_lt.mpr hleft)

lemma nextHeight_bounds {lastConfirmed : Int} (hleft : getScanHeight2 db < lastConfirmed) :
    getScanHeight2 db < nextHeight db lastConfirmed ∧ nextHeight db lastConfirmed ≤ lastConfirmed := by
  have : maxBlockScan = 200 := rfl
  unfold nextHeight
  omega

lemma next_reached {lastConfirmed : Int} {tx : TX} (hleft : getScanHeight2 db < lastConfirmed)
    (htx : tx ∈ weave.blocks (nextHeight db lastConfirmed).toNat) (htarget : tx.target = depositAddress) :
    weave.reached depositAddress db lastConfirmed tx :=
  ⟨_, Int.lt_succ_self _, (nextHeight_bounds hleft).2, htx, htarget⟩

lemma nextHeight_lt {db' : Db} {lastConfirmed height : Int}
    (hscanned : getScanHeight2 db' = nextHeight db lastConfirmed)
    (h : max (getScanHeight2 db') (lastConfirmed - maxBlockScan) < height) :
    max (getScanHeight2 db) (lastConfirmed - maxBlockScan) < height := by
  rw [hscanned] at h
  unfold nextHeight at h
  omega

-- what a scan reaches from the next height it reaches from here
lemma reached_of_next {db' : Db} {lastConfirmed : Int} {tx : TX}
    (hscanned : getScanHeight2 db' = nextHeight db lastConfirmed)
    (h : weave.reached depositAddress db' lastConfirmed tx) : weave.reached depositAddress db lastConfirmed tx := by
  obtain ⟨height, hlow, hrest⟩ := h
  exact ⟨height, nextHeight_lt hscanned hlow, hrest⟩

lemma scanBlock_completes {available : Nat → Bool} {height : Int} {scan : Caller} (hs : s.Sound depositAddress weave)
    (hscan : scanBlockForDeposits depositAddress now (weave.served available) height = some scan)
    (hopen : ∀ tx ∈ weave.blocks height.toNat, tx.target = depositAddress → ¬s.db.Closed tx.address) :
    Completes depositAddress weave s (scan s.db).1 ∧
      ((scan s.db).2 = true → 0 ≤ height → ∀ tx ∈ weave.blocks height.toNat, tx.target = depositAddress →
        (((scan s.db).1.foldl Db.apply s.db).store tx.address).transactions.lookup (.binary tx.id) ≠ none) := by
  unfold scanBlockForDeposits Weave.served at hscan
  split_ifs at hscan with hpos havailable
  · cases hscan
    obtain ⟨hcompletes, hcredit⟩ := applyDeposits_completes now hs (fun tx htx => ⟨_, htx⟩) hopen
    exact ⟨hcompletes, fun hok _ => hcredit hok⟩
  · cases hscan
  · cases hscan
    exact ⟨Completes.nil hs, fun _ hheight => (hpos hheight).elim⟩

theorem scanBlocks_completes {available : Nat → Bool} {lastConfirmed : Int} {left : Nat} (hs : s.Sound depositAddress weave)
    (hopen : ∀ tx, weave.reached depositAddress s.db lastConfirmed tx → ¬s.db.Closed tx.address) :
    Completes depositAddress weave s
      (scanBlocksForDeposits depositAddress now (weave.served available) lastConfirmed left s.db).1 := by
  induction left generalizing s with
  | zero => exact Completes.nil hs
  | succ left ih =>
    obtain hleft | hleft := lt_or_ge (getScanHeight2 s.db) lastConfirmed
    · rw [scanBlocks_succ hleft]
      split
      · exact Completes.nil hs
      · rename_i scan hscan
        obtain ⟨hblock, hcredit⟩ := scanBlock_completes hs hscan fun tx htx htarget =>
          hopen tx (next_reached hleft htx htarget)
        apply andThen_completes hblock
        intro hok
        rw [← foldl_apply_db]
        have hset : Completes depositAddress weave ((scan s.db).1.foldl Ledger.apply s)
            (Caller.call now (.setScanHeight (nextHeight s.db lastConfirmed))
              ((scan s.db).1.foldl Ledger.apply s).db).1 := by
          apply call_completes hblock.sound
          · rintro _ _ _ ⟨⟩
          · rintro _ _ _ ⟨⟩
          · rintro _ ⟨⟩ hpos
            rw [foldl_apply_db]
            exact hcredit hok hpos
        apply andThen_completes hset
        intro hsetok
        rw [← foldl_apply_db]
        apply ih hset.sound
        intro tx hreached hclosed
        rw [foldl_apply_db] at hreached hclosed
        refine hopen tx (reached_of_next (getScanHeight2_set hsetok) hreached) (hblock.keeps.closed _ ?_)
        rw [← foldl_apply_db]
        exact hset.keeps.closed _ hclosed
    · rw [scanBlocks_of_le hleft]
      exact Completes.nil hs

end Invariant

section Runs

variable {depositAddress : Bytes} {weave : Weave} {s : Ledger} {db : Db} {now : Nat} {event : Event}

/-- No account is created in place of one whose store is closed. -/
def Op.Opens (depositAddress : Bytes) (weave : Weave) (db : Db) : Op → Prop
  | .createAccount address _ => ¬db.Closed address
  | .charge .. | .reverse .. => True
  | .newTip lastConfirmed _ => ∀ tx, weave.reached depositAddress db lastConfirmed tx → ¬db.Closed tx.address

/-- No crash comes between a transaction and its account, and no closed account is created again. -/
structure Event.Cautious (depositAddress : Bytes) (weave : Weave) (s : Ledger) (event : Event) : Prop where
  whole : ∀ k restart, event.crash = some (k, restart) →
    ∀ w, ((event.writes depositAddress weave s.db).take k).getLast? = some w → ¬Torn w
  opens : event.op.Opens depositAddress weave s.db

lemma caller_completes (now : Nat) {op : Op} (hs : s.Sound depositAddress weave) (h : op.Opens depositAddress weave s.db) :
    Completes depositAddress weave s (op.caller depositAddress now weave s.db).1 := by
  cases op with
  | createAccount address publicKey =>
    apply call_completes hs
    · rintro _ _ _ ⟨⟩
      exact h
    · rintro _ _ _ ⟨⟩
    · rintro _ ⟨⟩
  | charge address amount minimum request =>
    apply call_completes hs
    · rintro _ _ _ ⟨⟩
    · rintro _ _ _ ⟨⟩
    · rintro _ ⟨⟩
  | reverse address id =>
    apply call_completes hs
    · rintro _ _ _ ⟨⟩
    · rintro _ _ _ ⟨⟩
    · rintro _ ⟨⟩
  | newTip lastConfirmed available => exact scanBlocks_completes hs h

theorem step_sound (hs : s.Sound depositAddress weave) (h : event.Cautious depositAddress weave s) :
    (s.step depositAddress weave event).Sound depositAddress weave := by
  have hcompletes := caller_completes event.now hs h.opens
  unfold Ledger.step
  split
  · exact hcompletes.sound
  · rename_i k restart hcrash
    have hcut := hcompletes.survives k (h.whole k restart hcrash)
    cases restart with
    | process => exact hcut
    | node => exact ⟨⟨hcut.balanced.store, hcut.balanced.named⟩, hcut.height, hcut.recorded, hcut.credited⟩

theorem run_sound {events : List Event}
    (h : ∀ before event after, events = before ++ event :: after →
      event.Cautious depositAddress weave (runEvents depositAddress weave before)) :
    (runEvents depositAddress weave events).Sound depositAddress weave := by
  induction events using List.reverseRecOn with
  | nil =>
    refine ⟨Db.Balanced.empty, le_rfl, ?_, ?_⟩
    · rintro _ _ _ ⟨⟩
    · rintro _ ⟨⟩
  | append_singleton events event ih =>
    rw [runEvents, List.foldl_append]
    apply step_sound
    · apply ih
      intro before event' after heq
      exact h before event' (after ++ [event]) (by rw [heq]; simp)
    · exact h events event [] rfl

end Runs

section Progress

variable {depositAddress : Bytes} {weave : Weave} {s : Ledger} {db : Db} {now : Nat} {call : Call} {reply : Reply}
  {writes : List Write}

/-- Deposits that the ledger takes: positive ones whose senders' accounts, if they exist, have the senders' keys. -/
def Accepting (deposits : TX → Prop) (db : Db) : Prop :=
  ∀ tx, deposits tx → 0 < tx.quantity ∧ ∀ account, getAccount2 db tx.address = some account →
    account.publicKey = (tx.signatureType, tx.owner) ∧ account.asset = arweaveAR

lemma getAccount2_posted {account account' : Account} {transaction : Transaction} {address : Bytes}
    (h : getAccount2 ((account.postings transaction).foldl Db.apply db) address = some account') :
    (address = account.address ∧ account'.publicKey = account.publicKey ∧ account'.asset = account.asset) ∨
      getAccount2 db address = some account' := by
  obtain ⟨ho, hacc⟩ := getAccount2_eq_some h
  rw [store_post] at hacc
  split_ifs at hacc with heq
  · cases hacc
    exact Or.inl ⟨heq, rfl, rfl⟩
  · have hopened : address ∈ db.opened := ho
    exact Or.inr (by rw [getAccount2, if_pos hopened]; exact hacc)

lemma getAccount2_after {address : Bytes} {account : Account} (hdb : db.Balanced)
    (h : perform db now call = (reply, writes)) (hget : getAccount2 (writes.foldl Db.apply db) address = some account) :
    (∃ old, getAccount2 db address = some old ∧ account.publicKey = old.publicKey ∧ account.asset = old.asset) ∨
      ∃ publicKey, call = .getOrCreateAccount address publicKey arweaveAR ∧ account.publicKey = publicKey ∧
        account.asset = arweaveAR := by
  obtain rfl | ⟨address', publicKey, -, rfl, hnone, hcreate⟩ |
    ⟨address', account', id, amount, description, -, -, hget', -, hpost⟩ | ⟨height, -, -, -, -, rfl⟩ := perform_cases h
  · exact Or.inl ⟨account, hget, rfl, rfl⟩
  · obtain rfl : writes = (createAccount now address' publicKey arweaveAR).2 := by rw [← hcreate]
    obtain ⟨ho, hacc⟩ := getAccount2_eq_some hget
    rw [store_create] at hacc
    split_ifs at hacc with heq
    · cases hacc
      exact Or.inr ⟨publicKey, by rw [heq], rfl, rfl⟩
    · have hopened : ((createAccount now address' publicKey arweaveAR).2.foldl Db.apply db).opened =
          db.opened.add address' := rfl
      rw [hopened, OrdSet.mem_add] at ho
      exact Or.inl ⟨account, by rw [getAccount2, if_pos (ho.resolve_left heq)]; exact hacc, rfl, rfl⟩
  · obtain ⟨ho, hacc⟩ := getAccount2_eq_some hget'
    obtain ⟨rfl, -, -⟩ := (hdb.store address').account account' hacc
    obtain ⟨t, -, -, rfl⟩ | ⟨-, t, rfl, rfl, -, rfl⟩ := postTransaction_cases ho hpost.symm
    · exact Or.inl ⟨account, hget, rfl, rfl⟩
    · obtain ⟨rfl, hkey, hasset⟩ | hold := getAccount2_posted hget
      · exact Or.inl ⟨account', hget', hkey, hasset⟩
      · exact Or.inl ⟨account, hold, rfl, rfl⟩
  · exact Or.inl ⟨account, hget, rfl, rfl⟩

lemma Accepting.after {deposits : TX → Prop} (h : Accepting deposits db) (hdb : db.Balanced)
    (hkeys : ∀ address publicKey asset, call = .getOrCreateAccount address publicKey asset →
      ∀ tx, deposits tx → tx.address = address → publicKey = (tx.signatureType, tx.owner)) :
    Accepting deposits ((Caller.call now call db).1.foldl Db.apply db) := by
  intro tx htx
  obtain ⟨hpos, hold⟩ := h tx htx
  refine ⟨hpos, ?_⟩
  intro account hget
  obtain ⟨old, hget', hkey, hasset⟩ | ⟨publicKey, rfl, hkey, hasset⟩ :=
    getAccount2_after hdb (rfl : perform db now call = (_, _)) hget
  · rw [hkey, hasset]
    exact hold old hget'
  · exact ⟨hkey.trans (hkeys _ _ _ rfl tx htx rfl), hasset⟩

lemma tx_address_ne_nil (tx : TX) : tx.address ≠ [] := by
  intro hnil
  have hlength := congrArg List.length hnil
  unfold TX.address toAddress at hlength
  split at hlength
  · split_ifs at hlength with h32
    · rw [h32] at hlength
      cases hlength
    · rw [Sha2.sha256.length_hash] at hlength
      cases hlength
  · cases hlength
  · cases hlength

lemma getOrCreate_ok (now : Nat) {tx : TX} (hdb : db.Balanced)
    (h : ∀ account, getAccount2 db tx.address = some account →
      account.publicKey = (tx.signatureType, tx.owner) ∧ account.asset = arweaveAR) :
    (Caller.call now (.getOrCreateAccount tx.address (tx.signatureType, tx.owner) arweaveAR) db).2 = true ∧
      ∃ account, getAccount2 ((Caller.call now (.getOrCreateAccount tx.address (tx.signatureType, tx.owner)
        arweaveAR) db).1.foldl Db.apply db) tx.address = some account := by
  have hperform : perform db now (.getOrCreateAccount tx.address (tx.signatureType, tx.owner) arweaveAR) =
      getOrCreateAccount db now tx.address (tx.signatureType, tx.owner) arweaveAR := by
    rw [perform, if_pos rfl, validatedCall_eq (tx_address_ne_nil tx) rfl]
    rfl
  have hcall : Caller.call now (.getOrCreateAccount tx.address (tx.signatureType, tx.owner) arweaveAR) db =
      ((getOrCreateAccount db now tx.address (tx.signatureType, tx.owner) arweaveAR).2,
        (getOrCreateAccount db now tx.address (tx.signatureType, tx.owner) arweaveAR).1.ok) := by
    rw [← hperform]
    rfl
  rw [hcall]
  cases hget : getAccount2 db tx.address with
  | none =>
    have hcreate : getOrCreateAccount db now tx.address (tx.signatureType, tx.owner) arweaveAR =
        createAccount now tx.address (tx.signatureType, tx.owner) arweaveAR := by
      rw [getOrCreateAccount, hget]
    rw [hcreate]
    refine ⟨rfl, ⟨tx.address, (tx.signatureType, tx.owner), arweaveAR, 0, 0, now⟩, ?_⟩
    have hopened : tx.address ∈ ((createAccount now tx.address (tx.signatureType, tx.owner) arweaveAR).2.foldl
        Db.apply db).opened := OrdSet.mem_add.mpr (Or.inl rfl)
    rw [getAccount2, if_pos hopened, store_create, if_pos rfl]
  | some account =>
    obtain ⟨hkey, hasset⟩ := h account hget
    have haddress := ((hdb.store tx.address).account account (getAccount2_eq_some hget).2).1
    have hkeep : getOrCreateAccount db now tx.address (tx.signatureType, tx.owner) arweaveAR =
        (.account account, []) := by
      rw [getOrCreateAccount, hget]
      exact if_pos ⟨haddress, hkey, hasset⟩
    rw [hkeep]
    exact ⟨rfl, account, hget⟩

lemma postDeposit_ok (now : Nat) {tx : TX} {account : Account} (hpos : 0 < tx.quantity)
    (hget : getAccount2 db tx.address = some account) :
    (Caller.call now (.postDeposit tx.address tx.quantity (.binary tx.id)) db).2 = true := by
  have hreply : (perform db now (.postDeposit tx.address tx.quantity (.binary tx.id))).1 =
      (postTransaction db now account (.binary tx.id) tx.quantity (.binary tx.id)).1 := by
    rw [perform, validatedCall_eq (tx_address_ne_nil tx) rfl]
    · simp only [handleCall, hget, postTxTransaction, Txid.term, if_neg (not_le.mpr hpos)]
    · simp
  obtain ⟨t, ht⟩ := postTransaction_reply db now account (.binary tx.id) tx.quantity (.binary tx.id)
  change (perform db now (.postDeposit tx.address tx.quantity (.binary tx.id))).1.ok = true
  rw [hreply, ht]
  rfl

lemma applyDeposits_ok (now : Nat) {deposits : TX → Prop} {txs : List TX} (hs : s.Sound depositAddress weave)
    (hsub : ∀ tx ∈ txs, ∃ h, tx ∈ weave.blocks h)
    (hopen : ∀ tx ∈ txs, tx.target = depositAddress → ¬s.db.Closed tx.address)
    (hdeposits : ∀ tx ∈ txs, tx.target = depositAddress → deposits tx)
    (hkeys : ∀ tx tx', deposits tx → deposits tx' → tx'.address = tx.address →
      (tx.signatureType, tx.owner) = (tx'.signatureType, tx'.owner))
    (h : Accepting deposits s.db) :
    (applyDeposits depositAddress now txs s.db).2 = true ∧
      Accepting deposits ((applyDeposits depositAddress now txs s.db).1.foldl Db.apply s.db) := by
  induction txs generalizing s with
  | nil => exact ⟨rfl, h⟩
  | cons tx txs ih =>
    rw [List.forall_mem_cons] at hsub hopen hdeposits
    obtain ⟨⟨height, htx⟩, hsub⟩ := hsub
    rw [applyDeposits]
    split_ifs with htarget
    · obtain ⟨hpos, hmatch⟩ := h tx (hdeposits.1 htarget)
      obtain ⟨hdeposit, -⟩ := applyDeposit_completes now hs htx (hopen.1 htarget)
      have hcreated : Completes depositAddress weave s
          (Caller.call now (.getOrCreateAccount tx.address (tx.signatureType, tx.owner) arweaveAR) s.db).1 := by
        apply call_completes hs
        · rintro _ _ _ ⟨⟩
          exact hopen.1 htarget
        · rintro _ _ _ ⟨⟩
        · rintro _ ⟨⟩
      obtain ⟨hcreateok, account, hget⟩ := getOrCreate_ok now hs.balanced hmatch
      have hpostok := postDeposit_ok now hpos hget
      have hok : (applyDeposit now tx s.db).2 = true := by
        rw [applyDeposit, andThen_of_ok hcreateok]
        exact hpostok
      have haccept : Accepting deposits ((applyDeposit now tx s.db).1.foldl Db.apply s.db) := by
        rw [applyDeposit, andThen_of_ok hcreateok, List.foldl_append]
        refine (h.after hs.balanced ?_).after ?_ ?_
        · rintro _ _ _ ⟨⟩ tx' htx' heq
          exact hkeys tx tx' (hdeposits.1 htarget) htx' heq
        · rw [← foldl_apply_db]
          exact hcreated.sound.balanced
        · rintro _ _ _ ⟨⟩
      have hopen' : ∀ tx' ∈ txs, tx'.target = depositAddress →
          ¬((applyDeposit now tx s.db).1.foldl Ledger.apply s).db.Closed tx'.address := by
        intro tx' htx' htarget' hclosed
        rw [foldl_apply_db] at hclosed
        exact hopen.2 tx' htx' htarget' (hdeposit.keeps.closed _ hclosed)
      rw [← foldl_apply_db] at haccept
      have hrest := ih hdeposit.sound hsub hopen' hdeposits.2 haccept
      rw [foldl_apply_db] at hrest
      rw [andThen_of_ok hok, List.foldl_append]
      exact hrest
    · exact ih hs hsub hopen.2 hdeposits.2 h

lemma setScanHeight_ok (now : Nat) (db : Db) {height : Int} (hpos : 0 ≤ height) (hlow : getScanHeight2 db < height) :
    Caller.call now (.setScanHeight height) db = ([.putScanHeight height], true) := by
  have hset : setScanHeight2 db height = (.height height, [.putScanHeight height]) := if_pos ⟨hpos, hlow⟩
  have hcall : Caller.call now (.setScanHeight height) db =
      ((setScanHeight2 db height).2, (setScanHeight2 db height).1.ok) := rfl
  rw [hcall, hset]
  rfl

lemma mem_scanned_foldl {height : Int} (h : height ∈ s.scanned) : height ∈ (writes.foldl Ledger.apply s).scanned := by
  induction writes generalizing s with
  | nil => exact h
  | cons write writes ih =>
    apply ih
    cases write with
    | putScanHeight height' => exact List.mem_cons_of_mem _ h
    | _ => exact h

lemma call_scanHeight (hne : ∀ height, call ≠ .setScanHeight height) :
    getScanHeight2 ((Caller.call now call db).1.foldl Db.apply db) = getScanHeight2 db := by
  change getScanHeight2 ((perform db now call).2.foldl Db.apply db) = getScanHeight2 db
  cases h : perform db now call with
  | mk reply writes =>
  obtain rfl | ⟨address, publicKey, -, -, -, hcreate⟩ |
    ⟨address, account, id, amount, description, -, -, -, -, hpost⟩ | ⟨height, heq, -⟩ := perform_cases h
  · rfl
  · obtain rfl : writes = (createAccount now address publicKey arweaveAR).2 := by rw [← hcreate]
    rfl
  · unfold postTransaction at hpost
    split at hpost <;> (obtain ⟨-, rfl⟩ := Prod.mk.inj hpost; rfl)
  · exact (hne height heq).elim

lemma andThen_scanHeight {first second : Caller} {height : Int}
    (hfirst : getScanHeight2 ((first db).1.foldl Db.apply db) = height)
    (hsecond : ∀ db, getScanHeight2 db = height → getScanHeight2 ((second db).1.foldl Db.apply db) = height) :
    getScanHeight2 ((first.andThen second db).1.foldl Db.apply db) = height := by
  cases hok : (first db).2 with
  | false =>
    rw [andThen_of_not_ok hok]
    exact hfirst
  | true =>
    rw [andThen_of_ok hok, List.foldl_append]
    exact hsecond _ hfirst

lemma applyDeposits_scanHeight (depositAddress : Bytes) (now : Nat) (db : Db) (txs : List TX) :
    getScanHeight2 ((applyDeposits depositAddress now txs db).1.foldl Db.apply db) = getScanHeight2 db := by
  induction txs generalizing db with
  | nil => rfl
  | cons tx txs ih =>
    rw [applyDeposits]
    split_ifs
    · apply andThen_scanHeight
      · apply andThen_scanHeight
        · exact call_scanHeight fun _ h => by cases h
        · intro db' hdb'
          rw [← hdb']
          exact call_scanHeight fun _ h => by cases h
      · intro db' hdb'
        rw [← hdb']
        exact ih db'
    · exact ih db

/-- A scan of available blocks whose deposits are taken covers all confirmed blocks in its reach. -/
theorem scanBlocks_reaches {available : Nat → Bool} {lastConfirmed : Int} {left : Nat}
    (hs : s.Sound depositAddress weave)
    (hleft : (lastConfirmed - getScanHeight2 s.db).toNat ≤ left)
    (havailable : ∀ height, max (getScanHeight2 s.db) (lastConfirmed - maxBlockScan) < height →
      height ≤ lastConfirmed → available height.toNat = true)
    (hopen : ∀ tx, weave.reached depositAddress s.db lastConfirmed tx → ¬s.db.Closed tx.address)
    (haccept : Accepting (weave.reached depositAddress s.db lastConfirmed) s.db) :
    ∀ height, max (getScanHeight2 s.db) (lastConfirmed - maxBlockScan) < height → height ≤ lastConfirmed →
      height ∈ ((scanBlocksForDeposits depositAddress now (weave.served available) lastConfirmed left s.db).1.foldl
        Ledger.apply s).scanned := by
  induction left generalizing s with
  | zero =>
    intro height hlow hhigh
    omega
  | succ left ih =>
    intro height hlow hhigh
    have hlast : getScanHeight2 s.db < lastConfirmed := by omega
    obtain ⟨hnext, hnextle⟩ := nextHeight_bounds hlast
    have hpos : 0 ≤ nextHeight s.db lastConfirmed := hs.height.trans hnext.le
    have hserved := havailable (nextHeight s.db lastConfirmed) (Int.lt_succ_self _) hnextle
    have hscan : scanBlockForDeposits depositAddress now (weave.served available) (nextHeight s.db lastConfirmed) =
        some (applyDeposits depositAddress now (weave.blocks (nextHeight s.db lastConfirmed).toNat)) := by
      rw [scanBlockForDeposits, if_pos hpos, Weave.served, if_pos hserved]
      rfl
    have hdeposits : ∀ tx ∈ weave.blocks (nextHeight s.db lastConfirmed).toNat, tx.target = depositAddress →
        weave.reached depositAddress s.db lastConfirmed tx :=
      fun tx htx htarget => next_reached hlast htx htarget
    obtain ⟨hblock, hcredit⟩ := scanBlock_completes hs hscan fun tx htx htarget => hopen tx (hdeposits tx htx htarget)
    obtain ⟨hok, haccept'⟩ := applyDeposits_ok now hs (fun tx htx => ⟨_, htx⟩)
      (fun tx htx htarget => hopen tx (hdeposits tx htx htarget)) hdeposits
      (fun tx tx' ⟨_, _, _, htx, _⟩ ⟨_, _, _, htx', _⟩ heq => weave.keys _ _ tx tx' htx htx' heq.symm) haccept
    have hheight := applyDeposits_scanHeight depositAddress now s.db
      (weave.blocks (nextHeight s.db lastConfirmed).toNat)
    generalize applyDeposits depositAddress now (weave.blocks (nextHeight s.db lastConfirmed).toNat) = scan
      at hscan hblock hcredit hok haccept' hheight
    have hset := setScanHeight_ok now ((scan s.db).1.foldl Db.apply s.db) hpos (by rw [hheight]; exact hnext)
    have hstored : Completes depositAddress weave ((scan s.db).1.foldl Ledger.apply s)
        [.putScanHeight (nextHeight s.db lastConfirmed)] := by
      have hcall : Completes depositAddress weave ((scan s.db).1.foldl Ledger.apply s)
          (Caller.call now (.setScanHeight (nextHeight s.db lastConfirmed))
            ((scan s.db).1.foldl Ledger.apply s).db).1 := by
        apply call_completes hblock.sound
        · rintro _ _ _ ⟨⟩
        · rintro _ _ _ ⟨⟩
        · rintro _ ⟨⟩ _
          rw [foldl_apply_db]
          exact hcredit hok hpos
      rw [foldl_apply_db, hset] at hcall
      exact hcall
    set s1 := ((scan s.db).1.foldl Ledger.apply s).apply (.putScanHeight (nextHeight s.db lastConfirmed)) with hs1
    have hdb1 : s1.db = ((scan s.db).1.foldl Db.apply s.db).apply (.putScanHeight (nextHeight s.db lastConfirmed)) := by
      rw [hs1, Ledger.apply, foldl_apply_db]
    have hheight1 : getScanHeight2 s1.db = nextHeight s.db lastConfirmed := rfl
    have hscanned1 : nextHeight s.db lastConfirmed ∈ s1.scanned := List.mem_cons_self
    rw [scanBlocks_succ hlast, hscan]
    simp only
    rw [andThen_of_ok hok, andThen_of_ok (by rw [hset]), hset]
    simp only [List.foldl_append, List.foldl_cons, List.foldl_nil]
    rw [← hs1, ← hdb1]
    obtain rfl | hne := eq_or_ne height (nextHeight s.db lastConfirmed)
    · exact mem_scanned_foldl hscanned1
    · apply ih (s := s1)
      · exact hstored.sound
      · rw [hheight1]
        omega
      · intro h hlow'
        exact havailable h (nextHeight_lt hheight1 hlow')
      · intro tx htx hclosed
        refine hopen tx (reached_of_next hheight1 htx) (hblock.keeps.closed _ ?_)
        rw [← foldl_apply_db]
        exact hstored.keeps.closed _ (by rw [foldl_apply_db]; rw [hdb1] at hclosed; exact hclosed)
      · intro tx htx
        obtain ⟨hquantity, hmatch⟩ := haccept' tx (reached_of_next hheight1 htx)
        refine ⟨hquantity, ?_⟩
        intro account hget
        rw [hdb1] at hget
        exact hmatch account hget
      · rw [hheight1]
        unfold nextHeight at hne ⊢
        omega
      · exact hhigh

end Progress

/-- While no crash comes between a transaction and its account and no closed account is created again, every
account sums its transactions up, the deposits of all scanned blocks are stored once, a scan of available blocks
with deposits that the ledger takes reaches the last confirmed block, and an accepted charge is stored. -/
theorem survives_crashes (depositAddress : Bytes) (weave : Weave) (events : List Event)
    (h : ∀ before event after, events = before ++ event :: after →
      event.Cautious depositAddress weave (runEvents depositAddress weave before)) :
    let s := runEvents depositAddress weave events
    (∀ address account, (s.db.store address).account = some account →
      account.balance = (s.db.store address).transactions.sum (·.amount) ∧
      account.count = (s.db.store address).transactions.size) ∧
    (∀ height ∈ s.scanned, ∀ tx ∈ weave.blocks height.toNat, tx.target = depositAddress →
      ∃ transaction, (s.db.store tx.address).transactions.lookup (.binary tx.id) = some transaction ∧
        transaction.amount = tx.quantity) ∧
    (∀ now lastConfirmed available,
      (∀ height, max (getScanHeight2 s.db) (lastConfirmed - maxBlockScan) < height → height ≤ lastConfirmed →
        available height.toNat = true) →
      (∀ tx, weave.reached depositAddress s.db lastConfirmed tx → ¬s.db.Closed tx.address) →
      Accepting (weave.reached depositAddress s.db lastConfirmed) s.db →
      ∀ height, max (getScanHeight2 s.db) (lastConfirmed - maxBlockScan) < height → height ≤ lastConfirmed →
        height ∈ (s.step depositAddress weave ⟨now, .newTip lastConfirmed available, none⟩).scanned) ∧
    ∀ now address amount minimum request transaction db',
      respond s.db now (.postCharge address amount minimum request) = (.transaction transaction, db') →
        Adds s.db db' address transaction ∧ transaction.amount = -amount := by
  intro s
  have hs : s.Sound depositAddress weave := run_sound h
  refine ⟨?_, ?_, ?_, ?_⟩
  · intro address account hacc
    exact ((hs.balanced.store address).account account hacc).2
  · intro height hheight tx htx htarget
    obtain ⟨t, ht⟩ := Option.ne_none_iff_exists'.mp (hs.credited height hheight tx htx htarget)
    obtain ⟨height', tx', htx', hid, hamount⟩ := hs.recorded _ _ t ht
    obtain rfl := weave.ids _ _ tx' tx htx' htx hid
    exact ⟨t, ht, hamount⟩
  · intro now lastConfirmed available havailable hopen haccept
    exact scanBlocks_reaches hs le_rfl havailable hopen haccept
  · intro now address amount minimum request transaction db'
    exact charge_adds hs.balanced

/-- Two deposits of one sender, in the blocks at heights one and two. -/
def sampleDeposit (n : UInt8) : TX :=
  { id := [n], owner := List.replicate 32 1, target := [9], quantity := 100 * n.toNat }

def sampleWeave : Weave where
  blocks h := if h = 1 then [sampleDeposit 1] else if h = 2 then [sampleDeposit 2] else []
  ids := by
    intro h h' tx tx' htx htx' heq
    split_ifs at htx htx' <;> simp_all [sampleDeposit]
  keys := by
    intro h h' tx tx' htx htx' heq
    split_ifs at htx htx' <;> simp_all [sampleDeposit]

def sampleTip (height : Nat) (crash : Option (Nat × Restart)) : Event := ⟨height, .newTip height fun _ => true, crash⟩

def sampleSender : Bytes := List.replicate 32 1

def sampleCharge (amount : Int) (crash : Option (Nat × Restart)) : Event :=
  ⟨3, .charge sampleSender amount 0 sampleRequest, crash⟩

/-- A crash between a deposit and its account, and the next scan. -/
def tornDeposit : Ledger := runEvents [9] sampleWeave [sampleTip 1 (some (3, .process)), sampleTip 1 none]

/-- A crash between a charge and its account. -/
def tornCharge : Ledger := runEvents [9] sampleWeave [sampleTip 1 none, sampleCharge 5 (some (1, .process))]

/-- A restart of the node between two deposits. -/
def restartedNode : Ledger :=
  runEvents [9] sampleWeave [sampleTip 1 none, sampleTip 1 (some (0, .node)), sampleTip 2 none]

/-- The torn deposit is never credited, the charge after a torn one is accepted and not stored, and the deposit
after a restart resets the balance. -/
theorem crash_loses_payments :
    ((tornDeposit.db.store sampleSender).account.map (·.balance) = some 0 ∧
      (tornDeposit.db.store sampleSender).transactions.sum (·.amount) = 100 ∧ (1 : Int) ∈ tornDeposit.scanned) ∧
    ((∃ transaction, (respond tornCharge.db 3 (.postCharge sampleSender 7 0 sampleRequest)).1 = .transaction transaction ∧
        transaction.amount = -5) ∧
      ((respond tornCharge.db 3 (.postCharge sampleSender 7 0 sampleRequest)).2.store sampleSender).account =
        (tornCharge.db.store sampleSender).account) ∧
    ((restartedNode.db.store sampleSender).account.map (·.balance) = some 200 ∧
      (restartedNode.db.store sampleSender).transactions.sum (·.amount) = 300) := by
  refine ⟨by decide, ⟨⟨⟨.number 2, sampleSender, -5, .binary [71, 69, 84, 32, 47], 3⟩, ?_, rfl⟩, ?_⟩,
    by decide⟩
  · decide
  · decide

lemma sampleWeave_address {height : Nat} {tx : TX} (htx : tx ∈ sampleWeave.blocks height) : tx.address = sampleSender := by
  change tx ∈ (if height = 1 then [sampleDeposit 1] else if height = 2 then [sampleDeposit 2] else []) at htx
  split_ifs at htx
  · rw [List.mem_singleton.mp htx]
    rfl
  · rw [List.mem_singleton.mp htx]
    rfl
  · cases htx

/-- A crash before the first deposit is put, then a scan of both blocks. -/
theorem survives_crashes_sample :
    let s := runEvents [9] sampleWeave [sampleTip 1 (some (2, .process)), sampleTip 2 none]
    (∀ address account, (s.db.store address).account = some account →
      account.balance = (s.db.store address).transactions.sum (·.amount) ∧
      account.count = (s.db.store address).transactions.size) ∧ (s.db.store sampleSender).transactions.size = 2 := by
  refine ⟨(survives_crashes [9] sampleWeave [sampleTip 1 (some (2, .process)), sampleTip 2 none] ?_).1,
    by decide⟩
  intro before event after heq
  match before, heq with
  | [], heq =>
    obtain ⟨rfl, -⟩ := List.cons.inj heq
    refine ⟨?_, ?_⟩
    · rintro k restart ⟨⟩ w hw htorn
      cases hw
      exact htorn
    · rintro tx - ⟨-, hsize⟩
      exact hsize rfl
  | [event'], heq =>
    obtain ⟨hfirst, heq⟩ := List.cons.inj heq
    obtain ⟨rfl, -⟩ := List.cons.inj heq
    rw [← hfirst]
    refine ⟨?_, ?_⟩
    · rintro k restart ⟨⟩
    · rintro tx ⟨height, -, -, htx, -⟩ ⟨ho, -⟩
      rw [sampleWeave_address htx] at ho
      revert ho
      decide
  | event' :: event'' :: before, heq =>
    have hlength := congrArg List.length heq
    simp at hlength

end Arweave.P3

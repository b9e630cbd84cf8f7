import Mathlib.Data.Sum.Order
import Arweave.Lib.Prefix
import Arweave.Lib.Sorted
import Arweave.Tx.Transaction

/-!
# The payment ledger

Every account has a key-value store of its own with the record of the account and its transactions. A
deposit is stored under the id of the transaction that made it, charges and reversals under the next
value of the account's counter. A call reads the stores, replies, and performs its writes in order.
-/

namespace Arweave.P3

open Lib Tx

section Code

/-- The ids and the descriptions of ledger transactions. -/
inductive Term where
  | number (n : Nat)
  | string (s : Bytes)
  | binary (b : Bytes)
  deriving DecidableEq, Repr

/-- Numbers come before strings and strings before binaries. -/
def Term.rank : Term → Nat ⊕ₗ (Bytes ⊕ₗ Bytes)
  | .number n => toLex (.inl n)
  | .string s => toLex (.inr (toLex (.inl s)))
  | .binary b => toLex (.inr (toLex (.inr b)))

lemma Term.rank_injective : Function.Injective Term.rank := by
  intro t t' h
  cases t <;> cases t' <;> simp_all [Term.rank]

instance : LinearOrder Term := LinearOrder.lift' Term.rank Term.rank_injective

/-- The transaction id of a deposit. The ids of transactions on the weave are binaries. -/
inductive Txid where
  | undefined
  | string (s : Bytes)
  | binary (b : Bytes)
  deriving DecidableEq, Repr

def Txid.term : Txid → Option Term
  | .undefined => none
  | .string s => some (.string s)
  | .binary b => some (.binary b)

/-- The record `p3_account`. -/
structure Account where
  address : Bytes
  publicKey : SignatureType × Bytes
  asset : Bytes
  balance : Int
  count : Nat
  timestamp : Nat
  deriving DecidableEq, Repr

/-- The record `p3_transaction`. -/
structure Transaction where
  id : Term
  address : Bytes
  amount : Int
  description : Term
  timestamp : Nat
  deriving DecidableEq, Repr

/-- The store of one account. -/
structure Store where
  account : Option Account
  transactions : SortedMap Term Transaction

def Store.new : Store := ⟨none, .empty⟩

/-- The stores on disk, those of them that are open, and the stored scan height. -/
structure Db where
  stores : SortedMap Bytes Store
  opened : OrdSet Bytes
  scanHeight : Option Int

def Db.empty : Db := ⟨.empty, .empty, none⟩

def Db.store (db : Db) (address : Bytes) : Store := (db.stores.lookup address).getD .new

inductive Write where
  | openStore (address : Bytes)
  | putTransaction (address : Bytes) (key : Term) (transaction : Transaction)
  | putAccount (account : Account)
  | putScanHeight (height : Int)

def Db.apply (db : Db) : Write → Db
  | .openStore address =>
    { db with stores := db.stores.insert address (db.store address), opened := db.opened.add address }
  | .putTransaction address key transaction =>
    let store := { db.store address with transactions := (db.store address).transactions.insert key transaction }
    { db with stores := db.stores.insert address store }
  | .putAccount account =>
    let store := { db.store account.address with account := some account }
    { db with stores := db.stores.insert account.address store }
  | .putScanHeight height => { db with scanHeight := some height }

inductive Reason where
  | unsupported_asset
  | account_mismatch
  | not_found
  | invalid_address
  | invalid_txid
  | invalid_amount
  | invalid_request
  | insufficient_funds
  | invalid_height
  deriving DecidableEq, Repr

inductive Reply where
  | account (account : Account)
  | transaction (transaction : Transaction)
  | height (height : Int)
  | error (reason : Reason)
  deriving DecidableEq, Repr

/-- A field of a request's map. -/
inductive Field where
  | bitstring (b : Bytes)
  | other
  deriving DecidableEq

inductive Request where
  | undefined
  | map (method path : Option Field)
  | other
  deriving DecidableEq

/-- `?ARWEAVE_AR`, the string "arweave/AR". -/
def arweaveAR : Bytes := [97, 114, 119, 101, 97, 118, 101, 47, 65, 82]

/-- The string "REVERSE:". -/
def reverseLabel : Bytes := [82, 69, 86, 69, 82, 83, 69, 58]

variable (db : Db) (now : Nat)

-- `safe_get/3` finds nothing in a store that is not open.

def getAccount2 (address : Bytes) : Option Account :=
  if address ∈ db.opened then (db.store address).account else none

def getTransaction2 (address : Bytes) (id : Term) : Option Transaction :=
  if address ∈ db.opened then (db.store address).transactions.lookup id else none

def getNextId (account : Account) : Term := .number (account.count + 1)

def createAccount (address : Bytes) (publicKey : SignatureType × Bytes) (asset : Bytes) : Reply × List Write :=
  let account : Account := ⟨address, publicKey, asset, 0, 0, now⟩
  (.account account, [.openStore address, .putAccount account])

def getOrCreateAccount (address : Bytes) (publicKey : SignatureType × Bytes) (asset : Bytes) :
    Reply × List Write :=
  match getAccount2 db address with
  | none => createAccount now address publicKey asset
  | some account =>
    if account.address = address ∧ account.publicKey = publicKey ∧ account.asset = asset then
      (.account account, [])
    else (.error .account_mismatch, [])

def requestLabel : Request → Option Bytes
  | .map (some (.bitstring method)) (some (.bitstring path)) => some (method ++ 32 :: path)
  | _ => none

def postTransaction (account : Account) (id : Term) (amount : Int) (description : Term) : Reply × List Write :=
  match getTransaction2 db account.address id with
  | none =>
    let transaction : Transaction := ⟨id, account.address, amount, description, now⟩
    (.transaction transaction,
      [.putTransaction account.address id transaction,
        .putAccount { account with count := account.count + 1, balance := account.balance + amount }])
  | some transaction => (.transaction transaction, [])

def postTxTransaction (account : Account) (amount : Int) (txid : Txid) : Reply × List Write :=
  match txid.term with
  | none => (.error .invalid_txid, [])
  | some id =>
    if amount ≤ 0 then (.error .invalid_amount, [])
    else postTransaction db now account id amount id

def postRequestTransaction (account : Account) (amount minimum : Int) (request : Request) : Reply × List Write :=
  if request = .undefined then (.error .invalid_request, [])
  else if amount < 0 then (.error .invalid_amount, [])
  else if account.balance - amount < minimum then (.error .insufficient_funds, [])
  else
    match requestLabel request with
    | some label => postTransaction db now account (getNextId account) (-amount) (.binary label)
    | none => (.error .invalid_request, [])

def binaryId : Term → Bytes
  | .number n => integerToList n
  | .string s => s
  | .binary b => b

def postReverseTransaction (account : Account) (transaction : Transaction) : Reply × List Write :=
  postTransaction db now account (getNextId account) (-transaction.amount)
    (.binary (reverseLabel ++ binaryId transaction.id))

def getScanHeight2 : Int := db.scanHeight.getD 0

def setScanHeight2 (height : Int) : Reply × List Write :=
  if 0 ≤ height ∧ getScanHeight2 db < height then (.height height, [.putScanHeight height])
  else (.error .invalid_height, [])

inductive Call where
  | getOrCreateAccount (address : Bytes) (publicKey : SignatureType × Bytes) (asset : Bytes)
  | getAccount (address : Bytes)
  | getTransaction (address : Bytes) (id : Term)
  | postDeposit (address : Bytes) (amount : Int) (txid : Txid)
  | postCharge (address : Bytes) (amount minimum : Int) (request : Request)
  | reverseTransaction (address : Bytes) (id : Term)
  | setScanHeight (height : Int)
  | getScanHeight

def handleCall : Call → Reply × List Write
  | .getOrCreateAccount address publicKey asset => getOrCreateAccount db now address publicKey asset
  | .getAccount address =>
    match getAccount2 db address with
    | none => (.error .not_found, [])
    | some account => (.account account, [])
  | .getTransaction address id =>
    match getTransaction2 db address id with
    | none => (.error .not_found, [])
    | some transaction => (.transaction transaction, [])
  | .postDeposit address amount txid =>
    match getAccount2 db address with
    | none => (.error .not_found, [])
    | some account => postTxTransaction db now account amount txid
  | .postCharge address amount minimum request =>
    match getAccount2 db address with
    | none => (.error .not_found, [])
    | some account => postRequestTransaction db now account amount minimum request
  | .reverseTransaction address id =>
    match getAccount2 db address, getTransaction2 db address id with
    | some account, some transaction => postReverseTransaction db now account transaction
    | _, _ => (.error .not_found, [])
  | .setScanHeight height => setScanHeight2 db height
  | .getScanHeight => (.height (getScanHeight2 db), [])

/-- The address that is validated before a call. -/
def Call.address : Call → Option Bytes
  | .getOrCreateAccount address _ _ | .getAccount address | .getTransaction address _ | .postDeposit address _ _
  | .postCharge address _ _ _ | .reverseTransaction address _ => some address
  | .setScanHeight _ | .getScanHeight => none

def validatedCall (call : Call) : Reply × List Write :=
  if call.address = some [] then (.error .invalid_address, []) else handleCall db now call

/-- The public interface. -/
def perform : Call → Reply × List Write
  | .getOrCreateAccount address publicKey asset =>
    if asset = arweaveAR then validatedCall db now (.getOrCreateAccount address publicKey asset)
    else (.error .unsupported_asset, [])
  | call => validatedCall db now call

/-- A call that the server completes. -/
def respond (call : Call) : Reply × Db :=
  let (reply, writes) := perform db now call
  (reply, writes.foldl Db.apply db)

/-- The ledger after completed calls, each with the time when it is served. -/
def run (calls : List (Nat × Call)) : Db := calls.foldl (fun db call => (respond db call.1 call.2).2) .empty

end Code

section Writes

variable {db : Db} {address address' : Bytes}

@[simp] lemma store_openStore : (db.apply (.openStore address)).store address' = db.store address' := by
  unfold Db.store Db.apply
  rw [SortedMap.lookup_insert]
  split_ifs with h
  · rw [h]
    rfl
  · rfl

@[simp] lemma store_putTransaction {key : Term} {transaction : Transaction} :
    (db.apply (.putTransaction address key transaction)).store address' =
      if address' = address then
        { db.store address with transactions := (db.store address).transactions.insert key transaction }
      else db.store address' := by
  simp only [Db.store, Db.apply, SortedMap.lookup_insert]
  split_ifs <;> rfl

@[simp] lemma store_putAccount {account : Account} :
    (db.apply (.putAccount account)).store address =
      if address = account.address then { db.store account.address with account := some account }
      else db.store address := by
  simp only [Db.store, Db.apply, SortedMap.lookup_insert]
  split_ifs <;> rfl

@[simp] lemma store_putScanHeight {height : Int} : (db.apply (.putScanHeight height)).store address = db.store address :=
  rfl

@[simp] lemma opened_openStore : (db.apply (.openStore address)).opened = db.opened.add address := rfl

@[simp] lemma opened_putTransaction {key : Term} {transaction : Transaction} :
    (db.apply (.putTransaction address key transaction)).opened = db.opened := rfl

@[simp] lemma opened_putAccount {account : Account} : (db.apply (.putAccount account)).opened = db.opened := rfl

@[simp] lemma opened_putScanHeight {height : Int} : (db.apply (.putScanHeight height)).opened = db.opened := rfl

end Writes

section Balance

variable {db : Db} {now : Nat} {address : Bytes} {store : Store} {account : Account} {call : Call}
  {reply : Reply} {writes : List Write}

/-- The record of an account sums its transactions up, and the ids that the counter gave out are in its past. -/
structure Store.Balanced (address : Bytes) (store : Store) : Prop where
  account : ∀ account, store.account = some account → account.address = address ∧
    account.balance = store.transactions.sum (·.amount) ∧ account.count = store.transactions.size
  unused : store.account = none → store.transactions.size = 0
  counter : ∀ n transaction, store.transactions.lookup (.number n) = some transaction → n ≤ store.transactions.size

structure Db.Balanced (db : Db) : Prop where
  store : ∀ address, (db.store address).Balanced address
  named : (db.store []).account = none

/-- The stores of all accounts are open. -/
def Db.Serving (db : Db) : Prop := ∀ address, (db.store address).account ≠ none → address ∈ db.opened

/-- A store with a posted transaction and its updated account. -/
def Store.post (store : Store) (account : Account) (transaction : Transaction) : Store where
  account := some { account with count := account.count + 1, balance := account.balance + transaction.amount }
  transactions := store.transactions.insert transaction.id transaction

/-- The writes of a new transaction. -/
def Account.postings (account : Account) (transaction : Transaction) : List Write :=
  [.putTransaction account.address transaction.id transaction,
    .putAccount { account with count := account.count + 1, balance := account.balance + transaction.amount }]

lemma getAccount2_eq_some (h : getAccount2 db address = some account) :
    address ∈ db.opened ∧ (db.store address).account = some account := by
  unfold getAccount2 at h
  split_ifs at h with ho
  exact ⟨ho, h⟩

lemma perform_eq (h : perform db now call = (reply, writes)) :
    writes = [] ∨ (call.address ≠ some [] ∧ handleCall db now call = (reply, writes) ∧
      ∀ address publicKey asset, call = .getOrCreateAccount address publicKey asset → asset = arweaveAR) := by
  have hvalid : ∀ call : Call, validatedCall db now call = (reply, writes) →
      writes = [] ∨ (call.address ≠ some [] ∧ handleCall db now call = (reply, writes)) := by
    intro call h
    unfold validatedCall at h
    split_ifs at h with ha
    · exact Or.inl (Prod.mk.inj h).2.symm
    · exact Or.inr ⟨ha, h⟩
  unfold perform at h
  split at h
  · rename_i address publicKey asset
    split_ifs at h with hasset
    · obtain hnone | ⟨ha, hc⟩ := hvalid _ h
      · exact Or.inl hnone
      · refine Or.inr ⟨ha, hc, ?_⟩
        rintro _ _ _ ⟨⟩
        exact hasset
    · exact Or.inl (Prod.mk.inj h).2.symm
  · rename_i hother
    obtain hnone | ⟨ha, hc⟩ := hvalid _ h
    · exact Or.inl hnone
    · exact Or.inr ⟨ha, hc, fun address publicKey asset heq => (hother address publicKey asset heq).elim⟩

lemma posted_number {amount : Int} {id : Term} {n : Nat}
    (h : id = getNextId account ∨ ∃ txid, call = .postDeposit address amount txid ∧ txid.term = some id)
    (hn : id = .number n) : n = account.count + 1 := by
  obtain rfl | ⟨txid, -, htxid⟩ := h
  · exact (Term.number.inj hn).symm
  · rw [hn] at htxid
    cases txid <;> cases htxid

lemma postTxTransaction_cases {amount : Int} {txid : Txid}
    (h : postTxTransaction db now account amount txid = (reply, writes)) :
    writes = [] ∨ ∃ id, txid.term = some id ∧ (reply, writes) = postTransaction db now account id amount id := by
  unfold postTxTransaction at h
  split at h
  · exact Or.inl (Prod.mk.inj h).2.symm
  · rename_i id hid
    split_ifs at h
    · exact Or.inl (Prod.mk.inj h).2.symm
    · exact Or.inr ⟨id, hid, h.symm⟩

lemma postRequestTransaction_cases {amount minimum : Int} {request : Request}
    (h : postRequestTransaction db now account amount minimum request = (reply, writes)) :
    ((∃ reason, reply = .error reason) ∧ writes = []) ∨
      ∃ label, requestLabel request = some label ∧ 0 ≤ amount ∧ minimum ≤ account.balance - amount ∧
        (reply, writes) = postTransaction db now account (getNextId account) (-amount) (.binary label) := by
  unfold postRequestTransaction at h
  split_ifs at h with hundefined hamount hfunds
  iterate 3 exact Or.inl ⟨⟨_, (Prod.mk.inj h).1.symm⟩, (Prod.mk.inj h).2.symm⟩
  split at h
  · rename_i label hlabel
    exact Or.inr ⟨label, hlabel, by omega, by omega, h.symm⟩
  · exact Or.inl ⟨⟨_, (Prod.mk.inj h).1.symm⟩, (Prod.mk.inj h).2.symm⟩

/-- What a call writes: nothing, a new account, one transaction with its account, or the scan height. -/
theorem perform_cases (h : perform db now call = (reply, writes)) :
    writes = [] ∨
    (∃ address publicKey, address ≠ [] ∧ call = .getOrCreateAccount address publicKey arweaveAR ∧
      getAccount2 db address = none ∧ (reply, writes) = createAccount now address publicKey arweaveAR) ∨
    (∃ address account id amount description, address ≠ [] ∧ call.address = some address ∧
      getAccount2 db address = some account ∧
      (id = getNextId account ∨ ∃ txid, call = .postDeposit address amount txid ∧ txid.term = some id) ∧
      (reply, writes) = postTransaction db now account id amount description) ∨
    ∃ height, call = .setScanHeight height ∧ 0 ≤ height ∧ getScanHeight2 db < height ∧ reply = .height height ∧
      writes = [.putScanHeight height] := by
  obtain hnone | ⟨ha, hcall, hasset⟩ := perform_eq h
  · exact Or.inl hnone
  have hne : ∀ address, call.address = some address → address ≠ [] := by
    rintro address heq rfl
    exact ha heq
  cases call with
  | getOrCreateAccount address publicKey asset =>
    obtain rfl := hasset address publicKey asset rfl
    simp only [handleCall, getOrCreateAccount] at hcall
    split at hcall
    · rename_i hget
      exact Or.inr (Or.inl ⟨address, publicKey, hne address rfl, rfl, hget, hcall.symm⟩)
    · split_ifs at hcall <;> exact Or.inl (Prod.mk.inj hcall).2.symm
  | getAccount address =>
    simp only [handleCall] at hcall
    split at hcall <;> exact Or.inl (Prod.mk.inj hcall).2.symm
  | getTransaction address id =>
    simp only [handleCall] at hcall
    split at hcall <;> exact Or.inl (Prod.mk.inj hcall).2.symm
  | postDeposit address amount txid =>
    simp only [handleCall] at hcall
    split at hcall
    · exact Or.inl (Prod.mk.inj hcall).2.symm
    · rename_i account hget
      obtain hnone | ⟨id, hid, hpost⟩ := postTxTransaction_cases hcall
      · exact Or.inl hnone
      · exact Or.inr (Or.inr (Or.inl
          ⟨address, account, id, amount, id, hne address rfl, rfl, hget, Or.inr ⟨txid, rfl, hid⟩, hpost⟩))
  | postCharge address amount minimum request =>
    simp only [handleCall] at hcall
    split at hcall
    · exact Or.inl (Prod.mk.inj hcall).2.symm
    · rename_i account hget
      obtain ⟨-, hnone⟩ | ⟨label, -, -, -, hpost⟩ := postRequestTransaction_cases hcall
      · exact Or.inl hnone
      · exact Or.inr (Or.inr (Or.inl
          ⟨address, account, _, _, _, hne address rfl, rfl, hget, Or.inl rfl, hpost⟩))
  | reverseTransaction address id =>
    simp only [handleCall] at hcall
    split at hcall
    · rename_i account transaction hget htransaction
      exact Or.inr (Or.inr (Or.inl
        ⟨address, account, _, _, _, hne address rfl, rfl, hget, Or.inl rfl, hcall.symm⟩))
    · exact Or.inl (Prod.mk.inj hcall).2.symm
  | setScanHeight height =>
    simp only [handleCall, setScanHeight2] at hcall
    split_ifs at hcall with hheight
    · exact Or.inr (Or.inr (Or.inr
        ⟨height, rfl, hheight.1, hheight.2, (Prod.mk.inj hcall).1.symm, (Prod.mk.inj hcall).2.symm⟩))
    · exact Or.inl (Prod.mk.inj hcall).2.symm
  | getScanHeight => exact Or.inl (Prod.mk.inj hcall).2.symm

lemma postTransaction_cases {id description : Term} {amount : Int} (ho : account.address ∈ db.opened)
    (h : postTransaction db now account id amount description = (reply, writes)) :
    (∃ transaction, (db.store account.address).transactions.lookup id = some transaction ∧
      reply = .transaction transaction ∧ writes = []) ∨
    ((db.store account.address).transactions.lookup id = none ∧
      ∃ transaction : Transaction, transaction.id = id ∧ transaction.amount = amount ∧
        reply = .transaction transaction ∧ writes = account.postings transaction) := by
  unfold postTransaction getTransaction2 at h
  rw [if_pos ho] at h
  split at h
  · rename_i hnone
    obtain ⟨rfl, rfl⟩ := Prod.mk.inj h
    exact Or.inr ⟨hnone, _, rfl, rfl, rfl, rfl⟩
  · rename_i transaction hsome
    obtain ⟨rfl, rfl⟩ := Prod.mk.inj h
    exact Or.inl ⟨transaction, hsome, rfl, rfl⟩

lemma store_post {transaction : Transaction} (address' : Bytes) :
    ((account.postings transaction).foldl Db.apply db).store address' =
      if address' = account.address then (db.store account.address).post account transaction
      else db.store address' := by
  rw [Account.postings, List.foldl_cons, List.foldl_cons, List.foldl_nil, store_putAccount]
  split_ifs with h
  · rw [store_putTransaction, if_pos rfl]
    rfl
  · rw [store_putTransaction, if_neg h]

lemma store_create (publicKey : SignatureType × Bytes) (asset address' : Bytes) :
    ((createAccount now address publicKey asset).2.foldl Db.apply db).store address' =
      if address' = address then { db.store address with account := some ⟨address, publicKey, asset, 0, 0, now⟩ }
      else db.store address' := by
  simp only [createAccount, List.foldl_cons, List.foldl_nil, store_putAccount, store_openStore]

lemma Store.Balanced.post (h : store.Balanced address) (hacc : store.account = some account)
    {transaction : Transaction} (hnew : store.transactions.lookup transaction.id = none)
    (hid : ∀ n, transaction.id = .number n → n = account.count + 1) :
    (store.post account transaction).Balanced address := by
  obtain ⟨haddr, hbalance, hcount⟩ := h.account account hacc
  have herase := SortedMap.erase_of_lookup_eq_none hnew
  have hsize : (store.post account transaction).transactions.size = store.transactions.size + 1 := by
    rw [Store.post, SortedMap.size_insert_eq, herase]
  refine ⟨?_, ?_, ?_⟩
  · rintro _ ⟨⟩
    refine ⟨haddr, ?_, ?_⟩
    · simp only [Store.post, SortedMap.sum_insert, herase, hbalance]
      ring
    · rw [hsize, hcount]
  · intro hnone
    cases hnone
  · intro n t hlookup
    rw [hsize]
    simp only [Store.post, SortedMap.lookup_insert] at hlookup
    split_ifs at hlookup with heq
    · rw [hid n heq.symm, hcount]
    · exact (h.counter n t hlookup).trans (Nat.le_succ _)

lemma Store.Balanced.create (h : store.Balanced address) (hempty : store.transactions.size = 0)
    {publicKey : SignatureType × Bytes} {asset : Bytes} :
    ({ store with account := some ⟨address, publicKey, asset, 0, 0, now⟩ } : Store).Balanced address := by
  refine ⟨?_, ?_, h.counter⟩
  · rintro _ ⟨⟩
    refine ⟨rfl, ?_, hempty.symm⟩
    rw [SortedMap.sum, List.length_eq_zero_iff.mp hempty]
    rfl
  · intro hnone
    cases hnone

lemma Db.Balanced.empty : Db.empty.Balanced := by
  refine ⟨?_, rfl⟩
  intro address
  refine ⟨?_, fun _ => rfl, ?_⟩
  · rintro _ ⟨⟩
  · rintro _ _ ⟨⟩

lemma Db.Balanced.perform (hdb : db.Balanced) (h : perform db now call = (reply, writes))
    (hnew : ∀ address publicKey asset, call = .getOrCreateAccount address publicKey asset →
      getAccount2 db address = none → (db.store address).transactions.size = 0) :
    (writes.foldl Db.apply db).Balanced := by
  obtain rfl | ⟨address, publicKey, hne, rfl, hget, hcreate⟩ |
    ⟨address, account, id, amount, description, hne, -, hget, hid, hpost⟩ | ⟨height, -, -, -, -, rfl⟩ := perform_cases h
  · exact hdb
  · rw [show writes = (createAccount now address publicKey arweaveAR).2 by rw [← hcreate]]
    constructor
    · intro address'
      rw [store_create]
      split_ifs with heq
      · rw [heq]
        exact (hdb.store address).create (hnew address publicKey arweaveAR rfl hget)
      · exact hdb.store address'
    · rw [store_create, if_neg hne.symm]
      exact hdb.named
  · obtain ⟨ho, hacc⟩ := getAccount2_eq_some hget
    obtain ⟨rfl, -, -⟩ := (hdb.store address).account account hacc
    obtain ⟨t, -, -, rfl⟩ | ⟨hnone, t, rfl, rfl, -, rfl⟩ := postTransaction_cases ho hpost.symm
    · exact hdb
    · constructor
      · intro address'
        rw [store_post]
        split_ifs with heq
        · rw [heq]
          exact (hdb.store _).post hacc hnone fun n => posted_number hid
        · exact hdb.store address'
      · rw [store_post, if_neg hne.symm]
        exact hdb.named
  · exact ⟨hdb.store, hdb.named⟩

lemma Db.Balanced.size_eq_zero (hdb : db.Balanced) (hserving : db.Serving) (h : getAccount2 db address = none) :
    (db.store address).transactions.size = 0 := by
  refine (hdb.store address).unused ?_
  by_contra hne
  rw [getAccount2, if_pos (hserving address hne)] at h
  exact hne h

lemma Db.Serving.perform (hdb : db.Balanced) (hserving : db.Serving) (h : perform db now call = (reply, writes)) :
    (writes.foldl Db.apply db).Serving := by
  obtain rfl | ⟨address, publicKey, hne, rfl, hget, hcreate⟩ |
    ⟨address, account, id, amount, description, hne, -, hget, hid, hpost⟩ | ⟨height, -, -, -, -, rfl⟩ := perform_cases h
  · exact hserving
  · rw [show writes = (createAccount now address publicKey arweaveAR).2 by rw [← hcreate]]
    intro address' hacc
    rw [store_create] at hacc
    have ho : ((createAccount now address publicKey arweaveAR).2.foldl Db.apply db).opened = db.opened.add address :=
      rfl
    rw [ho, OrdSet.mem_add]
    split_ifs at hacc with heq
    · exact Or.inl heq
    · exact Or.inr (hserving address' hacc)
  · obtain ⟨ho, hacc⟩ := getAccount2_eq_some hget
    obtain ⟨rfl, -, -⟩ := (hdb.store address).account account hacc
    obtain ⟨t, -, -, rfl⟩ | ⟨hnone, t, rfl, rfl, -, rfl⟩ := postTransaction_cases ho hpost.symm
    · exact hserving
    · intro address' hacc'
      rw [store_post] at hacc'
      change address' ∈ db.opened
      split_ifs at hacc' with heq
      · rw [heq]
        exact ho
      · exact hserving address' hacc'
  · exact hserving

theorem run_balanced (calls : List (Nat × Call)) : (run calls).Balanced ∧ (run calls).Serving := by
  unfold run
  induction calls using List.reverseRecOn with
  | nil => exact ⟨Db.Balanced.empty, fun _ h => (h rfl).elim⟩
  | append_singleton calls call ih =>
    rw [List.foldl_append]
    obtain ⟨hdb, hserving⟩ := ih
    exact ⟨hdb.perform rfl fun address _ _ _ hget => hdb.size_eq_zero hserving hget, hserving.perform hdb rfl⟩

end Balance

section Calls

variable {db db' : Db} {now : Nat} {address : Bytes} {account : Account} {amount minimum : Int} {request : Request}
  {transaction : Transaction}

/-- One new transaction is stored, it is counted and added to the balance, and no other account is touched. -/
structure Adds (db db' : Db) (address : Bytes) (transaction : Transaction) : Prop where
  new : (db.store address).transactions.lookup transaction.id = none
  stored : ∃ account, (db.store address).account = some account ∧
    db'.store address = (db.store address).post account transaction
  others : ∀ other, other ≠ address → db'.store other = db.store other

lemma postTransaction_reply (db : Db) (now : Nat) (account : Account) (id : Term) (amount : Int) (description : Term) :
    ∃ transaction, (postTransaction db now account id amount description).1 = .transaction transaction := by
  unfold postTransaction
  split
  · exact ⟨_, rfl⟩
  · rename_i transaction _
    exact ⟨transaction, rfl⟩

lemma respond_eq {call : Call} :
    respond db now call = ((perform db now call).1, (perform db now call).2.foldl Db.apply db) := rfl

lemma validatedCall_cases (call : Call) {reply : Reply} {writes : List Write}
    (h : validatedCall db now call = (reply, writes)) :
    (call.address ≠ some [] ∧ handleCall db now call = (reply, writes)) ∨ reply = .error .invalid_address := by
  unfold validatedCall at h
  split_ifs at h with hnil
  · exact Or.inr (Prod.mk.inj h).1.symm
  · exact Or.inl ⟨hnil, h⟩

lemma rejected_unchanged {call : Call} {reason : Reason} (h : respond db now call = (.error reason, db')) : db' = db := by
  obtain ⟨hreply, rfl⟩ := Prod.mk.inj h
  obtain hnone | ⟨address, publicKey, -, -, -, hcreate⟩ |
    ⟨address, account, id, amount, description, -, -, hget, -, hpost⟩ | ⟨height, -, -, -, hheight, -⟩ :=
    perform_cases (rfl : perform db now call = (_, _))
  · rw [hnone]
    rfl
  · rw [hreply] at hcreate
    cases (Prod.mk.inj hcreate).1
  · rw [hreply] at hpost
    obtain ⟨transaction, htransaction⟩ := postTransaction_reply db now account id amount description
    rw [← hpost] at htransaction
    cases htransaction
  · rw [hreply] at hheight
    cases hheight

lemma Db.Balanced.next_free (hdb : db.Balanced) (h : (db.store address).account = some account) :
    (db.store address).transactions.lookup (getNextId account) = none := by
  obtain ⟨-, -, hcount⟩ := (hdb.store address).account account h
  cases hlookup : (db.store address).transactions.lookup (getNextId account) with
  | none => rfl
  | some t =>
    have hle := (hdb.store address).counter _ t hlookup
    omega

lemma adds_post (hdb : db.Balanced) (hget : getAccount2 db address = some account) {id description : Term}
    (hnone : (db.store address).transactions.lookup id = none) {reply : Reply} {writes : List Write}
    (h : postTransaction db now account id amount description = (reply, writes)) :
    ∃ transaction, reply = .transaction transaction ∧ transaction.id = id ∧ transaction.amount = amount ∧
      Adds db (writes.foldl Db.apply db) address transaction := by
  obtain ⟨ho, hacc⟩ := getAccount2_eq_some hget
  obtain ⟨rfl, -, -⟩ := (hdb.store address).account account hacc
  obtain ⟨t, hsome, -, -⟩ | ⟨-, t, rfl, hamount, hreply, rfl⟩ := postTransaction_cases ho h
  · rw [hnone] at hsome
    cases hsome
  · refine ⟨t, hreply, rfl, hamount, hnone, ⟨account, hacc, ?_⟩, ?_⟩
    · rw [store_post, if_pos rfl]
    · intro other hother
      rw [store_post, if_neg hother]

lemma Db.Balanced.ne_nil (hdb : db.Balanced) (h : (db.store address).account = some account) : address ≠ [] := by
  rintro rfl
  rw [hdb.named] at h
  cases h

lemma validatedCall_eq {call : Call} (hne : address ≠ []) (h : call.address = some address) :
    validatedCall db now call = handleCall db now call := by
  refine if_neg fun hnil => ?_
  rw [h] at hnil
  exact hne (Option.some.inj hnil)

lemma getAccount2_of_serving (hserving : db.Serving) : getAccount2 db address = (db.store address).account := by
  unfold getAccount2
  split_ifs with ho
  · rfl
  · by_contra hne
    exact ho (hserving address (Ne.symm hne))

lemma Db.Balanced.stored_of_lookup (hdb : db.Balanced) {id : Term}
    (h : (db.store address).transactions.lookup id = some transaction) :
    ∃ account, (db.store address).account = some account := by
  cases hacc : (db.store address).account with
  | none =>
    have hempty := (hdb.store address).unused hacc
    rw [SortedMap.lookup_eq_some, List.length_eq_zero_iff.mp hempty] at h
    cases h
  | some account => exact ⟨account, rfl⟩

lemma perform_getOrCreateAccount (publicKey : SignatureType × Bytes) (hne : address ≠ []) :
    perform db now (.getOrCreateAccount address publicKey arweaveAR) =
      getOrCreateAccount db now address publicKey arweaveAR := by
  rw [perform, if_pos rfl, validatedCall_eq hne rfl]
  rfl

lemma respond_create (hdb : db.Balanced) (hserving : db.Serving) {publicKey : SignatureType × Bytes}
    (hne : address ≠ []) (hnone : (db.store address).account = none) :
    ∃ db', respond db now (.getOrCreateAccount address publicKey arweaveAR) =
        (.account ⟨address, publicKey, arweaveAR, 0, 0, now⟩, db') ∧
      db'.store address = ⟨some ⟨address, publicKey, arweaveAR, 0, 0, now⟩, .empty⟩ ∧
      ∀ other, other ≠ address → db'.store other = db.store other := by
  have hempty : (db.store address).transactions = .empty :=
    SortedMap.ext (List.length_eq_zero_iff.mp ((hdb.store address).unused hnone))
  have hperform : perform db now (.getOrCreateAccount address publicKey arweaveAR) =
      createAccount now address publicKey arweaveAR := by
    rw [perform_getOrCreateAccount publicKey hne, getOrCreateAccount, getAccount2_of_serving hserving, hnone]
  refine ⟨(createAccount now address publicKey arweaveAR).2.foldl Db.apply db, ?_, ?_, ?_⟩
  · rw [respond_eq, hperform]
    rfl
  · rw [store_create, if_pos rfl]
    simp only [hempty]
  · intro other hother
    rw [store_create, if_neg hother]

lemma respond_known (hdb : db.Balanced) (hserving : db.Serving) {publicKey : SignatureType × Bytes}
    (h : (db.store address).account = some account) :
    respond db now (.getOrCreateAccount address publicKey arweaveAR) =
      (if account.publicKey = publicKey ∧ account.asset = arweaveAR then .account account
        else .error .account_mismatch, db) := by
  obtain ⟨haddr, -, -⟩ := (hdb.store address).account account h
  have hperform : perform db now (.getOrCreateAccount address publicKey arweaveAR) =
      (if account.publicKey = publicKey ∧ account.asset = arweaveAR then .account account
        else .error .account_mismatch, []) := by
    rw [perform_getOrCreateAccount publicKey (hdb.ne_nil h), getOrCreateAccount, getAccount2_of_serving hserving, h]
    simp only [haddr, true_and]
    split_ifs <;> rfl
  rw [respond_eq, hperform]
  rfl

lemma perform_postDeposit (hdb : db.Balanced) (hserving : db.Serving) {txid : Txid}
    (h : (db.store address).account = some account) :
    perform db now (.postDeposit address amount txid) = postTxTransaction db now account amount txid := by
  rw [perform, validatedCall_eq (hdb.ne_nil h) rfl]
  · simp only [handleCall, getAccount2_of_serving hserving, h]
  · simp

lemma deposit_adds (hdb : db.Balanced) (hserving : db.Serving) {txid : Txid} {id : Term}
    (h : (db.store address).account = some account) (hpos : 0 < amount) (hid : txid.term = some id)
    (hnone : (db.store address).transactions.lookup id = none) :
    ∃ transaction db', respond db now (.postDeposit address amount txid) = (.transaction transaction, db') ∧
      transaction.id = id ∧ transaction.amount = amount ∧ Adds db db' address transaction := by
  have hget : getAccount2 db address = some account := by rw [getAccount2_of_serving hserving, h]
  cases hpost : postTransaction db now account id amount id with
  | mk reply writes =>
  obtain ⟨t, rfl, htid, hamount, hadds⟩ := adds_post hdb hget hnone hpost
  have hperform : perform db now (.postDeposit address amount txid) = (.transaction t, writes) := by
    rw [perform_postDeposit hdb hserving h, postTxTransaction, hid]
    simp only [if_neg (not_le.mpr hpos), hpost]
  refine ⟨t, writes.foldl Db.apply db, ?_, htid, hamount, hadds⟩
  rw [respond_eq, hperform]

lemma respond_recorded (hdb : db.Balanced) (hserving : db.Serving) {txid : Txid} {id : Term}
    (hid : txid.term = some id) (h : (db.store address).transactions.lookup id = some transaction) :
    respond db now (.postDeposit address amount txid) =
      (if 0 < amount then .transaction transaction else .error .invalid_amount, db) := by
  obtain ⟨account, hacc⟩ := hdb.stored_of_lookup h
  obtain ⟨haddr, -, -⟩ := (hdb.store address).account account hacc
  have ho := hserving address (by rw [hacc]; simp)
  have hperform : perform db now (.postDeposit address amount txid) =
      (if 0 < amount then .transaction transaction else .error .invalid_amount, []) := by
    rw [perform_postDeposit hdb hserving hacc, postTxTransaction, hid]
    simp only
    split_ifs with hle hpos hpos
    · omega
    · rfl
    · simp only [postTransaction, getTransaction2, haddr, if_pos ho, h]
    · omega
  rw [respond_eq, hperform]
  rfl

lemma perform_postCharge (hdb : db.Balanced) (hserving : db.Serving) (h : (db.store address).account = some account) :
    perform db now (.postCharge address amount minimum request) =
      postRequestTransaction db now account amount minimum request := by
  rw [perform, validatedCall_eq (hdb.ne_nil h) rfl]
  · simp only [handleCall, getAccount2_of_serving hserving, h]
  · simp

lemma perform_postCharge_none (now : Nat) (amount minimum : Int) (request : Request) (hserving : db.Serving) (h : (db.store address).account = none) :
    ∃ reason, perform db now (.postCharge address amount minimum request) = (.error reason, []) := by
  rw [perform, validatedCall]
  · split_ifs
    · exact ⟨_, rfl⟩
    · exact ⟨.not_found, by simp only [handleCall, getAccount2_of_serving hserving, h]⟩
  · simp

lemma charge_accepted_iff (hdb : db.Balanced) (hserving : db.Serving) :
    (∃ transaction, (respond db now (.postCharge address amount minimum request)).1 = .transaction transaction) ↔
      ∃ account, (db.store address).account = some account ∧ requestLabel request ≠ none ∧ 0 ≤ amount ∧
        minimum ≤ account.balance - amount := by
  cases hacc : (db.store address).account with
  | none =>
    obtain ⟨reason, hperform⟩ := perform_postCharge_none now amount minimum request hserving hacc
    simp [respond, hperform]
  | some account =>
    rw [respond_eq, perform_postCharge hdb hserving hacc]
    cases hpost : postRequestTransaction db now account amount minimum request with
    | mk reply writes =>
    constructor
    · rintro ⟨transaction, h⟩
      obtain ⟨⟨reason, rfl⟩, -⟩ | ⟨label, hlabel, hamount, hfunds, -⟩ := postRequestTransaction_cases hpost
      · cases h
      · exact ⟨account, rfl, by rw [hlabel]; simp, hamount, hfunds⟩
    · rintro ⟨_, ⟨⟩, hlabel, hamount, hfunds⟩
      obtain ⟨label, hlabel⟩ := Option.ne_none_iff_exists'.mp hlabel
      have hdefined : request ≠ .undefined := by
        rintro rfl
        cases hlabel
      rw [postRequestTransaction, if_neg hdefined, if_neg (by omega), if_neg (by omega)] at hpost
      simp only [hlabel] at hpost
      obtain ⟨t, ht⟩ := postTransaction_reply db now account (getNextId account) (-amount) (.binary label)
      rw [hpost] at ht
      exact ⟨t, ht⟩

lemma handled_of_respond {call : Call} (hperform : perform db now call = validatedCall db now call)
    (h : respond db now call = (.transaction transaction, db')) :
    ∃ writes, handleCall db now call = (.transaction transaction, writes) ∧ db' = writes.foldl Db.apply db := by
  cases hvalid : validatedCall db now call with
  | mk reply writes =>
  rw [respond_eq, hperform, hvalid] at h
  obtain ⟨rfl, rfl⟩ := Prod.mk.inj h
  obtain ⟨-, hcall⟩ | herror := validatedCall_cases call hvalid
  · exact ⟨writes, hcall, rfl⟩
  · cases herror

lemma charge_adds (hdb : db.Balanced)
    (h : respond db now (.postCharge address amount minimum request) = (.transaction transaction, db')) :
    Adds db db' address transaction ∧ transaction.amount = -amount := by
  obtain ⟨writes, hcall, rfl⟩ := handled_of_respond rfl h
  simp only [handleCall] at hcall
  split at hcall
  · cases (Prod.mk.inj hcall).1
  · rename_i account hget
    obtain ⟨⟨reason, hreply⟩, -⟩ | ⟨label, -, -, -, hposted⟩ := postRequestTransaction_cases hcall
    · cases hreply
    · have hfree := hdb.next_free (getAccount2_eq_some hget).2
      obtain ⟨t, hreply, -, hamount, hadds⟩ := adds_post hdb hget hfree hposted.symm
      cases hreply
      exact ⟨hadds, hamount⟩

lemma reversal_accepted_iff (hdb : db.Balanced) (hserving : db.Serving) {id : Term} :
    (∃ transaction, (respond db now (.reverseTransaction address id)).1 = .transaction transaction) ↔
      (db.store address).account ≠ none ∧ (db.store address).transactions.lookup id ≠ none := by
  rw [respond_eq]
  cases hlookup : (db.store address).transactions.lookup id with
  | none =>
    have hnone : getTransaction2 db address id = none := by simp [getTransaction2, hlookup]
    have herror : ∃ reason, (perform db now (.reverseTransaction address id)).1 = .error reason := by
      rw [perform, validatedCall]
      · split_ifs
        · exact ⟨_, rfl⟩
        · exact ⟨.not_found, by simp only [handleCall, hnone]; split <;> simp_all⟩
      · simp
    obtain ⟨reason, herror⟩ := herror
    simp [herror]
  | some reversed =>
    obtain ⟨account, hacc⟩ := hdb.stored_of_lookup hlookup
    have ho := hserving address (by rw [hacc]; simp)
    have hperform : perform db now (.reverseTransaction address id) =
        postReverseTransaction db now account reversed := by
      rw [perform, validatedCall_eq (hdb.ne_nil hacc) rfl]
      · simp only [handleCall, getAccount2_of_serving hserving, hacc, getTransaction2, if_pos ho, hlookup]
      · simp
    obtain ⟨t, ht⟩ := postTransaction_reply db now account (getNextId account) (-reversed.amount)
      (.binary (reverseLabel ++ binaryId reversed.id))
    simp [hperform, postReverseTransaction, ht, hacc]

lemma reversal_adds (hdb : db.Balanced) {id : Term}
    (h : respond db now (.reverseTransaction address id) = (.transaction transaction, db')) :
    Adds db db' address transaction ∧ ∃ reversed, (db.store address).transactions.lookup id = some reversed ∧
      transaction.amount = -reversed.amount := by
  obtain ⟨writes, hcall, rfl⟩ := handled_of_respond rfl h
  simp only [handleCall] at hcall
  split at hcall
  · rename_i account reversed hget hreversed
    have hfree := hdb.next_free (getAccount2_eq_some hget).2
    obtain ⟨t, hreply, -, hamount, hadds⟩ := adds_post hdb hget hfree hcall
    cases hreply
    refine ⟨hadds, reversed, ?_, hamount⟩
    rw [getTransaction2, if_pos (getAccount2_eq_some hget).1] at hreversed
    exact hreversed
  · cases (Prod.mk.inj hcall).1

/-- Every account sums its transactions up, and every call does what its reply says. -/
structure Db.Consistent (db : Db) : Prop where
  account : ∀ address account, (db.store address).account = some account →
    account.balance = (db.store address).transactions.sum (·.amount) ∧
    account.count = (db.store address).transactions.size
  created : ∀ now address publicKey, address ≠ [] → (db.store address).account = none →
    ∃ db', respond db now (.getOrCreateAccount address publicKey arweaveAR) =
        (.account ⟨address, publicKey, arweaveAR, 0, 0, now⟩, db') ∧
      db'.store address = ⟨some ⟨address, publicKey, arweaveAR, 0, 0, now⟩, .empty⟩ ∧
      ∀ other, other ≠ address → db'.store other = db.store other
  known : ∀ now address publicKey account, (db.store address).account = some account →
    respond db now (.getOrCreateAccount address publicKey arweaveAR) =
      (if account.publicKey = publicKey ∧ account.asset = arweaveAR then .account account
        else .error .account_mismatch, db)
  deposited : ∀ now address account amount txid id, (db.store address).account = some account → 0 < amount →
    txid.term = some id → (db.store address).transactions.lookup id = none →
    ∃ transaction db', respond db now (.postDeposit address amount txid) = (.transaction transaction, db') ∧
      transaction.id = id ∧ transaction.amount = amount ∧ Adds db db' address transaction
  -- The amount of a repeated deposit is checked before its id.
  repeated : ∀ now address amount txid id transaction, txid.term = some id →
    (db.store address).transactions.lookup id = some transaction →
    respond db now (.postDeposit address amount txid) =
      (if 0 < amount then .transaction transaction else .error .invalid_amount, db)
  charge : ∀ now address amount minimum request,
    (∃ transaction, (respond db now (.postCharge address amount minimum request)).1 = .transaction transaction) ↔
      ∃ account, (db.store address).account = some account ∧ requestLabel request ≠ none ∧ 0 ≤ amount ∧
        minimum ≤ account.balance - amount
  charged : ∀ now address amount minimum request transaction db',
    respond db now (.postCharge address amount minimum request) = (.transaction transaction, db') →
      Adds db db' address transaction ∧ transaction.amount = -amount
  reversal : ∀ now address id,
    (∃ transaction, (respond db now (.reverseTransaction address id)).1 = .transaction transaction) ↔
      (db.store address).account ≠ none ∧ (db.store address).transactions.lookup id ≠ none
  reversed : ∀ now address id transaction db',
    respond db now (.reverseTransaction address id) = (.transaction transaction, db') →
      Adds db db' address transaction ∧ ∃ reversed, (db.store address).transactions.lookup id = some reversed ∧
        transaction.amount = -reversed.amount
  rejected : ∀ now call reason db', respond db now call = (.error reason, db') → db' = db

/-- After any calls the ledger is consistent: accounts are created and first deposits recorded, a recorded
deposit is returned as it is, a charge is accepted when it is valid and covered and a reversal when the
transaction is stored, each of them adds one transaction, and a rejected call changes nothing. -/
theorem ledger_consistent (calls : List (Nat × Call)) : (run calls).Consistent := by
  obtain ⟨hdb, hserving⟩ := run_balanced calls
  constructor
  case account =>
    intro address account hacc
    exact ((hdb.store address).account account hacc).2
  case created =>
    intro now address publicKey
    exact respond_create hdb hserving
  case known =>
    intro now address publicKey account
    exact respond_known hdb hserving
  case deposited =>
    intro now address account amount txid id
    exact deposit_adds hdb hserving
  case repeated =>
    intro now address amount txid id transaction
    exact respond_recorded hdb hserving
  case charge =>
    intro now address amount minimum request
    exact charge_accepted_iff hdb hserving
  case charged =>
    intro now address amount minimum request transaction db'
    exact charge_adds hdb
  case reversal =>
    intro now address id
    exact reversal_accepted_iff hdb hserving
  case reversed =>
    intro now address id transaction db'
    exact reversal_adds hdb
  case rejected =>
    intro now call reason db'
    exact rejected_unchanged

def sampleRequest : Request := .map (some (.bitstring [71, 69, 84])) (some (.bitstring [47]))

/-- A deposit of ten, a charge of four, and the reversal of the charge. -/
def sampleCalls : List (Nat × Call) :=
  [(1, .getOrCreateAccount [1] (.rsa, [2]) arweaveAR), (2, .postDeposit [1] 10 (.binary [7])),
    (3, .postCharge [1] 4 0 sampleRequest), (4, .reverseTransaction [1] (.number 2))]

theorem ledger_consistent_sample :
    (((run sampleCalls).store [1]).transactions.sum (·.amount) = 10 ∧
      ((run sampleCalls).store [1]).transactions.size = 3) ∧
    (∃ db', respond (run sampleCalls) 5 (.getOrCreateAccount [3] (.rsa, [4]) arweaveAR) =
      (.account ⟨[3], (.rsa, [4]), arweaveAR, 0, 0, 5⟩, db')) ∧
    respond (run sampleCalls) 5 (.postDeposit [1] 3 (.binary [7])) =
      (.transaction ⟨.binary [7], [1], 10, .binary [7], 2⟩, run sampleCalls) ∧
    respond (run sampleCalls) 5 (.postDeposit [1] 0 (.binary [7])) = (.error .invalid_amount, run sampleCalls) ∧
    (∃ transaction db', respond (run sampleCalls) 5 (.postDeposit [1] 3 (.binary [8])) =
      (.transaction transaction, db') ∧ Adds (run sampleCalls) db' [1] transaction) ∧
    ∃ transaction db', respond (run sampleCalls) 5 (.reverseTransaction [1] (.number 3)) =
      (.transaction transaction, db') ∧ Adds (run sampleCalls) db' [1] transaction := by
  have h := ledger_consistent sampleCalls
  have hacc : ((run sampleCalls).store [1]).account = some ⟨[1], (.rsa, [2]), arweaveAR, 10, 3, 1⟩ := by
    decide
  have hdeposit : ((run sampleCalls).store [1]).transactions.lookup (.binary [7]) =
      some ⟨.binary [7], [1], 10, .binary [7], 2⟩ := by decide
  refine ⟨?_, ?_, ?_, ?_, ?_, ?_⟩
  · obtain ⟨hbalance, hcount⟩ := h.account [1] _ hacc
    exact ⟨hbalance.symm, hcount.symm⟩
  · obtain ⟨db', hcreate, -, -⟩ := h.created 5 [3] (.rsa, [4]) (by decide) (by decide)
    exact ⟨db', hcreate⟩
  · exact h.repeated 5 [1] 3 (.binary [7]) _ _ rfl hdeposit
  · exact h.repeated 5 [1] 0 (.binary [7]) _ _ rfl hdeposit
  · obtain ⟨transaction, db', hreply, -, -, hadds⟩ :=
      h.deposited 5 [1] _ 3 (.binary [8]) _ hacc (by decide) rfl (by decide)
    exact ⟨transaction, db', hreply, hadds⟩
  · obtain ⟨transaction, hreply⟩ := (h.reversal 5 [1] (.number 3)).mpr ⟨by simp [hacc], by decide⟩
    refine ⟨transaction, (respond (run sampleCalls) 5 (.reverseTransaction [1] (.number 3))).2, ?_, ?_⟩
    · rw [← hreply]
    · exact (h.reversed 5 [1] (.number 3) transaction _ (by rw [← hreply])).1

end Calls

end Arweave.P3

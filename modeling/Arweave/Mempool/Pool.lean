import Mathlib.Data.Prod.Lex
import Arweave.Lib.Groups
import Arweave.Lib.Table
import Arweave.Tx.Verify

/-!
# Mempool

The transactions that wait for a block, as in `ar_mempool`, with the indices that are kept
beside them. A new transaction evicts the ones that cannot be confirmed any more and, in a
mempool that is too large, the ones with the lowest priority. A crash of the source is `none`.
-/

namespace Arweave.Mempool
open Arweave.Lib Arweave.Tx Arweave.Ledger

-- Tuples are compared element by element.

abbrev Utility := Nat ×ₗ Int

/-- The utility and the time of arrival. -/
abbrev Priority := Utility ×ₗ Int

/-- The statuses that the node gives. Atoms are compared by their names. -/
inductive Status where
  | readyForMining
  | waiting
  deriving DecidableEq, Repr

instance : LinearOrder Status :=
  LinearOrder.lift' (fun | .readyForMining => (0 : Nat) | .waiting => 1) (by
    intro a b h
    cases a <;> cases b <;> simp at h <;> rfl)

/-- What is stored of a transaction. The timestamp is the time of arrival with its sign changed. -/
structure TxMetadata (σ : Type) where
  tx : TX
  status : σ
  timestamp : Int
  deriving DecidableEq, Repr

structure Pool (σ : Type) [LinearOrder σ] where
  txs : SortedMap Bytes (TxMetadata σ) := .empty
  mempoolSize : Int × Int := (0, 0)
  prioritySet : OrdSet (Priority ×ₗ Bytes ×ₗ σ) := .empty
  propagationQueue : OrdSet (Priority ×ₗ Bytes) := .empty
  lastTxMap : SortedMap Bytes (OrdSet (Utility ×ₗ Bytes)) := .empty
  originTxMap : SortedMap Bytes (OrdSet (Utility ×ₗ Bytes)) := .empty

/-- What additions read outside of the mempool. -/
structure Node where
  joined : Bool
  accounts : Accounts
  denomination : Nat

/-- `ar_wallets:get/1` -/
def Node.wallets (node : Node) (addresses : List Bytes) : Accounts :=
  node.accounts.filterKeys (· ∈ addresses)

def headerSizeLimit : Int := 250 * 1024 * 1024

def dataSizeLimit : Int := 500 * 1024 * 1024

def priority (tx : TX) (timestamp : Int) : Priority := toLex (toLex (utility tx), timestamp)

def unconfirmedTx (tx : TX) : Utility ×ₗ Bytes := toLex (toLex (utility tx), tx.id)

/-- The data of version one belongs to the header. -/
def txMempoolSize (tx : TX) : Option (Int × Int) :=
  if tx.format = 1 then some (txSizeBase + tx.data.length, 0)
  else if tx.format = 2 then some (txSizeBase, tx.data.length)
  else none

def increaseMempoolSize (size : Int × Int) (tx : TX) : Option (Int × Int) := do
  let (headerSize, dataSize) ← txMempoolSize tx
  some (size.1 + headerSize, size.2 + dataSize)

def decreaseMempoolSize (size : Int × Int) (tx : TX) : Option (Int × Int) := do
  let (headerSize, dataSize) ← txMempoolSize tx
  some (size.1 - headerSize, size.2 - dataSize)

section Pool

variable {σ : Type} [LinearOrder σ]

def getTx (m : Pool σ) (id : Bytes) : Option TX := (m.txs.lookup id).map TxMetadata.tx

def addToPrioritySet (set : OrdSet (Priority ×ₗ Bytes ×ₗ σ)) (tx : TX) (status : σ) (timestamp : Int) :
    OrdSet (Priority ×ₗ Bytes ×ₗ σ) :=
  set.add (toLex (priority tx timestamp, toLex (tx.id, status)))

def delFromPrioritySet (set : OrdSet (Priority ×ₗ Bytes ×ₗ σ)) (tx : TX) (status : σ) (timestamp : Int) :
    OrdSet (Priority ×ₗ Bytes ×ₗ σ) :=
  set.erase (toLex (priority tx timestamp, toLex (tx.id, status)))

def addToPropagationQueue (queue : OrdSet (Priority ×ₗ Bytes)) (tx : TX) (timestamp : Int) :
    OrdSet (Priority ×ₗ Bytes) :=
  queue.add (toLex (priority tx timestamp, tx.id))

def delFromPropagationQueue (queue : OrdSet (Priority ×ₗ Bytes)) (tx : TX) (timestamp : Int) :
    OrdSet (Priority ×ₗ Bytes) :=
  queue.erase (toLex (priority tx timestamp, tx.id))

def addToLastTxMap (map : SortedMap Bytes (OrdSet (Utility ×ₗ Bytes))) (tx : TX) :
    SortedMap Bytes (OrdSet (Utility ×ₗ Bytes)) :=
  map.addTo tx.lastTx (unconfirmedTx tx)

def delFromLastTxMap (map : SortedMap Bytes (OrdSet (Utility ×ₗ Bytes))) (tx : TX) :
    SortedMap Bytes (OrdSet (Utility ×ₗ Bytes)) :=
  map.delFrom tx.lastTx (unconfirmedTx tx)

def addToOriginTxMap (map : SortedMap Bytes (OrdSet (Utility ×ₗ Bytes))) (tx : TX) :
    SortedMap Bytes (OrdSet (Utility ×ₗ Bytes)) :=
  map.addTo tx.address (unconfirmedTx tx)

def delFromOriginTxMap (map : SortedMap Bytes (OrdSet (Utility ×ₗ Bytes))) (tx : TX) :
    SortedMap Bytes (OrdSet (Utility ×ₗ Bytes)) :=
  map.delFrom tx.address (unconfirmedTx tx)

/-- The first half of `add_tx`. A transaction that is stored changes its status only, and it
has to be the same record. -/
def storeTx (m : Pool σ) (time : Int) (tx : TX) (status : σ) : Option (Pool σ) :=
  match m.txs.lookup tx.id with
  | none => do
    let timestamp := -time
    let size ← increaseMempoolSize m.mempoolSize tx
    some {
      txs := m.txs.insert tx.id ⟨tx, status, timestamp⟩
      mempoolSize := size
      prioritySet := addToPrioritySet m.prioritySet tx status timestamp
      propagationQueue := addToPropagationQueue m.propagationQueue tx timestamp
      lastTxMap := addToLastTxMap m.lastTxMap tx
      originTxMap := addToOriginTxMap m.originTxMap tx }
  | some ⟨stored, prevStatus, timestamp⟩ =>
    if stored = tx then
      some { m with
        txs := m.txs.insert tx.id ⟨tx, status, timestamp⟩
        prioritySet := addToPrioritySet (delFromPrioritySet m.prioritySet tx prevStatus timestamp) tx status timestamp }
    else none

/-- A transaction is looked up by its identifier. Everything else is read from the argument. -/
def dropTx (m : Pool σ) (tx : TX) : Option (Pool σ) :=
  match m.txs.lookup tx.id with
  | none => some m
  | some ⟨_, status, timestamp⟩ => do
    let size ← decreaseMempoolSize m.mempoolSize tx
    some {
      txs := m.txs.erase tx.id
      mempoolSize := size
      prioritySet := delFromPrioritySet m.prioritySet tx status timestamp
      propagationQueue := delFromPropagationQueue m.propagationQueue tx timestamp
      lastTxMap := delFromLastTxMap m.lastTxMap tx
      originTxMap := delFromOriginTxMap m.originTxMap tx }

def dropTxs (m : Pool σ) (txs : List TX) : Option (Pool σ) := txs.foldlM dropTx m

def toTxs (m : Pool σ) (ids : List (Utility ×ₗ Bytes)) : Option (List TX) :=
  ids.mapM fun e => getTx m (ofLex e).2

/-- All but the largest. -/
def filterClashingTxs (m : Pool σ) (ids : OrdSet (Utility ×ₗ Bytes)) : Option (List TX) :=
  match ids.last with
  | none => some []
  | some e => toTxs m (ids.erase e).elems

def findClashingTxs (node : Node) (m : Pool σ) (tx : TX) : Option (List TX) :=
  if tx.lastTx = [] then some []
  else if checkLastTx (node.wallets [tx.address, tx.target]) tx then
    filterClashingTxs m (m.lastTxMap.group tx.lastTx)
  else some []

/-- Accounts with a denomination and a permission have four fields, and no clause looks at
their balance. -/
def isOverspent (origin : Bytes) (wallet : Accounts) : Bool :=
  match wallet.lookup origin with
  | none => true
  | some (.pair quantity _) => quantity < 0
  | some (.quad _ _ _ _) => false

/-- The set is taken apart from its largest element, as the descending list. The first
transaction that overspends is dropped with all the remaining ones. -/
def findOverspentTxsFrom (m : Pool σ) (origin : Bytes) (denomination : Nat) :
    List (Utility ×ₗ Bytes) → Accounts → Option (List TX)
  | [], _ => some []
  | e :: ids, wallet => do
    let tx ← getTx m (ofLex e).2
    let wallet2 ← applyTx wallet denomination tx
    if isOverspent origin wallet2 then do
      let remaining ← toTxs m ids.reverse
      some (tx :: remaining)
    else findOverspentTxsFrom m origin denomination ids wallet2

def findOverspentTxs (node : Node) (m : Pool σ) (tx : TX) : Option (List TX) :=
  if 0 < tx.reward ∨ 0 < tx.quantity then
    findOverspentTxsFrom m tx.address node.denomination (m.originTxMap.group tx.address).elems.reverse
      (node.wallets [tx.address])
  else some []

def shouldDropLowPriorityTx (tx : TX) (size : Int × Int) : Bool :=
  if headerSizeLimit < size.1 then true
  else if dataSizeLimit < size.2 then tx.format = 2 && 0 < tx.data.length
  else false

/-- The iterator must not end before the sizes are within the limits. -/
def findLowPriorityTxsFrom (m : Pool σ) : List (Priority ×ₗ Bytes ×ₗ σ) → Int × Int → Option (List TX)
  | [], size => if headerSizeLimit < size.1 ∨ dataSizeLimit < size.2 then none else some []
  | e :: elems, size =>
    if headerSizeLimit < size.1 ∨ dataSizeLimit < size.2 then do
      let tx ← getTx m (ofLex (ofLex e).2).1
      if shouldDropLowPriorityTx tx size then do
        let size2 ← decreaseMempoolSize size tx
        let txs ← findLowPriorityTxsFrom m elems size2
        some (tx :: txs)
      else findLowPriorityTxsFrom m elems size
    else some []

def findLowPriorityTxs (m : Pool σ) : Option (List TX) :=
  findLowPriorityTxsFrom m m.prioritySet.elems m.mempoolSize

/-- The evictions of `add_tx` happen on a node that has joined the network. -/
def addTx (node : Node) (time : Int) (m : Pool σ) (tx : TX) (status : σ) : Option (Pool σ) := do
  let m1 ← storeTx m time tx status
  if node.joined then do
    let clashing ← findClashingTxs node m1 tx
    let m2 ← dropTxs m1 clashing
    let overspent ← findOverspentTxs node m2 tx
    let m3 ← dropTxs m2 overspent
    let low ← findLowPriorityTxs m3
    dropTxs m3 low
  else some m1

end Pool

end Arweave.Mempool

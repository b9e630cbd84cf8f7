import Mathlib.Data.Sum.Order
import Arweave.Intervals.EtsTable
import Arweave.Lib.Prefix

/-!
# The transaction blacklist

The lists of a node name transactions and ranges of bytes. The server keeps a table of their entries and takes the
data of one entry after another down. The blacklisted bytes are in one table of intervals, which does not say what
entries they come from.
-/

namespace Arweave.TxBlacklist

open Lib

/-- The bytes after `start` up to `endOffset`. The lists name no empty range, and no indexed transaction is empty. -/
@[ext]
structure Range where
  endOffset : Int
  start : Int
  lt : start < endOffset
  deriving DecidableEq

def Range.bytes (r : Range) : Set Int := Set.Ioc r.start r.endOffset

inductive Item where
  | tx (id : Bytes)
  | range (range : Range)

def Item.key : Item → Bytes ⊕ₗ (Int ×ₗ Int)
  | .tx id => toLex (.inl id)
  | .range r => toLex (.inr (toLex (r.endOffset, r.start)))

lemma Item.key_injective : Function.Injective Item.key := by
  intro item item' h
  have h' := toLex.injective h
  cases item with
  | tx id =>
    cases item' with
    | tx id' => rw [Sum.inl.inj h']
    | range range' => cases h'
  | range r =>
    cases item' with
    | tx id' => cases h'
    | range r' =>
      obtain ⟨hend, hstart⟩ := Prod.mk.inj (toLex.injective (Sum.inr.inj h'))
      rw [Range.ext hend hstart]

instance instLinearOrderItem : LinearOrder Item := LinearOrder.lift' Item.key Item.key_injective

/-- The tables of the server and its dictionary of requested removals. The entry of a transaction has its offsets, when
they are known. -/
structure State where
  blacklist : SortedMap Item (Option Range) := SortedMap.empty
  pendingHeaders : OrdSet Bytes := OrdSet.empty
  pendingData : OrdSet Item := OrdSet.empty
  offsets : EtsIntervals.Table := SortedMap.empty
  pendingRestoreHeaders : OrdSet Bytes := OrdSet.empty
  requests : SortedMap Nat (Item × Range) := SortedMap.empty
  nextRef : Nat := 0

/-- What the server asks `ar_data_sync` for. -/
inductive Effect where
  | requestDataRemoval (range : Range) (ref : Nat)
  | requestTxDataRemoval (id : Bytes) (ref : Nat)

/-- What the server finds out. A table without an order begins with any of its keys. -/
structure Answers where
  first : Item
  txOffset : Bytes → Option Range

def etsFirst (first : Item) (table : OrdSet Item) : Option Item := if first ∈ table then some first else table.smallest

def restoreOffsets (range : Range) (s : State) : Option State :=
  (EtsIntervals.delete s.offsets range.endOffset range.start).map fun offsets => { s with offsets := offsets }

def requestRemoval (ref : Nat) : Item → Effect
  | .tx id => .requestTxDataRemoval id ref
  | .range range => .requestDataRemoval range ref

def blacklistOffsets (item : Item) (range : Range) (s : State) : Option (State × List Effect) :=
  (EtsIntervals.add s.offsets range.endOffset range.start).map fun offsets =>
    ({ s with offsets := offsets, requests := s.requests.insert s.nextRef (item, range), nextRef := s.nextRef + 1 },
      [requestRemoval s.nextRef item])

def requestDataTakedown (answers : Answers) (s : State) : Option (State × List Effect) :=
  match etsFirst answers.first s.pendingData with
  | none => some (s, [])
  | some (.tx id) =>
    match s.blacklist.lookup (.tx id) with
    | some none =>
      match answers.txOffset id with
      | some range => blacklistOffsets (.tx id) range { s with blacklist := s.blacklist.insert (.tx id) (some range) }
      | none => some ({ s with pendingData := s.pendingData.erase (.tx id), blacklist := s.blacklist.erase (.tx id) }, [])
    | some (some range) => blacklistOffsets (.tx id) range s
    | none => none
  | some (.range range) => blacklistOffsets (.range range) range s

/-- An entry that the lists have and the table has not. -/
def removeItem (s : State) : Item → State
  | .tx id => { s with
      blacklist := s.blacklist.insert (.tx id) none
      pendingHeaders := s.pendingHeaders.add id
      pendingData := s.pendingData.add (.tx id)
      pendingRestoreHeaders := s.pendingRestoreHeaders.erase id }
  | .range range => { s with
      blacklist := s.blacklist.insert (.range range) none
      pendingData := s.pendingData.add (.range range) }

/-- An entry that is to leave the table. -/
def restoreItem (s : State) : Item → Option State
  | .tx id => do
    let s := { s with pendingRestoreHeaders := s.pendingRestoreHeaders.add id }
    let s ← match s.blacklist.lookup (.tx id) with
      | some none => some s
      | some (some range) => restoreOffsets range s
      | none => none
    some { s with
      blacklist := s.blacklist.erase (.tx id)
      pendingData := s.pendingData.erase (.tx id)
      pendingHeaders := s.pendingHeaders.erase id }
  | .range range => (restoreOffsets range s).map fun s => { s with
      blacklist := s.blacklist.erase (.range range)
      pendingData := s.pendingData.erase (.range range) }

/-- The entries of the lists that are not in the table. A range is looked up in no whitelist. -/
def removed (whitelist blacklist : OrdSet Item) (s : State) : List Item :=
  blacklist.elems.filter fun
    | .tx id => .tx id ∉ whitelist ∧ s.blacklist.lookup (.tx id) = none
    | .range range => s.blacklist.lookup (.range range) = none

def restored (whitelist blacklist : OrdSet Item) (s : State) : List Item :=
  (s.blacklist.entries.map (·.1)).filter fun item => item ∈ whitelist ∨ item ∉ blacklist

def refreshBlacklist (whitelist blacklist : OrdSet Item) (s : State) : Option State :=
  (restored whitelist blacklist s).foldlM restoreItem ((removed whitelist blacklist s).foldl removeItem s)

inductive Message where
  | refreshBlacklist (whitelist blacklist : OrdSet Item)
  | requestDataTakedown (answers : Answers)
  | orphanedTx (id : Bytes)
  | addedTx (id : Bytes) (range : Range) (answers : Answers)
  | removedRange (ref : Nat) (answers : Answers)

/-- The messages of the server, and the takedown of data, which it starts again and again. -/
def handle (s : State) : Message → Option (State × List Effect)
  | .refreshBlacklist whitelist blacklist => (refreshBlacklist whitelist blacklist s).map fun s => (s, [])
  | .requestDataTakedown answers => requestDataTakedown answers s
  | .orphanedTx id =>
    match s.blacklist.lookup (.tx id) with
    | some (some range) =>
      (restoreOffsets range s).map fun s => ({ s with blacklist := s.blacklist.insert (.tx id) none }, [])
    | _ => some (s, [])
  | .addedTx id range answers =>
    let add (s : State) : State := { s with
      blacklist := s.blacklist.insert (.tx id) (some range)
      pendingData := s.pendingData.add (.tx id) }
    match s.blacklist.lookup (.tx id) with
    | some none => requestDataTakedown answers (add s)
    | some (some current) => (restoreOffsets current s).bind fun s => requestDataTakedown answers (add s)
    | none => some (s, [])
  | .removedRange ref answers =>
    match s.requests.lookup ref with
    | none => some (s, [])
    | some (item, range) =>
      let s := { s with requests := s.requests.erase ref }
      let present : Bool := match item with
        | .tx _ => s.blacklist.lookup item = some (some range)
        | .range _ => s.blacklist.lookup item = some none
      if present then requestDataTakedown answers { s with pendingData := s.pendingData.erase item }
      else some (s, [])

end Arweave.TxBlacklist

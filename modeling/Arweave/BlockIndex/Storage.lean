import Arweave.BlockIndex.Updates

/-!
# The block index on disk

`ar_storage` keeps an entry for every height under the key `<< Height:256 >>`, with the hash of
the previous block. Writes of the database are taken to succeed; `delete_range` fails when its
start is above its end. The largest height is looked up below the key `<<"a">>`.
-/

namespace Arweave.BlockIndex

open Lib

/-- The stored term `{H, WeaveSize, TXRoot, PrevH}`. -/
structure Stored where
  h : Bytes
  weaveSize : Nat
  txRoot : Bytes
  prevH : Bytes
  deriving DecidableEq

abbrev Db := SortedMap Nat Stored

/-- The key `<< Height:256 >>` as a number. -/
def key (height : Int) : Nat := (height % 2 ^ 256).toNat

/-- The keys below `<<"a">>` are those whose first byte is below 97. -/
def keyLimit : Nat := 97 * 2 ^ 248

def Element.stored (e : Element) (prevH : Bytes) : Stored := ⟨e.h, e.weaveSize, e.txRoot, prevH⟩

def Stored.element (v : Stored) : Element := ⟨v.h, v.weaveSize, v.txRoot⟩

/-- The walk up to the last height, with the number of heights that are left. -/
def readBlockIndexFromMap (map : Db) : Nat → Nat → Bytes → List Element → Option (List Element)
  | 0, _, _, bi => some bi
  | n + 1, height, prevH, bi =>
    match map.lookup (key height) with
    | none => none
    | some v =>
      if v.prevH = prevH then readBlockIndexFromMap map n (height + 1) v.h (v.element :: bi) else none

def readBlockIndex (db : Db) : Option (List Element) :=
  match db.prev (keyLimit - 1) with
  | none => none
  | some (height, v) =>
    let map := (db.filterKeys (· ≤ key (height - 1))).insert height v
    readBlockIndexFromMap map (height + 1) 0 [] []

/-- Removal of the keys from the first one on and below the second one. -/
def deleteRange (db : Db) (first last : Nat) : Option Db :=
  if last < first then none else some (db.filterKeys fun k => ¬(first ≤ k ∧ k < last))

def updateBlockIndex2 (db : Db) : Int → Bytes → List Element → Db
  | _, _, [] => db
  | height, prevH, e :: bi => updateBlockIndex2 (db.insert (key height) (e.stored prevH)) (height + 1) e.h bi

inductive Reply where
  | ok
  | notFound
  | error
  deriving DecidableEq

def updateBlockIndex (db : Db) (tipHeight orphanCount : Nat) (bi : List Element) : Db × Reply :=
  let orphanHeight : Int := tipHeight - orphanCount + 1
  let indexHeight : Int := tipHeight - max 0 ((orphanCount : Int) - 1)
  match deleteRange db (key orphanHeight) (key (tipHeight + 1)) with
  | none => (db, .error)
  | some db =>
    if indexHeight = 0 then (updateBlockIndex2 db 0 [] bi, .ok)
    else
      match db.lookup (key (indexHeight - 1)) with
      | none => (db, .notFound)
      | some v => (updateBlockIndex2 db indexHeight v.h bi, .ok)

/-- The block index of a node, on disk and in memory with the oldest element first. -/
structure NodeIndex where
  db : Db
  index : List Element

/-- A change of the tip as `ar_node_worker` stores it: new blocks, the oldest first, on a block of
the current chain, with the number of the orphaned blocks above it. -/
def tipChange (s : NodeIndex) (op : Update) : Option NodeIndex :=
  if op.1 = [] then none
  else
    (updateList s.index op.1 op.2).map fun index =>
      ⟨(updateBlockIndex s.db (index.length - 1) op.2 op.1).1, index⟩

section Keys

variable {n : Nat}

lemma keyLimit_lt : 2 * keyLimit < 2 ^ 256 := by decide

lemma key_natCast (hn : n < 2 ^ 256) : key n = n := by
  rw [key, Int.emod_eq_of_lt (Int.natCast_nonneg n) (by exact_mod_cast hn), Int.toNat_natCast]

end Keys

end Arweave.BlockIndex

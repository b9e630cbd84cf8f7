import Mathlib.Data.Prod.Lex
import Arweave.Lib.Table
import Arweave.Lib.Prefix

/-!
# The block index

`ar_block_index` keeps the block index in an ordered table whose keys start with the weave size.
Its queries walk the table with `next` and `prev`, or start from its slot for a height. A key
`{Offset, n, n, n}` lies between the entries up to the offset and those above it, because atoms
are above numbers. A walk that would start over or end without a clause is `none`.
-/

namespace Arweave.BlockIndex

open Lib

/-- The triplet `{H, WeaveSize, TXRoot}`. -/
structure Element where
  h : Bytes
  weaveSize : Nat
  txRoot : Bytes
  deriving DecidableEq

/-- A key of the table. -/
@[ext]
structure Entry where
  weaveSize : Nat
  height : Nat
  h : Bytes
  txRoot : Bytes
  deriving DecidableEq

/-- The components of a key in the order in which keys are compared. -/
def Entry.key (e : Entry) : Nat ×ₗ Nat ×ₗ Bytes ×ₗ Bytes :=
  toLex (e.weaveSize, toLex (e.height, toLex (e.h, e.txRoot)))

lemma Entry.key_injective : Function.Injective Entry.key := by
  rintro ⟨weaveSize, height, h, txRoot⟩ ⟨weaveSize', height', h', txRoot'⟩ heq
  injection heq with hw heq
  injection heq with hheight heq
  injection heq with hh htx
  subst hw hheight hh htx
  rfl

instance : LinearOrder Entry := LinearOrder.lift' Entry.key Entry.key_injective

def Element.entry (e : Element) (height : Nat) : Entry := ⟨e.weaveSize, height, e.h, e.txRoot⟩

def Entry.element (e : Entry) : Element := ⟨e.h, e.weaveSize, e.txRoot⟩

abbrev Table := OrdSet Entry

namespace Table

/-- The key after `{Offset, n, n, n}`. -/
def nextOffset (t : Table) (offset : Int) : Option Entry := t.elems.find? fun e => offset < e.weaveSize

/-- The object in a slot, if the slot exists. -/
def slot (t : Table) (i : Int) : Option Entry := if i < 0 then none else t.elems[i.toNat]?

/-- Insertion of elements at consecutive heights, the oldest first. -/
def insertFrom (t : Table) : List Element → Nat → Table
  | [], _ => t
  | e :: bi, height => insertFrom (t.add (e.entry height)) bi (height + 1)

def init2 (t : Table) (bi : List Element) (height : Nat) : Table := t.insertFrom bi height

def init (bi : List Element) : Table := init2 OrdSet.empty bi.reverse 0

def update2 (t : Table) (bi : List Element) (height : Nat) : Table := t.insertFrom bi height

/-- New elements need a last key to be numbered from. -/
def update (t : Table) (bi : List Element) : Nat → Option Table
  | 0 =>
    match bi, t.last with
    | [], _ => some t
    | _ :: _, some last => some (t.update2 bi (last.height + 1))
    | _ :: _, none => none
  | n + 1 =>
    match t.last with
    | some last => update (t.erase last) bi n
    | none => update t bi n

def memberLoop (t : Table) (h : Bytes) : Nat → Option Entry → Option Bool
  | _, none => some false
  | 0, some _ => none
  | n + 1, some key => if key.h = h then some true else memberLoop t h n (t.prev key)

/-- A walk over the table takes at most one step for every key. -/
def member (t : Table) (h : Bytes) : Option Bool := t.memberLoop h t.elems.length t.last

/-- The walk of `get_list` with `MaxHeight - Height` steps left. -/
def getListLoop (t : Table) : Nat → List Element → Option Entry → Int → Option (List Element)
  | 0, bi, _, _ => some bi
  | _ + 1, bi, none, _ => some bi
  | n + 1, bi, some key, height =>
    if key.height = height + 1 then getListLoop t n (key.element :: bi) (t.next key) (height + 1) else none

def getList (t : Table) (height : Int) : Option (List Element) :=
  t.getListLoop (height - -1).toNat [] t.smallest (-1)

def getListByHashLoop (t : Table) (h : Bytes) : Nat → List Element → Option Entry → Int → Option (List Element)
  | _, bi, none, _ => some bi
  | 0, _, some _, _ => none
  | n + 1, bi, some key, height =>
    if key.height = height + 1 then
      if key.h = h then some (key.element :: bi)
      else getListByHashLoop t h n (key.element :: bi) (t.next key) (height + 1)
    else none

def getListByHash (t : Table) (h : Bytes) : Option (List Element) :=
  t.getListByHashLoop h t.elems.length [] t.smallest (-1)

/-- The inner `none` is `not_found`. -/
def getElementByHeight (t : Table) (height : Int) : Option (Option Element) :=
  match t.slot height with
  | none => some none
  | some e => if e.height = height then some (some e.element) else none

def getBlockBounds (t : Table) (offset : Int) : Option (Nat × Nat × Bytes) :=
  match t.nextOffset offset with
  | none => none
  | some key =>
    if key.height = 0 then some (0, key.weaveSize, key.txRoot)
    else (t.prev key).map fun e => (e.weaveSize, key.weaveSize, key.txRoot)

/-- `get_intersection/4`, with the element of the given list that was found last. -/
def getIntersectionLoop (t : Table) : Nat → Element → List Element → Option Entry → Nat × Element
  | height, e, _, none => (height - 1, e)
  | height, e, [], some _ => (height - 1, e)
  | height, e, e' :: bi, some key =>
    if key.height = height ∧ key.h = e'.h then getIntersectionLoop t (height + 1) e' bi (t.next key)
    else (height - 1, e)

/-- `get_intersection/2`. The given list has its newest element first and its oldest one at the height. -/
def getIntersectionAt (t : Table) (height : Int) (bi : List Element) : Option (Nat × Element) :=
  if height < 0 then none
  else
    match bi.reverse with
    | [] => none
    | e :: bi =>
      match t.slot height with
      | none => none
      | some key =>
        if key.height = height ∧ key.h = e.h then
          some (t.getIntersectionLoop (height.toNat + 1) e bi (t.next key))
        else none

def getIntersection3 (t : Table) : Option Entry → List Element → Element → Element
  | some key, e' :: bi, e =>
    if key.element = e' then getIntersection3 t (t.next key) bi e' else e
  | none, _, e => e
  | some _, [], e => e

def getIntersection2 (t : Table) (h : Bytes) (weaveSize : Nat) (bi : List Element) : Nat → Option Entry → Option Element
  | _, none => none
  | 0, some _ => none
  | n + 1, some key =>
    if weaveSize < key.weaveSize then none
    else if key.weaveSize = weaveSize then
      if key.h = h then some (t.getIntersection3 (t.next key) bi ⟨h, weaveSize, key.txRoot⟩)
      else getIntersection2 t h weaveSize bi n (t.next key)
    else none

/-- `get_intersection/1`. -/
def getIntersection (t : Table) (bi : List Element) : Option Element :=
  match bi.reverse with
  | [] => none
  | e :: bi => t.getIntersection2 e.h e.weaveSize bi t.elems.length (t.nextOffset (e.weaveSize - 1))

/-- The walk of `get_range` with `End - Start + 1` elements left. -/
def getRange2 (t : Table) : Nat → Option Entry → List Element
  | 0, _ => []
  | _ + 1, none => []
  | n + 1, some key => key.element :: getRange2 t n (t.next key)

/-- `none` is `{error, invalid_start}`. -/
def getRange (t : Table) (first last : Int) : Option (List Element) :=
  if last < first then some []
  else
    match t.slot first with
    | none => none
    | some key => some (key.element :: t.getRange2 (last - first).toNat (t.next key)).reverse

end Table

end Arweave.BlockIndex

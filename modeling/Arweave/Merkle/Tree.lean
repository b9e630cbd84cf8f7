import Arweave.Merkle.Path

/-!
# Generation of Merkle trees and paths

The generator of `ar_merkle`. A tree is a flat list of nodes that is searched by
identifier; rows are built bottom-up and an odd last node is carried to the next row.
A nested list of elements becomes a subtree with zero-based offsets whose root is
flagged as rebased. `none` stands for a crash of the Erlang code.
-/

namespace Arweave.Merkle
open Arweave.Lib

/-- A leaf carries its data and a branch the identifiers of its children. -/
inductive NodeBody where
  | leaf (data : Bytes)
  | branch (left right : Bytes)
  deriving DecidableEq, Repr

/-- The record `#node`. -/
structure Node where
  id : Bytes
  body : NodeBody
  note : Nat
  max : Nat
  isRebased : Bool
  deriving DecidableEq, Repr

/-- The input of `generate_tree`: pairs of an identifier and an offset, in lists which may
be nested. -/
inductive Element where
  | leaf (data : Bytes) (offset : Nat)
  | list (elements : List Element)
  deriving Repr

def generateLeaf (H : Digest 32) (data : Bytes) (note : Nat) : Node where
  id := leafHash H data note
  body := .leaf data
  note := note
  max := note
  isRebased := false

/-- The branch over two nodes and the shift after it. -/
def generateNode (H : Digest 32) (l r : Node) (shift : Nat) : Node × Nat :=
  let lMax := if l.isRebased then shift + l.max else l.max
  let rMax := if r.isRebased then lMax + r.max else r.max
  ({ id := nodeHash H l.id r.id lMax
     body := .branch l.id r.id
     note := lMax
     max := rMax
     isRebased := false }, rMax)

def generateRow (H : Digest 32) : List Node → Nat → List Node
  | [], _ => []
  | [left], _ => [left]
  | l :: r :: rest, shift =>
    let (n, shift2) := generateNode H l r shift
    n :: generateRow H rest shift2

lemma length_generateRow (H : Digest 32) (row : List Node) (shift : Nat) :
    (generateRow H row shift).length = (row.length + 1) / 2 := by
  fun_induction generateRow H row shift with
  | case1 => rfl
  | case2 => simp
  | case3 l r rest shift n shift2 hn ih =>
    simp only [List.length_cons, ih]
    omega

/-- The empty row is never reached; on it the Erlang code does not terminate. -/
def generateAllRows (H : Digest 32) (row tree : List Node) : Option (Bytes × List Node) :=
  match row with
  | [] => none
  | [root] => some (root.id, tree)
  | l :: r :: rest =>
    let newRow := generateRow H (l :: r :: rest) 0
    generateAllRows H newRow (newRow ++ tree)
termination_by row.length
decreasing_by
  rw [length_generateRow]
  simp only [List.length_cons]
  omega

/-- `lists:keyfind` on the identifier. -/
def getNode (id : Bytes) (tree : List Node) : Option Node :=
  tree.find? (fun n => n.id = id)

def markRebased (rootID : Bytes) (n : Node) : Node :=
  if n.id = rootID then { n with isRebased := true } else n

/-- `generate_tree/3`; the stack is the queue of the nodes of the first row. -/
def generateTreeFrom (H : Digest 32) :
    List Element → List Node → List Node → Option (Bytes × List Node)
  | .list elements :: rest, stack, tree => do
    let (subRoot, subTree) ← generateTreeFrom H elements [] []
    let subTree2 := subTree.map (markRebased subRoot)
    let subRootN ← getNode subRoot subTree2
    generateTreeFrom H rest (stack ++ [subRootN]) (tree ++ subTree2)
  | .leaf data offset :: rest, stack, tree =>
    let leaf := generateLeaf H data offset
    generateTreeFrom H rest (stack ++ [leaf]) (leaf :: tree)
  | [], stack, tree =>
    match stack with
    | [] => some ([], [])
    | _ :: _ => generateAllRows H stack tree
termination_by elements => sizeOf elements

def generateTree (H : Digest 32) (elements : List Element) : Option (Bytes × List Node) :=
  generateTreeFrom H elements [] []

/-- `generate_path_parts/4`; the fuel bounds the depth. -/
def generatePathParts (tree : List Node) : Nat → Bytes → Int → Nat → Option (List Bytes)
  | 0, _, _, _ => none
  | fuel + 1, id, dest, prevNote => do
    let n ← getNode id tree
    match n.body with
    | .leaf data => some [data, noteToBinary n.note]
    | .branch left right =>
      let goLeft := dest < n.note
      let nextID := if goLeft then left else right
      let nextN ← getNode nextID tree
      let (mark, dest2) :=
        if nextN.isRebased then
          (rebaseMark, if goLeft then dest - prevNote else dest - n.note)
        else ([], dest)
      let parts ← generatePathParts tree fuel nextID dest2 n.note
      some (mark :: left :: right :: noteToBinary n.note :: parts)

/-- The path for a destination. A path visits every node of the tree at most once, so the
number of nodes is enough fuel. -/
def generatePath (id : Bytes) (dest : Int) (tree : List Node) : Option Bytes :=
  (generatePathParts tree tree.length id dest 0).map List.flatten

/-- The strings hashed for the identifier of a node. -/
def Node.strings (H : Digest 32) (n : Node) : List Bytes :=
  match n.body with
  | .leaf data => leafStrings H data n.note
  | .branch left right => nodeStrings H left right n.note

/-- The strings hashed for the identifiers of a tree. -/
def treeStrings (H : Digest 32) (tree : List Node) : List Bytes :=
  tree.flatMap (Node.strings H)

end Arweave.Merkle

import Arweave.Lib.Prefix
import Arweave.Lib.Sorted
import Arweave.DeepHash

/-!
# The Patricia tree

The tree of `ar_patricia_tree`: a flat map from key prefixes to nodes with parent pointers,
child sets, cached hashes and edge labels. The map is a function from keys to optional
nodes. `none` as a result stands for a crash of the Erlang code, or for missing fuel in the
functions that walk along pointers.
-/

namespace Arweave.Patricia
open Arweave.Lib

/-- The keys of the flat map that hold nodes. -/
inductive Key where
  | root
  | bin (bytes : Bytes)
  deriving DecidableEq, Repr

/-- A node; `parent` is `none` for `no_parent`. The suffix of the root, `no_prefix`, is
never read and is represented by the empty binary. -/
@[ext]
structure Node (V : Type) where
  parent : Option Key
  children : OrdSet Bytes
  hash : Option Bytes
  suffix : Bytes
  value : Option V
  deriving DecidableEq

/-- The flat map, with the size under its own key. -/
@[ext]
structure Tree (V : Type) where
  node : Key → Option (Node V)
  size : Nat

variable {V : Type}

namespace Tree

def put (tree : Tree V) (key : Key) (n : Node V) : Tree V :=
  { tree with node := Function.update tree.node key (some n) }

def remove (tree : Tree V) (key : Key) : Tree V :=
  { tree with node := Function.update tree.node key none }

def setSize (tree : Tree V) (size : Nat) : Tree V := { tree with size := size }

variable {tree : Tree V} {key j : Key} {n : Node V} {m : Nat}

@[simp] lemma put_node : (tree.put key n).node j = if j = key then some n else tree.node j :=
  Function.update_apply _ _ _ _

@[simp] lemma put_size : (tree.put key n).size = tree.size := rfl

@[simp] lemma remove_node : (tree.remove key).node j = if j = key then none else tree.node j :=
  Function.update_apply _ _ _ _

@[simp] lemma remove_size : (tree.remove key).size = tree.size := rfl

@[simp] lemma setSize_node : (tree.setSize m).node j = tree.node j := rfl

@[simp] lemma setSize_size : (tree.setSize m).size = m := rfl

end Tree

def new : Tree V where
  node
    | .root => some ⟨none, .empty, none, [], none⟩
    | .bin _ => none
  size := 0

def isEmpty (tree : Tree V) : Bool := tree.size == 0

/-- `split_by_pos/2`. The position is never beyond the end of the binary. -/
def splitByPos (binary : Bytes) (pos : Nat) : Bytes × Bytes := (binary.take pos, binary.drop pos)

lemma lt_length_of_lt_suffix {key suffix : Bytes} {level : Nat} (h : suffix < (splitByPos key level).2) :
    level < key.length := by
  by_contra hle
  rw [splitByPos, List.drop_eq_nil_of_le (not_lt.mp hle)] at h
  exact absurd h (List.not_lt_nil _)

lemma lt_length_of_extends {key suffix : Bytes} {level : Nat}
    (h : ¬(commonPrefix (splitByPos key level).2 suffix).length < suffix.length)
    (hne : (splitByPos key level).2 ≠ suffix) : level < key.length := by
  by_contra hle
  rw [splitByPos, List.drop_eq_nil_of_le (not_lt.mp hle)] at h hne
  apply hne
  cases suffix with
  | nil => rfl
  | cons x suffix => simp [commonPrefix] at h

/-- The longest common prefix and the diverged suffixes. -/
def join (binary1 binary2 : Bytes) : Bytes × Bytes × Bytes :=
  let common := commonPrefix binary1 binary2
  (common, binary1.drop common.length, binary2.drop common.length)

def stripHead : Bytes → Option (Bytes × Bytes)
  | [] => none
  | head :: rest => some ([head], rest)

/-- The number of nodes from the root to a key is at most this. -/
def Key.depth : Key → Nat
  | .root => 1
  | .bin bytes => bytes.length + 2

def invalidateHashFrom : Nat → Option Key → Tree V → Option (Tree V)
  | _, none, tree => some tree
  | 0, some _, _ => none
  | fuel + 1, some key, tree => do
    let n ← tree.node key
    invalidateHashFrom fuel n.parent (tree.put key { n with hash := none })

/-- Parents have shorter keys, so the depth of the key is enough fuel. -/
def invalidateHash (key : Option Key) (tree : Tree V) : Option (Tree V) :=
  invalidateHashFrom ((key.map Key.depth).getD 0) key tree

def updateChildrenParent (key : Bytes) (children : OrdSet Bytes) (tree : Tree V) : Option (Tree V) :=
  children.elems.foldlM (fun acc child => do
    let n ← acc.node (.bin child)
    some (acc.put (.bin child) { n with parent := some (.bin key) })) tree

/-- Put a value on an existing node. -/
def insertValue (keyPrefix : Bytes) (value : V) (n : Node V) (tree : Tree V) : Option (Tree V) :=
  let size2 := if n.value.isNone then tree.size + 1 else tree.size
  invalidateHash n.parent
    ((tree.put (.bin keyPrefix) { n with hash := none, value := some value }).setSize size2)

/-- The key ends inside the edge of a node: a pivot with the value takes its place. -/
def insertPivot (keyPrefix keySuffix nodeSuffix2 : Bytes) (value : V) (n : Node V) (tree : Tree V) :
    Option (Tree V) := do
  let (head, nodeSuffix3) ← stripHead nodeSuffix2
  let updatedNodeKey := keyPrefix ++ keySuffix ++ head
  let pivotNode := ⟨n.parent, .ofList [updatedNodeKey], none, keySuffix, some value⟩
  let updatedNode := { n with parent := some (.bin keyPrefix), suffix := nodeSuffix3 }
  let tree2 := ((tree.put (.bin keyPrefix) pivotNode).put (.bin updatedNodeKey) updatedNode).setSize
    (tree.size + 1)
  let tree3 ← updateChildrenParent updatedNodeKey n.children tree2
  invalidateHash n.parent tree3

/-- The key leaves the edge of a node: a pivot without a value takes its place, over the node
and a new leaf. -/
def insertFork (keyPrefix common keySuffix2 nodeSuffix2 : Bytes) (value : V) (n : Node V)
    (tree : Tree V) : Option (Tree V) := do
  let (keyHead, keySuffix3) ← stripHead keySuffix2
  let newNodeKey := keyPrefix ++ common ++ keyHead
  let newNode := ⟨some (.bin keyPrefix), .empty, none, keySuffix3, some value⟩
  let (nodeKeyHead, nodeSuffix3) ← stripHead nodeSuffix2
  let updatedNodeKey := keyPrefix ++ common ++ nodeKeyHead
  let updatedNode := { n with parent := some (.bin keyPrefix), suffix := nodeSuffix3 }
  let pivotNode := ⟨n.parent, .ofList [newNodeKey, updatedNodeKey], none, common, none⟩
  let tree2 := (((tree.put (.bin newNodeKey) newNode).put (.bin updatedNodeKey) updatedNode).put
    (.bin keyPrefix) pivotNode).setSize (tree.size + 1)
  let tree3 ← updateChildrenParent updatedNodeKey n.children tree2
  invalidateHash n.parent tree3

/-- The key prefix is new: a leaf below the last node on the way. -/
def insertLeaf (keyPrefix keySuffix : Bytes) (value : V) (parent : Key) (tree : Tree V) :
    Option (Tree V) := do
  let newNode := ⟨some parent, .empty, none, keySuffix, some value⟩
  let p ← tree.node parent
  let updatedChildren ← p.children.insert keyPrefix
  let tree2 := ((tree.put (.bin keyPrefix) newNode).put parent
    { p with children := updatedChildren, hash := none }).setSize (tree.size + 1)
  invalidateHash p.parent tree2

/-- `insert/5` -/
def insertFrom (key : Bytes) (value : V) (tree : Tree V) (level : Nat) (parent : Key) :
    Option (Tree V) :=
  let keyPrefix := (splitByPos key level).1
  let keySuffix := (splitByPos key level).2
  match tree.node (.bin keyPrefix) with
  | some n =>
    let (common, keySuffix2, nodeSuffix2) := join keySuffix n.suffix
    if keySuffix = n.suffix then
      insertValue keyPrefix value n tree
    else if _h : common = n.suffix ∧ n.suffix < keySuffix then
      insertFrom key value tree (level + n.suffix.length + 1) (.bin keyPrefix)
    else if common = keySuffix ∧ keySuffix < n.suffix then
      insertPivot keyPrefix keySuffix nodeSuffix2 value n tree
    else if common ≠ keySuffix ∧ common ≠ n.suffix then
      insertFork keyPrefix common keySuffix2 nodeSuffix2 value n tree
    else
      none
  | none => insertLeaf keyPrefix keySuffix value parent tree
termination_by key.length - level
decreasing_by
  have := lt_length_of_lt_suffix _h.2
  omega

def insert (key : Bytes) (value : V) (tree : Tree V) : Option (Tree V) :=
  insertFrom key value tree 1 .root

/-- `get/3`: the prefix of the node for the key, and the node. -/
def getFrom (key : Bytes) (tree : Tree V) (level : Nat) : Option (Bytes × Node V) :=
  let keyPrefix := (splitByPos key level).1
  let keySuffix := (splitByPos key level).2
  match tree.node (.bin keyPrefix) with
  | none => none
  | some n =>
    if _h1 : (commonPrefix keySuffix n.suffix).length < n.suffix.length then
      none
    else if _h2 : keySuffix = n.suffix then
      if n.value.isNone then none else some (keyPrefix, n)
    else
      getFrom key tree (level + n.suffix.length + 1)
termination_by key.length - level
decreasing_by
  have := lt_length_of_extends _h1 _h2
  omega

def get (key : Bytes) (tree : Tree V) : Option V := (getFrom key tree 1).bind fun x => x.2.value

def delete2From : Nat → Bytes → Option Key → Tree V → Option (Tree V)
  | 0, _, _, _ => none
  | fuel + 1, key, parent, tree => do
    let parent ← parent
    let tree2 := tree.remove (.bin key)
    let p ← tree.node parent
    let parentChildren2 := p.children.erase key
    let tree3 := tree2.put parent { p with children := parentChildren2, hash := none }
    match parent, parentChildren2.isEmpty, p.value with
    | .bin parentKey, true, none => delete2From fuel parentKey p.parent tree3
    | _, _, _ => invalidateHash p.parent tree3

/-- Remove a node without children, and the inner nodes that this leaves without children
and without a value. -/
def delete2 (key : Bytes) (parent : Option Key) (tree : Tree V) : Option (Tree V) :=
  delete2From (key.length + 1) key parent tree

/-- `delete/3` -/
def deleteFrom (key : Bytes) (tree : Tree V) (level : Nat) : Option (Tree V) :=
  let keyPrefix := (splitByPos key level).1
  let keySuffix := (splitByPos key level).2
  match tree.node (.bin keyPrefix) with
  | none => some tree
  | some n =>
    if _h1 : (commonPrefix keySuffix n.suffix).length < n.suffix.length then
      some tree
    else if _h2 : keySuffix = n.suffix then
      if n.value.isNone then
        some tree
      else
        let tree2 := tree.setSize (tree.size - 1)
        if n.children.isEmpty then
          delete2 keyPrefix n.parent tree2
        else
          invalidateHash n.parent (tree2.put (.bin keyPrefix) { n with hash := none, value := none })
    else
      deleteFrom key tree (level + n.suffix.length + 1)
termination_by key.length - level
decreasing_by
  have := lt_length_of_extends _h1 _h2
  omega

def delete (key : Bytes) (tree : Tree V) : Option (Tree V) := deleteFrom key tree 1

/-- What is stored for a node: the pair of a leaf, or the hashes and prefixes of subtrees. -/
inductive Entry (V : Type) where
  | leaf (key : Bytes) (value : V)
  | list (subtrees : List (Bytes × Bytes))
  deriving DecidableEq

/-- The updates that a hash computation returns, by hash and prefix. -/
abbrev UpdateMap (V : Type) := List ((Bytes × Key) × Entry V)

def UpdateMap.put (updates : UpdateMap V) (id : Bytes × Key) (entry : Entry V) : UpdateMap V :=
  (id, entry) :: updates.filter (·.1 ≠ id)

/-- The bytes of a key; the root has none, and building a full key from it crashes. -/
def Key.bytes : Key → Option Bytes
  | .root => none
  | .bin bytes => some bytes

section Hash

variable (H : Digest 48) (hashFun : Bytes → V → Bytes)

/-- The hash of a node without a value, from the hashes of its children: a single child
passes its hash on. -/
def combineHashes (hashes : List (Bytes × Bytes)) : Bytes :=
  match hashes with
  | [(single, _)] => single
  | _ => DeepHash.hash H (hashes.map fun x => .blob x.1)

/-- `compute_hash/4` -/
def computeHashFrom : Nat → Key → Tree V → UpdateMap V → Option (Bytes × Tree V × UpdateMap V)
  | 0, _, _, _ => none
  | fuel + 1, keyPrefix, tree, updates => do
    let n ← tree.node keyPrefix
    match n.hash with
    | some hash => some (hash, tree, updates)
    | none =>
      if n.children.isEmpty then do
        let value ← n.value
        let bytes ← keyPrefix.bytes
        let key := bytes ++ n.suffix
        let newHash := hashFun key value
        some (newHash, tree.put keyPrefix { n with children := .empty, hash := some newHash },
          updates.put (newHash, keyPrefix) (.leaf key value))
      else do
        let (hashes, tree2, updates2) ← n.children.elems.foldrM
          (fun child (hashes, treeAcc, updatesAcc) => do
            let (childHash, treeAcc2, updatesAcc2) ←
              computeHashFrom fuel (.bin child) treeAcc updatesAcc
            some ((childHash, child) :: hashes, treeAcc2, updatesAcc2)) ([], tree, updates)
        let (newHash, updates3) ←
          match n.value with
          | some value => do
            let bytes ← keyPrefix.bytes
            let key := bytes ++ n.suffix
            let newHash2 := hashFun key value
            let newHash3 := DeepHash.hash H ((newHash2 :: hashes.map Prod.fst).map .blob)
            some (newHash3, (updates2.put (newHash2, keyPrefix) (.leaf key value)).put
              (newHash3, keyPrefix) (.list ((newHash2, bytes) :: hashes)))
          | none =>
            let newHash2 := combineHashes H hashes
            some (newHash2, updates2.put (newHash2, keyPrefix) (.list hashes))
        some (newHash, tree2.put keyPrefix { n with hash := some newHash }, updates3)

/-- `compute_hash/2` -/
def computeHash (fuel : Nat) (tree : Tree V) : Option (Bytes × Tree V × UpdateMap V) :=
  if tree.size = 0 then some ([], tree, []) else computeHashFrom H hashFun fuel .root tree []

end Hash

/-- `foldr/4` -/
def foldrFrom {A : Type} (f : Bytes → V → A → A) (tree : Tree V) : Nat → Key → A → Option A
  | 0, _, _ => none
  | fuel + 1, keyPrefix, acc => do
    let n ← tree.node keyPrefix
    if n.children.isEmpty then do
      let value ← n.value
      let bytes ← keyPrefix.bytes
      some (f (bytes ++ n.suffix) value acc)
    else do
      let acc2 ← n.children.elems.foldrM (fun child childrenAcc =>
        foldrFrom f tree fuel (.bin child) childrenAcc) acc
      match n.value with
      | some value => do
        let bytes ← keyPrefix.bytes
        some (f (bytes ++ n.suffix) value acc2)
      | none => some acc2

/-- `foldr/3` -/
def foldr {A : Type} (f : Bytes → V → A → A) (fuel : Nat) (acc : A) (tree : Tree V) : Option A :=
  if isEmpty tree then some acc else foldrFrom f tree fuel .root acc

end Arweave.Patricia

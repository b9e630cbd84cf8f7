import Arweave.Constants
import Arweave.Lib.Bytes

/-!
# Validation of Merkle paths

The validator of `ar_merkle`. A path is consumed from its front: 64 bytes are a leaf,
longer binaries start with a node, possibly preceded by 32 zero bytes that mark the
child as a subtree with zero-based offsets. `Cursor` holds the arguments which
`validate_path/11` changes on the way down; the remaining ones are `Checks`, the data
size, the expected hash and the rest of the path.
-/

namespace Arweave.Merkle
open Arweave.Lib

/-- `?HASH_SIZE` -/
def hashSize : Nat := 32

/-- `?NOTE_SIZE` -/
def noteSize : Nat := 32

def noteToBinary (note : Nat) : Bytes := Bytes.ofNat noteSize note

@[simp] lemma length_noteToBinary (note : Nat) : (noteToBinary note).length = 32 :=
  Bytes.length_ofNat _ _

/-- The zero bytes in front of a node whose child is rebased. -/
def rebaseMark : Bytes := List.replicate hashSize 0

@[simp] lemma length_rebaseMark : rebaseMark.length = 32 := by simp [rebaseMark, hashSize]

/-- The identifier of a leaf. -/
def leafHash (H : Digest 32) (data : Bytes) (note : Nat) : Bytes :=
  H (H data ++ H (noteToBinary note))

/-- The identifier of a branch. -/
def nodeHash (H : Digest 32) (l r : Bytes) (note : Nat) : Bytes :=
  H (H l ++ H r ++ H (noteToBinary note))

@[simp] lemma length_leafHash (H : Digest 32) (data : Bytes) (note : Nat) :
    (leafHash H data note).length = 32 := H.length_hash _

@[simp] lemma length_nodeHash (H : Digest 32) (l r : Bytes) (note : Nat) :
    (nodeHash H l r note).length = 32 := H.length_hash _

/-- The strings hashed for the identifier of a leaf. -/
def leafStrings (H : Digest 32) (data : Bytes) (note : Nat) : List Bytes :=
  [data, noteToBinary note, H data ++ H (noteToBinary note)]

/-- The strings hashed for the identifier of a branch. -/
def nodeStrings (H : Digest 32) (l r : Bytes) (note : Nat) : List Bytes :=
  [l, r, noteToBinary note, H l ++ H r ++ H (noteToBinary note)]

section Collisions

variable {H : Digest 32} {s : List Bytes}

lemma leafHash_inj (hs : H.CollisionFree s) {data data' : Bytes} {e e' : Nat}
    (he : e < 256 ^ noteSize) (he' : e' < 256 ^ noteSize)
    (hsub : ∀ x ∈ leafStrings H data e, x ∈ s) (hsub' : ∀ x ∈ leafStrings H data' e', x ∈ s)
    (h : leafHash H data e = leafHash H data' e') : data = data' ∧ e = e' := by
  simp only [leafStrings, List.forall_mem_cons] at hsub hsub'
  obtain ⟨hdata, hnote, hcat, -⟩ := hsub
  obtain ⟨hdata', hnote', hcat', -⟩ := hsub'
  obtain ⟨hd, hn⟩ := List.append_inj (hs _ hcat _ hcat' h) (by simp)
  exact ⟨hs _ hdata _ hdata' hd, Bytes.ofNat_injective_of_lt he he' (hs _ hnote _ hnote' hn)⟩

lemma nodeHash_inj (hs : H.CollisionFree s) {l r l' r' : Bytes} {n n' : Nat}
    (hn : n < 256 ^ noteSize) (hn' : n' < 256 ^ noteSize)
    (hsub : ∀ x ∈ nodeStrings H l r n, x ∈ s) (hsub' : ∀ x ∈ nodeStrings H l' r' n', x ∈ s)
    (h : nodeHash H l r n = nodeHash H l' r' n') : l = l' ∧ r = r' ∧ n = n' := by
  simp only [nodeStrings, List.forall_mem_cons] at hsub hsub'
  obtain ⟨hl, hr, hnote, hcat, -⟩ := hsub
  obtain ⟨hl', hr', hnote', hcat', -⟩ := hsub'
  obtain ⟨hlr, heq⟩ := List.append_inj (hs _ hcat _ hcat' h) (by simp)
  obtain ⟨hleq, hreq⟩ := List.append_inj hlr (by simp)
  exact ⟨hs _ hl _ hl' hleq, hs _ hr _ hr' hreq,
    Bytes.ofNat_injective_of_lt hn hn' (hs _ hnote _ hnote' heq)⟩

lemma leafHash_ne_nodeHash (hs : H.CollisionFree s) {data l r : Bytes} {e n : Nat}
    (hsub : ∀ x ∈ leafStrings H data e, x ∈ s) (hsub' : ∀ x ∈ nodeStrings H l r n, x ∈ s) :
    leafHash H data e ≠ nodeHash H l r n := by
  intro h
  have hlen := congrArg List.length
    (hs _ (hsub _ (by simp [leafStrings])) _ (hsub' _ (by simp [nodeStrings])) h)
  simp at hlen

end Collisions

inductive Ruleset where
  | basic
  | strictBorders
  | strictDataSplit
  | offsetRebaseSupport
  deriving DecidableEq, Repr

/-- The values of `CheckSplit`. -/
inductive SplitCheck where
  | none
  | strict
  | relaxed
  deriving DecidableEq, Repr

structure Checks where
  checkBorders : Bool
  checkSplit : SplitCheck
  allowRebase : Bool
  deriving DecidableEq, Repr

def Ruleset.checks : Ruleset → Checks
  | .basic => ⟨false, .none, false⟩
  | .strictBorders => ⟨true, .none, false⟩
  | .strictDataSplit => ⟨true, .strict, false⟩
  | .offsetRebaseSupport => ⟨true, .relaxed, true⟩

/-- The front of a path, in the order of the clauses of `validate_path/11`. -/
inductive Segment where
  | leaf (data : Bytes) (endOffset : Nat)
  | rebase (l r : Bytes) (note : Nat) (rest : Bytes)
  | node (l r : Bytes) (note : Nat) (rest : Bytes)
  | invalid
  deriving DecidableEq, Repr

/-- A node without its mark: two hashes, a note and the rest. -/
def splitNode (path : Bytes) : Bytes × Bytes × Nat × Bytes :=
  (path.take 32, (path.drop 32).take 32, Bytes.toNat ((path.drop 64).take 32), path.drop 96)

def segment (allowRebase : Bool) (path : Bytes) : Segment :=
  if path.length = 64 then
    .leaf (path.take 32) (Bytes.toNat (path.drop 32))
  else if allowRebase ∧ 128 ≤ path.length ∧ path.take 32 = rebaseMark then
    let (l, r, note, rest) := splitNode (path.drop 32)
    .rebase l r note rest
  else if 96 ≤ path.length then
    let (l, r, note, rest) := splitNode path
    .node l r note rest
  else
    .invalid

lemma segment_rebase_rest_lt {allowRebase : Bool} {path l r rest : Bytes} {note : Nat}
    (h : segment allowRebase path = .rebase l r note rest) : rest.length < path.length := by
  unfold segment splitNode at h
  split_ifs at h
  cases h
  simp only [List.length_drop]
  omega

lemma segment_node_rest_lt {allowRebase : Bool} {path l r rest : Bytes} {note : Nat}
    (h : segment allowRebase path = .node l r note rest) : rest.length < path.length := by
  unfold segment splitNode at h
  split_ifs at h
  cases h
  simp only [List.length_drop]
  omega

/-- A node segment, with or without the mark. -/
def Segment.ofNode (marked : Bool) (l r : Bytes) (note : Nat) (rest : Bytes) : Segment :=
  if marked then .rebase l r note rest else .node l r note rest

lemma segment_leaf_lt {allowRebase : Bool} {path data : Bytes} {endOffset : Nat}
    (h : segment allowRebase path = .leaf data endOffset) : endOffset < 256 ^ noteSize := by
  unfold segment splitNode at h
  split_ifs at h with hlen
  cases h
  have hlt := Bytes.toNat_lt (path.drop 32)
  have hsize : (path.drop 32).length = noteSize := by simp [hlen, noteSize]
  rwa [hsize] at hlt

lemma splitNode_note_lt (path : Bytes) : (splitNode path).2.2.1 < 256 ^ noteSize := by
  have hlt := Bytes.toNat_lt ((path.drop 64).take 32)
  have hle : ((path.drop 64).take 32).length ≤ noteSize := List.length_take_le _ _
  exact hlt.trans_le (Nat.pow_le_pow_right (by omega) hle)

lemma segment_node_lt {allowRebase marked : Bool} {path l r rest : Bytes} {note : Nat}
    (h : segment allowRebase path = .ofNode marked l r note rest) : note < 256 ^ noteSize := by
  unfold segment at h
  cases marked <;> simp only [Segment.ofNode, Bool.false_eq_true, if_true, if_false] at h <;>
    split_ifs at h <;> cases h <;> exact splitNode_note_lt _

lemma segment_ofNode_rest_lt {allowRebase marked : Bool} {path l r rest : Bytes} {note : Nat}
    (h : segment allowRebase path = .ofNode marked l r note rest) :
    rest.length < path.length := by
  cases marked
  · exact segment_node_rest_lt h
  · exact segment_rebase_rest_lt h

lemma segment_unmarked {marked : Bool} {path l r rest : Bytes} {note : Nat}
    (h : segment false path = .ofNode marked l r note rest) : marked = false := by
  cases marked with
  | false => rfl
  | true =>
    simp only [Segment.ofNode, if_true, segment, Bool.false_eq_true, false_and, if_false] at h
    split_ifs at h

/-- The arguments that change along the path. `isRightMost` is
`IsRightMostInItsSubTree`, with `none` for `undefined`. -/
structure Cursor where
  dest : Int
  leftBound : Int
  rightBound : Int
  isRightMost : Option Bool
  leftBoundShift : Int
  deriving DecidableEq, Repr

namespace Cursor

/-- The step of `validate_node`. -/
def descend (c : Cursor) (note : Nat) : Cursor :=
  if c.dest < note then
    { c with
      rightBound := min c.rightBound note
      isRightMost := some false }
  else
    { c with
      leftBound := max c.leftBound note
      isRightMost := match c.isRightMost with
        | none => some true
        | some b => some b }

/-- The step of the rebase clause: the bounds and the destination restart at zero. -/
def rebase (c : Cursor) (note : Nat) : Cursor :=
  if c.dest < note then
    { dest := c.dest - c.leftBound
      leftBound := 0
      rightBound := min c.rightBound note - c.leftBound
      isRightMost := none
      leftBoundShift := c.leftBoundShift + c.leftBound }
  else
    { dest := c.dest - max c.leftBound note
      leftBound := 0
      rightBound := c.rightBound - max c.leftBound note
      isRightMost := none
      leftBoundShift := c.leftBoundShift + max c.leftBound note }

/-- The step below a node segment. -/
def step (c : Cursor) (marked : Bool) (note : Nat) : Cursor :=
  if marked then c.rebase note else c.descend note

/-- The child that the destination selects. -/
def child (c : Cursor) (l r : Bytes) (note : Nat) : Bytes :=
  if c.dest < note then l else r

end Cursor

/-- What an accepted path proves. -/
structure DataPath where
  leaf : Bytes
  startOffset : Int
  endOffset : Int
  deriving DecidableEq, Repr

def areBordersValid (checks : Checks) (c : Cursor) (endOffset : Int) : Bool :=
  match checks.checkBorders with
  | true => endOffset - c.leftBound ≤ dataChunkSize ∧ c.rightBound - c.leftBound ≤ dataChunkSize
  | false => true

def isSplitValid (checks : Checks) (dataSize : Int) (c : Cursor) (endOffset : Int) : Bool :=
  match checks.checkSplit with
  | .strict =>
    if endOffset - c.leftBound = dataChunkSize then
      c.leftBound.tmod dataChunkSize = 0
    else if endOffset = dataSize then
      let border := c.rightBound - c.rightBound.tmod dataChunkSize
      c.rightBound.tmod dataChunkSize > 0 ∧ c.leftBound ≤ border
    else
      c.leftBound.tmod dataChunkSize = 0 ∧ dataSize - c.leftBound > dataChunkSize ∧
        dataSize - c.leftBound < 2 * dataChunkSize
  | .relaxed =>
    let shiftedLeftBound := c.leftBoundShift + c.leftBound
    let shiftedEndOffset := c.leftBoundShift + endOffset
    match c.isRightMost with
    | some true =>
      -- the last chunk may start at the bucket start or span two buckets
      let bucket0 := shiftedLeftBound.tdiv dataChunkSize
      let bucket1 := shiftedEndOffset.tdiv dataChunkSize
      shiftedLeftBound.tmod dataChunkSize = 0 ∨
        (bucket0 + 1 = bucket1 ∧ shiftedEndOffset.tmod dataChunkSize ≠ 0)
    | _ => shiftedLeftBound.tmod dataChunkSize = 0
  | .none => true

def validateLeaf (H : Digest 32) (id data : Bytes) (endOffset : Nat) (c : Cursor) :
    Option DataPath :=
  if leafHash H data endOffset = id then
    some {
      leaf := data
      startOffset := c.leftBoundShift + c.leftBound
      endOffset := c.leftBoundShift + max (min c.rightBound endOffset) (c.leftBound + 1) }
  else none

/-- `validate_path/11`; `none` is the result `false`. -/
def validatePathFrom (H : Digest 32) (checks : Checks) (dataSize : Int) (id : Bytes)
    (c : Cursor) (path : Bytes) : Option DataPath :=
  match _h : segment checks.allowRebase path with
  | .leaf data endOffset =>
    if areBordersValid checks c endOffset && isSplitValid checks dataSize c endOffset then
      validateLeaf H id data endOffset c
    else none
  | .rebase l r note rest =>
    if nodeHash H l r note = id then
      validatePathFrom H checks dataSize (c.child l r note) (c.rebase note) rest
    else none
  | .node l r note rest =>
    if nodeHash H l r note = id then
      validatePathFrom H checks dataSize (c.child l r note) (c.descend note) rest
    else none
  | .invalid => none
termination_by path.length
decreasing_by
  · exact segment_rebase_rest_lt _h
  · exact segment_node_rest_lt _h

section Unfolding

variable {H : Digest 32} {checks : Checks} {dataSize : Int} {id path : Bytes} {c : Cursor}

lemma validatePathFrom_leaf {data : Bytes} {endOffset : Nat}
    (h : segment checks.allowRebase path = .leaf data endOffset) :
    validatePathFrom H checks dataSize id c path =
      if areBordersValid checks c endOffset && isSplitValid checks dataSize c endOffset then
        validateLeaf H id data endOffset c
      else none := by
  rw [validatePathFrom]
  split <;> simp_all

lemma validatePathFrom_node {marked : Bool} {l r rest : Bytes} {note : Nat}
    (h : segment checks.allowRebase path = .ofNode marked l r note rest) :
    validatePathFrom H checks dataSize id c path =
      if nodeHash H l r note = id then
        validatePathFrom H checks dataSize (c.child l r note) (c.step marked note) rest
      else none := by
  rw [validatePathFrom]
  cases marked <;> simp only [Segment.ofNode, Bool.false_eq_true, if_true, if_false] at h <;>
    split <;> simp_all [Cursor.step]

lemma validatePathFrom_some {res : DataPath}
    (h : validatePathFrom H checks dataSize id c path = some res) :
    (∃ data endOffset, segment checks.allowRebase path = .leaf data endOffset ∧
      areBordersValid checks c endOffset ∧ isSplitValid checks dataSize c endOffset ∧
      validateLeaf H id data endOffset c = some res) ∨
    (∃ marked l r note rest, segment checks.allowRebase path = .ofNode marked l r note rest ∧
      nodeHash H l r note = id ∧
      validatePathFrom H checks dataSize (c.child l r note) (c.step marked note) rest = some res) := by
  unfold validatePathFrom at h
  split at h
  · next data endOffset hseg =>
    split_ifs at h with hv
    rw [Bool.and_eq_true] at hv
    exact .inl ⟨data, endOffset, hseg, hv.1, hv.2, h⟩
  · next l r note rest hseg =>
    split_ifs at h with hid
    exact .inr ⟨true, l, r, note, rest, hseg, hid, h⟩
  · next l r note rest hseg =>
    split_ifs at h with hid
    exact .inr ⟨false, l, r, note, rest, hseg, hid, h⟩
  · cases h

end Unfolding

inductive PathError where
  | invalidRightBound
  deriving DecidableEq, Repr

/-- The destination after the clauses that move it into the data. -/
def clampDest (dest rightBound : Int) : Int :=
  if dest ≥ rightBound then rightBound - 1 else if dest < 0 then 0 else dest

/-- The cursor at the root. -/
def Cursor.start (dest rightBound : Int) : Cursor where
  dest := clampDest dest rightBound
  leftBound := 0
  rightBound := rightBound
  isRightMost := none
  leftBoundShift := 0

/-- `validate_path/5` -/
def validatePath (H : Digest 32) (id : Bytes) (dest rightBound : Int) (path : Bytes)
    (ruleset : Ruleset) : Except PathError (Option DataPath) :=
  if rightBound ≤ 0 then
    .error .invalidRightBound
  else
    .ok (validatePathFrom H ruleset.checks rightBound id (.start dest rightBound) path)

lemma validatePath_ok {H : Digest 32} {id path : Bytes} {dest rightBound : Int}
    {ruleset : Ruleset} {result : Option DataPath}
    (h : validatePath H id dest rightBound path ruleset = .ok result) :
    0 < rightBound ∧
      validatePathFrom H ruleset.checks rightBound id (.start dest rightBound) path = result := by
  unfold validatePath at h
  split_ifs at h with hb
  exact ⟨not_le.mp hb, Except.ok.inj h⟩

end Arweave.Merkle

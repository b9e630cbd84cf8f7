import Arweave.Serialize.BlockRoundTrip

/-!
# The binary format of block announcements

The last fields of an announcement are told apart by what is left of the binary: nothing, the
hash of the solution, or the second recall byte and the hash. A second recall byte without the
hash has no form of its own. A response ends with a byte when the second chunk is mentioned,
which shows since the indices before it take two bytes each.
-/

namespace Arweave.Serialize
open Arweave.Lib Arweave.Lib.Codec Arweave.Tx Arweave.Wallet

/-- The record `block_announcement` -/
@[ext]
structure BlockAnnouncement where
  indepHash : Bytes
  previousBlock : Bytes
  recallByte : Option Nat := none
  txPrefixes : List Bytes := []
  recallByte2 : Option Nat := none
  solutionHash : Option Bytes := none
  deriving DecidableEq, Repr

/-- The record `block_announcement_response` -/
structure BlockAnnouncementResponse where
  missingChunk : Bool := false
  missingTxIndices : List Nat := []
  missingChunk2 : Option Bool := none
  deriving DecidableEq, Repr

/-- The reasons in the errors of both parsers. The reason `invalid_missing_tx_indices_input` is
for input that is not made of bytes. -/
inductive AnnouncementError where
  | invalidInput
  | invalidRecallByte2AndSolutionHashInput
  | invalidTxPrefixesInput
  | invalidBlockAnnouncementResponseInput
  | invalidMissingChunk2Input
  deriving DecidableEq, Repr

def encodeTxPrefixesFrom : List Bytes → Bytes → Option Bytes
  | [], encoded => some encoded
  | txPrefix :: prefixes, encoded => do
    let bin ← binaryOf 8 txPrefix
    encodeTxPrefixesFrom prefixes (bin ++ encoded)

def encodeTxPrefixes (l : List Bytes) : Option Bytes := do
  let encoded ← encodeTxPrefixesFrom l []
  return Bytes.ofNat 2 l.length ++ encoded

def encodeSolutionHash : Option Bytes → Option Bytes
  | none => some []
  | some h => binaryOf 32 h

def blockAnnouncementToBinary (a : BlockAnnouncement) : Option Bytes := do
  let indepHash ← binaryOf 48 a.indepHash
  let previousBlock ← binaryOf 48 a.previousBlock
  let txPrefixes ← encodeTxPrefixes a.txPrefixes
  let solutionHash ← encodeSolutionHash a.solutionHash
  return indepHash ++ previousBlock ++ encodeOptionalInt a.recallByte 1 ++ txPrefixes ++
    a.recallByte2.elim [] (fun n => encodeInt n 1) ++ solutionHash

def encodeMissingTxIndicesFrom : List Nat → Bytes → Bytes
  | [], encoded => encoded
  | index :: indices, encoded => encodeMissingTxIndicesFrom indices (Bytes.ofNat 2 index ++ encoded)

def encodeMissingTxIndices (l : List Nat) : Bytes := encodeMissingTxIndicesFrom l []

def blockAnnouncementResponseToBinary (response : BlockAnnouncementResponse) : Bytes :=
  (if response.missingChunk then 1 else 0) :: (encodeMissingTxIndices response.missingTxIndices ++
    match response.missingChunk2 with
    | none => []
    | some false => [0]
    | some true => [1])

/-- The second recall byte and the hash of the solution. -/
def recallByte2AndSolutionHash : Pattern (Sized 1 × Fixed 32) := do
  let recallByte2 ← sized 1
  let solutionH ← fixed 32
  return (recallByte2, solutionH)

/-- What is left behind the prefixes. -/
def parseRecallByte2AndSolutionHash (rest : Bytes) : Except AnnouncementError (Option Nat × Option Bytes) :=
  if rest = [] then .ok (none, none)
  else
    match recallByte2AndSolutionHash.run rest with
    | some ((recallByte2, solutionH), []) => .ok (some recallByte2.1.toNat, some solutionH.1)
    | _ =>
      if rest.length = 32 then .ok (none, some rest) else .error .invalidRecallByte2AndSolutionHashInput

def parseTxPrefixesAndRecallByte2AndSolutionHashFrom :
    Nat → Bytes → List Bytes → Except AnnouncementError (List Bytes × Option Nat × Option Bytes)
  | 0, rest, prefixes => do
    let (recallByte2, solutionH) ← parseRecallByte2AndSolutionHash rest
    return (prefixes, recallByte2, solutionH)
  | n + 1, bin, prefixes =>
    match (fixed 8).run bin with
    | some (txPrefix, rest) => parseTxPrefixesAndRecallByte2AndSolutionHashFrom n rest (txPrefix.1 :: prefixes)
    | none => .error .invalidTxPrefixesInput

def parseTxPrefixesAndRecallByte2AndSolutionHash (n : Nat) (bin : Bytes) :
    Except AnnouncementError (List Bytes × Option Nat × Option Bytes) :=
  parseTxPrefixesAndRecallByte2AndSolutionHashFrom n bin []

/-- The fields in front of the prefixes, with the number of these. -/
def announcementFields : Pattern (Fixed 48 × Fixed 48 × Sized 1 × Fixed 2) := do
  let indepHash ← fixed 48
  let previousBlock ← fixed 48
  let recallByte ← sized 1
  let n ← fixed 2
  return (indepHash, previousBlock, recallByte, n)

def binaryToBlockAnnouncement (bin : Bytes) : Except AnnouncementError BlockAnnouncement :=
  match announcementFields.run bin with
  | some ((indepHash, previousBlock, recallByte, n), rest) => do
    let (txPrefixes, recallByte2, solutionHash) ← parseTxPrefixesAndRecallByte2AndSolutionHash n.1.toNat rest
    return {
      indepHash := indepHash.1, previousBlock := previousBlock.1, recallByte := toOptionalInt recallByte.1,
      txPrefixes, recallByte2, solutionHash }
  | none => .error .invalidInput

def parseMissingTxIndicesAndMissingChunk2 : Bytes → List Nat → Except AnnouncementError (List Nat × Option Bool)
  | [], indices => .ok (indices, none)
  | [missingChunk2], indices =>
    if missingChunk2 = 0 then .ok (indices, some false)
    else if missingChunk2 = 1 then .ok (indices, some true)
    else .error .invalidMissingChunk2Input
  | x :: y :: rest, indices => parseMissingTxIndicesAndMissingChunk2 rest (Bytes.toNat [x, y] :: indices)

def binaryToBlockAnnouncementResponse (bin : Bytes) : Except AnnouncementError BlockAnnouncementResponse :=
  match bin with
  | [] => .error .invalidBlockAnnouncementResponseInput
  | chunkMissing :: rest =>
    if chunkMissing = 1 ∨ chunkMissing = 0 then do
      let (missingTxIndices, missingChunk2) ← parseMissingTxIndicesAndMissingChunk2 rest []
      return { missingChunk := chunkMissing = 1, missingTxIndices, missingChunk2 }
    else .error .invalidBlockAnnouncementResponseInput

section Announcement

/-- The fields of the announcement have the sizes that the format gives them. -/
structure BlockAnnouncement.Fits (a : BlockAnnouncement) : Prop where
  indepHash : a.indepHash.length = 48
  previousBlock : a.previousBlock.length = 48
  recallByte : OptionFits 1 a.recallByte
  count : a.txPrefixes.length < 256 ^ 2
  txPrefixes : ∀ x ∈ a.txPrefixes, x.length = 8
  recallByte2 : OptionFits 1 a.recallByte2
  solutionHash : ∀ h ∈ a.solutionHash, h.length = 32

variable {a : BlockAnnouncement}

lemma encodeTxPrefixesFrom_eq {l : List Bytes} (hl : ∀ x ∈ l, x.length = 8) (encoded : Bytes) :
    encodeTxPrefixesFrom l encoded = some (l.reverse.flatten ++ encoded) := by
  induction l generalizing encoded with
  | nil => rfl
  | cons x l ih =>
    rw [encodeTxPrefixesFrom, binaryOf_eq (hl x (by simp)), Option.bind_eq_bind, Option.bind_some,
      ih fun y hy => hl y (by simp [hy])]
    simp

lemma parseTxPrefixes_eq {l : List Bytes} (hl : ∀ x ∈ l, x.length = 8) (tail : Bytes) (prefixes : List Bytes) :
    parseTxPrefixesAndRecallByte2AndSolutionHashFrom l.length (l.flatten ++ tail) prefixes =
      (parseRecallByte2AndSolutionHash tail).map fun r => (l.reverse ++ prefixes, r) := by
  induction l generalizing prefixes with
  | nil =>
    change parseRecallByte2AndSolutionHash tail >>= _ = _
    cases parseRecallByte2AndSolutionHash tail <;> rfl
  | cons x l ih =>
    have hread : (fixed 8).run (x ++ (l.flatten ++ tail)) = some (⟨x, hl x (by simp)⟩, l.flatten ++ tail) :=
      reads_fixed ⟨x, hl x (by simp)⟩ _
    rw [List.length_cons, List.flatten_cons, List.append_assoc, parseTxPrefixesAndRecallByte2AndSolutionHashFrom,
      hread]
    simp only
    rw [ih fun y hy => hl y (by simp [hy])]
    simp

/-- What is written behind the prefixes. -/
def announcementTail (a : BlockAnnouncement) : Bytes :=
  a.recallByte2.elim [] (fun n => encodeInt n 1) ++ a.solutionHash.getD []

lemma blockAnnouncementToBinary_eq (h : a.Fits) : blockAnnouncementToBinary a =
    some (a.indepHash ++ (a.previousBlock ++ (encodeOptionalInt a.recallByte 1 ++
      Bytes.ofNat 2 a.txPrefixes.length)) ++ (a.txPrefixes.reverse.flatten ++ announcementTail a)) := by
  have hhash : encodeSolutionHash a.solutionHash = some (a.solutionHash.getD []) := by
    cases hs : a.solutionHash with
    | none => rfl
    | some x => exact binaryOf_eq (h.solutionHash x hs)
  rw [blockAnnouncementToBinary, binaryOf_eq h.indepHash, binaryOf_eq h.previousBlock, encodeTxPrefixes,
    encodeTxPrefixesFrom_eq h.txPrefixes, hhash]
  simp [announcementTail]

lemma reads_announcementFields (h : a.Fits) : Reads announcementFields
    (a.indepHash ++ (a.previousBlock ++ (encodeOptionalInt a.recallByte 1 ++ Bytes.ofNat 2 a.txPrefixes.length)))
    (⟨a.indepHash, h.indepHash⟩, ⟨a.previousBlock, h.previousBlock⟩, ⟨optionalBytes a.recallByte, h.recallByte⟩,
      ⟨Bytes.ofNat 2 a.txPrefixes.length, Bytes.length_ofNat _ _⟩) :=
  (reads_fixed ⟨_, h.indepHash⟩).bind <| (reads_fixed ⟨_, h.previousBlock⟩).bind <|
    (reads_encodeOptionalInt h.recallByte).bind reads_ofNat.bind_pure

lemma run_recallByte2AndSolutionHash {s : Bytes} {r : Sized 1} {x : Fixed 32} {rest : Bytes} :
    recallByte2AndSolutionHash.run s = some ((r, x), rest) ↔
      s = Bytes.ofNat 1 r.1.length ++ r.1 ++ x.1 ++ rest := by
  simp only [recallByte2AndSolutionHash, run_bind_eq_some, run_sized_eq_some, run_fixed_eq_some, run_pure_eq_some,
    Prod.mk.injEq]
  constructor
  · rintro ⟨_, _, rfl, _, _, rfl, ⟨rfl, rfl⟩, rfl⟩
    simp
  · rintro rfl
    exact ⟨r, x.1 ++ rest, by simp, x, rest, rfl, ⟨rfl, rfl⟩, rfl⟩

/-- The three forms of the tail are told apart. The second recall byte alone is none of them. -/
lemma parse_announcementTail (h : a.Fits) :
    parseRecallByte2AndSolutionHash (announcementTail a) = .ok (a.recallByte2, a.solutionHash) ↔
      a.recallByte2 = none ∨ a.solutionHash ≠ none := by
  rw [announcementTail]
  have hfits := h.recallByte2
  have hlen := h.solutionHash
  cases hrecall : a.recallByte2 with
  | none =>
    cases hsolution : a.solutionHash with
    | none => simp [parseRecallByte2AndSolutionHash]
    | some x =>
      have hx := hlen x hsolution
      have hne : x ≠ [] := by
        rintro rfl
        cases hx
      have hparse : parseRecallByte2AndSolutionHash x = .ok (none, some x) := by
        rw [parseRecallByte2AndSolutionHash, if_neg hne]
        split
        · rename_i r s hrun
          -- a size and a hash take more than 32 bytes
          have hsize := congrArg List.length (run_recallByte2AndSolutionHash.mp hrun)
          have := s.2
          simp only [List.length_append, Bytes.length_ofNat, List.length_nil] at hsize
          omega
        · rw [if_pos hx]
      simpa using hparse
  | some n =>
    rw [hrecall] at hfits
    have henc : encodeInt n 1 ≠ [] := by
      intro hnil
      have := congrArg List.length hnil
      simp [encodeInt, encodeBin] at this
    cases hsolution : a.solutionHash with
    | none =>
      simp only [Option.elim_some, Option.getD_none, List.append_nil, reduceCtorEq, ne_eq, not_true_eq_false, or_self,
        iff_false]
      rw [parseRecallByte2AndSolutionHash, if_neg henc]
      split
      · rintro ⟨⟩
      · split_ifs <;> rintro ⟨⟩
    | some x =>
      have hx := hlen x hsolution
      have hrun : recallByte2AndSolutionHash.run (encodeInt n 1 ++ x) =
          some ((⟨encodeUnsigned n, hfits⟩, ⟨x, hx⟩), []) :=
        run_recallByte2AndSolutionHash.mpr (by simp [encodeInt, encodeBin])
      simp [parseRecallByte2AndSolutionHash, henc, hrun, toNat_encodeUnsigned]

lemma binaryToBlockAnnouncement_blockAnnouncementToBinary (h : a.Fits) :
    ∃ bin, blockAnnouncementToBinary a = some bin ∧
      (binaryToBlockAnnouncement bin = .ok a ↔ a.recallByte2 = none ∨ a.solutionHash ≠ none) := by
  refine ⟨_, blockAnnouncementToBinary_eq h, ?_⟩
  have hcount : (Bytes.ofNat 2 a.txPrefixes.length).toNat = a.txPrefixes.reverse.length := by
    rw [Bytes.toNat_ofNat_of_lt h.count, List.length_reverse]
  rw [binaryToBlockAnnouncement, reads_announcementFields h]
  simp only [parseTxPrefixesAndRecallByte2AndSolutionHash]
  rw [hcount, parseTxPrefixes_eq fun x hx => h.txPrefixes x (List.mem_reverse.mp hx), ← parse_announcementTail h]
  cases parseRecallByte2AndSolutionHash (announcementTail a) with
  | error reason =>
    constructor
    · rintro ⟨⟩
    · rintro ⟨⟩
  | ok r =>
    simp [Except.map, bind, Except.bind, pure, Except.pure, toOptionalInt_optionalBytes, BlockAnnouncement.ext_iff,
      Prod.ext_iff]

end Announcement

section Response

/-- The indices take two bytes. -/
structure BlockAnnouncementResponse.Fits (response : BlockAnnouncementResponse) : Prop where
  missingTxIndices : ∀ n ∈ response.missingTxIndices, n < 256 ^ 2

variable {response : BlockAnnouncementResponse}

lemma encodeMissingTxIndicesFrom_eq (l : List Nat) (encoded : Bytes) :
    encodeMissingTxIndicesFrom l encoded = l.reverse.flatMap (Bytes.ofNat 2) ++ encoded := by
  induction l generalizing encoded with
  | nil => rfl
  | cons n l ih =>
    rw [encodeMissingTxIndicesFrom, ih]
    simp

lemma parseMissingTxIndices_eq {l : List Nat} (hl : ∀ n ∈ l, n < 256 ^ 2) (tail : Bytes) (indices : List Nat) :
    parseMissingTxIndicesAndMissingChunk2 (l.flatMap (Bytes.ofNat 2) ++ tail) indices =
      parseMissingTxIndicesAndMissingChunk2 tail (l.reverse ++ indices) := by
  induction l generalizing indices with
  | nil => rfl
  | cons n l ih =>
    obtain ⟨x, y, hxy⟩ : ∃ x y, Bytes.ofNat 2 n = [x, y] := List.length_eq_two.mp (Bytes.length_ofNat 2 n)
    have hn : Bytes.toNat [x, y] = n := by rw [← hxy, Bytes.toNat_ofNat_of_lt (hl n (by simp))]
    rw [List.flatMap_cons, hxy]
    change parseMissingTxIndicesAndMissingChunk2 (l.flatMap (Bytes.ofNat 2) ++ tail) (Bytes.toNat [x, y] :: indices) = _
    rw [hn, ih fun m hm => hl m (by simp [hm])]
    simp

lemma binaryToBlockAnnouncementResponse_blockAnnouncementResponseToBinary (h : response.Fits) :
    binaryToBlockAnnouncementResponse (blockAnnouncementResponseToBinary response) = .ok response := by
  have hindices : ∀ n ∈ response.missingTxIndices.reverse, n < 256 ^ 2 := fun n hn =>
    h.missingTxIndices n (List.mem_reverse.mp hn)
  obtain ⟨missingChunk, missingTxIndices, missingChunk2⟩ := response
  rw [blockAnnouncementResponseToBinary, encodeMissingTxIndices, encodeMissingTxIndicesFrom_eq, List.append_nil,
    binaryToBlockAnnouncementResponse, parseMissingTxIndices_eq hindices, List.reverse_reverse, List.append_nil]
  cases missingChunk <;> rcases missingChunk2 with _ | _ | _ <;> rfl

end Response

/-- What fits the fields is read back: every response, and every announcement that does not have a
second recall byte without the hash of the solution. -/
theorem block_announcement_round_trip :
    (∀ a : BlockAnnouncement, a.Fits → ∃ bin, blockAnnouncementToBinary a = some bin ∧
      (binaryToBlockAnnouncement bin = .ok a ↔ a.recallByte2 = none ∨ a.solutionHash ≠ none)) ∧
    ∀ response : BlockAnnouncementResponse, response.Fits →
      binaryToBlockAnnouncementResponse (blockAnnouncementResponseToBinary response) = .ok response :=
  ⟨fun _ h => binaryToBlockAnnouncement_blockAnnouncementToBinary h,
    fun _ h => binaryToBlockAnnouncementResponse_blockAnnouncementResponseToBinary h⟩

def sampleAnnouncement : BlockAnnouncement where
  indepHash := List.replicate 48 1
  previousBlock := List.replicate 48 2
  recallByte := some 0
  txPrefixes := [List.replicate 8 3, List.replicate 8 4]
  recallByte2 := some 1000
  solutionHash := some (List.replicate 32 5)

lemma fits_sampleAnnouncement : sampleAnnouncement.Fits where
  indepHash := by decide
  previousBlock := by decide
  recallByte := by decide
  count := by decide
  txPrefixes := by decide
  recallByte2 := by decide
  solutionHash := by decide

def sampleResponse : BlockAnnouncementResponse := ⟨true, [0, 731, 999], some false⟩

theorem block_announcement_round_trip_sample :
    (∃ bin, blockAnnouncementToBinary sampleAnnouncement = some bin ∧
      binaryToBlockAnnouncement bin = .ok sampleAnnouncement) ∧
    binaryToBlockAnnouncementResponse (blockAnnouncementResponseToBinary sampleResponse) = .ok sampleResponse := by
  constructor
  · obtain ⟨bin, hbin, hread⟩ := block_announcement_round_trip.1 sampleAnnouncement fits_sampleAnnouncement
    exact ⟨bin, hbin, hread.mpr (by decide)⟩
  · exact block_announcement_round_trip.2 sampleResponse ⟨by decide⟩

/-- An announcement with a second recall byte and no solution. -/
def loneRecallByte2 : BlockAnnouncement :=
  { indepHash := List.replicate 48 1, previousBlock := List.replicate 48 2, recallByte2 := some 1 }

/-- The same with a recall byte that takes 31 bytes. -/
def longRecallByte2 : BlockAnnouncement := { loneRecallByte2 with recallByte2 := some (256 ^ 30) }

lemma fits_loneRecallByte2 : loneRecallByte2.Fits ∧ longRecallByte2.Fits := by
  constructor
  · exact ⟨by decide, by decide, by decide, by decide, by decide, by decide, by decide⟩
  · exact ⟨by decide, by decide, by decide, by decide, by decide, by decide, by decide⟩

/-- The first is refused, and the second is read as an announcement with a solution. -/
theorem not_round_trip_loneRecallByte2 :
    (loneRecallByte2.Fits ∧ (blockAnnouncementToBinary loneRecallByte2).map binaryToBlockAnnouncement =
      some (.error .invalidRecallByte2AndSolutionHashInput)) ∧
    longRecallByte2.Fits ∧ (blockAnnouncementToBinary longRecallByte2).map binaryToBlockAnnouncement =
      some (.ok { longRecallByte2 with recallByte2 := none, solutionHash := some (31 :: 1 :: List.replicate 30 0) }) := by
  refine ⟨⟨fits_loneRecallByte2.1, ?_⟩, fits_loneRecallByte2.2, ?_⟩
  · decide
  · decide +kernel

end Arweave.Serialize

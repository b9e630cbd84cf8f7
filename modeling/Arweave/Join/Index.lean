import Arweave.Lib.Ancestry
import Arweave.BlockIndex.Index

/-!
# Downloading the block index

A joining node asks a peer for the block index in ranges that overlap by one element, the oldest range
first, and stitches them newest first. The peer may change its chain between two requests.
-/

namespace Arweave.Join

open Lib BlockIndex

section Code

/-- The part of a block index, newest first, between two heights. -/
def blockIndexRange {α : Type} (bi : List α) (start stop : Nat) : List α :=
  (bi.drop (bi.length - 1 - stop)).take (stop + 1 - start)

variable (N : Nat) (getBlockIndex : Nat → Nat → Nat → Option (List Element)) (height : Nat)

/-- The `i`th request and those after it. The inner `none` is `unavailable`, the outer one a crash or a
download that has not ended. -/
def getBlockIndex2 : Nat → Nat → Nat → List Element → Option (Option (List Element))
  | 0, _, _, _ => none
  | left + 1, i, start, bi =>
    match getBlockIndex i (min start height) (min height (start + N - 1)) with
    | none => some none
    | some range =>
      if range.length < N then
        if start = 0 then some (some range)
        else
          match range.getLast?, bi with
          | some last, first :: rest => if last = first then some (some (range ++ rest)) else some none
          | _, _ => none
      else if range.length = N then
        if start = 0 then getBlockIndex2 left (i + 1) (start + N - 1) range
        else
          match range.getLast?, bi with
          | some last, first :: rest =>
            if last = first then getBlockIndex2 left (i + 1) (start + N - 1) (range ++ rest) else some none
          | _, _ => none
      else some none

end Code

section Stitching

variable {A : Ancestry Element} {N height start stop left i : Nat} {getBlockIndex : Nat → Nat → Nat → Option (List Element)}
  {x : Element}

lemma blockIndexRange_path (hroot : A.Rooted) (hstart : start ≤ stop) (hstop : stop ≤ A.height x) :
    ∃ y z l, blockIndexRange (A.path x) start stop = l ++ [z] ∧ A.path y = l ++ A.path z ∧ A.height y = stop ∧
      A.height z = start := by
  have hlength : (A.path x).length - 1 - stop = A.height x - stop := by
    rw [Ancestry.length_path hroot]
    omega
  obtain ⟨y, hy, hheight⟩ := Ancestry.exists_drop_path (x := x) hroot (k := A.height x - stop) (by omega)
  obtain ⟨z, hz, hheight'⟩ := Ancestry.exists_drop_path (x := y) hroot (k := stop - start) (by omega)
  obtain ⟨below, hbelow⟩ := A.exists_path_eq z
  refine ⟨y, z, (A.path y).take (stop - start), ?_, ?_, by omega, by omega⟩
  · have hmember : (A.path y)[stop - start]? = some z := by
      have hhead := congrArg List.head? hz
      rw [List.head?_drop, hbelow] at hhead
      exact hhead
    rw [blockIndexRange, hlength, hy, show stop + 1 - start = stop - start + 1 by omega, List.take_add_one, hmember]
    rfl
  · rw [← hz, List.take_append_drop]

/-- The peer answers every request with the range of the chain that it has at that moment. -/
def Answers (A : Ancestry Element) (height : Nat) (getBlockIndex : Nat → Nat → Nat → Option (List Element)) : Prop :=
  ∀ i, ∃ tip, height ≤ A.height tip ∧ ∀ start stop, getBlockIndex i start stop = some (blockIndexRange (A.path tip) start stop)

lemma answer_cases (hroot : A.Rooted) (h : Answers A height getBlockIndex) (hstart : start ≤ height) (hN : 2 ≤ N) (i : Nat) :
    ∃ y z l, getBlockIndex i (min start height) (min height (start + N - 1)) = some (l ++ [z]) ∧
      A.path y = l ++ A.path z ∧ A.height y = min height (start + N - 1) ∧ A.height z = start ∧
      (l ++ [z]).length = min height (start + N - 1) + 1 - start := by
  obtain ⟨tip, htip, hanswer⟩ := h i
  obtain ⟨y, z, l, hrange, hpath, hy, hz⟩ :=
    blockIndexRange_path hroot (show start ≤ min height (start + N - 1) by omega)
      (show min height (start + N - 1) ≤ A.height tip by omega)
  refine ⟨y, z, l, ?_, hpath, hy, hz, ?_⟩
  · rw [hanswer, Nat.min_eq_left hstart, hrange]
  · have hlength := congrArg List.length hpath
    rw [List.length_append, Ancestry.length_path hroot, Ancestry.length_path hroot] at hlength
    rw [List.length_append, List.length_singleton]
    omega

lemma stitched (hroot : A.Rooted) (h : Answers A height getBlockIndex) (hN : 2 ≤ N) (hpos : 0 < start)
    (hstart : start ≤ height) (hx : A.height x = start) (hleft : height - start < left) :
    ∃ result, getBlockIndex2 N getBlockIndex height left i start (A.path x) = some result ∧
      ∀ bi, result = some bi → ∃ y, bi = A.path y ∧ A.height y = height := by
  induction left generalizing i start x with
  | zero => omega
  | succ left ih =>
    obtain ⟨y, z, l, hanswer, hpath, hy, hz, hlength⟩ := answer_cases hroot h hstart hN i
    obtain ⟨below, hbelow⟩ := A.exists_path_eq x
    rw [getBlockIndex2, hanswer, hbelow]
    simp only [List.getLast?_append, List.getLast?_singleton, Option.some_or, if_neg hpos.ne']
    -- the ranges overlap in one element, from which both chains are the same
    have hjoin : z = x → l ++ [z] ++ below = A.path y := by
      rintro rfl
      rw [hpath, hbelow, List.append_assoc]
      rfl
    split_ifs with hshort heq hfull heq'
    · refine ⟨_, rfl, ?_⟩
      rintro _ ⟨⟩
      exact ⟨y, hjoin heq, by omega⟩
    · exact ⟨none, rfl, by rintro _ ⟨⟩⟩
    · rw [hjoin heq']
      have hnext : min height (start + N - 1) = start + N - 1 := by omega
      rw [hnext] at hy
      exact ih (by omega) (by omega) hy (by omega)
    · exact ⟨none, rfl, by rintro _ ⟨⟩⟩
    · exact ⟨none, rfl, by rintro _ ⟨⟩⟩

/-- Whatever chains the peer has when it answers, the download ends, and a block index that it returns is the one
of a single chain from height zero to the reported height. -/
theorem joined_index_is_chain (A : Ancestry Element) (hroot : A.Rooted) (N height : Nat) (hN : 2 ≤ N)
    (getBlockIndex : Nat → Nat → Nat → Option (List Element)) (h : Answers A height getBlockIndex) (left : Nat)
    (hleft : height + 1 < left) :
    ∃ result, getBlockIndex2 N getBlockIndex height left 0 0 [] = some result ∧
      ∀ bi, result = some bi → bi.length = height + 1 ∧ ∃ x, A.height x = height ∧ bi = A.path x := by
  have hresult : ∃ result, getBlockIndex2 N getBlockIndex height left 0 0 [] = some result ∧
      ∀ bi, result = some bi → ∃ x, bi = A.path x ∧ A.height x = height := by
    obtain ⟨left, rfl⟩ := Nat.exists_eq_add_of_lt hleft
    obtain ⟨y, z, l, hanswer, hpath, hy, hz, hlength⟩ := answer_cases hroot h (Nat.zero_le height) hN 0
    -- the first range goes down to the end of the chain
    have hwhole : l ++ [z] = A.path y := by
      obtain ⟨below, hbelow⟩ := A.exists_path_eq z
      have hone := Ancestry.length_path hroot z
      rw [hz, hbelow, List.length_cons] at hone
      obtain rfl : below = [] := List.length_eq_zero_iff.mp (by omega)
      rw [hpath, hbelow]
    rw [show height + 1 + left + 1 = (height + 1 + left) + 1 from rfl, getBlockIndex2, hanswer]
    simp only [if_pos trivial]
    split_ifs with hshort hfull
    · refine ⟨_, rfl, ?_⟩
      rintro _ ⟨⟩
      exact ⟨y, hwhole, by omega⟩
    · rw [hwhole]
      exact stitched hroot h hN (by omega) (by omega) (by omega) (by omega)
    · exact ⟨none, rfl, by rintro _ ⟨⟩⟩
  obtain ⟨result, hdone, hchain⟩ := hresult
  refine ⟨result, hdone, ?_⟩
  intro bi hbi
  obtain ⟨x, rfl, hx⟩ := hchain bi hbi
  exact ⟨by rw [Ancestry.length_path hroot, hx], x, hx, rfl⟩

end Stitching

/-- Chains of elements that are told apart by their hashes, one chain for each hash. -/
def sampleChains : Ancestry Element where
  parent e := if e.weaveSize = 0 then none else some { e with weaveSize := e.weaveSize - 1 }
  height e := e.weaveSize
  height_eq := by
    intro x y h
    split_ifs at h
    cases h
    simp only
    omega

/-- A peer with another chain from its third answer on. -/
def sampleTip (i : Nat) : Element := if i < 2 then ⟨[1], 3, []⟩ else ⟨[2], 4, []⟩

def sampleIndex (i start stop : Nat) : Option (List Element) :=
  some (blockIndexRange (sampleChains.path (sampleTip i)) start stop)

theorem joined_index_is_chain_sample :
    (∃ result, getBlockIndex2 2 sampleIndex 1 3 0 0 [] = some result ∧
      ∀ bi, result = some bi → bi.length = 2 ∧ ∃ x, sampleChains.height x = 1 ∧ bi = sampleChains.path x) ∧
    getBlockIndex2 2 sampleIndex 1 3 0 0 [] = some (some [⟨[1], 1, []⟩, ⟨[1], 0, []⟩]) ∧
    getBlockIndex2 2 sampleIndex 3 5 0 0 [] = some none := by
  refine ⟨joined_index_is_chain sampleChains ?_ 2 1 le_rfl sampleIndex ?_ 3 (by decide), by decide, by decide⟩
  · intro x hx
    by_contra hne
    have hparent : sampleChains.parent x = some { x with weaveSize := x.weaveSize - 1 } := if_neg hne
    rw [hparent] at hx
    cases hx
  · intro i
    refine ⟨sampleTip i, ?_, fun start stop => rfl⟩
    unfold sampleTip
    split_ifs <;> decide

end Arweave.Join

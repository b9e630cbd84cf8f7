import Arweave.Patricia.Iterator
import Arweave.Patricia.Runs

/-!
# Paging through the accounts

The account list is served in chunks. A chunk is asked for with one account more than it
holds, and the key of this account is the cursor of the next chunk. Following the cursors
from the first chunk to the last one visits every account once.
-/

namespace Arweave.Wallet
open Arweave.Lib Arweave.Patricia

variable {V : Type}

inductive Cursor where
  | first
  | key (bytes : Bytes)
  | last
  deriving DecidableEq

/-- `get_account_tree_range/2`; a cursor that is not a binary gives an empty range. -/
def getAccountTreeRange (chunkSize fuel : Nat) (tree : Patricia.Tree V) (cursor : Cursor) :
    Option (Cursor × List (Bytes × V)) := do
  let range ←
    match cursor with
    | .first => getRange fuel (chunkSize + 1) tree
    | .key start => getRangeStart fuel start (chunkSize + 1) tree
    | .last => some []
  if range.length = chunkSize + 1 then
    match range with
    | [] => none
    | (key, _) :: rest => some (.key key, rest)
  else
    some (.last, range)

/-- The accounts of all chunks from a cursor on, each chunk turned to ascending order. -/
def followCursors (chunkSize fuel : Nat) (tree : Patricia.Tree V) :
    Nat → Cursor → Option (List (Bytes × V))
  | 0, _ => none
  | steps + 1, cursor => do
    let (next, range) ← getAccountTreeRange chunkSize fuel tree cursor
    if next = .last then
      some range.reverse
    else do
      let rest ← followCursors chunkSize fuel tree steps next
      some (range.reverse ++ rest)

variable {tree : Patricia.Tree V} {M : SortedMap Bytes V} {L fuel : Nat}

/-- The cursor stands for the given last part of the entries. -/
def StartsAt (M : SortedMap Bytes V) (l : List (Bytes × V)) : Cursor → Prop
  | .first => l = M.entries
  | .key start => ∃ before v rest, M.entries = before ++ l ∧ l = (start, v) :: rest
  | .last => False

lemma filter_le_eq {before rest : List (Bytes × V)} {start : Bytes} {v : V}
    (h : M.entries = before ++ (start, v) :: rest) :
    (M.entries.filter fun e => start ≤ e.1) = (start, v) :: rest := by
  have hsorted := M.sorted
  rw [h, List.pairwise_append, List.pairwise_cons] at hsorted
  obtain ⟨-, ⟨hrest, -⟩, hbefore⟩ := hsorted
  rw [h, List.filter_append, List.filter_eq_nil_iff.mpr, List.nil_append, List.filter_eq_self]
  · intro e he
    rcases List.mem_cons.mp he with rfl | he
    · simp
    · simpa using (hrest e he).le
  · intro e he
    simpa using hbefore e he (start, v) (by simp)

section Paging

variable (h : Represents tree M) (hb : Bounded tree L) (hfuel : 2 * L + 6 ≤ fuel)
include h hb hfuel

lemma getAccountTreeRange_eq (chunkSize : Nat) {cursor : Cursor} {l : List (Bytes × V)}
    (hl : StartsAt M l cursor) :
    (l.length ≤ chunkSize ∧ getAccountTreeRange chunkSize fuel tree cursor = some (.last, l.reverse)) ∨
    ∃ chunk key v rest, l = chunk ++ (key, v) :: rest ∧ chunk.length = chunkSize ∧
      getAccountTreeRange chunkSize fuel tree cursor = some (.key key, chunk.reverse) := by
  have hrange : getAccountTreeRange chunkSize fuel tree cursor =
      if (l.take (chunkSize + 1)).reverse.length = chunkSize + 1 then
        match (l.take (chunkSize + 1)).reverse with
        | [] => none
        | (key, _) :: rest => some (.key key, rest)
      else
        some (.last, (l.take (chunkSize + 1)).reverse) := by
    unfold getAccountTreeRange
    cases cursor with
    | first =>
      simp only [getRange_eq h hb hfuel, Option.bind_eq_bind, Option.bind_some, show l = M.entries from hl]
    | key start =>
      obtain ⟨before, v, rest, hentries, rfl⟩ := hl
      have hlookup : M.lookup start = some v := by
        rw [SortedMap.lookup_eq_some, hentries]
        simp
      simp only [getRangeStart_eq h hb hfuel hlookup, filter_le_eq hentries, Option.bind_eq_bind,
        Option.bind_some]
    | last => exact absurd hl not_false
  by_cases hlen : l.length ≤ chunkSize
  · left
    refine ⟨hlen, ?_⟩
    rw [hrange, List.take_of_length_le (by omega), if_neg]
    rw [List.length_reverse]
    omega
  · right
    obtain ⟨e, rest, hdrop⟩ : ∃ e rest, l.drop chunkSize = e :: rest := by
      cases hd : l.drop chunkSize with
      | nil =>
        have := List.drop_eq_nil_iff.mp hd
        omega
      | cons e rest => exact ⟨e, rest, rfl⟩
    have hsplit : l = l.take chunkSize ++ e :: rest := by
      rw [← hdrop, List.take_append_drop]
    have htake : l.take (chunkSize + 1) = l.take chunkSize ++ [e] := by
      rw [List.take_add, hdrop]
      rfl
    refine ⟨l.take chunkSize, e.1, e.2, rest, hsplit, ?_, ?_⟩
    · rw [List.length_take]
      omega
    · rw [hrange, htake, List.reverse_append, if_pos]
      · rfl
      · simp only [List.length_append, List.length_reverse, List.length_singleton, List.length_take]
        omega

lemma followCursors_eq {chunkSize : Nat} (hchunk : 0 < chunkSize) (steps : Nat) {cursor : Cursor}
    {l : List (Bytes × V)} (hl : StartsAt M l cursor) (hsuffix : ∃ before, M.entries = before ++ l)
    (hsteps : l.length < steps) : followCursors chunkSize fuel tree steps cursor = some l := by
  induction steps generalizing cursor l with
  | zero => exact absurd hsteps (Nat.not_lt_zero _)
  | succ steps ih =>
    rw [followCursors]
    rcases getAccountTreeRange_eq h hb hfuel chunkSize hl with
      ⟨-, hrange⟩ | ⟨chunk, key, v, rest, rfl, hlen, hrange⟩
    · simp [hrange]
    · obtain ⟨before, hentries⟩ := hsuffix
      rw [← List.append_assoc] at hentries
      have hnext : StartsAt M ((key, v) :: rest) (.key key) := ⟨before ++ chunk, v, rest, hentries, rfl⟩
      rw [List.length_append] at hsteps
      have hrest := ih hnext ⟨_, hentries⟩ (by omega)
      simp [hrange, hrest]

end Paging

/-- Ranges and paging over a tree after any run: `get_range` returns the first entries in
ascending order, last one first, and the cursors lead through all accounts once. -/
theorem paging_complete (H : Digest 48) (hashFun : Bytes → V → Bytes) (ops : List (Op V)) (L fuel : Nat)
    (hops : ∀ op ∈ ops, op.Fits L) (hfuel : 2 * L + 6 ≤ fuel) :
    ∃ (tree : Patricia.Tree V) (M : SortedMap Bytes V), run H hashFun fuel ops new = some tree ∧
      (∀ key, M.lookup key = live ops key) ∧
      (∀ count, getRange fuel count tree = some (M.entries.take count).reverse) ∧
      (∀ start count, live ops start ≠ none → getRangeStart fuel start count tree =
        some ((M.entries.filter fun e => start ≤ e.1).take count).reverse) ∧
      ∀ chunkSize steps, 0 < chunkSize → M.size < steps →
        followCursors chunkSize fuel tree steps .first = some M.entries := by
  have hrunFuel : L + 2 ≤ fuel := by omega
  obtain ⟨tree, hrun, h⟩ := sound_run H hashFun hrunFuel hops
  refine ⟨tree, contents ops, hrun, lookup_contents ops, fun count => ?_, fun start count hstart => ?_,
    fun chunkSize steps hchunk hsteps => ?_⟩
  · exact getRange_eq h.represents h.bounded hfuel count
  · obtain ⟨v, hv⟩ := Option.ne_none_iff_exists'.mp hstart
    rw [← lookup_contents] at hv
    exact getRangeStart_eq h.represents h.bounded hfuel hv count
  · exact followCursors_eq h.represents h.bounded hfuel hchunk steps rfl ⟨[], rfl⟩ hsteps

/-- Four keys are left, and three of them begin with one another. -/
def pagingOps : List (Op Nat) :=
  [.insert [97, 98] 2, .insert [97] 1, .insert [98] 4, .computeHash, .insert [97, 98, 99] 3, .insert [97, 99] 5,
    .delete [97, 99]]

theorem paging_complete_pagingOps :
    ∃ tree : Patricia.Tree Nat, run Sha2.sha384 sampleHash 12 pagingOps new = some tree ∧
      getRange 12 3 tree = some [([97, 98, 99], 3), ([97, 98], 2), ([97], 1)] ∧
      getRangeStart 12 [97, 98] 2 tree = some [([97, 98, 99], 3), ([97, 98], 2)] ∧
      followCursors 1 12 tree 5 .first = some [([97], 1), ([97, 98], 2), ([97, 98, 99], 3), ([98], 4)] := by
  obtain ⟨tree, M, hrun, hlookup, hrange, hstart, hcursors⟩ :=
    paging_complete Sha2.sha384 sampleHash pagingOps 3 12 (by decide) (by decide)
  obtain rfl : M = contents pagingOps :=
    SortedMap.ext_lookup fun key => (hlookup key).trans (lookup_contents pagingOps key).symm
  have hentries : (contents pagingOps).entries = [([97], 1), ([97, 98], 2), ([97, 98, 99], 3), ([98], 4)] := by decide
  refine ⟨tree, hrun, ?_, ?_, ?_⟩
  · rw [hrange 3, hentries]
    rfl
  · rw [hstart [97, 98] 2 (by decide), hentries]
    rfl
  · rw [hcursors 1 5 (by decide) (by decide), hentries]

end Arweave.Wallet

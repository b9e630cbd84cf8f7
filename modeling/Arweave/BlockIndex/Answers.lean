import Mathlib.Data.Option.Basic
import Arweave.BlockIndex.Intersections

/-!
# The block index answers like the list it represents
-/

namespace Arweave.BlockIndex

open Lib

variable {t : Table} {l bi : List Element}

/-- All the queries of the table answer as the list of elements, the oldest first, prescribes. -/
structure Answers (t : Table) (l : List Element) : Prop where
  getList : ∀ height : Int, t.getList height = some (l.take (height + 1).toNat).reverse
  getListByHash : ∀ h, t.getListByHash h = some (upTo l h).reverse
  getElementByHeight : ∀ height : Int, t.getElementByHeight height = some (atHeight l height)
  member : ∀ h, t.member h = some (l.any (·.h = h))
  getRange_of_lt : ∀ first last : Int, last < first → t.getRange first last = some []
  getRange : ∀ first last : Int, first ≤ last →
    t.getRange first last = (atHeight l first).map fun _ => ((l.take (last + 1).toNat).drop first.toNat).reverse
  existsUnique_covers : ∀ offset : Int, 0 ≤ offset → offset < weaveSize l → ∃! i, Covers l offset i
  getBlockBounds : ∀ (offset : Int) i e, l[i]? = some e → Covers l offset i →
    t.getBlockBounds offset = some (blockStart l i, e.weaveSize, e.txRoot)
  getBlockBounds_of_le : ∀ offset : Int, weaveSize l ≤ offset → t.getBlockBounds offset = none
  getIntersectionAt : ∀ (height : Int) bi, t.getIntersectionAt height bi = intersectionAt l height bi
  getIntersectionAt_of_linked : ∀ (first : Nat) bi, Linked l first bi →
    (t.getIntersectionAt first bi = none ∧ ∀ height, ¬IsCommon l first bi height) ∨
      ∃ height e, t.getIntersectionAt first bi = some (height, e) ∧
        IsGreatest {height | IsCommon l first bi height} height ∧ bi.reverse[height - first]? = some e
  getIntersection : ∀ bi, t.getIntersection bi = intersection l bi
  getIntersection_of_chained : ∀ bi, Chained l bi → t.getIntersection bi = bi.find? (· ∈ l)

lemma Represents.answers (ht : Represents t l) (hl : Nondecreasing l) : Answers t l where
  getList := ht.getList_eq
  getListByHash := ht.getListByHash_eq
  getElementByHeight := ht.getElementByHeight_eq
  member := ht.member_eq
  getRange_of_lt _ _ hlt := if_pos hlt
  getRange _ _ hle := ht.getRange_eq hle
  existsUnique_covers offset hnonneg hlt := by
    obtain ⟨i, hi⟩ := exists_covers hnonneg hlt
    exact ⟨i, hi, fun j hj => hj.unique hl hi⟩
  getBlockBounds _ _ _ he hcovers := ht.getBlockBounds_eq hl hcovers he
  getBlockBounds_of_le _ hge := ht.getBlockBounds_eq_none hl hge
  getIntersectionAt := ht.getIntersectionAt_eq
  getIntersectionAt_of_linked first bi hlinked := by
    rw [ht.getIntersectionAt_eq]
    exact intersectionAt_spec hlinked
  getIntersection := ht.getIntersection_eq hl
  getIntersection_of_chained bi hc := by
    rw [ht.getIntersection_eq hl]
    exact intersection_eq_find? hc

/-- After any updates, with weave sizes that never decrease along the list, the table exists when
the updated list does and answers like it. -/
theorem run_answers (bi : List Element) (ops : List Update)
    (hsorted : ∀ before l, before <+: ops → runList bi.reverse before = some l → Nondecreasing l) :
    Option.Rel Answers (run (Table.init bi) ops) (runList bi.reverse ops) := by
  have hinit : Represents (Table.init bi) bi.reverse := init_represents (hsorted [] bi.reverse ops.nil_prefix rfl)
  have hrel := run_represents hinit hsorted
  generalize run (Table.init bi) ops = r at hrel ⊢
  cases hl : runList bi.reverse ops with
  | none =>
    rw [hl] at hrel
    cases hrel
    exact .none
  | some l =>
    rw [hl] at hrel
    cases hrel with
    | some ht => exact .some (ht.answers (hsorted ops l List.prefix_rfl hl))

section Samples

/-- Three blocks, the last two of them empty. -/
def sampleIndex : List Element := [⟨[3], 5, [13]⟩, ⟨[2], 5, [12]⟩, ⟨[1], 5, [11]⟩]

/-- One orphaned block and two new ones. -/
def sampleUpdate : Update := ([⟨[4], 5, [14]⟩, ⟨[5], 9, [15]⟩], 1)

theorem run_answers_sample :
    Option.Rel Answers (run (Table.init sampleIndex) [sampleUpdate])
      (some [⟨[1], 5, [11]⟩, ⟨[2], 5, [12]⟩, ⟨[4], 5, [14]⟩, ⟨[5], 9, [15]⟩]) := by
  refine run_answers sampleIndex [sampleUpdate] ?_
  intro before l hbefore hrun
  rcases List.prefix_cons_iff.mp hbefore with rfl | ⟨rest, rfl, hrest⟩
  · cases hrun
    decide
  · rw [List.prefix_nil.mp hrest] at hrun
    cases hrun
    decide

/-- A given list that leaves the chain and joins it again. -/
def crossingList : List Element := [⟨[3], 5, [13]⟩, ⟨[7], 5, [17]⟩, ⟨[1], 5, [11]⟩]

/-- The intersection need not be at the greatest common height, and a new element with a smaller
weave size is not found at its height. -/
theorem not_answers_crossingList :
    ((Table.init sampleIndex).getIntersectionAt 0 crossingList = some (0, ⟨[1], 5, [11]⟩) ∧
        ¬IsGreatest {height | IsCommon sampleIndex.reverse 0 crossingList height} 0) ∧
      (run (Table.init sampleIndex) [([⟨[4], 4, [14]⟩], 0)]).map (·.getElementByHeight 3) = some none ∧
      runList sampleIndex.reverse [([⟨[4], 4, [14]⟩], 0)] = some (sampleIndex.reverse ++ [⟨[4], 4, [14]⟩]) := by
  refine ⟨⟨by decide, ?_⟩, by decide, by decide⟩
  intro hgreatest
  have hcommon : IsCommon sampleIndex.reverse 0 crossingList 2 :=
    ⟨Nat.zero_le 2, ⟨[3], 5, [13]⟩, rfl, ⟨[3], 5, [13]⟩, rfl, rfl⟩
  exact absurd (hgreatest.2 hcommon) (by decide)

end Samples

end Arweave.BlockIndex

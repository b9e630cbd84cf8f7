import Mathlib.Data.List.TakeWhile
import Arweave.BlockIndex.Queries

/-!
# Intersections with a given list

`get_intersection` walks the table and the given list together, from the oldest given element on,
while the two agree. It finds the newest common element when the elements below a common element
are common too.
-/

namespace Arweave.BlockIndex

open Lib

variable {t : Table} {l bi : List Element} {e e' : Element} {i n height : Nat} {h : Bytes}

/-- The number of leading elements with the same hashes. -/
def agreement (l bi : List Element) : Nat := (commonPrefix (l.map (·.h)) (bi.map (·.h))).length

@[simp] lemma agreement_nil_left : agreement [] bi = 0 := rfl

@[simp] lemma agreement_nil_right : agreement l [] = 0 := by
  cases l with
  | nil => rfl
  | cons e l => rfl

lemma agreement_cons : agreement (e :: l) (e' :: bi) = if e.h = e'.h then agreement l bi + 1 else 0 := by
  rw [agreement, List.map_cons, List.map_cons, commonPrefix]
  split_ifs with heq
  · rfl
  · rfl

/-- The last of the elements from the height on that agree with those of the given list. -/
def intersectionAt (l : List Element) (height : Int) (bi : List Element) : Option (Nat × Element) :=
  if height < 0 then none
  else
    let m := agreement (l.drop height.toNat) bi.reverse
    if m = 0 then none else (bi.reverse[m - 1]?).map fun e => (height.toNat + m - 1, e)

/-- The first element with the hash and the weave size of the oldest given element, or the last
one from there on up to which the elements are those of the given list. -/
def intersection (l bi : List Element) : Option Element :=
  match bi.reverse with
  | [] => none
  | e :: bi =>
    match l.dropWhile fun x => ¬(x.weaveSize = e.weaveSize ∧ x.h = e.h) with
    | [] => none
    | x :: l => some ((commonPrefix l bi).getLast?.getD x)

namespace Represents

lemma getIntersectionLoop_eq (ht : Represents t l) (hi : 0 < i) :
    ∃ e', (e :: bi)[agreement (l.drop i) bi]? = some e' ∧
      t.getIntersectionLoop i e bi t.elems[i]? = (i + agreement (l.drop i) bi - 1, e') := by
  induction bi generalizing i e with
  | nil =>
    refine ⟨e, by simp, ?_⟩
    cases hx : t.elems[i]? with
    | none => simp [Table.getIntersectionLoop]
    | some key => simp [Table.getIntersectionLoop]
  | cons e' bi ih =>
    cases hx : l[i]? with
    | none =>
      rw [drop_of_getElem?_none hx, ht.getElem?_none hx]
      exact ⟨e, rfl, rfl⟩
    | some x =>
      rw [drop_of_getElem? hx, ht.getElem?_some hx, agreement_cons, Table.getIntersectionLoop, height_entry, h_entry,
        ht.next_entry hx]
      by_cases heq : x.h = e'.h
      · obtain ⟨e'', he'', hloop⟩ := @ih e' (i + 1) (by omega)
        refine ⟨e'', ?_, ?_⟩
        · rw [if_pos heq, List.getElem?_cons_succ]
          exact he''
        · rw [if_pos ⟨rfl, heq⟩, if_pos heq, hloop]
          congr 1
          omega
      · rw [if_neg heq, if_neg fun hand => heq hand.2]
        exact ⟨e, rfl, rfl⟩

lemma getIntersectionAt_eq (ht : Represents t l) (height : Int) (bi : List Element) :
    t.getIntersectionAt height bi = intersectionAt l height bi := by
  rw [Table.getIntersectionAt, intersectionAt]
  split_ifs with hneg
  · rfl
  · rw [ht.slot_eq]
    cases bi.reverse with
    | nil => simp
    | cons e bi =>
      cases hx : atHeight l height with
      | none =>
        rw [atHeight, if_neg hneg] at hx
        simp [drop_of_getElem?_none hx]
      | some x =>
        obtain ⟨hnonneg, hx⟩ := atHeight_eq_some.mp hx
        simp only [Option.map_some, height_entry, h_entry, Int.toNat_of_nonneg hnonneg, true_and, drop_of_getElem? hx,
          agreement_cons, ht.next_entry hx]
        by_cases heq : x.h = e.h
        · obtain ⟨e', he', hloop⟩ := @getIntersectionLoop_eq t l bi e (height.toNat + 1) ht (by omega)
          rw [if_pos heq, if_pos heq, if_neg (Nat.add_one_ne_zero _), Nat.add_sub_cancel, he', hloop, Option.map_some]
          congr 2
          omega
        · rw [if_neg heq, if_neg heq, if_pos rfl]

lemma getIntersection3_eq (ht : Represents t l) :
    t.getIntersection3 t.elems[i]? bi e = (commonPrefix (l.drop i) bi).getLast?.getD e := by
  induction bi generalizing i e with
  | nil =>
    cases hx : t.elems[i]? with
    | none => simp [Table.getIntersection3, commonPrefix]
    | some key => simp [Table.getIntersection3, commonPrefix]
  | cons e' bi ih =>
    cases hx : l[i]? with
    | none =>
      rw [drop_of_getElem?_none hx, ht.getElem?_none hx]
      rfl
    | some x =>
      rw [drop_of_getElem? hx, ht.getElem?_some hx, Table.getIntersection3, element_entry, ht.next_entry hx, commonPrefix]
      by_cases heq : x = e'
      · rw [if_pos heq, if_pos heq, ih, List.getLast?_cons, Option.getD_some, heq]
      · rw [if_neg heq, if_neg heq]
        rfl

/-- The search among the elements from a position on, all at least as large as the given weave size. -/
lemma getIntersection2_eq (ht : Represents t l) (hl : Nondecreasing l) (hn : l.length ≤ i + n)
    (hge : ∀ j x, i ≤ j → l[j]? = some x → e.weaveSize ≤ x.weaveSize) :
    t.getIntersection2 e.h e.weaveSize bi n t.elems[i]? =
      match (l.drop i).dropWhile fun x => ¬(x.weaveSize = e.weaveSize ∧ x.h = e.h) with
      | [] => none
      | x :: l => some ((commonPrefix l bi).getLast?.getD x) := by
  induction n generalizing i with
  | zero =>
    have hx : l[i]? = none := List.getElem?_eq_none hn
    simp [ht.getElem?_none hx, Table.getIntersection2, drop_of_getElem?_none hx]
  | succ n ih =>
    cases hx : l[i]? with
    | none => simp [ht.getElem?_none hx, Table.getIntersection2, drop_of_getElem?_none hx]
    | some x =>
      rw [ht.getElem?_some hx, Table.getIntersection2, weaveSize_entry, h_entry, txRoot_entry, ht.next_entry hx,
        ht.getIntersection3_eq]
      have hxge := hge i x le_rfl hx
      by_cases hlt : e.weaveSize < x.weaveSize
      · -- all the elements from here on are larger
        have hnone : (l.drop i).dropWhile (fun x => ¬(x.weaveSize = e.weaveSize ∧ x.h = e.h)) = [] := by
          rw [List.dropWhile_eq_nil_iff]
          intro y hy
          obtain ⟨j, hj⟩ := List.mem_iff_getElem?.mp hy
          rw [List.getElem?_drop] at hj
          have hle : x.weaveSize ≤ y.weaveSize := by
            rcases Nat.eq_zero_or_pos j with rfl | hpos
            · rw [Nat.add_zero, hx, Option.some.injEq] at hj
              rw [hj]
            · exact hl.le_of_lt hx hj (by omega)
          apply decide_eq_true
          rintro ⟨heq, -⟩
          omega
        rw [if_pos hlt, hnone]
      · have heq : x.weaveSize = e.weaveSize := by omega
        rw [if_neg hlt, if_pos heq, drop_of_getElem? hx]
        by_cases hh : x.h = e.h
        · rw [if_pos hh, List.dropWhile_cons_of_neg (by simp [heq, hh])]
          simp [← heq, ← hh]
        · rw [if_neg hh, List.dropWhile_cons_of_pos (by simp [hh])]
          exact ih (by omega) fun j y hj hy => hge j y (by omega) hy

lemma getIntersection_eq (ht : Represents t l) (hl : Nondecreasing l) (bi : List Element) :
    t.getIntersection bi = intersection l bi := by
  rw [Table.getIntersection, intersection]
  cases bi.reverse with
  | nil => rfl
  | cons e bi =>
    let i := l.findIdx fun x => e.weaveSize ≤ x.weaveSize
    have hbelow : ∀ j < i, ∀ x ∈ l[j]?, x.weaveSize < e.weaveSize := by
      intro j hj x hx
      obtain ⟨hjlen, rfl⟩ := List.getElem?_eq_some_iff.mp hx
      have hnot := List.not_of_lt_findIdx hj
      simpa using hnot
    have hge : ∀ j x, i ≤ j → l[j]? = some x → e.weaveSize ≤ x.weaveSize := by
      intro j x hij hx
      have hilen : i < l.length := lt_of_le_of_lt hij (List.getElem?_eq_some_iff.mp hx).1
      have hat : e.weaveSize ≤ l[i].weaveSize := by
        have hfound := @List.findIdx_getElem _ (fun x : Element => decide (e.weaveSize ≤ x.weaveSize)) l hilen
        simpa using hfound
      have hi : l[i]? = some l[i] := List.getElem?_eq_getElem hilen
      rcases hij.eq_or_lt with rfl | hlt
      · rw [hi, Option.some.injEq] at hx
        rw [← hx]
        exact hat
      · exact hat.trans (hl.le_of_lt hi hx hlt)
    have hnext : t.nextOffset (e.weaveSize - 1) = t.elems[i]? := by
      apply ht.nextOffset_eq
      · intro j hj x hx
        have hlt := hbelow j hj x hx
        omega
      · intro x hx
        have hle := hge i x le_rfl hx
        omega
    have hdrop : l.dropWhile (fun x => ¬(x.weaveSize = e.weaveSize ∧ x.h = e.h)) =
        (l.drop i).dropWhile fun x => ¬(x.weaveSize = e.weaveSize ∧ x.h = e.h) := by
      conv_lhs => rw [← List.take_append_drop i l]
      apply List.dropWhile_append_of_pos
      intro x hx
      obtain ⟨j, hj⟩ := List.mem_iff_getElem?.mp hx
      rw [List.getElem?_take, Option.ite_none_right_eq_some] at hj
      have hlt := hbelow j hj.1 x hj.2
      apply decide_eq_true
      rintro ⟨heq, -⟩
      omega
    simp only [hnext, hdrop]
    exact ht.getIntersection2_eq hl (by rw [ht.length_eq]; omega) hge

end Represents

section Greatest

/-- The two lists have elements with the same hash at the position. -/
def AgreeAt (l bi : List Element) (i : Nat) : Prop := ∃ e ∈ l[i]?, ∃ e' ∈ bi[i]?, e.h = e'.h

lemma agreeAt_of_lt_agreement (hi : i < agreement l bi) : AgreeAt l bi i := by
  induction l generalizing bi i with
  | nil => simp at hi
  | cons e l ih =>
    cases bi with
    | nil => simp at hi
    | cons e' bi =>
      rw [agreement_cons] at hi
      split_ifs at hi with heq
      · cases i with
        | zero => exact ⟨e, rfl, e', rfl, heq⟩
        | succ i => exact ih (by omega)
      · omega

lemma not_agreeAt_agreement : ¬AgreeAt l bi (agreement l bi) := by
  induction l generalizing bi with
  | nil =>
    rintro ⟨e, he, -⟩
    cases he
  | cons e l ih =>
    cases bi with
    | nil =>
      rintro ⟨-, -, e', he', -⟩
      cases he'
    | cons e' bi =>
      rw [agreement_cons]
      split_ifs with heq
      · exact ih
      · rintro ⟨x, hx, x', hx', hxx'⟩
        cases hx
        cases hx'
        exact heq hxx'

/-- The block at the height is common to a list and to a given one whose oldest element is at the
first height. -/
def IsCommon (l : List Element) (first : Nat) (bi : List Element) (height : Nat) : Prop :=
  first ≤ height ∧ AgreeAt (l.drop first) bi.reverse (height - first)

/-- The block below a common one is common. -/
def Linked (l : List Element) (first : Nat) (bi : List Element) : Prop :=
  ∀ height, first ≤ height → IsCommon l first bi (height + 1) → IsCommon l first bi height

lemma isCommon_of_le {first height height' : Nat} (hlinked : Linked l first bi) (hfirst : first ≤ height)
    (hle : height ≤ height') (hcommon : IsCommon l first bi height') : IsCommon l first bi height := by
  induction height', hle using Nat.le_induction with
  | base => exact hcommon
  | succ height' hle ih => exact ih (hlinked height' (hfirst.trans hle) hcommon)

lemma isCommon_iff {first : Nat} (hlinked : Linked l first bi) :
    IsCommon l first bi height ↔ first ≤ height ∧ height < first + agreement (l.drop first) bi.reverse := by
  constructor
  · intro hcommon
    refine ⟨hcommon.1, ?_⟩
    by_contra hge
    have hend := isCommon_of_le hlinked (Nat.le_add_right _ _) (not_lt.mp hge) hcommon
    have hagree := hend.2
    rw [Nat.add_sub_cancel_left] at hagree
    exact not_agreeAt_agreement hagree
  · rintro ⟨hle, hlt⟩
    exact ⟨hle, agreeAt_of_lt_agreement (by omega)⟩

lemma intersectionAt_spec {first : Nat} (hlinked : Linked l first bi) :
    (intersectionAt l first bi = none ∧ ∀ height, ¬IsCommon l first bi height) ∨
      ∃ height e, intersectionAt l first bi = some (height, e) ∧ IsGreatest {height | IsCommon l first bi height} height ∧
        bi.reverse[height - first]? = some e := by
  rw [intersectionAt, if_neg (not_lt.mpr (Int.natCast_nonneg first))]
  simp only [Int.toNat_natCast]
  set m := agreement (l.drop first) bi.reverse with hm
  rcases Nat.eq_zero_or_pos m with hzero | hpos
  · left
    refine ⟨if_pos hzero, ?_⟩
    intro height hcommon
    obtain ⟨hle, hlt⟩ := (isCommon_iff hlinked).mp hcommon
    omega
  · right
    obtain ⟨x, -, e, he, -⟩ := agreeAt_of_lt_agreement (show m - 1 < agreement (l.drop first) bi.reverse by omega)
    refine ⟨first + m - 1, e, ?_, ⟨?_, ?_⟩, ?_⟩
    · rw [if_neg hpos.ne', he]
      rfl
    · exact (isCommon_iff hlinked).mpr ⟨by omega, by omega⟩
    · intro height hcommon
      have hlt := ((isCommon_iff hlinked).mp hcommon).2
      omega
    · rw [show first + m - 1 - first = m - 1 by omega]
      exact he

/-- The lists are parts of two chains: hashes are different and identify an element, and the
element below a common one is common. -/
structure Chained (l bi : List Element) : Prop where
  nodup : (l.map (·.h)).Nodup
  eq_of_h_eq : ∀ e ∈ l, ∀ e' ∈ bi, e.h = e'.h → e = e'
  below : ∀ newer e e' older, bi = newer ++ e :: e' :: older → e ∈ l → ∃ before after, l = before ++ e' :: e :: after

lemma Chained.exists_append {newer older : List Element} (hc : Chained l bi) (hbi : bi = newer ++ e :: older) (he : e ∈ l) :
    ∃ before after, l = before ++ older.reverse ++ e :: after := by
  induction older generalizing newer e with
  | nil =>
    obtain ⟨before, after, hl⟩ := List.append_of_mem he
    exact ⟨before, after, by rw [hl, List.reverse_nil, List.append_nil]⟩
  | cons e' older ih =>
    obtain ⟨before, after, hl⟩ := hc.below newer e e' older hbi he
    have he' : e' ∈ l := by
      rw [hl]
      simp
    obtain ⟨before', after', hl'⟩ := @ih e' (newer ++ [e]) (by rw [hbi, List.append_assoc]; rfl) he'
    have hnodup := List.Nodup.of_map _ hc.nodup
    -- the element below is at one place only
    have hafter : after' = e :: after := by
      rw [hl, List.nodup_append, List.nodup_cons] at hnodup
      have hbefore : e' ∉ before := fun hmem => hnodup.2.2 e' hmem e' (List.mem_cons_self) rfl
      exact (((List.append_cons_inj_of_notMem hbefore hnodup.2.1.1).mp (hl.symm.trans hl')).2.2).symm
    refine ⟨before', after, ?_⟩
    rw [hl', hafter, List.reverse_cons]
    simp only [List.append_assoc, List.cons_append, List.nil_append]

/-- With parts of two chains the intersection is the newest common element. -/
lemma intersection_eq_find? (hc : Chained l bi) : intersection l bi = bi.find? (· ∈ l) := by
  have hmatch : ∀ g ∈ bi, ∀ x ∈ l, x.weaveSize = g.weaveSize ∧ x.h = g.h → x = g :=
    fun g hg x hx heq => hc.eq_of_h_eq x hx g hg heq.2
  cases hfind : bi.find? (· ∈ l) with
  | none =>
    rw [List.find?_eq_none] at hfind
    rw [intersection]
    cases hrev : bi.reverse with
    | nil => rfl
    | cons g rest =>
      have hg : g ∈ bi := by
        rw [← List.mem_reverse, hrev]
        exact List.mem_cons_self
      have hnone : l.dropWhile (fun x => ¬(x.weaveSize = g.weaveSize ∧ x.h = g.h)) = [] := by
        rw [List.dropWhile_eq_nil_iff]
        intro x hx
        apply decide_eq_true
        intro heq
        rw [hmatch g hg x hx heq] at hx
        exact hfind g hg (decide_eq_true hx)
      simp only [hnone]
  | some e =>
    obtain ⟨he, newer, older, hbi, hnewer⟩ := List.find?_eq_some_iff_append.mp hfind
    obtain ⟨before, after, hl⟩ := hc.exists_append hbi (of_decide_eq_true he)
    obtain ⟨g, gs, hgs⟩ : ∃ g gs, older.reverse ++ [e] = g :: gs := List.exists_cons_of_ne_nil (by simp)
    have hlast : gs.getLast?.getD g = e := by
      have hlast := congrArg List.getLast? hgs
      rw [List.getLast?_concat, List.getLast?_cons, Option.some.injEq] at hlast
      exact hlast.symm
    have hrev : bi.reverse = g :: (gs ++ newer.reverse) := by
      rw [hbi, List.reverse_append, List.reverse_cons, hgs, List.cons_append]
    have hl' : l = before ++ g :: (gs ++ after) := by
      rw [hl, List.append_assoc, List.append_cons, hgs, List.cons_append]
    have hg : g ∈ bi := by
      rw [← List.mem_reverse, hrev]
      exact List.mem_cons_self
    have hskip : ∀ x ∈ before, decide (¬(x.weaveSize = g.weaveSize ∧ x.h = g.h)) = true := by
      intro x hx
      apply decide_eq_true
      intro heq
      have hnodup := List.Nodup.of_map _ hc.nodup
      rw [hl', List.nodup_append] at hnodup
      have hxl : x ∈ l := hl' ▸ List.mem_append_left _ hx
      exact hnodup.2.2 x hx g List.mem_cons_self (hmatch g hg x hxl heq)
    have hdrop : l.dropWhile (fun x => ¬(x.weaveSize = g.weaveSize ∧ x.h = g.h)) = g :: (gs ++ after) := by
      rw [hl', List.dropWhile_append_of_pos hskip]
      exact List.dropWhile_cons_of_neg (by simp)
    have hend : commonPrefix after newer.reverse = [] := by
      apply commonPrefix_eq_nil
      intro x hx hxafter
      have hnot := hnewer x (List.mem_reverse.mp hx)
      rw [Bool.not_eq_true', decide_eq_false_iff_not, hl] at hnot
      exact hnot (by simp [hxafter])
    simp only [intersection, hrev, hdrop, commonPrefix_append, hend, List.append_nil, hlast]

end Greatest

end Arweave.BlockIndex

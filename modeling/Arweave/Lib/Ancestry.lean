import Mathlib.Data.List.Basic
import Mathlib.Data.List.Pairwise
import Mathlib.Data.List.TakeWhile

/-!
# Ancestors

A forest with heights: every element has at most one parent, which is one lower. The path of an
element goes down through its ancestors. Two paths that meet go on together.
-/

namespace Arweave.Lib

structure Ancestry (α : Type*) where
  parent : α → Option α
  height : α → Nat
  height_eq : ∀ x y, parent x = some y → height x = height y + 1

namespace Ancestry

variable {α : Type*} {A : Ancestry α} {x y z : α}

def pathFrom (A : Ancestry α) : Nat → α → List α
  | 0, x => [x]
  | n + 1, x =>
    match A.parent x with
    | none => [x]
    | some y => x :: A.pathFrom n y

/-- The element and its ancestors. -/
def path (A : Ancestry α) (x : α) : List α := A.pathFrom (A.height x) x

lemma path_of_parent (h : A.parent x = some y) : A.path x = x :: A.path y := by
  rw [path, A.height_eq x y h, pathFrom, h]
  rfl

lemma path_of_no_parent (h : A.parent x = none) : A.path x = [x] := by
  rw [path]
  cases A.height x with
  | zero => rfl
  | succ n => rw [pathFrom, h]

lemma exists_path_eq (x : α) : ∃ l, A.path x = x :: l := by
  cases h : A.parent x with
  | none => exact ⟨[], path_of_no_parent h⟩
  | some y => exact ⟨A.path y, path_of_parent h⟩

lemma self_mem_path : x ∈ A.path x := by
  obtain ⟨l, hl⟩ := A.exists_path_eq x
  rw [hl]
  exact List.mem_cons_self

lemma height_le_of_path_eq {above : List α} (heq : A.path x = above ++ A.path z)
    (habove : ∀ w ∈ above, A.height z < A.height w) : A.height z ≤ A.height x := by
  obtain ⟨l, hl⟩ := A.exists_path_eq x
  obtain ⟨l', hl'⟩ := A.exists_path_eq z
  rw [hl, hl'] at heq
  cases above with
  | nil => exact Nat.le_of_eq (congrArg A.height (List.cons.inj heq).1).symm
  | cons w above =>
    rw [(List.cons.inj heq).1]
    exact Nat.le_of_lt (habove w List.mem_cons_self)

lemma exists_path_eq_append (h : z ∈ A.path x) :
    ∃ above, A.path x = above ++ A.path z ∧ ∀ w ∈ above, A.height z < A.height w := by
  induction hn : A.height x generalizing x with
  | zero =>
    cases hp : A.parent x with
    | none =>
      rw [path_of_no_parent hp, List.mem_singleton] at h
      subst h
      exact ⟨[], rfl, by simp⟩
    | some y =>
      have := A.height_eq x y hp
      omega
  | succ n ih =>
    cases hp : A.parent x with
    | none =>
      rw [path_of_no_parent hp, List.mem_singleton] at h
      subst h
      exact ⟨[], rfl, by simp⟩
    | some y =>
      have hy := A.height_eq x y hp
      rw [path_of_parent hp, List.mem_cons] at h
      obtain rfl | h := h
      · exact ⟨[], rfl, by simp⟩
      · obtain ⟨above, heq, habove⟩ := ih h (by omega)
        have hle := height_le_of_path_eq heq habove
        refine ⟨x :: above, by rw [path_of_parent hp, heq]; rfl, ?_⟩
        simp only [List.mem_cons, forall_eq_or_imp]
        exact ⟨by omega, habove⟩

lemma height_le_of_mem_path (h : z ∈ A.path x) : A.height z ≤ A.height x := by
  obtain ⟨above, heq, habove⟩ := exists_path_eq_append h
  exact height_le_of_path_eq heq habove

lemma mem_path_or_mem_path (hy : y ∈ A.path x) (hz : z ∈ A.path x) : z ∈ A.path y ∨ y ∈ A.path z := by
  obtain ⟨above, heq, habove⟩ := exists_path_eq_append hy
  obtain ⟨above', heq', habove'⟩ := exists_path_eq_append hz
  rw [heq, List.mem_append] at hz
  rw [heq', List.mem_append] at hy
  obtain hz | hz := hz
  · obtain hy | hy := hy
    · have := habove z hz
      have := habove' y hy
      omega
    · exact Or.inr hy
  · exact Or.inl hz

lemma mem_path_trans (hy : y ∈ A.path x) (hz : z ∈ A.path y) : z ∈ A.path x := by
  obtain ⟨above, heq, -⟩ := exists_path_eq_append hy
  rw [heq]
  exact List.mem_append_right _ hz

lemma eq_of_mem_path (h : z ∈ A.path x) (hheight : A.height x = A.height z) : x = z := by
  obtain ⟨above, heq, habove⟩ := exists_path_eq_append h
  obtain ⟨l, hl⟩ := A.exists_path_eq x
  obtain ⟨l', hl'⟩ := A.exists_path_eq z
  rw [hl, hl'] at heq
  cases above with
  | nil => exact (List.cons.inj heq).1
  | cons w above =>
    have hw := habove w List.mem_cons_self
    rw [← (List.cons.inj heq).1] at hw
    omega

lemma mem_path_of_height_le (hy : y ∈ A.path x) (hz : z ∈ A.path x) (hle : A.height z ≤ A.height y) : z ∈ A.path y := by
  obtain h | h := mem_path_or_mem_path hy hz
  · exact h
  · rw [eq_of_mem_path h (Nat.le_antisymm hle (height_le_of_mem_path h))]
    exact self_mem_path

lemma path_pairwise (x : α) : (A.path x).Pairwise fun a b => A.height b < A.height a := by
  induction hn : A.height x generalizing x with
  | zero =>
    cases hp : A.parent x with
    | none => rw [path_of_no_parent hp]; exact List.pairwise_singleton _ _
    | some y =>
      have := A.height_eq x y hp
      omega
  | succ n ih =>
    cases hp : A.parent x with
    | none => rw [path_of_no_parent hp]; exact List.pairwise_singleton _ _
    | some y =>
      have hy := A.height_eq x y hp
      rw [path_of_parent hp, List.pairwise_cons]
      refine ⟨fun z hz => ?_, ih y (by omega)⟩
      have := height_le_of_mem_path hz
      omega

lemma takeWhile_path [DecidableEq α] {above l rest : List α} (heq : A.path x = above ++ A.path z)
    (habove : ∀ w ∈ above, A.height z < A.height w) (hl : A.path x = l ++ rest) (hz : z ∈ l) :
    l.takeWhile (fun w => w ≠ z) = above := by
  obtain ⟨below, hbelow⟩ := A.exists_path_eq z
  have hpath : (A.path x).takeWhile (fun w => w ≠ z) = above := by
    have hne : ∀ w ∈ above, decide (w ≠ z) = true := by
      intro w hw
      rw [decide_eq_true_eq]
      rintro rfl
      exact Nat.lt_irrefl _ (habove w hw)
    rw [heq, hbelow, List.takeWhile_append_of_pos hne, List.takeWhile_cons_of_neg (by simp), List.append_nil]
  rw [← hpath, hl, List.takeWhile_append, if_neg]
  intro hlen
  have hall := List.takeWhile_prefix (fun w => decide (w ≠ z)) |>.eq_of_length hlen
  have hself := List.takeWhile_eq_self_iff.mp hall z hz
  simp at hself

lemma mem_path_of_first {before after l rest : List α} {w : α} (hx : A.path x = before ++ z :: after)
    (hy : A.path y = l ++ rest) (hz : z ∈ l) (hbefore : ∀ a ∈ before, a ∉ l) (hwx : w ∈ A.path x) (hwy : w ∈ A.path y) :
    w ∈ A.path z := by
  have hzx : z ∈ A.path x := by
    rw [hx]
    simp
  obtain hmem | hmem := mem_path_or_mem_path hzx hwx
  · exact hmem
  by_contra hnot
  have hle := height_le_of_mem_path hmem
  have hpairx := A.path_pairwise x
  have hpairy := A.path_pairwise y
  rw [hx, List.pairwise_append, List.pairwise_cons] at hpairx
  rw [hy, List.pairwise_append] at hpairy
  rw [hx, List.mem_append, List.mem_cons] at hwx
  obtain hw | rfl | hw := hwx
  · rw [hy, List.mem_append] at hwy
    obtain hw' | hw' := hwy
    · exact hbefore w hw hw'
    · have := hpairy.2.2 z hz w hw'
      omega
  · exact hnot self_mem_path
  · have := hpairx.2.1.1 w hw
    omega

/-- Paths end at height zero. -/
def Rooted (A : Ancestry α) : Prop := ∀ x, A.parent x = none → A.height x = 0

lemma length_path (hroot : A.Rooted) (x : α) : (A.path x).length = A.height x + 1 := by
  induction hn : A.height x generalizing x with
  | zero =>
    cases hp : A.parent x with
    | none => rw [path_of_no_parent hp, List.length_singleton]
    | some y =>
      have := A.height_eq x y hp
      omega
  | succ n ih =>
    cases hp : A.parent x with
    | none =>
      have := hroot x hp
      omega
    | some y =>
      have := A.height_eq x y hp
      rw [path_of_parent hp, List.length_cons, ih y (by omega)]

lemma exists_drop_path (hroot : A.Rooted) {k : Nat} (hk : k ≤ A.height x) :
    ∃ y, (A.path x).drop k = A.path y ∧ A.height y + k = A.height x := by
  induction k generalizing x with
  | zero => exact ⟨x, rfl, rfl⟩
  | succ k ih =>
    cases hp : A.parent x with
    | none =>
      have := hroot x hp
      omega
    | some y =>
      have hy := A.height_eq x y hp
      obtain ⟨z, hz, hheight⟩ := ih (x := y) (by omega)
      exact ⟨z, by rw [path_of_parent hp, List.drop_succ_cons, hz], by omega⟩

lemma getElem?_path (hroot : A.Rooted) {k : Nat} : (A.path x)[k]? = some z ↔ z ∈ A.path x ∧ A.height z + k = A.height x := by
  have hdrop : ∀ k ≤ A.height x, ∃ y, (A.path x)[k]? = some y ∧ y ∈ A.path x ∧ A.height y + k = A.height x := by
    intro k hk
    obtain ⟨y, hy, hheight⟩ := exists_drop_path hroot hk
    obtain ⟨l, hl⟩ := A.exists_path_eq y
    have hget : (A.path x)[k]? = some y := by
      rw [← Nat.add_zero k, ← List.getElem?_drop, hy, hl, List.getElem?_cons_zero]
    exact ⟨y, hget, List.mem_of_getElem? hget, hheight⟩
  constructor
  · intro h
    obtain ⟨hlt, -⟩ := List.getElem?_eq_some_iff.mp h
    rw [length_path hroot] at hlt
    obtain ⟨y, hget, hmem, hheight⟩ := hdrop k (by omega)
    rw [h, Option.some.injEq] at hget
    rw [hget]
    exact ⟨hmem, hheight⟩
  · rintro ⟨hmem, hheight⟩
    obtain ⟨y, hget, hy, hheight'⟩ := hdrop k (by omega)
    rw [hget, eq_of_mem_path (mem_path_of_height_le hy hmem (by omega)) (by omega)]

lemma getElem?_reverse_path (hroot : A.Rooted) {i : Nat} :
    (A.path x).reverse[i]? = some z ↔ z ∈ A.path x ∧ A.height z = i := by
  obtain hlt | hle := Nat.lt_or_ge i (A.path x).length
  · rw [List.getElem?_reverse hlt, getElem?_path hroot]
    rw [length_path hroot] at hlt ⊢
    refine and_congr_right fun hmem => ?_
    have := height_le_of_mem_path hmem
    omega
  · rw [List.getElem?_eq_none (by rwa [List.length_reverse])]
    rw [length_path hroot] at hle
    refine iff_of_false (by simp) ?_
    rintro ⟨hmem, rfl⟩
    have := height_le_of_mem_path hmem
    omega

end Ancestry

end Arweave.Lib

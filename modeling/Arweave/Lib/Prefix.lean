import Mathlib.Data.List.Lex
import Mathlib.Data.List.Infix
import Arweave.Lib.Bytes

/-!
# Prefixes and the lexicographic order

A list precedes its proper extensions, and lists below two different prefixes of the same
length are ordered like the prefixes. `commonPrefix` is the longest common prefix of two
lists.
-/

namespace Arweave.Lib

instance instLinearOrderUInt8 : LinearOrder UInt8 where
  le_refl := UInt8.le_refl
  le_trans _ _ _ := UInt8.le_trans
  le_antisymm _ _ := UInt8.le_antisymm
  le_total := UInt8.le_total
  lt_iff_le_not_ge _ _ := by
    rw [UInt8.lt_iff_toNat_lt, UInt8.le_iff_toNat_le, UInt8.le_iff_toNat_le]
    omega
  toDecidableLE := inferInstance
  toDecidableLT := inferInstance
  toDecidableEq := inferInstance

section Order

variable {α : Type*} [LinearOrder α] {a b x y : List α}

lemma lt_of_prefix_of_ne (h : a <+: b) (hne : a ≠ b) : a < b := by
  obtain ⟨t, rfl⟩ := h
  induction a with
  | nil =>
    cases t with
    | nil => exact absurd rfl hne
    | cons c t => exact List.Lex.nil
  | cons c a ih =>
    apply List.Lex.cons
    apply ih
    intro h
    exact hne (by rw [List.cons_append, ← h])

lemma le_of_isPrefix (h : a <+: b) : a ≤ b := by
  by_cases hab : a = b
  · exact hab.le
  · exact (lt_of_prefix_of_ne h hab).le

lemma lt_of_prefixes (hlen : a.length = b.length) (hlt : a < b) (hx : a <+: x) (hy : b <+: y) :
    x < y := by
  obtain ⟨s, rfl⟩ := hx
  obtain ⟨t, rfl⟩ := hy
  induction a generalizing b with
  | nil =>
    rw [List.length_nil] at hlen
    rw [List.eq_nil_of_length_eq_zero hlen.symm] at hlt
    exact absurd hlt (lt_irrefl _)
  | cons c a ih =>
    cases b with
    | nil => simp at hlen
    | cons d b =>
      cases hlt with
      | cons h => exact List.Lex.cons (ih (by simpa using hlen) h)
      | rel h => exact List.Lex.rel h

lemma lt_of_not_prefix (hlt : a < b) (hnot : ¬a <+: b) (hx : a <+: x) : x < b := by
  obtain ⟨s, rfl⟩ := hx
  induction a generalizing b with
  | nil => exact absurd List.nil_prefix hnot
  | cons c a ih =>
    cases b with
    | nil => exact absurd hlt (List.not_lt_nil _)
    | cons d b =>
      cases hlt with
      | cons h =>
        apply List.Lex.cons
        apply ih h
        intro hpre
        exact hnot (List.cons_prefix_cons.mpr ⟨rfl, hpre⟩)
      | rel h => exact List.Lex.rel h

end Order

section CommonPrefix

variable {α : Type*} [DecidableEq α]

def commonPrefix : List α → List α → List α
  | a :: as, b :: bs => if a = b then a :: commonPrefix as bs else []
  | _, _ => []

lemma commonPrefix_prefix_left (a b : List α) : commonPrefix a b <+: a := by
  fun_induction commonPrefix a b with
  | case1 a as bs ih => simpa using ih
  | case2 a as b bs h => exact List.nil_prefix
  | case3 a b h => exact List.nil_prefix

lemma commonPrefix_prefix_right (a b : List α) : commonPrefix a b <+: b := by
  fun_induction commonPrefix a b with
  | case1 a as bs ih => simpa using ih
  | case2 a as b bs h => exact List.nil_prefix
  | case3 a b h => exact List.nil_prefix

lemma commonPrefix_cases (a b : List α) :
    commonPrefix a b = a ∨ commonPrefix a b = b ∨
      ∃ x s y t, x ≠ y ∧ a = commonPrefix a b ++ x :: s ∧ b = commonPrefix a b ++ y :: t := by
  fun_induction commonPrefix a b with
  | case1 a as bs ih =>
    rcases ih with h | h | ⟨x, s, y, t, hne, hs, ht⟩
    · exact .inl (by rw [h])
    · exact .inr (.inl (by rw [h]))
    · exact .inr (.inr ⟨x, s, y, t, hne, by rw [List.cons_append, ← hs],
        by rw [List.cons_append, ← ht]⟩)
  | case2 a as b bs h => exact .inr (.inr ⟨a, as, b, bs, h, rfl, rfl⟩)
  | case3 a b h =>
    cases a with
    | nil => exact .inl rfl
    | cons x as =>
      cases b with
      | nil => exact .inr (.inl rfl)
      | cons y bs => exact absurd rfl (h x as y bs rfl)

lemma commonPrefix_eq_left_iff {a b : List α} : commonPrefix a b = a ↔ a <+: b := by
  constructor
  · intro h
    rw [← h]
    exact commonPrefix_prefix_right a b
  · rintro ⟨t, rfl⟩
    induction a with
    | nil => rfl
    | cons x a ih => simp [commonPrefix, ih]

lemma commonPrefix_comm (a b : List α) : commonPrefix a b = commonPrefix b a := by
  fun_induction commonPrefix a b with
  | case1 a as bs ih => simp [commonPrefix, ih]
  | case2 a as b bs h => simp [commonPrefix, Ne.symm h]
  | case3 a b h =>
    cases a with
    | nil => cases b <;> rfl
    | cons x as =>
      cases b with
      | nil => rfl
      | cons y bs => exact absurd rfl (h x as y bs rfl)

lemma commonPrefix_eq_right_iff {a b : List α} : commonPrefix a b = b ↔ b <+: a := by
  rw [commonPrefix_comm, commonPrefix_eq_left_iff]

lemma commonPrefix_length_lt_iff {a b : List α} : (commonPrefix a b).length < b.length ↔ ¬b <+: a := by
  have hpre := commonPrefix_prefix_right a b
  rw [← commonPrefix_eq_right_iff, lt_iff_le_and_ne, and_iff_right hpre.length_le, not_iff_not]
  constructor
  · exact hpre.eq_of_length
  · intro h
    rw [h]

lemma commonPrefix_append (a b c : List α) : commonPrefix (a ++ b) (a ++ c) = a ++ commonPrefix b c := by
  induction a with
  | nil => rfl
  | cons x a ih => rw [List.cons_append, List.cons_append, commonPrefix, if_pos rfl, ih, List.cons_append]

lemma commonPrefix_eq_nil {a b : List α} (h : ∀ x ∈ b, x ∉ a) : commonPrefix a b = [] := by
  rw [List.eq_nil_iff_forall_not_mem]
  intro x hx
  exact h x ((commonPrefix_prefix_right a b).mem hx) ((commonPrefix_prefix_left a b).mem hx)

end CommonPrefix

end Arweave.Lib

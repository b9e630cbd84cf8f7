import Arweave.Tx.Verify

/-!
# Decimal numbers

The decimal digits of a number determine it, the first one is not zero unless it is the only
one, and a number without its first digits is not larger. A string ends in its digits in one
way.
-/

namespace Arweave.Tx
open Arweave.Lib Arweave.DeepHash

section Natural

variable {m n : Nat}

lemma foldr_digits {digits : List Nat} (h : ∀ d ∈ digits, d < 10) :
    (digits.map fun d => UInt8.ofNat (48 + d)).foldr (fun byte value => value * 10 + (byte.toNat - 48)) 0 =
      Nat.ofDigits 10 digits := by
  induction digits with
  | nil => rfl
  | cons d digits ih =>
    rw [List.forall_mem_cons] at h
    have hbyte : (UInt8.ofNat (48 + d)).toNat = 48 + d := by
      rw [UInt8.toNat_ofNat']
      omega
    rw [List.map_cons, List.foldr_cons, ih h.2, hbyte, Nat.ofDigits_cons]
    change _ + (48 + d - 48) = d + _
    omega

lemma listToInteger_integerToBinary (n : Nat) : listToInteger (integerToBinary n) = n := by
  unfold listToInteger integerToBinary
  split_ifs with h
  · rw [h]
    rfl
  · rw [List.foldl_reverse, foldr_digits fun d hd => Nat.digits_lt_base (by norm_num) hd, Nat.ofDigits_digits]

lemma integerToBinary_injective (h : integerToBinary m = integerToBinary n) : m = n := by
  rw [← listToInteger_integerToBinary m, h, listToInteger_integerToBinary]

lemma isDigit_of_mem_integerToBinary {byte : UInt8} (h : byte ∈ integerToBinary n) : isDigit byte = true := by
  unfold integerToBinary at h
  split_ifs at h
  · rw [List.mem_singleton] at h
    rw [h]
    rfl
  · simp only [List.mem_reverse, List.mem_map] at h
    obtain ⟨d, hd, rfl⟩ := h
    have hlt : d < 10 := Nat.digits_lt_base (by norm_num) hd
    interval_cases d <;> rfl

lemma integerToBinary_ne_nil (n : Nat) : integerToBinary n ≠ [] := by
  unfold integerToBinary
  split_ifs with h
  · simp
  · rw [Ne, List.reverse_eq_nil_iff, List.map_eq_nil_iff, Nat.digits_eq_nil_iff_eq_zero]
    exact h

lemma head?_integerToBinary (h : 0 < n) : (integerToBinary n).head? ≠ some 48 := by
  unfold integerToBinary
  rw [if_neg h.ne', List.head?_reverse, List.getLast?_map]
  intro hlast
  rw [Option.map_eq_some_iff] at hlast
  obtain ⟨d, hd, hzero⟩ := hlast
  have hlt : d < 10 := Nat.digits_lt_base (by norm_num) (List.mem_of_getLast? hd)
  have hne : d ≠ 0 := by
    have hnil : Nat.digits 10 n ≠ [] := by
      rw [Ne, Nat.digits_eq_nil_iff_eq_zero]
      exact h.ne'
    rw [List.getLast?_eq_some_getLast hnil, Option.some.injEq] at hd
    rw [← hd]
    exact Nat.getLast_digit_ne_zero 10 h.ne'
  interval_cases d <;> simp_all

lemma ten_le_of_length (h : 1 < (integerToBinary n).length) : 10 ≤ n := by
  by_contra hlt
  have := length_integerToBinary (k := 1) (by norm_num) (show n < 10 ^ 1 by omega)
  omega

end Natural

lemma listToInteger_le_append (digits rest : Bytes) : listToInteger rest ≤ listToInteger (digits ++ rest) := by
  have hstart (start : Nat) : rest.foldl (fun value digit => value * 10 + (digit.toNat - 48)) 0 ≤
      rest.foldl (fun value digit => value * 10 + (digit.toNat - 48)) start := by
    induction rest using List.reverseRecOn with
    | nil => exact Nat.zero_le _
    | append_singleton rest digit ih =>
      simp only [List.foldl_append, List.foldl_cons, List.foldl_nil]
      omega
  unfold listToInteger
  rw [List.foldl_append]
  exact hstart _

lemma endsWithDigit_append {a c : Bytes} (h : c ≠ []) : endsWithDigit (a ++ c) = endsWithDigit c := by
  unfold endsWithDigit
  rw [List.getLast?_append_of_ne_nil _ h]

lemma endsWithDigit_of_digits {c : Bytes} (h : c ≠ []) (hdigits : ∀ byte ∈ c, isDigit byte = true) :
    endsWithDigit c = true := by
  unfold endsWithDigit
  rw [List.getLast?_eq_some_getLast h]
  exact hdigits _ (List.getLast_mem h)

lemma append_digits_injective {a a' w w' : Bytes} (ha : endsWithDigit a = false) (ha' : endsWithDigit a' = false)
    (hw : ∀ byte ∈ w, isDigit byte = true) (hw' : ∀ byte ∈ w', isDigit byte = true) (h : a ++ w = a' ++ w') :
    a = a' ∧ w = w' := by
  have hnil {a c : Bytes} (hac : endsWithDigit (a ++ c) = false) (hc : ∀ byte ∈ c, isDigit byte = true) :
      c = [] := by
    by_contra hne
    rw [endsWithDigit_append hne, endsWithDigit_of_digits hne hc] at hac
    cases hac
  rcases List.append_eq_append_iff.mp h with ⟨c, rfl, rfl⟩ | ⟨c, rfl, rfl⟩
  · have hc := hnil ha' fun byte hbyte => hw byte (List.mem_append_left _ hbyte)
    simp [hc]
  · have hc := hnil ha fun byte hbyte => hw' byte (List.mem_append_left _ hbyte)
    simp [hc]

lemma integerToList_injective {m n : Int} (h : integerToList m = integerToList n) : m = n := by
  have hminus (k : Nat) (l : Bytes) : 45 :: l ≠ integerToBinary k := by
    intro heq
    have hmem : (45 : UInt8) ∈ integerToBinary k := heq ▸ List.mem_cons_self
    exact absurd (isDigit_of_mem_integerToBinary hmem) (by decide)
  unfold integerToList at h
  split_ifs at h with hm hn hn
  · have := integerToBinary_injective (List.cons.inj h).2
    omega
  · exact absurd h (hminus _ _)
  · exact absurd h.symm (hminus _ _)
  · have := integerToBinary_injective h
    omega

end Arweave.Tx

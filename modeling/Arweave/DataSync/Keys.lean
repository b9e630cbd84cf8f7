import Arweave.Lib.KeyOrder
import Arweave.Wallet.Account

/-!
# Keys of the data indices

Offsets are stored as keys of 256 bits. The data root index has keys with a data root, the size of
the transaction and its start offset; the two numbers are written with their lengths in front. Both
kinds of keys are ordered like what they stand for, so that ranges of keys are ranges of offsets.
-/

namespace Arweave.DataSync

open Lib Wallet

/-- A key of 256 bits. -/
def offsetKey (n : Int) : Bytes := Bytes.ofNat 32 (n % 2 ^ 256).toNat

/-- The key of the data root index. -/
def dataRootKeyV2 (dataRoot : Bytes) (txSize offset : Nat) : Bytes :=
  dataRoot.take 32 ++ encodeInt txSize 1 ++ encodeInt offset 1

/-- A data root with the size of its transaction, in the disk pool and in the index of blocks. -/
def dataRootKey (dataRoot : Bytes) (txSize : Nat) : Bytes := dataRoot.take 32 ++ offsetKey txSize

variable {m n : Nat} {x y : Bytes}

lemma length_offsetKey (n : Int) : (offsetKey n).length = 32 := by simp [offsetKey]

lemma toNat_offsetKey (h : n < 2 ^ 256) : Bytes.toNat (offsetKey n) = n := by
  rw [offsetKey, Int.emod_eq_of_lt (by omega) (by exact_mod_cast h), Int.toNat_natCast,
    Bytes.toNat_ofNat_of_lt (by norm_num; omega)]

lemma offsetKey_lt (hmn : m < n) (hn : n < 2 ^ 256) : offsetKey m < offsetKey n := by
  apply Bytes.lt_of_toNat_lt (by rw [length_offsetKey, length_offsetKey])
  rw [toNat_offsetKey (hmn.trans hn), toNat_offsetKey hn]
  exact hmn

lemma offsetKey_lt_iff (hm : m < 2 ^ 256) (hn : n < 2 ^ 256) : offsetKey m < offsetKey n ↔ m < n := by
  refine ⟨fun h => ?_, fun h => offsetKey_lt h hn⟩
  by_contra hle
  obtain heq | hlt := (not_lt.mp hle).eq_or_lt
  · rw [heq] at h
    exact lt_irrefl _ h
  · exact lt_asymm h (offsetKey_lt hlt hm)

lemma offsetKey_le_iff (hm : m < 2 ^ 256) (hn : n < 2 ^ 256) : offsetKey m ≤ offsetKey n ↔ m ≤ n := by
  rw [← not_lt, offsetKey_lt_iff hn hm, not_lt]

lemma offsetKey_inj (hm : m < 2 ^ 256) (hn : n < 2 ^ 256) : offsetKey m = offsetKey n ↔ m = n := by
  refine ⟨fun h => ?_, fun h => by rw [h]⟩
  rw [← toNat_offsetKey hm, h, toNat_offsetKey hn]

lemma length_encodeUnsigned (h : n ≠ 0) : (encodeUnsigned n).length = (Nat.digits 256 n).length := by
  rw [encodeUnsigned, if_neg h, List.length_reverse, List.length_map]

lemma length_encodeUnsigned_le (h : m < n) : (encodeUnsigned m).length ≤ (encodeUnsigned n).length := by
  have hn : (encodeUnsigned n).length = (Nat.digits 256 n).length := length_encodeUnsigned (by omega)
  by_cases hm : m = 0
  · have hpos : 0 < (Nat.digits 256 n).length := List.length_pos_of_ne_nil (Nat.digits_ne_nil_iff_ne_zero.mpr (by omega))
    rw [hn, hm]
    exact hpos
  · rw [hn, length_encodeUnsigned hm]
    exact Nat.le_length_digits_le 256 m n h.le

lemma length_encodeUnsigned_of_lt (h : n < 2 ^ 256) : (encodeUnsigned n).length ≤ 32 := by
  by_cases hn : n = 0
  · rw [hn]
    decide
  · rw [length_encodeUnsigned hn]
    exact (Nat.digits_length_le_iff (by norm_num) n).mpr (by norm_num; omega)

lemma encodeInt_eq (h : n < 2 ^ 256) :
    ∃ size : UInt8, size.toNat = (encodeUnsigned n).length ∧ encodeInt n 1 = size :: encodeUnsigned n := by
  have hlen := length_encodeUnsigned_of_lt h
  refine ⟨UInt8.ofNat (encodeUnsigned n).length, ?_, ?_⟩
  · rw [UInt8.toNat_ofNat']
    exact Nat.mod_eq_of_lt (by omega)
  · rw [encodeInt, encodeBin, Bytes.ofNat, Bytes.ofNat]
    rfl

lemma dataRootKeyV2_parts {r : Bytes} (hr : r.length = 32) (hm : m < 2 ^ 256) (n : Nat) :
    (dataRootKeyV2 r m n).take 32 = r ∧ ∃ size : UInt8, size.toNat = (encodeUnsigned m).length ∧
      (dataRootKeyV2 r m n).drop 32 = size :: (encodeUnsigned m ++ encodeInt n 1) := by
  obtain ⟨size, hsize, heq⟩ := encodeInt_eq hm
  have hkey : dataRootKeyV2 r m n = r ++ (size :: (encodeUnsigned m ++ encodeInt n 1)) := by
    rw [dataRootKeyV2, List.take_of_length_le hr.le, heq, List.append_assoc, List.cons_append]
  rw [hkey]
  refine ⟨?_, size, hsize, ?_⟩
  · rw [List.take_append_of_le_length hr.ge, List.take_of_length_le hr.le]
  · rw [List.drop_append_of_le_length hr.ge, List.drop_of_length_le hr.le, List.nil_append]

lemma encodeInt_append_lt (hmn : m < n) (hn : n < 2 ^ 256) : encodeInt m 1 ++ x < encodeInt n 1 ++ y := by
  have hle := length_encodeUnsigned_le hmn
  have hlen := length_encodeUnsigned_of_lt hn
  have hsize : ∀ k, k ≤ 32 → k < 256 ^ 1 := fun k hk => by omega
  obtain heq | hlt := hle.eq_or_lt
  · have hlt : encodeUnsigned m < encodeUnsigned n := by
      apply Bytes.lt_of_toNat_lt heq
      rw [toNat_encodeUnsigned, toNat_encodeUnsigned]
      exact hmn
    rw [encodeInt, encodeInt, encodeBin, encodeBin, heq, List.append_assoc, List.append_assoc]
    exact List.append_left_lt (lt_of_prefixes heq hlt (List.prefix_append _ _) (List.prefix_append _ _))
  · have hfirst := Bytes.ofNat_strictMonoOn 1 (hsize _ (by omega)) (hsize _ hlen) hlt
    rw [encodeInt, encodeInt, encodeBin, encodeBin, List.append_assoc, List.append_assoc]
    exact lt_of_prefixes (by simp) hfirst (List.prefix_append _ _) (List.prefix_append _ _)

/-- A data root, a size and an offset in the order of the keys. -/
abbrev Triple := Bytes ×ₗ Nat ×ₗ Nat

def Triple.key (t : Triple) : Bytes := dataRootKeyV2 (ofLex t).1 (ofLex (ofLex t).2).1 (ofLex (ofLex t).2).2

/-- The data root has 32 bytes and the numbers fit into 256 bits. -/
def Triple.Fits (t : Triple) : Prop :=
  (ofLex t).1.length = 32 ∧ (ofLex (ofLex t).2).1 < 2 ^ 256 ∧ (ofLex (ofLex t).2).2 < 2 ^ 256

lemma Triple.key_strictMonoOn : StrictMonoOn Triple.key {t | t.Fits} := by
  rintro ⟨r, s, o⟩ ⟨hr, -, -⟩ ⟨r', s', o'⟩ ⟨hr', hs', ho'⟩ hlt
  change dataRootKeyV2 r s o < dataRootKeyV2 r' s' o'
  replace hr : r.length = 32 := hr
  replace hr' : r'.length = 32 := hr'
  rw [dataRootKeyV2, dataRootKeyV2, List.take_of_length_le hr.le, List.take_of_length_le hr'.le, List.append_assoc,
    List.append_assoc]
  obtain hroot | ⟨hroot, hrest⟩ := Prod.Lex.lt_iff.mp hlt
  · exact lt_of_prefixes (hr.trans hr'.symm) hroot (List.prefix_append _ _) (List.prefix_append _ _)
  · replace hroot : r = r' := hroot
    subst hroot
    apply List.append_left_lt
    obtain hsize | ⟨hsize, hoffset⟩ := Prod.Lex.lt_iff.mp hrest
    · exact encodeInt_append_lt hsize hs'
    · replace hsize : s = s' := hsize
      subst hsize
      have := encodeInt_append_lt (x := []) (y := []) hoffset ho'
      rw [List.append_nil, List.append_nil] at this
      exact List.append_left_lt this

end Arweave.DataSync

import Mathlib.Data.Prod.Lex
import Arweave.Lib.Prefix

/-!
# The order of keys

Binary keys are ordered byte by byte, so that big-endian encodings of one width are ordered like
their numbers. A range of compound keys that differ in the last component only is a range of it.
-/

namespace Arweave.Lib.Bytes

variable {a b : Bytes}

lemma toNat_cons (x : UInt8) (a : Bytes) : toNat (x :: a) = x.toNat * 256 ^ a.length + toNat a := by
  induction a using List.reverseRecOn with
  | nil =>
    have := toNat_append_singleton [] x
    simpa using this
  | append_singleton a y ih =>
    rw [← List.cons_append, toNat_append_singleton, ih, toNat_append_singleton, List.length_append,
      List.length_singleton, Nat.pow_succ]
    ring

lemma lt_of_toNat_lt (hlen : a.length = b.length) (h : toNat a < toNat b) : a < b := by
  induction a generalizing b with
  | nil =>
    cases b with
    | nil => exact absurd h (lt_irrefl _)
    | cons y b => cases hlen
  | cons x a ih =>
    cases b with
    | nil => cases hlen
    | cons y b =>
      have hlen' : a.length = b.length := Nat.succ.inj hlen
      have ha := toNat_lt a
      have hb := toNat_lt b
      rw [toNat_cons, toNat_cons, hlen'] at h
      rw [hlen'] at ha
      rw [List.cons_lt_cons_iff]
      obtain hxy | hxy | hxy := lt_trichotomy x.toNat y.toNat
      · exact Or.inl hxy
      · exact Or.inr ⟨UInt8.toNat_inj.mp hxy, ih hlen' (by rw [hxy] at h; omega)⟩
      · have hle : (y.toNat + 1) * 256 ^ b.length ≤ x.toNat * 256 ^ b.length := Nat.mul_le_mul_right _ hxy
        rw [Nat.succ_mul] at hle
        omega

lemma ofNat_strictMonoOn (width : Nat) : StrictMonoOn (ofNat width) {n | n < 256 ^ width} := by
  intro m hm n hn hmn
  apply lt_of_toNat_lt (by simp)
  rw [toNat_ofNat_of_lt hm, toNat_ofNat_of_lt hn]
  exact hmn

end Arweave.Lib.Bytes

namespace Arweave.Lib

section Lexicographic

variable {α β γ : Type*} [LinearOrder α] [LinearOrder β] [LinearOrder γ]

lemma lex_between {a : α} {b : β} {lo hi : γ} {t : α ×ₗ β ×ₗ γ} :
    (toLex (a, toLex (b, lo)) ≤ t ∧ t < toLex (a, toLex (b, hi))) ↔
      ∃ c, lo ≤ c ∧ c < hi ∧ t = toLex (a, toLex (b, c)) := by
  constructor
  · rintro ⟨hle, hlt⟩
    obtain ⟨r, s, c⟩ := t
    change toLex (a, toLex (b, lo)) ≤ toLex (r, toLex (s, c)) at hle
    change toLex (r, toLex (s, c)) < toLex (a, toLex (b, hi)) at hlt
    rw [Prod.Lex.toLex_le_toLex, Prod.Lex.toLex_le_toLex] at hle
    rw [Prod.Lex.toLex_lt_toLex, Prod.Lex.toLex_lt_toLex] at hlt
    obtain h | ⟨rfl, hle⟩ := hle
    · obtain h' | ⟨rfl, -⟩ := hlt
      · exact absurd h h'.not_gt
      · exact absurd h (lt_irrefl _)
    · replace hlt := (hlt.resolve_left (lt_irrefl _)).2
      obtain h | ⟨rfl, hle⟩ := hle
      · obtain h' | ⟨rfl, -⟩ := hlt
        · exact absurd h h'.not_gt
        · exact absurd h (lt_irrefl _)
      · exact ⟨c, hle, (hlt.resolve_left (lt_irrefl _)).2, rfl⟩
  · rintro ⟨c, hle, hlt, rfl⟩
    rw [Prod.Lex.toLex_le_toLex, Prod.Lex.toLex_le_toLex, Prod.Lex.toLex_lt_toLex, Prod.Lex.toLex_lt_toLex]
    exact ⟨Or.inr ⟨rfl, Or.inr ⟨rfl, hle⟩⟩, Or.inr ⟨rfl, Or.inr ⟨rfl, hlt⟩⟩⟩

end Lexicographic

end Arweave.Lib

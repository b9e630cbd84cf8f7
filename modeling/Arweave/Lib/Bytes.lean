import Mathlib.Data.List.Basic
import Mathlib.Data.List.Induction
import Mathlib.Data.List.Pairwise
import Mathlib.Tactic.Linarith
import Mathlib.Tactic.Ring

/-!
# Byte strings and digests

Binaries are lists of bytes. `Bytes.ofNat` and `Bytes.toNat` are the fixed-width
big-endian codec, and a `Digest n` is a hash function with `n`-byte outputs. Such a
function cannot be injective, so security statements assume `CollisionFree` on the
strings that are actually hashed.
-/

namespace Arweave.Lib

/-- A binary. -/
abbrev Bytes := List UInt8

namespace Bytes

instance instLawfulBEq : LawfulBEq Bytes := List.instLawfulBEq

/-- The big-endian encoding of `value` in `width` bytes, truncated to the width. -/
def ofNat : Nat → Nat → Bytes
  | 0, _ => []
  | width + 1, value => ofNat width (value / 256) ++ [UInt8.ofNat value]

/-- The unsigned big-endian value of a binary. -/
def toNat (b : Bytes) : Nat :=
  b.foldl (fun acc x => acc * 256 + x.toNat) 0

@[simp] lemma toNat_nil : toNat [] = 0 := rfl

@[simp] lemma toNat_append_singleton (b : Bytes) (x : UInt8) :
    toNat (b ++ [x]) = toNat b * 256 + x.toNat := by
  simp [toNat]

@[simp] lemma length_ofNat (width value : Nat) : (ofNat width value).length = width := by
  induction width generalizing value with
  | zero => rfl
  | succ width ih => simp [ofNat, ih]

lemma toNat_lt (b : Bytes) : toNat b < 256 ^ b.length := by
  induction b using List.reverseRecOn with
  | nil => simp
  | append_singleton b x ih =>
    have hx : x.toNat < 256 := x.toNat_lt
    have hp : 256 ^ (b.length + 1) = 256 ^ b.length * 256 := pow_succ _ _
    simp only [toNat_append_singleton, List.length_append, List.length_singleton]
    omega

lemma toNat_ofNat (width value : Nat) : toNat (ofNat width value) = value % 256 ^ width := by
  induction width generalizing value with
  | zero => simp [ofNat, Nat.mod_one]
  | succ width ih =>
    rw [ofNat, toNat_append_singleton, ih, pow_succ']
    have hm := Nat.mod_mul (x := value) (a := 256) (b := 256 ^ width)
    have hx : (UInt8.ofNat value).toNat = value % 256 := by simp
    omega

lemma ofNat_add (width width2 value : Nat) :
    ofNat (width + width2) value = ofNat width (value / 256 ^ width2) ++ ofNat width2 value := by
  induction width2 generalizing value with
  | zero => simp [ofNat]
  | succ width2 ih => rw [← add_assoc, ofNat, ih, ofNat, Nat.div_div_eq_div_mul, ← pow_succ', List.append_assoc]

lemma ofNat_mul (width n value : Nat) : ofNat (width * n) value =
    (List.range n).flatMap fun i => ofNat width (value / 256 ^ (width * (n - 1 - i))) := by
  induction n generalizing value with
  | zero => rfl
  | succ n ih =>
    rw [Nat.mul_succ, ofNat_add, ih, List.range_succ, List.flatMap_append]
    congr 1
    · apply List.flatMap_congr
      intro i hi
      rw [List.mem_range] at hi
      have hgroups : n + 1 - 1 - i = n - 1 - i + 1 := by omega
      rw [Nat.div_div_eq_div_mul, ← pow_add, hgroups, Nat.mul_succ, Nat.add_comm]
    · simp

lemma toNat_ofNat_of_lt {width value : Nat} (h : value < 256 ^ width) :
    toNat (ofNat width value) = value := by
  rw [toNat_ofNat, Nat.mod_eq_of_lt h]

lemma ofNat_toNat (b : Bytes) : ofNat b.length (toNat b) = b := by
  induction b using List.reverseRecOn with
  | nil => rfl
  | append_singleton b x ih =>
    have hx : x.toNat < 256 := x.toNat_lt
    have hdiv : (toNat b * 256 + x.toNat) / 256 = toNat b := by omega
    have hlast : UInt8.ofNat (toNat b * 256 + x.toNat) = x := by
      apply UInt8.toNat_inj.mp
      simp only [UInt8.toNat_ofNat']
      omega
    rw [toNat_append_singleton, List.length_append, List.length_singleton, ofNat, hdiv, hlast, ih]

lemma toNat_injective {b c : Bytes} (hl : b.length = c.length) (h : toNat b = toNat c) : b = c := by
  rw [← ofNat_toNat b, ← ofNat_toNat c, hl, h]

lemma ofNat_injective_of_lt {width m n : Nat} (hm : m < 256 ^ width) (hn : n < 256 ^ width)
    (h : ofNat width m = ofNat width n) : m = n := by
  rw [← toNat_ofNat_of_lt hm, ← toNat_ofNat_of_lt hn, h]

end Bytes

lemma eq_of_map_eq_map {α β : Type*} {f : α → β} {l l' : List α}
    (hinj : ∀ a ∈ l, ∀ b ∈ l', f a = f b → a = b) (h : l.map f = l'.map f) : l = l' := by
  induction l generalizing l' with
  | nil => exact (List.map_eq_nil_iff.mp h.symm).symm
  | cons a l ih =>
    cases l' with
    | nil => cases h
    | cons b l' =>
      rw [List.map_cons, List.map_cons, List.cons.injEq] at h
      rw [hinj a List.mem_cons_self b List.mem_cons_self h.1,
        ih (fun x hx y hy => hinj x (List.mem_cons_of_mem _ hx) y (List.mem_cons_of_mem _ hy)) h.2]

/-- A hash function with outputs of a fixed size. -/
structure Digest (size : Nat) where
  hash : Bytes → Bytes
  length_hash : ∀ x, (hash x).length = size

namespace Digest

variable {size : Nat}

instance : CoeFun (Digest size) (fun _ => Bytes → Bytes) := ⟨Digest.hash⟩

@[simp] lemma length_apply (H : Digest size) (x : Bytes) : (H x).length = size :=
  H.length_hash x

/-- No two different strings of the list have the same digest. -/
def CollisionFree (H : Digest size) (inputs : List Bytes) : Prop :=
  ∀ x ∈ inputs, ∀ y ∈ inputs, H x = H y → x = y

lemma collisionFree_iff_pairwise (H : Digest size) (inputs : List Bytes) :
    H.CollisionFree inputs ↔
      inputs.Pairwise (fun x y => x = y ∨ (H x).toNat ≠ (H y).toNat) := by
  have hval (x y : Bytes) : (H x).toNat = (H y).toNat ↔ H x = H y :=
    ⟨Bytes.toNat_injective (by simp), congrArg Bytes.toNat⟩
  have : Std.Symm (fun x y => x = y ∨ (H x).toNat ≠ (H y).toNat) :=
    ⟨fun _ _ h => h.imp Eq.symm Ne.symm⟩
  constructor
  · intro h
    refine List.pairwise_of_forall_mem_list fun x hx y hy => ?_
    by_cases hxy : x = y
    · exact .inl hxy
    · exact .inr fun heq => hxy (h x hx y hy ((hval x y).mp heq))
  · intro h x hx y hy heq
    rcases List.Pairwise.forall_of_forall (fun _ _ => .inl rfl) h hx hy with h | h
    · exact h
    · exact absurd (congrArg Bytes.toNat heq) h

/-- Each pair is compared once, and digests are only computed for different strings. -/
instance (H : Digest size) (inputs : List Bytes) : Decidable (H.CollisionFree inputs) :=
  decidable_of_iff' _ (H.collisionFree_iff_pairwise inputs)

lemma CollisionFree.mono {H : Digest size} {s t : List Bytes} (h : H.CollisionFree t)
    (hst : ∀ x ∈ s, x ∈ t) : H.CollisionFree s :=
  fun x hx y hy => h x (hst x hx) y (hst y hy)

end Digest

end Arweave.Lib

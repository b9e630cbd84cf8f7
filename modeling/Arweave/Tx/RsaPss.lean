import Arweave.Lib.Sha2

/-!
# Signatures

The verification of RSA signatures with the probabilistic encoding, as in `rsa_pss`. The
message digest and the mask are SHA-256, and the public exponent is always 65537. A crash of
the source is `none`.
-/

namespace Arweave.RsaPss
open Arweave.Lib Arweave.Lib.Sha2

def publicExponent : Nat := 65537

def pssTrailerField : UInt8 := 0xBC

def intToBitSize (i : Nat) : Nat := if i = 0 then 0 else Nat.log2 i + 1

def intToByteSize (i : Nat) : Nat := (intToBitSize i + 7) / 8

/-- `crypto:mod_pow/3` -/
def modPow (base exponent modulus : Nat) : Nat := base ^ exponent % modulus

/-- The number as a binary without leading zeros, padded to the given size. -/
def padToKeySize (bytes value : Nat) : Bytes :=
  Bytes.ofNat (max bytes (max 1 (intToByteSize value))) value

def mgf1 (seed : Bytes) (len : Nat) : Bytes :=
  ((List.range ((len + 31) / 32)).flatMap fun counter => sha256 (seed ++ Bytes.ofNat 4 counter)).take len

/-- Clears the bits of the first byte that exceed the size of the modulus. -/
def normalizeToKeySize (bits : Nat) : Bytes → Bytes
  | [] => []
  | c :: rest =>
    let sh := (bits - 1) % 8
    (if 0 < sh then c &&& ((0xFF : UInt8) >>> UInt8.ofNat (8 - sh)) else c) :: rest

/-- The check of a decrypted signature against the digest of the message. -/
def verifyEncoding (publicBitSize privateByteSize : Nat) (digest em : Bytes) : Option Bool :=
  if em.getLast? ≠ some pssTrailerField then some false
  -- the parts of `EM` do not exist, or the mask has another size
  else if em.length < digest.length + 1 ∨ em.length ≠ privateByteSize then none
  else
    let dbLen := privateByteSize - digest.length - 1
    let maskedDB := em.take dbLen
    let h := (em.drop dbLen).take digest.length
    let db := normalizeToKeySize publicBitSize (List.zipWith (· ^^^ ·) maskedDB (mgf1 h dbLen))
    match db.findIdx? (· = 1) with
    | none => some false
    | some pos =>
      if Bytes.toNat (db.take pos) = 0 then
        let salt := db.drop (pos + 1)
        some (decide (h = sha256 (List.replicate 8 0 ++ digest ++ salt)))
      else some false

/-- `verify/4` and `verify_legacy/4`, which differ in the size of the encoding. -/
def verifyWith (privateByteSize : Nat) (message signature : Bytes) (modulus : Nat) : Option Bool :=
  if intToByteSize modulus = signature.length then
    if signature.toNat < modulus then
      verifyEncoding (intToBitSize modulus) privateByteSize (sha256 message)
        (padToKeySize privateByteSize (modPow signature.toNat publicExponent modulus))
    else some false
  else some false

def verify (message signature : Bytes) (modulus : Nat) : Option Bool :=
  verifyWith ((intToBitSize modulus + 7) / 8) message signature modulus

/-- The encoding is a byte too short for moduli whose size is no multiple of eight bits. -/
def verifyLegacy (message signature : Bytes) (modulus : Nat) : Option Bool :=
  verifyWith (intToBitSize modulus / 8) message signature modulus

section Sizes

variable {message signature : Bytes} {modulus : Nat}

lemma intToByteSize_mono {m n : Nat} (h : m ≤ n) : intToByteSize m ≤ intToByteSize n := by
  have hbits : intToBitSize m ≤ intToBitSize n := by
    unfold intToBitSize
    split_ifs with hm hn
    · exact le_rfl
    · exact Nat.zero_le _
    · omega
    · have hlog := (Nat.le_log2 (by omega)).mpr ((Nat.log2_self_le hm).trans h)
      omega
  unfold intToByteSize
  omega

lemma iterate_square_mod (modulus k base : Nat) :
    ((fun x => x * x % modulus)^[k] base) % modulus = base ^ 2 ^ k % modulus := by
  induction k generalizing base with
  | zero => simp
  | succ k ih => rw [Function.iterate_succ_apply, ih, ← Nat.pow_mod, ← pow_two, ← pow_mul, ← pow_succ']

lemma modPow_publicExponent (base modulus : Nat) : modPow base publicExponent modulus =
    ((fun x => x * x % modulus)^[16] base) * base % modulus := by
  rw [Nat.mul_mod, iterate_square_mod, ← Nat.mul_mod, ← pow_succ]
  rfl

lemma verify_eq_verifyEncoding {width n : Nat} (hpos : 0 < width * n) (hlength : signature.length = width * n)
    (hsize : intToByteSize modulus = width * n) (hlt : signature.toNat < modulus) :
    verify message signature modulus = force (modPow signature.toNat publicExponent modulus) fun value =>
      verifyEncoding (intToBitSize modulus) (width * n) (sha256 message)
        ((List.range n).flatMap fun i => Bytes.ofNat width (value / 256 ^ (width * (n - 1 - i)))) := by
  have hvalue : modPow signature.toNat publicExponent modulus ≤ modulus := (Nat.mod_lt _ (by omega)).le
  have hle := (intToByteSize_mono hvalue).trans_eq hsize
  have hpad : max (width * n) (max 1 (intToByteSize (modPow signature.toNat publicExponent modulus))) = width * n := by
    omega
  unfold verify verifyWith
  change (if intToByteSize modulus = signature.length then _ else _) = _
  rw [if_pos (by rw [hsize, hlength]), if_pos hlt]
  change verifyEncoding _ (intToByteSize modulus) _ (padToKeySize (intToByteSize modulus) _) = _
  rw [hsize, padToKeySize, hpad, Bytes.ofNat_mul, force_eq]

end Sizes

end Arweave.RsaPss

import Arweave.Lib.Bytes

/-!
# SHA-256 and SHA-384

The two hash functions over byte lists. Both are instances of one compression function
over words of 32 or 64 bits; the constants of the 32-bit variant are the high halves of
those of the 64-bit one. Words are natural numbers below the word modulus, so that the
kernel evaluates a digest quickly.
-/

namespace Arweave.Lib.Sha2

/-- Application to a value computed first: the kernel reduces the match on `n` before it
enters `k`, so that later terms hold the value and not the expression. -/
def force {α : Type} (n : Nat) (k : Nat → α) : α :=
  match n with
  | 0 => k 0
  | Nat.succ m => k (Nat.succ m)

lemma force_eq {α : Type} (n : Nat) (k : Nat → α) : force n k = k n := by
  cases n with
  | zero => rfl
  | succ m => rfl

def rotr (bits modulus n x : Nat) : Nat :=
  Nat.lor (Nat.shiftRight x n) (Nat.mod (Nat.shiftLeft x (Nat.sub bits n)) modulus)

def bigSigma (bits modulus i j k x : Nat) : Nat :=
  Nat.xor (Nat.xor (rotr bits modulus i x) (rotr bits modulus j x)) (rotr bits modulus k x)

def smallSigma (bits modulus i j k x : Nat) : Nat :=
  Nat.xor (Nat.xor (rotr bits modulus i x) (rotr bits modulus j x)) (Nat.shiftRight x k)

def choose (mask e f g : Nat) : Nat :=
  Nat.xor (Nat.land e f) (Nat.land (Nat.xor e mask) g)

def majority (a b c : Nat) : Nat :=
  Nat.xor (Nat.xor (Nat.land a b) (Nat.land a c)) (Nat.land b c)

/-- The parameters by which the members of the family differ. -/
structure Variant where
  wordBytes : Nat
  wordBits : Nat
  modulus : Nat
  constants : List Nat
  initial : List Nat
  bigSigma0 : Nat → Nat
  bigSigma1 : Nat → Nat
  smallSigma0 : Nat → Nat
  smallSigma1 : Nat → Nat
  outputWords : Nat

namespace Variant

variable (p : Variant)

def blockBytes : Nat := 16 * p.wordBytes

/-- The sum of two words. -/
def add (x y : Nat) : Nat := Nat.mod (Nat.add x y) p.modulus

/-- The word of a packed window that has `i` words after it. -/
def word (i window : Nat) : Nat :=
  Nat.mod (Nat.shiftRight window (Nat.mul i p.wordBits)) p.modulus

end Variant

/-- The eight working variables. -/
structure Working where
  (a b c d e f g h : Nat)

def round (p : Variant) (constant word : Nat) : Working → Working
  | ⟨a, b, c, d, e, f, g, h⟩ =>
    force (p.add (p.add (p.add h (p.bigSigma1 e)) (choose (Nat.sub p.modulus 1) e f g))
      (p.add constant word)) fun t1 =>
    force (p.add (p.add t1 (p.bigSigma0 a)) (majority a b c)) fun a' =>
    force (p.add d t1) fun e' =>
    ⟨a', a, b, c, e', e, f, g⟩

/-- The rounds of one block. `window` packs the next 16 words of the message schedule,
the first of them in the highest position; each round appends one word. -/
def rounds (p : Variant) : List Nat → Nat → Working → Working
  | constant :: constants, window, s =>
    force (p.word 15 window) fun word =>
    force (p.add (p.add (p.smallSigma1 (p.word 1 window)) (p.word 6 window))
      (p.add (p.smallSigma0 (p.word 14 window)) word)) fun next =>
    force (Nat.add (Nat.shiftLeft (Nat.mod window (Nat.shiftLeft 1 (Nat.mul 15 p.wordBits)))
      p.wordBits) next) fun window' =>
    rounds p constants window' (round p constant word s)
  | [], _, s => s

def compress (p : Variant) (s : Working) (window : Nat) : Working :=
  let t := rounds p p.constants window s
  ⟨p.add s.a t.a, p.add s.b t.b, p.add s.c t.c, p.add s.d t.d,
    p.add s.e t.e, p.add s.f t.f, p.add s.g t.g, p.add s.h t.h⟩

/-- The message with its delimiter, zeros and length, a whole number of blocks. -/
def pad (p : Variant) (message : Bytes) : Bytes :=
  let zeros := (2 * p.blockBytes - 2 * p.wordBytes - 1 - message.length % p.blockBytes) % p.blockBytes
  message ++ 0x80 :: List.replicate zeros 0 ++ Bytes.ofNat (2 * p.wordBytes) (8 * message.length)

def blocks (p : Variant) : Nat → Bytes → Working → Working
  | 0, _, s => s
  | count + 1, b, s =>
    blocks p count (b.drop p.blockBytes) (compress p s (Bytes.toNat (b.take p.blockBytes)))

def output (p : Variant) (s : Working) : Bytes :=
  (([s.a, s.b, s.c, s.d, s.e, s.f, s.g, s.h].take p.outputWords).map
    (Bytes.ofNat p.wordBytes)).flatten

def hash (p : Variant) (message : Bytes) : Bytes :=
  let b := pad p message
  match p.initial with
  | [i0, i1, i2, i3, i4, i5, i6, i7] =>
    output p (blocks p (b.length / p.blockBytes) b ⟨i0, i1, i2, i3, i4, i5, i6, i7⟩)
  | _ => []

/-- The round constants of the 64-bit variants. -/
def constants64 : List Nat := [
    0x428a2f98d728ae22, 0x7137449123ef65cd, 0xb5c0fbcfec4d3b2f, 0xe9b5dba58189dbbc,
    0x3956c25bf348b538, 0x59f111f1b605d019, 0x923f82a4af194f9b, 0xab1c5ed5da6d8118,
    0xd807aa98a3030242, 0x12835b0145706fbe, 0x243185be4ee4b28c, 0x550c7dc3d5ffb4e2,
    0x72be5d74f27b896f, 0x80deb1fe3b1696b1, 0x9bdc06a725c71235, 0xc19bf174cf692694,
    0xe49b69c19ef14ad2, 0xefbe4786384f25e3, 0x0fc19dc68b8cd5b5, 0x240ca1cc77ac9c65,
    0x2de92c6f592b0275, 0x4a7484aa6ea6e483, 0x5cb0a9dcbd41fbd4, 0x76f988da831153b5,
    0x983e5152ee66dfab, 0xa831c66d2db43210, 0xb00327c898fb213f, 0xbf597fc7beef0ee4,
    0xc6e00bf33da88fc2, 0xd5a79147930aa725, 0x06ca6351e003826f, 0x142929670a0e6e70,
    0x27b70a8546d22ffc, 0x2e1b21385c26c926, 0x4d2c6dfc5ac42aed, 0x53380d139d95b3df,
    0x650a73548baf63de, 0x766a0abb3c77b2a8, 0x81c2c92e47edaee6, 0x92722c851482353b,
    0xa2bfe8a14cf10364, 0xa81a664bbc423001, 0xc24b8b70d0f89791, 0xc76c51a30654be30,
    0xd192e819d6ef5218, 0xd69906245565a910, 0xf40e35855771202a, 0x106aa07032bbd1b8,
    0x19a4c116b8d2d0c8, 0x1e376c085141ab53, 0x2748774cdf8eeb99, 0x34b0bcb5e19b48a8,
    0x391c0cb3c5c95a63, 0x4ed8aa4ae3418acb, 0x5b9cca4f7763e373, 0x682e6ff3d6b2b8a3,
    0x748f82ee5defb2fc, 0x78a5636f43172f60, 0x84c87814a1f0ab72, 0x8cc702081a6439ec,
    0x90befffa23631e28, 0xa4506cebde82bde9, 0xbef9a3f7b2c67915, 0xc67178f2e372532b,
    0xca273eceea26619c, 0xd186b8c721c0c207, 0xeada7dd6cde0eb1e, 0xf57d4f7fee6ed178,
    0x06f067aa72176fba, 0x0a637dc5a2c898a6, 0x113f9804bef90dae, 0x1b710b35131c471b,
    0x28db77f523047d84, 0x32caab7b40c72493, 0x3c9ebe0a15c9bebc, 0x431d67c49c100d4c,
    0x4cc5d4becb3e42b6, 0x597f299cfc657e2a, 0x5fcb6fab3ad6faec, 0x6c44198c4a475817
  ]

def sha256Variant : Variant where
  wordBytes := 4
  wordBits := 32
  modulus := 0x100000000
  constants := (constants64.take 64).map (Nat.shiftRight · 32)
  initial := [0x6a09e667, 0xbb67ae85, 0x3c6ef372, 0xa54ff53a,
    0x510e527f, 0x9b05688c, 0x1f83d9ab, 0x5be0cd19]
  bigSigma0 := bigSigma 32 0x100000000 2 13 22
  bigSigma1 := bigSigma 32 0x100000000 6 11 25
  smallSigma0 := smallSigma 32 0x100000000 7 18 3
  smallSigma1 := smallSigma 32 0x100000000 17 19 10
  outputWords := 8

def sha384Variant : Variant where
  wordBytes := 8
  wordBits := 64
  modulus := 0x10000000000000000
  constants := constants64
  initial := [0xcbbb9d5dc1059ed8, 0x629a292a367cd507, 0x9159015a3070dd17, 0x152fecd8f70e5939,
    0x67332667ffc00b31, 0x8eb44a8768581511, 0xdb0c2e0d64f98fa7, 0x47b5481dbefa4fa4]
  bigSigma0 := bigSigma 64 0x10000000000000000 28 34 39
  bigSigma1 := bigSigma 64 0x10000000000000000 14 18 41
  smallSigma0 := smallSigma 64 0x10000000000000000 1 8 7
  smallSigma1 := smallSigma 64 0x10000000000000000 19 61 6
  outputWords := 6

def sha256 : Digest 32 where
  hash := hash sha256Variant
  length_hash x := by simp [hash, output, sha256Variant]

def sha384 : Digest 48 where
  hash := hash sha384Variant
  length_hash x := by simp [hash, output, sha384Variant]

-- the published digests of "abc"
set_option maxRecDepth 10000 in
example : Bytes.toNat (sha256 [0x61, 0x62, 0x63]) =
    0xba7816bf8f01cfea414140de5dae2223b00361a396177a9cb410ff61f20015ad := by decide

set_option maxRecDepth 10000 in
example : Bytes.toNat (sha384 [0x61, 0x62, 0x63]) =
    0xcb00753f45a35e8bb5a03d699ac65007272c32ab0eded1631a8b605a43ff5bed8086072ba1e7cc2358baeca134c825a7 := by
  decide

end Arweave.Lib.Sha2

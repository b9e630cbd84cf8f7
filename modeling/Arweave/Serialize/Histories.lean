import Arweave.BlockIndex.Index
import Arweave.Lib.Base64
import Arweave.Lib.KeyOrder
import Arweave.Lib.Layout
import Arweave.Serialize.Accepted

/-!
# The binary formats of histories and of proofs

A history is written from its last entry to its first and turned around again when it is read.
The numbers in its entries have their sizes in front, and the reader does not ask for the
shortest form of a number. It therefore accepts several binaries of one history, of which one
is written.
-/

namespace Arweave.Serialize
open Arweave.Lib Arweave.Lib.Codec Arweave.Wallet
open BlockIndex (Element)

inductive HistoryError where
  | invalidRewardHistory
  | invalidBlockTimeHistory
  | invalidPacking
  | invalidInput
  deriving DecidableEq, Repr

/-- The tuple `{Addr, HashRate, Reward, Denomination}`. -/
structure RewardTuple where
  addr : Bytes
  hashRate : Nat
  reward : Nat
  denomination : Nat
  deriving DecidableEq, Repr

def rewardTupleToBinary (entry : RewardTuple) : Option Bytes :=
  some (entry.addr ++ (encodeInt entry.hashRate 1 ++ (encodeInt entry.reward 1 ++ Bytes.ofNat 3 entry.denomination)))

def rewardHistoryToBinary (rewardHistory : List RewardTuple) : Option Bytes :=
  entriesToBinaryFrom rewardTupleToBinary rewardHistory []

/-- The fields of an entry as they are read. -/
structure RewardFields where
  addr : Fixed 32
  hashRate : Sized 1
  reward : Sized 1
  denomination : Fixed 3

def rewardFields : Pattern RewardFields := do
  let addr ← fixed 32
  let hashRate ← sized 1
  let reward ← sized 1
  let denomination ← fixed 3
  return { addr, hashRate, reward, denomination }

def RewardFields.toTuple (f : RewardFields) : RewardTuple where
  addr := f.addr.1
  hashRate := f.hashRate.1.toNat
  reward := f.reward.1.toNat
  denomination := f.denomination.1.toNat

def binaryToRewardHistory (bin : Bytes) : Except HistoryError (List RewardTuple) :=
  binaryToEntriesFrom rewardFields RewardFields.toTuple .invalidRewardHistory bin.length bin []

/-- The tuple `{BlockInterval, VDFInterval, ChunkCount}`. -/
structure BlockTimeTuple where
  blockInterval : Nat
  vdfInterval : Nat
  chunkCount : Nat
  deriving DecidableEq, Repr

def blockTimeTupleToBinary (entry : BlockTimeTuple) : Option Bytes :=
  some (encodeInt entry.blockInterval 1 ++ (encodeInt entry.vdfInterval 1 ++ encodeInt entry.chunkCount 1))

def blockTimeHistoryToBinary (blockTimeHistory : List BlockTimeTuple) : Option Bytes :=
  entriesToBinaryFrom blockTimeTupleToBinary blockTimeHistory []

structure BlockTimeFields where
  blockInterval : Sized 1
  vdfInterval : Sized 1
  chunkCount : Sized 1

def blockTimeFields : Pattern BlockTimeFields := do
  let blockInterval ← sized 1
  let vdfInterval ← sized 1
  let chunkCount ← sized 1
  return { blockInterval, vdfInterval, chunkCount }

def BlockTimeFields.toTuple (f : BlockTimeFields) : BlockTimeTuple where
  blockInterval := f.blockInterval.1.toNat
  vdfInterval := f.vdfInterval.1.toNat
  chunkCount := f.chunkCount.1.toNat

def binaryToBlockTimeHistory (bin : Bytes) : Except HistoryError (List BlockTimeTuple) :=
  binaryToEntriesFrom blockTimeFields BlockTimeFields.toTuple .invalidBlockTimeHistory bin.length bin []

def elementToBinary (element : Element) : Option Bytes := do
  let bh ← binaryOf 48 element.h
  return bh ++ (encodeInt element.weaveSize 2 ++ encodeBin element.txRoot 1)

def blockIndexToBinary (bi : List Element) : Option Bytes :=
  entriesToBinaryFrom elementToBinary bi []

structure ElementFields where
  bh : Fixed 48
  weaveSize : Sized 2
  txRoot : Sized 1

def elementFields : Pattern ElementFields := do
  let bh ← fixed 48
  let weaveSize ← sized 2
  let txRoot ← sized 1
  return { bh, weaveSize, txRoot }

def ElementFields.toElement (f : ElementFields) : Element where
  h := f.bh.1
  weaveSize := f.weaveSize.1.toNat
  txRoot := f.txRoot.1

def binaryToBlockIndex (bin : Bytes) : Except HistoryError (List Element) :=
  binaryToEntriesFrom elementFields ElementFields.toElement .invalidInput bin.length bin []

section Proofs

inductive Packing where
  | unpacked
  | spora25
  | spora26 (addr : Bytes)
  deriving DecidableEq, Repr

/-- The map with the keys `chunk`, `tx_path`, `data_path` and `packing`. -/
structure PoaMap where
  chunk : Bytes
  txPath : Bytes
  dataPath : Bytes
  packing : Packing
  deriving DecidableEq, Repr

def ascii (s : String) : Bytes := s.toList.map fun c => UInt8.ofNat c.toNat

-- `ar_util:encode/1` and `ar_util:safe_decode/1`
variable (encode : Bytes → Bytes) (safeDecode : Bytes → Option Bytes)

def packingToBinary : Packing → Bytes
  | .unpacked => ascii "unpacked"
  | .spora25 => ascii "spora_2_5"
  | .spora26 addr => ascii "spora_2_6_" ++ encode addr

def poaToBinary (poa : PoaMap) : Bytes :=
  encodeBin poa.chunk 3 ++ (encodeBin poa.txPath 3 ++ (encodeBin poa.dataPath 3 ++
    encodeBin (packingToBinary encode poa.packing) 1))

structure PoaFields where
  chunk : Sized 3
  txPath : Sized 3
  dataPath : Sized 3
  packing : Sized 1

def poaFields : Pattern PoaFields := do
  let chunk ← sized 3
  let txPath ← sized 3
  let dataPath ← sized 3
  let packing ← sized 1
  return { chunk, txPath, dataPath, packing }

def binaryToPacking (bin : Bytes) : Option Packing :=
  if bin = ascii "unpacked" then some .unpacked
  else if bin = ascii "spora_2_5" then some .spora25
  else if bin.take 10 = ascii "spora_2_6_" ∧ (bin.drop 10).length ≤ 64 then .spora26 <$> safeDecode (bin.drop 10)
  else none

def binaryToPoa (bin : Bytes) : Except HistoryError PoaMap :=
  match poaFields.run bin with
  | some (f, []) =>
    match binaryToPacking safeDecode f.packing.1 with
    | some packing => .ok { chunk := f.chunk.1, txPath := f.txPath.1, dataPath := f.dataPath.1, packing }
    | none => .error .invalidPacking
  | _ => .error .invalidInput

end Proofs

section Shortest

variable {w : Nat}

/-- Only zero starts with a zero byte. -/
def Shortest (b : Bytes) : Prop := b ≠ [] ∧ (b.head? = some 0 → b = [0])

instance (b : Bytes) : Decidable (Shortest b) := inferInstanceAs (Decidable (_ ∧ _))

lemma shortest_encodeUnsigned (n : Nat) : Shortest (encodeUnsigned n) := by
  refine ⟨List.ne_nil_of_length_pos (length_encodeUnsigned_pos n), fun hhead => ?_⟩
  rw [encodeUnsigned] at hhead ⊢
  split_ifs with h
  · rfl
  · rw [if_neg h, List.head?_reverse, List.getLast?_map,
      List.getLast?_eq_getLast_of_ne_nil (Nat.digits_ne_nil_iff_ne_zero.mpr h)] at hhead
    have hlast := Nat.getLast_digit_ne_zero 256 h
    have hlt := Nat.digits_lt_base (b := 256) (by decide) (List.getLast_mem (Nat.digits_ne_nil_iff_ne_zero.mpr h))
    have hzero := congrArg UInt8.toNat (Option.some.inj hhead)
    rw [UInt8.toNat_ofNat'] at hzero
    exact absurd (by simpa [Nat.mod_eq_of_lt hlt] using hzero) hlast

lemma Shortest.length_le {b c : Bytes} (h : Shortest b) (heq : b.toNat = c.toNat) (hc : c ≠ []) :
    b.length ≤ c.length := by
  obtain ⟨x, b, rfl⟩ := List.exists_cons_of_ne_nil h.1
  by_cases hx : x = 0
  · rw [h.2 (by rw [hx]; rfl)]
    exact List.length_pos_of_ne_nil hc
  · have hpos : 0 < x.toNat := by
      rw [Nat.pos_iff_ne_zero]
      exact fun hzero => hx (UInt8.toNat_inj.mp hzero)
    have hle : 256 ^ b.length ≤ x.toNat * 256 ^ b.length := Nat.le_mul_of_pos_left _ hpos
    have hlt := Bytes.toNat_lt c
    rw [← heq, Bytes.toNat_cons] at hlt
    have hpow : 256 ^ b.length < 256 ^ c.length := by omega
    exact (Nat.pow_lt_pow_iff_right (by decide)).mp hpow

lemma encodeUnsigned_toNat_eq_iff (b : Bytes) : encodeUnsigned b.toNat = b ↔ Shortest b := by
  constructor
  · intro h
    rw [← h]
    exact shortest_encodeUnsigned _
  · intro h
    have hshort := shortest_encodeUnsigned b.toNat
    have heq := toNat_encodeUnsigned b.toNat
    exact Bytes.toNat_injective (le_antisymm (hshort.length_le heq h.1) (h.length_le heq.symm hshort.1)) heq

/-- The binary that the number of a field is written with. -/
def canonical (hw : 0 < w) (b : Sized w) : Sized w := ⟨encodeUnsigned b.1.toNat, length_encodeUnsigned_lt hw b.2⟩

lemma canonical_eq_iff (hw : 0 < w) (b : Sized w) : canonical hw b = b ↔ Shortest b.1 := by
  rw [Subtype.ext_iff]
  exact encodeUnsigned_toNat_eq_iff b.1

end Shortest

/-- The bytes of the fields of an entry. -/
def RewardFields.bytes (f : RewardFields) : Bytes :=
  f.addr.1 ++ (encodeBin f.hashRate.1 1 ++ (encodeBin f.reward.1 1 ++ f.denomination.1))

def BlockTimeFields.bytes (f : BlockTimeFields) : Bytes :=
  encodeBin f.blockInterval.1 1 ++ (encodeBin f.vdfInterval.1 1 ++ encodeBin f.chunkCount.1 1)

def ElementFields.bytes (f : ElementFields) : Bytes :=
  f.bh.1 ++ (encodeBin f.weaveSize.1 2 ++ encodeBin f.txRoot.1 1)

lemma run_sized_eq_encodeBin {w : Nat} {s rest : Bytes} {b : Sized w} :
    (sized w).run s = some (b, rest) ↔ s = encodeBin b.1 w ++ rest := run_sized_eq_some

lemma encodeBin_append_ne_nil (b rest : Bytes) : encodeBin b 1 ++ rest ≠ [] := by
  refine List.append_ne_nil_of_left_ne_nil (List.ne_nil_of_length_pos ?_) rest
  rw [encodeBin, List.length_append, Bytes.length_ofNat]
  omega

lemma fixed_append_ne_nil {n : Nat} (b : Fixed (n + 1)) (rest : Bytes) : b.1 ++ rest ≠ [] := by
  refine List.append_ne_nil_of_left_ne_nil (List.ne_nil_of_length_pos ?_) rest
  rw [b.2]
  exact Nat.succ_pos n

def rewardLayout : Layout RewardFields where
  fields := rewardFields
  bytes := RewardFields.bytes
  run_eq_some {s r rest} := by
    simp only [rewardFields, run_bind_eq_some, run_fixed_eq_some, run_sized_eq_encodeBin, run_pure_eq_some,
      RewardFields.bytes, List.append_assoc]
    constructor
    · rintro ⟨addr, -, rfl, hashRate, -, rfl, reward, -, rfl, denomination, -, rfl, rfl, rfl⟩
      rfl
    · rintro rfl
      exact ⟨_, _, rfl, _, _, rfl, _, _, rfl, _, _, rfl, rfl, rfl⟩
  bytes_ne_nil r := fixed_append_ne_nil r.addr _

def blockTimeLayout : Layout BlockTimeFields where
  fields := blockTimeFields
  bytes := BlockTimeFields.bytes
  run_eq_some {s r rest} := by
    simp only [blockTimeFields, run_bind_eq_some, run_sized_eq_encodeBin, run_pure_eq_some, BlockTimeFields.bytes,
      List.append_assoc]
    constructor
    · rintro ⟨blockInterval, -, rfl, vdfInterval, -, rfl, chunkCount, -, rfl, rfl, rfl⟩
      rfl
    · rintro rfl
      exact ⟨_, _, rfl, _, _, rfl, _, _, rfl, rfl, rfl⟩
  bytes_ne_nil r := encodeBin_append_ne_nil r.blockInterval.1 _

def elementLayout : Layout ElementFields where
  fields := elementFields
  bytes := ElementFields.bytes
  run_eq_some {s r rest} := by
    simp only [elementFields, run_bind_eq_some, run_fixed_eq_some, run_sized_eq_encodeBin, run_pure_eq_some,
      ElementFields.bytes, List.append_assoc]
    constructor
    · rintro ⟨bh, -, rfl, weaveSize, -, rfl, txRoot, -, rfl, rfl, rfl⟩
      rfl
    · rintro rfl
      exact ⟨_, _, rfl, _, _, rfl, _, _, rfl, rfl, rfl⟩
  bytes_ne_nil r := fixed_append_ne_nil r.bh _

structure RewardTuple.Fits (entry : RewardTuple) : Prop where
  addr : entry.addr.length = 32
  hashRate : (encodeUnsigned entry.hashRate).length < 256 ^ 1
  reward : (encodeUnsigned entry.reward).length < 256 ^ 1
  denomination : entry.denomination < 256 ^ 3

structure BlockTimeTuple.Fits (entry : BlockTimeTuple) : Prop where
  blockInterval : (encodeUnsigned entry.blockInterval).length < 256 ^ 1
  vdfInterval : (encodeUnsigned entry.vdfInterval).length < 256 ^ 1
  chunkCount : (encodeUnsigned entry.chunkCount).length < 256 ^ 1

structure ElementFits (element : Element) : Prop where
  h : element.h.length = 48
  weaveSize : (encodeUnsigned element.weaveSize).length < 256 ^ 2
  txRoot : element.txRoot.length < 256 ^ 1

structure PoaMap.Fits (encode : Bytes → Bytes) (poa : PoaMap) : Prop where
  chunk : poa.chunk.length < 256 ^ 3
  txPath : poa.txPath.length < 256 ^ 3
  dataPath : poa.dataPath.length < 256 ^ 3
  packing : (packingToBinary encode poa.packing).length < 256 ^ 1

section Inverse

variable {ρ α : Type}

/-- What fits is read back from its binary in its order. What is read fits, and is written back as
the same binary exactly when all numbers of the entries are in the shortest form. -/
def InverseOnShortest (L : Layout ρ) (value : ρ → α) (numbers : ρ → List Bytes) (Fits : α → Prop)
    (toBinary : List α → Option Bytes) (ofBinary : Bytes → Except HistoryError (List α)) : Prop :=
  (∀ V, (∀ x ∈ V, Fits x) → ∃ bin, toBinary V = some bin ∧ ofBinary bin = .ok V) ∧
  ∀ bin V, ofBinary bin = .ok V → (∀ x ∈ V, Fits x) ∧
    ∃ rows : List ρ, bin = rows.flatMap L.bytes ∧ V = (rows.map value).reverse ∧
      (toBinary V = some bin ↔ ∀ r ∈ rows, ∀ n ∈ numbers r, Shortest n)

variable {L : Layout ρ} {value : ρ → α} {numbers : ρ → List Bytes} {Fits : α → Prop} {encode : α → Option Bytes}
  {reason : HistoryError}

theorem inverseOnShortest (shortened : ρ → ρ) (hencode : ∀ x, Fits x → ∃ r, value r = x ∧ encode x = some (L.bytes r))
    (hfits : ∀ r, Fits (value r)) (hwrite : ∀ r, encode (value r) = some (L.bytes (shortened r)))
    (hshortened : ∀ r, shortened r = r ↔ ∀ n ∈ numbers r, Shortest n) :
    InverseOnShortest L value numbers Fits (fun V => entriesToBinaryFrom encode V [])
      (fun bin => binaryToEntriesFrom L.fields value reason bin.length bin []) := by
  refine ⟨fun V hV => L.round_trip fun x hx => hencode x (hV x hx), fun bin V hread => ?_⟩
  obtain ⟨rows, rfl, rfl⟩ := (L.binaryToEntriesFrom_eq_ok_iff le_rfl).mp hread
  rw [List.append_nil] at hread ⊢
  refine ⟨fun x hx => ?_, rows, rfl, rfl, ?_⟩
  · obtain ⟨r, -, rfl⟩ := List.mem_map.mp (List.mem_reverse.mp hx)
    exact hfits r
  · rw [L.entriesToBinaryFrom_eq_iff hwrite]
    exact forall₂_congr fun r _ => hshortened r

end Inverse

lemma ofNat_toNat_fixed {n : Nat} (b : Fixed n) : Bytes.ofNat n b.1.toNat = b.1 := by
  have h := Bytes.ofNat_toNat b.1
  rwa [b.2] at h

lemma rewardHistory_inverse : InverseOnShortest rewardLayout RewardFields.toTuple
    (fun r => [r.hashRate.1, r.reward.1]) RewardTuple.Fits rewardHistoryToBinary binaryToRewardHistory := by
  refine inverseOnShortest (fun r =>
    { r with hashRate := canonical (by decide) r.hashRate, reward := canonical (by decide) r.reward })
    (fun entry h => ?_) (fun r => ?_) (fun r => ?_) (fun r => ?_)
  · refine ⟨⟨⟨entry.addr, h.addr⟩, ⟨_, h.hashRate⟩, ⟨_, h.reward⟩, ⟨Bytes.ofNat 3 entry.denomination, by simp⟩⟩, ?_, rfl⟩
    simp only [RewardFields.toTuple, toNat_encodeUnsigned, Bytes.toNat_ofNat_of_lt h.denomination]
  · exact ⟨r.addr.2, length_encodeUnsigned_lt (by decide) r.hashRate.2,
      length_encodeUnsigned_lt (by decide) r.reward.2, r.denomination.toNat_lt⟩
  · simp only [rewardTupleToBinary, RewardFields.toTuple, ofNat_toNat_fixed]
    rfl
  · obtain ⟨addr, hashRate, reward, denomination⟩ := r
    simp [canonical_eq_iff]

lemma blockTimeHistory_inverse : InverseOnShortest blockTimeLayout BlockTimeFields.toTuple
    (fun r => [r.blockInterval.1, r.vdfInterval.1, r.chunkCount.1]) BlockTimeTuple.Fits blockTimeHistoryToBinary
    binaryToBlockTimeHistory := by
  refine inverseOnShortest (fun r => {
    blockInterval := canonical (by decide) r.blockInterval
    vdfInterval := canonical (by decide) r.vdfInterval
    chunkCount := canonical (by decide) r.chunkCount })
    (fun entry h => ?_) (fun r => ?_) (fun r => rfl) (fun r => ?_)
  · refine ⟨⟨⟨_, h.blockInterval⟩, ⟨_, h.vdfInterval⟩, ⟨_, h.chunkCount⟩⟩, ?_, rfl⟩
    simp only [BlockTimeFields.toTuple, toNat_encodeUnsigned]
  · exact ⟨length_encodeUnsigned_lt (by decide) r.blockInterval.2,
      length_encodeUnsigned_lt (by decide) r.vdfInterval.2, length_encodeUnsigned_lt (by decide) r.chunkCount.2⟩
  · obtain ⟨blockInterval, vdfInterval, chunkCount⟩ := r
    simp [canonical_eq_iff]

lemma blockIndex_inverse : InverseOnShortest elementLayout ElementFields.toElement (fun r => [r.weaveSize.1])
    ElementFits blockIndexToBinary binaryToBlockIndex := by
  refine inverseOnShortest (fun r => { r with weaveSize := canonical (by decide) r.weaveSize })
    (fun element h => ?_) (fun r => ?_) (fun r => ?_) (fun r => ?_)
  · refine ⟨⟨⟨element.h, h.h⟩, ⟨_, h.weaveSize⟩, ⟨element.txRoot, h.txRoot⟩⟩, ?_, ?_⟩
    · simp only [ElementFields.toElement, toNat_encodeUnsigned]
    · rw [elementToBinary, binaryOf_eq h.h]
      rfl
  · exact ⟨r.bh.2, length_encodeUnsigned_lt (by decide) r.weaveSize.2, r.txRoot.2⟩
  · rw [elementToBinary, ElementFields.toElement, binaryOf_eq r.bh.2]
    rfl
  · obtain ⟨bh, weaveSize, txRoot⟩ := r
    simp [canonical_eq_iff]

section Poa

variable {encode : Bytes → Bytes} {safeDecode : Bytes → Option Bytes} {poa : PoaMap} {addr : Bytes}

lemma binaryToPoa_poaToBinary (h : poa.Fits encode) : binaryToPoa safeDecode (poaToBinary encode poa) =
    match binaryToPacking safeDecode (packingToBinary encode poa.packing) with
    | some packing => .ok { poa with packing }
    | none => .error .invalidPacking := by
  have hrun : poaFields.run (poaToBinary encode poa) =
      some (⟨⟨_, h.chunk⟩, ⟨_, h.txPath⟩, ⟨_, h.dataPath⟩, ⟨_, h.packing⟩⟩, []) := by
    simp only [poaFields, run_bind_eq_some, run_sized_eq_encodeBin, run_pure_eq_some, poaToBinary]
    exact ⟨_, _, rfl, _, _, rfl, _, _, rfl, _, _, (List.append_nil _).symm, rfl, rfl⟩
  rw [binaryToPoa, hrun]

lemma binaryToPacking_spora26 : binaryToPacking safeDecode (packingToBinary encode (.spora26 addr)) =
    if (encode addr).length ≤ 64 then .spora26 <$> safeDecode (encode addr) else none := by
  have hlen : (ascii "spora_2_6_" ++ encode addr).length = 10 + (encode addr).length := by
    rw [List.length_append]
    rfl
  have hunpacked : ascii "spora_2_6_" ++ encode addr ≠ ascii "unpacked" := by
    intro heq
    have h8 := congrArg List.length heq
    rw [hlen] at h8
    change _ = 8 at h8
    omega
  have hspora25 : ascii "spora_2_6_" ++ encode addr ≠ ascii "spora_2_5" := by
    intro heq
    have h9 := congrArg List.length heq
    rw [hlen] at h9
    change _ = 9 at h9
    omega
  have htake : (ascii "spora_2_6_" ++ encode addr).take 10 = ascii "spora_2_6_" := List.take_left' rfl
  have hdrop : (ascii "spora_2_6_" ++ encode addr).drop 10 = encode addr := List.drop_left' rfl
  rw [packingToBinary, binaryToPacking, if_neg hunpacked, if_neg hspora25, htake, hdrop]
  simp only [true_and]

/-- Addresses of up to 48 bytes have up to 64 characters. -/
def Packing.Short : Packing → Prop
  | .spora26 addr => addr.length ≤ 48
  | _ => True

instance : DecidablePred Packing.Short
  | .unpacked => inferInstanceAs (Decidable True)
  | .spora25 => inferInstanceAs (Decidable True)
  | .spora26 addr => inferInstanceAs (Decidable (addr.length ≤ 48))

lemma poa_round_trip (hdecode : ∀ b, safeDecode (encode b) = some b)
    (hlength : ∀ b, (encode b).length = (4 * b.length + 2) / 3) (h : poa.Fits encode) :
    binaryToPoa safeDecode (poaToBinary encode poa) =
      if poa.packing.Short then .ok poa else .error .invalidPacking := by
  rw [binaryToPoa_poaToBinary h]
  obtain ⟨chunk, txPath, dataPath, packing⟩ := poa
  cases packing with
  | unpacked => rfl
  | spora25 => rfl
  | spora26 addr =>
    have hshort : (encode addr).length ≤ 64 ↔ (Packing.spora26 addr).Short := by
      rw [hlength]
      change _ ↔ addr.length ≤ 48
      omega
    rw [binaryToPacking_spora26, if_congr hshort rfl rfl, hdecode]
    split_ifs
    · rfl
    · rfl

end Poa

section Main

/-- Two binaries of one reward history are accepted, and an address of 49 bytes is not read
back. -/
theorem histories_not_inverse :
    (let entry : RewardTuple := ⟨List.replicate 32 0, 0, 0, 1⟩
     let short : Bytes := List.replicate 32 0 ++ [0, 0, 0, 0, 1]
     let written : Bytes := List.replicate 32 0 ++ [1, 0, 1, 0, 0, 0, 1]
     binaryToRewardHistory short = .ok [entry] ∧ binaryToRewardHistory written = .ok [entry] ∧
       rewardHistoryToBinary [entry] = some written ∧ written ≠ short) ∧
    (let poa : PoaMap := ⟨[], [], [], .spora26 (List.replicate 49 0)⟩
     (packingToBinary Base64.encode poa.packing).length < 256 ∧
       binaryToPoa Base64.decode (poaToBinary Base64.encode poa) = .error .invalidPacking) := by
  decide

variable {encode : Bytes → Bytes} {safeDecode : Bytes → Option Bytes}

theorem histories_inverse (hdecode : ∀ b, safeDecode (encode b) = some b)
    (hlength : ∀ b, (encode b).length = (4 * b.length + 2) / 3) :
    InverseOnShortest rewardLayout RewardFields.toTuple (fun r => [r.hashRate.1, r.reward.1]) RewardTuple.Fits
      rewardHistoryToBinary binaryToRewardHistory ∧
    InverseOnShortest blockTimeLayout BlockTimeFields.toTuple
      (fun r => [r.blockInterval.1, r.vdfInterval.1, r.chunkCount.1]) BlockTimeTuple.Fits blockTimeHistoryToBinary
      binaryToBlockTimeHistory ∧
    InverseOnShortest elementLayout ElementFields.toElement (fun r => [r.weaveSize.1]) ElementFits blockIndexToBinary
      binaryToBlockIndex ∧
    ∀ poa : PoaMap, poa.Fits encode → binaryToPoa safeDecode (poaToBinary encode poa) =
      if poa.packing.Short then .ok poa else .error .invalidPacking :=
  ⟨rewardHistory_inverse, blockTimeHistory_inverse, blockIndex_inverse, fun _ => poa_round_trip hdecode hlength⟩

theorem histories_inverse_base64 :
    (∃ bin, rewardHistoryToBinary [⟨List.replicate 32 7, 300, 5, 1⟩, ⟨List.replicate 32 9, 0, 70000, 2⟩] = some bin ∧
      binaryToRewardHistory bin = .ok [⟨List.replicate 32 7, 300, 5, 1⟩, ⟨List.replicate 32 9, 0, 70000, 2⟩]) ∧
    binaryToPoa Base64.decode (poaToBinary Base64.encode ⟨[1, 2], [], [3], .spora26 (List.replicate 33 250)⟩) =
      .ok ⟨[1, 2], [], [3], .spora26 (List.replicate 33 250)⟩ := by
  have h := histories_inverse Base64.decode_encode Base64.length_encode
  refine ⟨h.1.1 _ fun entry hentry => ?_, h.2.2.2 _ ?_⟩
  · rcases List.mem_pair.mp hentry with rfl | rfl
    · exact ⟨by decide, by simp [encodeUnsigned], by simp [encodeUnsigned], by decide⟩
    · exact ⟨by decide, by simp [encodeUnsigned], by simp [encodeUnsigned], by decide⟩
  · exact ⟨by decide, by decide, by decide, by decide⟩

end Main

end Arweave.Serialize

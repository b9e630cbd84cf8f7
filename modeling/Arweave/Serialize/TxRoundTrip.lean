import Arweave.Serialize.Tx

/-!
# Transactions are read back

The pattern of the fields reads what `encode_tx` writes, and the loops over the tags and over
the transactions of a block undo the reversal of the encoders. The parsers bound the number
of tags and the number of transactions, the encoders do not.
-/

namespace Arweave.Serialize
open Arweave.Lib Arweave.Lib.Codec Arweave.Tx Arweave.Wallet

section Fields

variable {w n : Nat} {b : Bytes}

lemma reads_encodeBin (h : b.length < 256 ^ w) : Reads (sized w) (encodeBin b w) ⟨b, h⟩ :=
  reads_sized ⟨b, h⟩

lemma reads_encodeInt (h : (encodeUnsigned n).length < 256 ^ w) :
    Reads (sized w) (encodeInt n w) ⟨encodeUnsigned n, h⟩ :=
  reads_sized ⟨encodeUnsigned n, h⟩

lemma reads_ofNat : Reads (fixed w) (Bytes.ofNat w n) ⟨Bytes.ofNat w n, Bytes.length_ofNat w n⟩ :=
  reads_fixed ⟨_, Bytes.length_ofNat w n⟩

lemma binaryOf_eq (h : b.length = n) : binaryOf n b = some b := by
  subst h
  simp [binaryOf]

lemma encodeInteger_eq {n : Int} (h : 0 ≤ n) : encodeInteger n w = some (encodeInt n.toNat w) :=
  if_pos h

end Fields

/-- The names and the values fit their size fields. -/
def TagsFit (tags : List (Bytes × Bytes)) : Prop :=
  ∀ tag ∈ tags, tag.1.length < 256 ^ 2 ∧ tag.2.length < 256 ^ 2

instance (tags : List (Bytes × Bytes)) : Decidable (TagsFit tags) :=
  inferInstanceAs (Decidable (∀ tag ∈ tags, tag.1.length < 256 ^ 2 ∧ tag.2.length < 256 ^ 2))

lemma encodeTxTagsFrom_eq (tags : List (Bytes × Bytes)) (encoded : Bytes) (n : Nat) :
    encodeTxTagsFrom tags encoded n =
      Bytes.ofNat 2 (n + tags.length) ++ tags.reverse.flatMap encodeTag ++ encoded := by
  induction tags generalizing encoded n with
  | nil => simp [encodeTxTagsFrom]
  | cons tag tags ih =>
    rw [encodeTxTagsFrom, ih, List.length_cons, List.reverse_cons, List.flatMap_append]
    simp [Nat.add_comm, Nat.add_left_comm]

lemma reads_encodeTag {tag : Bytes × Bytes} (hname : tag.1.length < 256 ^ 2)
    (hvalue : tag.2.length < 256 ^ 2) :
    Reads tagPattern (encodeTag tag) (⟨tag.1, hname⟩, ⟨tag.2, hvalue⟩) := by
  have hn : (Bytes.ofNat 2 tag.1.length).toNat = tag.1.length := Bytes.toNat_ofNat_of_lt hname
  have hv : (Bytes.ofNat 2 tag.2.length).toNat = tag.2.length := Bytes.toNat_ofNat_of_lt hvalue
  rw [encodeTag, List.append_assoc, List.append_assoc]
  refine reads_ofNat.bind (reads_ofNat.bind ?_)
  exact (reads_fixed ⟨tag.1, hn.symm⟩).bind (reads_fixed ⟨tag.2, hv.symm⟩).bind_pure

lemma parseTxTagsFrom_eq {l : List (Bytes × Bytes)} (hl : TagsFit l) (rest : Bytes)
    (tags : List (Bytes × Bytes)) :
    parseTxTagsFrom l.length (l.flatMap encodeTag ++ rest) tags = .ok (l.reverse ++ tags, rest) := by
  induction l generalizing tags with
  | nil => rfl
  | cons tag l ih =>
    obtain ⟨hname, hvalue⟩ := hl tag List.mem_cons_self
    rw [List.length_cons, List.flatMap_cons, List.append_assoc, parseTxTagsFrom,
      reads_encodeTag hname hvalue]
    simp only
    rw [ih fun x hx => hl x (List.mem_cons_of_mem _ hx)]
    simp

lemma parseTxTags_encodeTxTags {tags : List (Bytes × Bytes)} (hl : tags.length ≤ 2048)
    (hfit : TagsFit tags) (rest : Bytes) :
    parseTxTags (encodeTxTags tags ++ rest) = .ok (tags, rest) := by
  have hlen : (Bytes.ofNat 2 tags.length).toNat = tags.length :=
    Bytes.toNat_ofNat_of_lt (by omega)
  rw [encodeTxTags, encodeTxTagsFrom_eq, Nat.zero_add, List.append_nil, List.append_assoc, parseTxTags,
    reads_ofNat]
  simp only [hlen, if_pos hl]
  rw [← List.length_reverse, parseTxTagsFrom_eq fun x hx => hfit x (List.mem_reverse.mp hx)]
  simp

lemma parseTxTags_encodeTxTags_error {tags : List (Bytes × Bytes)} (hl : 2048 < tags.length)
    (hl2 : tags.length < 256 ^ 2) (rest : Bytes) :
    parseTxTags (encodeTxTags tags ++ rest) = .error .invalidTxTagsInput := by
  have hlen : (Bytes.ofNat 2 tags.length).toNat = tags.length := Bytes.toNat_ofNat_of_lt hl2
  rw [encodeTxTags, encodeTxTagsFrom_eq, Nat.zero_add, List.append_nil, List.append_assoc, parseTxTags,
    reads_ofNat]
  simp only [hlen, if_neg (Nat.not_le.mpr hl)]

section Transaction

/-- The fields of the transaction fit their places in the binary. -/
structure Encodable (tx : TX) : Prop where
  format : tx.format = 1 ∨ tx.format = 2
  id : tx.id.length = 32
  signatureType : tx.signatureType = .rsa
  denomination : tx.denomination < 256 ^ 3
  dataSize : tx.format = 1 → tx.dataSize = tx.data.length
  nonneg : ∀ n ∈ [tx.quantity, tx.dataSize, tx.reward], 0 ≤ n
  sizes1 : ∀ b ∈ [tx.lastTx, tx.target, tx.dataRoot, encodeUnsigned tx.quantity.toNat,
    encodeUnsigned tx.reward.toNat], b.length < 256 ^ 1
  sizes2 : ∀ b ∈ [tx.owner, tx.signature, encodeUnsigned tx.dataSize.toNat], b.length < 256 ^ 2
  data : tx.data.length < 256 ^ 3
  tags : TagsFit tx.tags

/-- The fields as the pattern returns them. -/
def Encodable.fields {tx : TX} (h : Encodable tx) : TxFields where
  format := ⟨Bytes.ofNat 1 tx.format, Bytes.length_ofNat _ _⟩
  id := ⟨tx.id, h.id⟩
  lastTx := ⟨tx.lastTx, h.sizes1 _ (by simp)⟩
  owner := ⟨tx.owner, h.sizes2 _ (by simp)⟩
  target := ⟨tx.target, h.sizes1 _ (by simp)⟩
  quantity := ⟨encodeUnsigned tx.quantity.toNat, h.sizes1 _ (by simp)⟩
  dataSize := ⟨encodeUnsigned tx.dataSize.toNat, h.sizes2 _ (by simp)⟩
  dataRoot := ⟨tx.dataRoot, h.sizes1 _ (by simp)⟩
  signature := ⟨tx.signature, h.sizes2 _ (by simp)⟩
  reward := ⟨encodeUnsigned tx.reward.toNat, h.sizes1 _ (by simp)⟩
  data := ⟨tx.data, h.data⟩

/-- What `encode_tx` writes before the tags. -/
def fieldsBinary (tx : TX) : Bytes :=
  Bytes.ofNat 1 tx.format ++ (tx.id ++ (encodeBin tx.lastTx 1 ++ (encodeBin tx.owner 2 ++
    (encodeBin tx.target 1 ++ (encodeInt tx.quantity.toNat 1 ++ (encodeInt tx.dataSize.toNat 2 ++
    (encodeBin tx.dataRoot 1 ++ (encodeBin tx.signature 2 ++ (encodeInt tx.reward.toNat 1 ++
    encodeBin tx.data 3)))))))))

variable {tx : TX}

lemma encodeTx_eq (h : Encodable tx) :
    encodeTx tx = some (fieldsBinary tx ++ (encodeTxTags tx.tags ++ mayBeEncodeTxDenomination tx)) := by
  have hq := encodeInteger_eq (w := 1) (h.nonneg tx.quantity (by simp))
  have hd := encodeInteger_eq (w := 2) (h.nonneg tx.dataSize (by simp))
  have hr := encodeInteger_eq (w := 1) (h.nonneg tx.reward (by simp))
  simp only [encodeTx, binaryOf_eq h.id, hq, hd, hr, h.signatureType, encodeSignatureType, fieldsBinary,
    Option.pure_def, Option.bind_eq_bind, Option.bind_some, List.append_assoc, List.nil_append]

lemma reads_fieldsBinary (h : Encodable tx) : Reads txFields (fieldsBinary tx) h.fields :=
  reads_ofNat.bind <| (reads_fixed ⟨tx.id, h.id⟩).bind <|
  (reads_encodeBin _).bind <| (reads_encodeBin _).bind <| (reads_encodeBin _).bind <|
  (reads_encodeInt _).bind <| (reads_encodeInt _).bind <| (reads_encodeBin _).bind <|
  (reads_encodeBin _).bind <| (reads_encodeInt _).bind <| (reads_encodeBin _).bind_pure

lemma parseTxDenomination_eq (h : tx.denomination < 256 ^ 3) :
    parseTxDenomination (mayBeEncodeTxDenomination tx) = .ok tx.denomination := by
  rw [mayBeEncodeTxDenomination]
  split_ifs with hd
  · rw [hd]
    rfl
  · have hn : (Bytes.ofNat 3 tx.denomination).toNat = tx.denomination := Bytes.toNat_ofNat_of_lt h
    have hne : Bytes.ofNat 3 tx.denomination ≠ [] := List.ne_nil_of_length_pos (by simp)
    rw [parseTxDenomination, if_neg hne, if_pos ⟨Bytes.length_ofNat _ _, by omega⟩, hn]

lemma toTX_fields (h : Encodable tx) : h.fields.toTX tx.tags tx.denomination = tx := by
  have hf : (Bytes.ofNat 1 tx.format).toNat = tx.format :=
    Bytes.toNat_ofNat_of_lt (by have := h.format; omega)
  have hq := Int.toNat_of_nonneg (h.nonneg tx.quantity (by simp))
  have hd := Int.toNat_of_nonneg (h.nonneg tx.dataSize (by simp))
  have hr := Int.toNat_of_nonneg (h.nonneg tx.reward (by simp))
  have hsize : (if tx.format = 1 then (tx.data.length : Int) else tx.dataSize) = tx.dataSize := by
    split_ifs with h1
    · exact (h.dataSize h1).symm
    · rfl
  have hs := h.signatureType
  cases tx
  simp only [TxFields.toTX, Encodable.fields, hf, toNat_encodeUnsigned, hq, hd, hr, hsize]
  simp only at hs
  rw [hs]

lemma length_fieldsBinary (h : tx.id.length = 32) : 32 < (fieldsBinary tx).length := by
  simp only [fieldsBinary, List.length_append, Bytes.length_ofNat, h]
  omega

lemma parseTx_fieldsBinary (h : Encodable tx) (tail : Bytes) :
    parseTx (fieldsBinary tx ++ tail) = (do
      let (tags, rest) ← parseTxTags tail
      let denomination ← parseTxDenomination rest
      return .tx (h.fields.toTX tags denomination)) := by
  have hne : (fieldsBinary tx ++ tail).length ≠ 32 := by
    have hlen := length_fieldsBinary h.id
    rw [List.length_append]
    omega
  have hf : h.fields.format.1.toNat = tx.format :=
    Bytes.toNat_ofNat_of_lt (by have := h.format; omega)
  rw [parseTx, if_neg hne, reads_fieldsBinary h]
  simp only [hf, if_pos h.format]

/-- The number of tags decides whether the parser takes the encoding of a transaction. -/
theorem parseTx_encodeTx (h : Encodable tx) (hcount : tx.tags.length < 256 ^ 2) :
    ∃ bin, encodeTx tx = some bin ∧
      parseTx bin = if tx.tags.length ≤ 2048 then .ok (.tx tx) else .error .invalidTxTagsInput := by
  refine ⟨_, encodeTx_eq h, ?_⟩
  rw [parseTx_fieldsBinary h]
  split_ifs with htags
  · rw [parseTxTags_encodeTxTags htags h.tags]
    simp only [bind, Except.bind, parseTxDenomination_eq h.denomination, pure, Except.pure, toTX_fields h]
  · rw [parseTxTags_encodeTxTags_error (by omega) hcount]
    rfl

theorem binaryToTx_txToBinary (h : Encodable tx) (hcount : tx.tags.length < 256 ^ 2)
    (hsize : ∀ bin ∈ encodeTx tx, bin.length < 256 ^ 3) :
    ∃ bin, txToBinary tx = some bin ∧
      binaryToTx bin = if tx.tags.length ≤ 2048 then .ok (.tx tx) else .error .invalidTxTagsInput := by
  obtain ⟨bin, henc, hparse⟩ := parseTx_encodeTx h hcount
  have hread := reads_sized ⟨bin, hsize bin henc⟩ []
  refine ⟨Bytes.ofNat 3 bin.length ++ bin, by rw [txToBinary, henc]; rfl, ?_⟩
  rw [List.append_nil] at hread
  rw [binaryToTx, hread]
  exact hparse

end Transaction

/-- An identifier has 32 bytes. A transaction fits its fields and has at most as many tags as
the parser takes, and its binary fits the size field. -/
def BlockTx.Encodable : BlockTx → Prop
  | .id txid => txid.length = 32
  | .tx t => Serialize.Encodable t ∧ t.tags.length ≤ 2048 ∧ ∀ bin ∈ encodeTx t, bin.length < 256 ^ 3

lemma BlockTx.Encodable.parseTx {tx : BlockTx} (h : tx.Encodable) :
    ∃ bin, encodeBlockTx tx = some bin ∧ bin.length < 256 ^ 3 ∧ Serialize.parseTx bin = .ok tx := by
  cases tx with
  | id txid =>
    change txid.length = 32 at h
    exact ⟨txid, if_pos h, by omega, if_pos h⟩
  | tx tx =>
    obtain ⟨hfit, htags, hsize⟩ := h
    obtain ⟨bin, henc, hparse⟩ := parseTx_encodeTx hfit (by omega)
    exact ⟨bin, henc, hsize bin henc, by rw [hparse, if_pos htags]⟩

lemma encodeTransactionsFrom_eq {txs : List BlockTx} (h : ∀ tx ∈ txs, tx.Encodable) (encoded : Bytes)
    (n : Nat) :
    ∃ bins, encodeTransactionsFrom txs encoded n = some (Bytes.ofNat 2 (n + txs.length) ++ (bins ++ encoded)) ∧
      ∀ (m : Nat) (rest : Bytes) (parsed : List BlockTx),
        parseBlockTransactionsFrom (txs.length + m) (bins ++ rest) parsed =
          parseBlockTransactionsFrom m rest (txs ++ parsed) := by
  induction txs generalizing encoded n with
  | nil => exact ⟨[], rfl, fun m rest parsed => by rw [List.length_nil, Nat.zero_add]; rfl⟩
  | cons tx txs ih =>
    obtain ⟨bin, henc, hsize, hparse⟩ := (h tx List.mem_cons_self).parseTx
    obtain ⟨bins, hbins, hloop⟩ := ih (fun x hx => h x (List.mem_cons_of_mem _ hx))
      (encodeBin bin 3 ++ encoded) (n + 1)
    refine ⟨bins ++ encodeBin bin 3, ?_, fun m rest parsed => ?_⟩
    · rw [encodeTransactionsFrom, henc]
      simp only [Option.bind_eq_bind, Option.bind_some]
      rw [hbins, List.length_cons, List.append_assoc, Nat.add_assoc, Nat.add_comm 1]
    · have hm : (tx :: txs).length + m = txs.length + (m + 1) := by
        rw [List.length_cons]
        omega
      rw [hm, List.append_assoc, hloop, parseBlockTransactionsFrom, reads_encodeBin hsize]
      simp only [hparse, bind, Except.bind]
      rfl

lemma parseBlockTransactions_encodeTransactions {txs : List BlockTx} (hlen : txs.length ≤ 1000)
    (h : ∀ tx ∈ txs, tx.Encodable) :
    ∃ bin, encodeTransactions txs = some bin ∧
      ∀ rest, parseBlockTransactions (bin ++ rest) = .ok (txs, rest) := by
  obtain ⟨bins, hbins, hloop⟩ := encodeTransactionsFrom_eq h [] 0
  rw [Nat.zero_add, List.append_nil] at hbins
  refine ⟨_, hbins, fun rest => ?_⟩
  have hcount : (Bytes.ofNat 2 txs.length).toNat = txs.length := Bytes.toNat_ofNat_of_lt (by omega)
  rw [List.append_assoc, parseBlockTransactions, reads_ofNat]
  simp only [hcount, if_pos hlen]
  have hall := hloop 0 rest []
  rwa [Nat.add_zero, List.append_nil] at hall

/-- Transactions and lists of transactions are read back from their binaries. The parsers take
at most 2048 tags and at most 1000 elements. -/
theorem binaryToTx_parseBlockTransactions_round_trip :
    (∀ tx, Encodable tx → tx.tags.length ≤ 2048 → (∀ bin ∈ encodeTx tx, bin.length < 256 ^ 3) →
      ∃ bin, txToBinary tx = some bin ∧ binaryToTx bin = .ok (.tx tx)) ∧
    ∀ txs : List BlockTx, txs.length ≤ 1000 → (∀ tx ∈ txs, tx.Encodable) →
      ∃ bin, encodeTransactions txs = some bin ∧
        ∀ rest, parseBlockTransactions (bin ++ rest) = .ok (txs, rest) := by
  constructor
  · intro tx h htags hsize
    obtain ⟨bin, henc, hparse⟩ := binaryToTx_txToBinary h (by omega) hsize
    exact ⟨bin, henc, by rw [hparse, if_pos htags]⟩
  · intro txs hlen h
    exact parseBlockTransactions_encodeTransactions hlen h

/-- A transaction of the second format with a denomination and two tags. -/
def sampleTx : TX where
  format := 2
  id := List.replicate 32 7
  owner := [1, 2]
  tags := [([3], [4, 5]), ([], [6])]
  quantity := 300
  dataSize := 70000
  reward := 5
  denomination := 2

lemma encodable_sampleTx : Encodable sampleTx where
  format := .inr rfl
  id := rfl
  signatureType := rfl
  denomination := by decide
  dataSize := by decide
  nonneg := by decide
  sizes1 := by decide
  sizes2 := by decide
  data := by decide
  tags := by decide

lemma size_sampleTx : ∀ bin ∈ encodeTx sampleTx, bin.length < 256 ^ 3 := by decide

theorem round_trip_sampleTx :
    (∃ bin, txToBinary sampleTx = some bin ∧ binaryToTx bin = .ok (.tx sampleTx)) ∧
    ∃ bin, encodeTransactions [.tx sampleTx, .id (List.replicate 32 9)] = some bin ∧
      ∀ rest, parseBlockTransactions (bin ++ rest) = .ok ([.tx sampleTx, .id (List.replicate 32 9)], rest) := by
  obtain ⟨hone, hlist⟩ := binaryToTx_parseBlockTransactions_round_trip
  refine ⟨hone sampleTx encodable_sampleTx (by decide) size_sampleTx, hlist _ (by decide) ?_⟩
  intro tx htx
  rcases List.mem_pair.mp htx with rfl | rfl
  · exact ⟨encodable_sampleTx, by decide, size_sampleTx⟩
  · exact (List.length_replicate : (List.replicate 32 (9 : UInt8)).length = 32)

/-- One tag more than the parser takes. -/
def manyTagsTx : TX where
  format := 2
  id := List.replicate 32 7
  tags := List.replicate 2049 ([], [])

lemma encodable_manyTagsTx : Encodable manyTagsTx where
  format := .inr rfl
  id := rfl
  signatureType := rfl
  denomination := by decide
  dataSize := by decide
  nonneg := by decide
  sizes1 := by decide
  sizes2 := by decide
  data := by decide
  tags := fun tag h => by
    rw [List.eq_of_mem_replicate h]
    decide

/-- The encoder writes the transaction and the parser refuses it. -/
theorem not_round_trip_manyTagsTx :
    Encodable manyTagsTx ∧ (∀ bin ∈ encodeTx manyTagsTx, bin.length < 256 ^ 3) ∧
      ∃ bin, txToBinary manyTagsTx = some bin ∧ binaryToTx bin = .error .invalidTxTagsInput := by
  have hcount : manyTagsTx.tags.length = 2049 := List.length_replicate
  have hsize : ∀ bin ∈ encodeTx manyTagsTx, bin.length < 256 ^ 3 := by decide +kernel
  refine ⟨encodable_manyTagsTx, hsize, ?_⟩
  obtain ⟨bin, henc, hparse⟩ := binaryToTx_txToBinary encodable_manyTagsTx (by omega) hsize
  exact ⟨bin, henc, by rw [hparse, if_neg (by omega)]⟩

end Arweave.Serialize

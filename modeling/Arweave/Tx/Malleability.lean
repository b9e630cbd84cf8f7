import Arweave.Tx.Decimal
import Arweave.Ledger.Conservation

/-!
# Malleability of version one

Version one signs the concatenation of the fields, so a signature is also one of every
transaction whose fields run together to the same string. The checks of a transaction leave
few such readings. The amounts are read in one way as long as each reward covers the fee of
the other transaction. The target is read as data when it ends in digits: a transfer without
data can pass as an upload of the start of its target, with no quantity and the amounts
together as its reward.
-/

namespace Arweave.Tx
open Arweave.Lib Arweave.Lib.Sha2 Arweave.Ledger Arweave.DeepHash

/-- The end of the target of a transfer without data can be read as digits of the amounts of a
transaction that moves nothing. -/
def ReadsTargetAsData (tx other : TX) : Prop :=
  0 < tx.quantity ∧ tx.data = [] ∧ endsWithDigit tx.target = true ∧ other.quantity = 0

/-- The reward of one transaction covers the fee of another one. -/
def CoversFee (args : Args) (tx : TX) (accounts : Accounts) (reward : Int) : Prop :=
  isTxFeeSufficient args { tx with reward := reward } accounts tx.target = some true

instance (tx other : TX) : Decidable (ReadsTargetAsData tx other) :=
  inferInstanceAs (Decidable (0 < tx.quantity ∧ tx.data = [] ∧ endsWithDigit tx.target = true ∧
    other.quantity = 0))

section Fields

variable {args args' : Args} {tx tx' : TX} {accounts accounts' : Accounts}

/-- The rules for the fields, with the string of the amounts as far as it has digits only. -/
structure FieldRules (tx : TX) (w : Bytes) : Prop where
  quantity : 0 ≤ tx.quantity
  transfer : 0 < tx.quantity → tx.target.length = 32
  noTransfer : tx.quantity = 0 → tx.target = []
  data : endsWithDigit tx.data = false
  digits : ∀ byte ∈ w, isDigit byte = true
  head_zero : w.head? = some 48 ↔ tx.quantity = 0

lemma endsWithDigit_target_data {w : Bytes} (hrules : FieldRules tx w)
    (hreads : ¬(0 < tx.quantity ∧ tx.data = [] ∧ endsWithDigit tx.target = true)) :
    endsWithDigit (tx.target ++ tx.data) = false := by
  by_cases hdata : tx.data = []
  · rw [hdata, List.append_nil]
    rcases hrules.quantity.lt_or_eq with hpos | hzero
    · by_contra hends
      exact hreads ⟨hpos, hdata, by simpa using hends⟩
    · rw [hrules.noTransfer hzero.symm]
      rfl
  · rw [endsWithDigit_append hdata]
    exact hrules.data

lemma fields_of_append_eq {w w' : Bytes} (hrules : FieldRules tx w) (hrules' : FieldRules tx' w')
    (hreads : ¬ReadsTargetAsData tx tx') (hreads' : ¬ReadsTargetAsData tx' tx)
    (h : tx.target ++ tx.data ++ w = tx'.target ++ tx'.data ++ w') :
    tx.target = tx'.target ∧ tx.data = tx'.data ∧ w = w' := by
  have hmixed {tx tx' : TX} {w w' : Bytes} (hrules : FieldRules tx w) (hrules' : FieldRules tx' w')
      (hreads : ¬ReadsTargetAsData tx tx') (hpos : 0 < tx.quantity) (hzero : tx'.quantity = 0)
      (h : tx.target ++ tx.data ++ w = tx'.target ++ tx'.data ++ w') : False := by
    have hends := endsWithDigit_target_data hrules fun hread => hreads ⟨hread.1, hread.2.1, hread.2.2, hzero⟩
    have hends' := endsWithDigit_target_data hrules' fun hread => by omega
    have hw := (append_digits_injective hends hends' hrules.digits hrules'.digits h).2
    have hhead := hrules'.head_zero.mpr hzero
    rw [← hw, hrules.head_zero] at hhead
    omega
  rcases hrules.quantity.lt_or_eq with hpos | hzero
  · rcases hrules'.quantity.lt_or_eq with hpos' | hzero'
    · rw [List.append_assoc, List.append_assoc] at h
      obtain ⟨htarget, hrest⟩ := List.append_inj h (by rw [hrules.transfer hpos, hrules'.transfer hpos'])
      exact ⟨htarget, append_digits_injective hrules.data hrules'.data hrules.digits hrules'.digits hrest⟩
    · exact (hmixed hrules hrules' hreads hpos hzero'.symm h).elim
  · rcases hrules'.quantity.lt_or_eq with hpos' | hzero'
    · exact (hmixed hrules' hrules hreads' hpos' hzero.symm h.symm).elim
    · rw [hrules.noTransfer hzero.symm, hrules'.noTransfer hzero'.symm, List.nil_append, List.nil_append] at h
      refine ⟨?_, append_digits_injective hrules.data hrules'.data hrules.digits hrules'.digits h⟩
      rw [hrules.noTransfer hzero.symm, hrules'.noTransfer hzero'.symm]

end Fields

section Amounts

variable {args args' : Args} {tx tx' : TX} {accounts accounts' : Accounts} {reward : Int}

lemma coversFee_iff (hden : tx.denomination = 0) :
    CoversFee args tx accounts reward ↔
      ∃ minimum, minimumRequiredFee args tx accounts tx.target = some minimum ∧ minimum ≤ reward := by
  unfold CoversFee isTxFeeSufficient
  simp only [hden, redenominate_eq, Nat.zero_le, if_true, scale, mul_one, bind, Option.bind_eq_some_iff,
    Option.bind_some, Option.some.injEq, decide_eq_true_eq]
  rfl

lemma verifyMalleability2_eq_true (hden : tx.denomination = 0)
    (h : verifyMalleability2 args tx accounts = some true) :
    (0 < tx.quantity → tx.target.length = 32) ∧ (¬0 < tx.quantity → tx.target = []) ∧
      endsWithDigit tx.data = false ∧
      (10 ≤ tx.reward → ¬CoversFee args tx accounts (listToInteger (integerToList tx.reward).tail)) := by
  unfold verifyMalleability2 at h
  have htarget : ¬((0 < tx.quantity ∧ tx.target.length ≠ 32) ∨ (¬0 < tx.quantity ∧ 0 < tx.target.length)) := by
    intro htarget
    rw [if_pos htarget] at h
    cases h
  rw [if_neg htarget] at h
  have hdata : endsWithDigit tx.data = false := by
    by_contra hends
    rw [if_pos (by simpa using hends)] at h
    cases h
  rw [hdata, if_neg Bool.false_ne_true] at h
  refine ⟨by tauto, ?_, hdata, ?_⟩
  · intro hzero
    rw [← List.length_eq_zero_iff]
    have := fun hpos => htarget (.inr ⟨hzero, hpos⟩)
    omega
  · intro hten
    rw [if_neg (by omega)] at h
    simp only [hden, redenominate_eq, Nat.zero_le, if_true, scale, mul_one, bind, Option.bind_some,
      Option.bind_eq_some_iff, Option.some.injEq, Bool.not_eq_true'] at h
    obtain ⟨sufficient, hfee, rfl⟩ := h
    unfold CoversFee
    rw [hden, hfee]
    simp

lemma verifyMalleability2_of_verified (h : Verified args tx accounts) (hformat : tx.format = 1)
    (hden : tx.denomination = 0) : verifyMalleability2 args tx accounts = some true := by
  have hmalleability := h.malleability hformat
  have hheight := height_of_isTxFeeSufficient h.fee
  have hfork : Fork.height_2_4 ≤ args.height + 1 := by
    simp only [Fork.height_2_6_8, Fork.height_2_4] at *
    omega
  unfold verifyMalleability at hmalleability
  rwa [if_pos hfork, if_neg (by omega)] at hmalleability

lemma integerToList_of_nonneg {n : Int} (h : 0 ≤ n) : integerToList n = integerToBinary n.natAbs :=
  if_neg h.not_gt

lemma head?_integerToList {n : Int} (h : 0 ≤ n) (rest : Bytes) :
    (integerToList n ++ rest).head? = some 48 ↔ n = 0 := by
  rw [integerToList_of_nonneg h, List.head?_append_of_ne_nil _ (integerToBinary_ne_nil _)]
  constructor
  · intro hhead
    by_contra hne
    exact head?_integerToBinary (by omega) hhead
  · rintro rfl
    rfl

lemma fieldRules_of_verified (h : Verified args tx accounts) (hformat : tx.format = 1)
    (hden : tx.denomination = 0) {rest : Bytes} (hrest : ∀ byte ∈ rest, isDigit byte = true) :
    FieldRules tx (integerToList tx.quantity ++ rest) := by
  obtain ⟨htransfer, hnone, hdata, -⟩ :=
    verifyMalleability2_eq_true hden (verifyMalleability2_of_verified h hformat hden)
  refine ⟨h.quantity, htransfer, fun hzero => hnone (by omega), hdata, ?_, head?_integerToList h.quantity rest⟩
  intro byte hbyte
  rw [integerToList_of_nonneg h.quantity, List.mem_append] at hbyte
  exact hbyte.elim isDigit_of_mem_integerToBinary (hrest byte)

lemma length_reward_le (h : Verified args tx accounts) (hformat : tx.format = 1) (hden : tx.denomination = 0)
    (hreward : 0 ≤ tx.reward) (hreward' : 0 ≤ reward) (hcovers : CoversFee args tx accounts reward)
    {c : Bytes} (hsuffix : integerToList tx.reward = c ++ integerToList reward) : c = [] := by
  cases c with
  | nil => rfl
  | cons digit c =>
    rw [integerToList_of_nonneg hreward, integerToList_of_nonneg hreward'] at hsuffix
    have hlength := congrArg List.length hsuffix
    have hten : 10 ≤ tx.reward.natAbs := by
      apply ten_le_of_length
      have := List.length_pos_iff.mpr (integerToBinary_ne_nil reward.natAbs)
      simp only [List.cons_append, List.length_cons, List.length_append] at hlength
      omega
    have htruncated := (verifyMalleability2_eq_true hden (verifyMalleability2_of_verified h hformat hden)).2.2.2
      (by omega)
    rw [coversFee_iff hden] at hcovers htruncated
    obtain ⟨minimum, hminimum, hle⟩ := hcovers
    have hvalue := listToInteger_le_append c (integerToBinary reward.natAbs)
    rw [listToInteger_integerToBinary] at hvalue
    rw [integerToList_of_nonneg hreward, hsuffix, List.cons_append, List.tail_cons] at htruncated
    exact absurd ⟨minimum, hminimum, by omega⟩ htruncated

end Amounts

lemma amounts_of_append_eq {args args' : Args} {tx tx' : TX} {accounts accounts' : Accounts}
    (h : Verified args tx accounts) (h' : Verified args' tx' accounts') (hformat : tx.format = 1)
    (hformat' : tx'.format = 1) (hden : tx.denomination = 0) (hden' : tx'.denomination = 0)
    (hreward : 0 ≤ tx.reward) (hreward' : 0 ≤ tx'.reward) (hcovers : CoversFee args tx accounts tx'.reward)
    (hcovers' : CoversFee args' tx' accounts' tx.reward)
    (heq : integerToList tx.quantity ++ integerToList tx.reward =
      integerToList tx'.quantity ++ integerToList tx'.reward) :
    tx.quantity = tx'.quantity ∧ tx.reward = tx'.reward := by
  rcases List.append_eq_append_iff.mp heq with ⟨c, hq, hr⟩ | ⟨c, hq, hr⟩
  · have hc := length_reward_le h hformat hden hreward hreward' hcovers hr
    rw [hc, List.append_nil] at hq
    rw [hc, List.nil_append] at hr
    exact ⟨(integerToList_injective hq).symm, integerToList_injective hr⟩
  · have hc := length_reward_le h' hformat' hden' hreward' hreward hcovers' hr
    rw [hc, List.append_nil] at hq
    rw [hc, List.nil_append] at hr
    exact ⟨integerToList_injective hq, (integerToList_injective hr).symm⟩

lemma negative_amounts_of_append_eq {a a' : Bytes} {reward reward' : Int} (hneg : reward < 0) (hneg' : reward' < 0)
    (h : a ++ integerToList reward = a' ++ integerToList reward') : a = a' ∧ reward = reward' := by
  have hminus {n : Int} (hn : n < 0) : integerToList n = [45] ++ integerToBinary n.natAbs := if_pos hn
  have hends (a : Bytes) : endsWithDigit (a ++ [45]) = false := by
    rw [endsWithDigit_append (by simp)]
    rfl
  rw [hminus hneg, hminus hneg', ← List.append_assoc, ← List.append_assoc] at h
  obtain ⟨hfields, hdigits⟩ := append_digits_injective (hends a) (hends a')
    (fun _ hbyte => isDigit_of_mem_integerToBinary hbyte) (fun _ hbyte => isDigit_of_mem_integerToBinary hbyte) h
  have hreward := integerToBinary_injective hdigits
  exact ⟨List.append_cancel_right hfields, by omega⟩

/-- Two transactions of version one with the same signed string, owner, anchor and tags that
both pass are the same if and only if the target of none is read as the data of the other one,
each reward covers the fee of the other transaction, and none or both of the rewards are
negative. -/
theorem signatureDataSegmentV1_unambiguous_iff (args args' : Args) (accounts accounts' : Accounts) (tx tx' : TX)
    (verifySignature verifySignature' : Bool) (hformat : tx.format = 1) (hformat' : tx'.format = 1)
    (hden : tx.denomination = 0) (hden' : tx'.denomination = 0) (howner : tx.owner = tx'.owner)
    (hlastTx : tx.lastTx = tx'.lastTx) (htags : tx.tags = tx'.tags)
    (hsegment : signatureDataSegmentV1 sha384 tx = signatureDataSegmentV1 sha384 tx')
    (h : verify args tx accounts verifySignature = some true)
    (h' : verify args' tx' accounts' verifySignature' = some true) :
    (tx.target = tx'.target ∧ tx.data = tx'.data ∧ tx.quantity = tx'.quantity ∧ tx.reward = tx'.reward) ↔
      ¬ReadsTargetAsData tx tx' ∧ ¬ReadsTargetAsData tx' tx ∧
      CoversFee args tx accounts tx'.reward ∧ CoversFee args' tx' accounts' tx.reward ∧
      (tx.reward < 0 ↔ tx'.reward < 0) := by
  have hverified := verified_of_verify h
  have hverified' := verified_of_verify h'
  constructor
  · rintro ⟨htarget, hdata, hquantity, hreward⟩
    have hfee := hverified.fee
    have hfee' := hverified'.fee
    refine ⟨?_, ?_, ?_, ?_, by rw [hreward]⟩
    · rintro ⟨hpos, -, -, hzero⟩
      omega
    · rintro ⟨hpos, -, -, hzero⟩
      omega
    · rw [← hreward]
      exact hfee
    · rw [hreward]
      exact hfee'
  · rintro ⟨hreads, hreads', hcovers, hcovers', hsign⟩
    have hamounts : tx.target ++ tx.data ++ (integerToList tx.quantity ++ integerToList tx.reward) =
        tx'.target ++ tx'.data ++ (integerToList tx'.quantity ++ integerToList tx'.reward) := by
      unfold signatureDataSegmentV1 at hsegment
      rw [if_neg (by omega), if_neg (by omega), howner, hlastTx, htags] at hsegment
      have hfields := List.append_cancel_right (List.append_cancel_right hsegment)
      simpa only [List.append_assoc, List.append_cancel_left_eq] using hfields
    by_cases hnonneg : 0 ≤ tx.reward
    · have hnonneg' : 0 ≤ tx'.reward := by omega
      have hdigits {n : Int} (hn : 0 ≤ n) : ∀ byte ∈ integerToList n, isDigit byte = true := by
        rw [integerToList_of_nonneg hn]
        exact fun byte hbyte => isDigit_of_mem_integerToBinary hbyte
      obtain ⟨htarget, hdata, hdigits⟩ := fields_of_append_eq
        (fieldRules_of_verified hverified hformat hden (hdigits hnonneg))
        (fieldRules_of_verified hverified' hformat' hden' (hdigits hnonneg')) hreads hreads' hamounts
      exact ⟨htarget, hdata, amounts_of_append_eq hverified hverified' hformat hformat' hden hden' hnonneg
        hnonneg' hcovers hcovers' hdigits⟩
    · have hnone : ∀ byte ∈ ([] : Bytes), isDigit byte = true := by simp
      rw [← List.append_assoc, ← List.append_assoc] at hamounts
      obtain ⟨hfields, hreward⟩ := negative_amounts_of_append_eq (by omega) (by omega) hamounts
      obtain ⟨htarget, hdata, hquantity⟩ := fields_of_append_eq
        (fieldRules_of_verified hverified hformat hden hnone)
        (fieldRules_of_verified hverified' hformat' hden' hnone) hreads hreads' (by simpa using hfields)
      exact ⟨htarget, hdata, integerToList_injective (by simpa using hquantity), hreward⟩

/-- A transfer of version one to an address that ends in a digit. -/
def transferToDigit : TX where
  id := Bytes.ofNat 32 0x272274cb463b1f4e75608c41a91984e51cc4a6fda4fb0e683f9e9baa2ffebc58
  owner := ownerA
  target := (List.range 31).map (fun i => UInt8.ofNat (100 + i)) ++ [48]
  quantity := 30
  reward := 2564790
  signature :=
    Bytes.ofNat 68 0x634358ed0659717e32277afac1168f5bb167c12efe5994357d24f715c5198c9a6f4f12c3660084177507f0be7a4724a749aa582931e2cd42edf56f753852e44a12c892ba

/-- The transfer read as an upload, with the same signature. -/
def uploadOfTarget : TX where
  __ := transferToDigit
  target := []
  quantity := 0
  reward := 302564790
  data := (List.range 31).map fun i => UInt8.ofNat (100 + i)
  dataSize := 31

def malleableWallets : Accounts :=
  (SortedMap.empty.insert addressA (.pair 400000000 [])).insert transferToDigit.target (.pair 1 [])

lemma transferToDigit_segment :
    signatureDataSegmentV1 sha384 transferToDigit = signatureDataSegmentV1 sha384 uploadOfTarget := by
  decide

set_option maxRecDepth 10000 in
/-- Both readings pass. -/
lemma verify_readings :
    verify sampleContext.toArgs transferToDigit malleableWallets true = some true ∧
      verify sampleContext.toArgs uploadOfTarget malleableWallets true = some true := by
  constructor <;> decide +kernel

theorem signatureDataSegmentV1_unambiguous_iff_transferToDigit :
    transferToDigit ≠ uploadOfTarget ∧
    ((transferToDigit.target = uploadOfTarget.target ∧ transferToDigit.data = uploadOfTarget.data ∧
        transferToDigit.quantity = uploadOfTarget.quantity ∧ transferToDigit.reward = uploadOfTarget.reward) ↔
      ¬ReadsTargetAsData transferToDigit uploadOfTarget ∧ ¬ReadsTargetAsData uploadOfTarget transferToDigit ∧
      CoversFee sampleContext.toArgs transferToDigit malleableWallets uploadOfTarget.reward ∧
      CoversFee sampleContext.toArgs uploadOfTarget malleableWallets transferToDigit.reward ∧
      (transferToDigit.reward < 0 ↔ uploadOfTarget.reward < 0)) :=
  ⟨by decide, signatureDataSegmentV1_unambiguous_iff sampleContext.toArgs sampleContext.toArgs malleableWallets
    malleableWallets transferToDigit uploadOfTarget true true rfl rfl rfl rfl rfl rfl rfl transferToDigit_segment
    verify_readings.1 verify_readings.2⟩

/-- Both readings of one signature pass, at the same height, prices and accounts. -/
theorem signatureDataSegmentV1_malleable :
    transferToDigit.format = 1 ∧ uploadOfTarget.format = 1 ∧ transferToDigit.denomination = 0 ∧
    uploadOfTarget.denomination = 0 ∧ transferToDigit.owner = uploadOfTarget.owner ∧
    transferToDigit.lastTx = uploadOfTarget.lastTx ∧ transferToDigit.tags = uploadOfTarget.tags ∧
    signatureDataSegmentV1 sha384 transferToDigit = signatureDataSegmentV1 sha384 uploadOfTarget ∧
    verify sampleContext.toArgs transferToDigit malleableWallets true = some true ∧
    verify sampleContext.toArgs uploadOfTarget malleableWallets true = some true ∧
    ¬(transferToDigit.target = uploadOfTarget.target ∧ transferToDigit.data = uploadOfTarget.data ∧
      transferToDigit.quantity = uploadOfTarget.quantity ∧ transferToDigit.reward = uploadOfTarget.reward) :=
  ⟨rfl, rfl, rfl, rfl, rfl, rfl, rfl, transferToDigit_segment, verify_readings.1, verify_readings.2,
    by decide⟩

end Arweave.Tx

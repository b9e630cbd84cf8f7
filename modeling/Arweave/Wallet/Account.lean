import Arweave.Patricia.Commits
import Arweave.Patricia.Runs

/-!
# The hash of the wallet list

Accounts are pairs of a balance and the last transaction, in the later era also with a
denomination and the mining permission. `hash_wallet_list` hashes the account tree with a leaf
hash for each era. Both leaf hashes encode the account without ambiguity, so that the root
hash binds the accounts.
-/

namespace Arweave.Wallet
open Arweave.Lib Arweave.Patricia

/-- `binary:encode_unsigned/1`: the shortest big-endian encoding, with one byte for zero. -/
def encodeUnsigned (n : Nat) : Bytes :=
  if n = 0 then [0] else ((Nat.digits 256 n).map UInt8.ofNat).reverse

/-- `ar_serialize:encode_bin/2`, with the size field in bytes. -/
def encodeBin (bin : Bytes) (sizeBytes : Nat) : Bytes := Bytes.ofNat sizeBytes bin.length ++ bin

/-- `ar_serialize:encode_int/2`, with the size field in bytes. -/
def encodeInt (n : Nat) (sizeBytes : Nat) : Bytes := encodeBin (encodeUnsigned n) sizeBytes

/-- The value of an account in the tree. -/
inductive Account where
  | v1 (balance : Nat) (lastTx : Bytes)
  | v2 (balance : Nat) (lastTx : Bytes) (denomination : Nat) (miningPermission : Bool)
  deriving DecidableEq, Repr

inductive Era where
  | v1
  | v2
  deriving DecidableEq, Repr

def Account.era : Account → Era
  | .v1 _ _ => .v1
  | .v2 _ _ _ _ => .v2

/-- The fields fit their size fields. -/
def Account.WellFormed : Account → Prop
  | .v1 _ _ => True
  | .v2 balance lastTx denomination _ =>
    (encodeUnsigned balance).length < 256 ∧ lastTx.length < 256 ∧ (encodeUnsigned denomination).length < 256

instance (acc : Account) : Decidable acc.WellFormed :=
  match acc with
  | .v1 _ _ => isTrue trivial
  | .v2 balance lastTx denomination _ =>
    inferInstanceAs (Decidable ((encodeUnsigned balance).length < 256 ∧ lastTx.length < 256 ∧
      (encodeUnsigned denomination).length < 256))

/-- The preimage of the leaf hash of the later era. -/
def preimage (addr : Bytes) (balance : Nat) (lastTx : Bytes) (denomination : Nat)
    (miningPermission : Bool) : Bytes :=
  encodeBin addr 1 ++ encodeInt balance 1 ++ encodeBin lastTx 1 ++ encodeInt denomination 1 ++
    [if miningPermission then 1 else 0]

section Hash

variable (H : Digest 48)

/-- The leaf hash of `hash_wallet_list/1`. -/
def accountHash (addr : Bytes) : Account → Bytes
  | .v1 balance lastTx => DeepHash.hash H ([addr, encodeUnsigned balance, lastTx].map .blob)
  | .v2 balance lastTx denomination miningPermission =>
    H (preimage addr balance lastTx denomination miningPermission)

def hashWalletList (fuel : Nat) (walletList : Patricia.Tree Account) :
    Option (Bytes × Patricia.Tree Account × UpdateMap Account) :=
  Patricia.computeHash H (accountHash H) fuel walletList

/-- The strings that the leaf hash of an account hashes. -/
def accountStrings (addr : Bytes) : Account → List Bytes
  | .v1 balance lastTx => DeepHash.strings H (.list ([addr, encodeUnsigned balance, lastTx].map .blob))
  | .v2 balance lastTx denomination miningPermission =>
    [preimage addr balance lastTx denomination miningPermission]

/-- The strings that are hashed for a wallet list. -/
def walletStrings (M : SortedMap Bytes Account) : List Bytes :=
  M.entries.flatMap (fun e => accountStrings H e.1 e.2) ++
    (innerLists H (accountHash H) M).flatMap fun l => DeepHash.strings H (.list (l.map .blob))

def leafDigests (M : SortedMap Bytes Account) : List Bytes :=
  M.entries.map fun e => accountHash H e.1 e.2

def innerDigests (M : SortedMap Bytes Account) : List Bytes :=
  (innerLists H (accountHash H) M).map fun l => DeepHash.hash H (l.map .blob)

end Hash

lemma toNat_encodeUnsigned (n : Nat) : Bytes.toNat (encodeUnsigned n) = n := by
  have hdigits : ∀ l : List Nat, (∀ d ∈ l, d < 256) →
      Bytes.toNat ((l.map UInt8.ofNat).reverse) = Nat.ofDigits 256 l := by
    intro l hl
    induction l with
    | nil => rfl
    | cons d l ih =>
      have hd : (UInt8.ofNat d).toNat = d := by
        simpa using hl d (by simp)
      rw [List.map_cons, List.reverse_cons, Bytes.toNat_append_singleton, ih fun x hx => hl x (by simp [hx]),
        hd, Nat.ofDigits_cons]
      ring
  rw [encodeUnsigned]
  split_ifs with h
  · rw [h]
    rfl
  · rw [hdigits _ fun d hd => Nat.digits_lt_base (by norm_num) hd, Nat.ofDigits_digits]

lemma encodeUnsigned_injective {m n : Nat} (h : encodeUnsigned m = encodeUnsigned n) : m = n := by
  rw [← toNat_encodeUnsigned m, h, toNat_encodeUnsigned]

lemma encodeBin_append_inj {a b s t : Bytes} (ha : a.length < 256) (hb : b.length < 256)
    (h : encodeBin a 1 ++ s = encodeBin b 1 ++ t) : a = b ∧ s = t := by
  rw [encodeBin, encodeBin, List.append_assoc, List.append_assoc] at h
  obtain ⟨hsize, hrest⟩ := List.append_inj h (by simp)
  have hlen : a.length = b.length := Bytes.ofNat_injective_of_lt (by simpa using ha) (by simpa using hb) hsize
  exact List.append_inj hrest hlen

lemma preimage_injective {addr addr' : Bytes} {b b' : Nat} {l l' : Bytes} {d d' : Nat} {p p' : Bool}
    (ha : addr.length < 256) (ha' : addr'.length < 256) (hw : (Account.v2 b l d p).WellFormed)
    (hw' : (Account.v2 b' l' d' p').WellFormed) (h : preimage addr b l d p = preimage addr' b' l' d' p') :
    addr = addr' ∧ b = b' ∧ l = l' ∧ d = d' ∧ p = p' := by
  obtain ⟨hb, hl, hd⟩ := hw
  obtain ⟨hb', hl', hd'⟩ := hw'
  simp only [preimage, encodeInt, List.append_assoc] at h
  obtain ⟨h1, h⟩ := encodeBin_append_inj ha ha' h
  obtain ⟨h2, h⟩ := encodeBin_append_inj hb hb' h
  obtain ⟨h3, h⟩ := encodeBin_append_inj hl hl' h
  obtain ⟨h4, h⟩ := encodeBin_append_inj hd hd' h
  refine ⟨h1, encodeUnsigned_injective h2, h3, encodeUnsigned_injective h4, ?_⟩
  cases p <;> cases p' <;> simp at h ⊢

variable {H : Digest 48}

@[simp] lemma length_accountHash (addr : Bytes) (acc : Account) : (accountHash H addr acc).length = 48 := by
  cases acc with
  | v1 balance lastTx => exact DeepHash.length_hash _
  | v2 balance lastTx denomination miningPermission => exact H.length_apply _

/-- The leaf hash binds the address and the account. -/
theorem accountHash_injective {s : List Bytes} (hs : H.CollisionFree s) {addr addr' : Bytes}
    {acc acc' : Account} (haddr : addr.length < 256) (haddr' : addr'.length < 256) (hera : acc.era = acc'.era)
    (hw : acc.WellFormed) (hw' : acc'.WellFormed) (hacc : ∀ x ∈ accountStrings H addr acc, x ∈ s)
    (hacc' : ∀ x ∈ accountStrings H addr' acc', x ∈ s)
    (h : accountHash H addr acc = accountHash H addr' acc') : addr = addr' ∧ acc = acc' := by
  cases acc with
  | v1 b l =>
    cases acc' with
    | v2 b' l' d' p' => cases hera
    | v1 b' l' =>
      have heq := DeepHash.hash_blobs_injective hs (by simp) (by simp) hacc hacc' h
      simp only [List.cons.injEq, and_true] at heq
      obtain ⟨h1, h2, h3⟩ := heq
      rw [encodeUnsigned_injective h2, h3]
      exact ⟨h1, rfl⟩
  | v2 b l d p =>
    cases acc' with
    | v1 b' l' => cases hera
    | v2 b' l' d' p' =>
      have heq := hs _ (hacc _ (by simp [accountStrings])) _ (hacc' _ (by simp [accountStrings])) h
      obtain ⟨h1, h2, h3, h4, h5⟩ := preimage_injective haddr haddr' hw hw' heq
      rw [h2, h3, h4, h5]
      exact ⟨h1, rfl⟩

lemma length_parts (M : SortedMap Bytes Account) (p : Bytes) :
    (parts H (accountHash H) M p).length < 1000 := by
  have hbranches : (branches M p).length ≤ 256 := by
    have hnodup : ((branches M p).map UInt8.toNat).Nodup := by
      apply List.Nodup.map fun a b hab => UInt8.toNat_inj.mp hab
      exact (sorted_branches p).imp fun hlt => hlt.ne
    have hsub : (branches M p).map UInt8.toNat ⊆ List.range 256 := by
      intro x hx
      obtain ⟨b, -, rfl⟩ := List.mem_map.mp hx
      exact List.mem_range.mpr b.toNat_lt
    have := (hnodup.subperm hsub).length_le
    simpa using this
  rw [parts, List.length_append, List.length_map, List.length_map]
  have : (M.lookup p).toList.length ≤ 1 := by cases M.lookup p <;> simp
  omega

/-- The leaves of two wallet lists of one era, and their lists of parts, do not collide. -/
lemma binding_of_collisionFree {M M' : SortedMap Bytes Account} {era : Era}
    (hM : ∀ e ∈ M.entries, e.1.length = 32 ∧ e.2.era = era ∧ e.2.WellFormed)
    (hM' : ∀ e ∈ M'.entries, e.1.length = 32 ∧ e.2.era = era ∧ e.2.WellFormed)
    (hH : H.CollisionFree (walletStrings H M ++ walletStrings H M'))
    (hsep : ∀ digest ∈ leafDigests H M ++ leafDigests H M',
      digest ∉ innerDigests H M ++ innerDigests H M') :
    Binding H (accountHash H) (fun e => e ∈ M.entries ∨ e ∈ M'.entries)
      (fun l => l ∈ innerLists H (accountHash H) M ∨ l ∈ innerLists H (accountHash H) M') := by
  have hall : ∀ e, e ∈ M.entries ∨ e ∈ M'.entries → e.1.length = 32 ∧ e.2.era = era ∧ e.2.WellFormed :=
    fun e he => he.elim (hM e) (hM' e)
  have hleaf : ∀ e, e ∈ M.entries ∨ e ∈ M'.entries → ∀ x ∈ accountStrings H e.1 e.2,
      x ∈ walletStrings H M ++ walletStrings H M' := by
    intro e he x hx
    rw [List.mem_append]
    refine he.imp (fun he => ?_) fun he => ?_
    · exact List.mem_append_left _ (List.mem_flatMap.mpr ⟨e, he, hx⟩)
    · exact List.mem_append_left _ (List.mem_flatMap.mpr ⟨e, he, hx⟩)
  have hlist : ∀ l, l ∈ innerLists H (accountHash H) M ∨ l ∈ innerLists H (accountHash H) M' →
      l.length < 1000 ∧ ∀ x ∈ DeepHash.strings H (.list (l.map .blob)),
        x ∈ walletStrings H M ++ walletStrings H M' := by
    intro l hl
    have hlen : ∀ N : SortedMap Bytes Account, l ∈ innerLists H (accountHash H) N → l.length < 1000 := by
      intro N hN
      obtain ⟨p, -, rfl⟩ := List.mem_map.mp (List.mem_filter.mp hN).1
      exact length_parts N p
    refine ⟨hl.elim (hlen M) (hlen M'), fun x hx => ?_⟩
    rw [List.mem_append]
    refine hl.imp (fun hl => ?_) fun hl => ?_
    · exact List.mem_append_right _ (List.mem_flatMap.mpr ⟨l, hl, hx⟩)
    · exact List.mem_append_right _ (List.mem_flatMap.mpr ⟨l, hl, hx⟩)
  constructor
  · intro e e' he he' hhash
    obtain ⟨hk, hera, hw⟩ := hall e he
    obtain ⟨hk', hera', hw'⟩ := hall e' he'
    obtain ⟨h1, h2⟩ := accountHash_injective hH (by omega) (by omega) (hera.trans hera'.symm) hw hw'
      (hleaf e he) (hleaf e' he') hhash
    exact Prod.ext h1 h2
  · intro l l' hl hl' hhash
    obtain ⟨hlen, hstrings⟩ := hlist l hl
    obtain ⟨hlen', hstrings'⟩ := hlist l' hl'
    exact DeepHash.hash_blobs_injective hH hlen hlen' hstrings hstrings' hhash
  · intro e l he hl hhash
    apply hsep (accountHash H e.1 e.2)
    · exact List.mem_append.mpr (he.imp (List.mem_map_of_mem ·) (List.mem_map_of_mem ·))
    · rw [hhash]
      exact List.mem_append.mpr (hl.imp (List.mem_map_of_mem ·) (List.mem_map_of_mem ·))

/-- The root hash of the accounts. -/
def rootHash (H : Digest 48) (M : SortedMap Bytes Account) : Bytes :=
  if M.size = 0 then [] else trieHash H (accountHash H) M []

lemma length_trieHash_accounts (M : SortedMap Bytes Account) (hne : M.entries ≠ []) :
    (trieHash H (accountHash H) M []).length = 48 :=
  length_trieHash length_accountHash [] (by rwa [below_nil])

lemma eq_of_rootHash_eq {M M' : SortedMap Bytes Account} {era : Era}
    (hM : ∀ e ∈ M.entries, e.1.length = 32 ∧ e.2.era = era ∧ e.2.WellFormed)
    (hM' : ∀ e ∈ M'.entries, e.1.length = 32 ∧ e.2.era = era ∧ e.2.WellFormed)
    (hH : H.CollisionFree (walletStrings H M ++ walletStrings H M'))
    (hsep : ∀ digest ∈ leafDigests H M ++ leafDigests H M', digest ∉ innerDigests H M ++ innerDigests H M')
    (hhash : rootHash H M = rootHash H M') : M = M' := by
  have hbinding := binding_of_collisionFree hM hM' hH hsep
  have hsize : ∀ N : SortedMap Bytes Account, N.size = 0 ↔ N.entries = [] :=
    fun N => List.length_eq_zero_iff
  simp only [rootHash, hsize] at hhash
  apply SortedMap.ext
  by_cases hne : M.entries = [] <;> by_cases hne' : M'.entries = []
  · rw [hne, hne']
  · rw [if_pos hne, if_neg hne'] at hhash
    have := length_trieHash_accounts (H := H) M' hne'
    simp [← hhash] at this
  · rw [if_neg hne, if_pos hne'] at hhash
    have := length_trieHash_accounts (H := H) M hne
    simp [hhash] at this
  · rw [if_neg hne, if_neg hne'] at hhash
    have heq := below_eq_of_trieHash_eq hbinding (fun _ => .inl) (fun _ => .inr) (fun _ => .inl)
      (fun _ => .inr) (by rwa [below_nil]) (by rwa [below_nil]) hhash
    rwa [below_nil, below_nil] at heq

/-- Equal root hashes of account trees of one era mean equal accounts. -/
theorem hashWalletList_binds (H : Digest 48) (era : Era) (ops ops' : List (Op Account)) (L fuel : Nat)
    (hops : ∀ op ∈ ops, op.Fits L) (hops' : ∀ op ∈ ops', op.Fits L) (hfuel : L + 2 ≤ fuel)
    (haccounts : ∀ addr acc, live ops addr = some acc →
      addr.length = 32 ∧ acc.era = era ∧ acc.WellFormed)
    (haccounts' : ∀ addr acc, live ops' addr = some acc →
      addr.length = 32 ∧ acc.era = era ∧ acc.WellFormed)
    (hH : H.CollisionFree (walletStrings H (contents ops) ++ walletStrings H (contents ops')))
    (hsep : ∀ digest ∈ leafDigests H (contents ops) ++ leafDigests H (contents ops'),
      digest ∉ innerDigests H (contents ops) ++ innerDigests H (contents ops')) :
    ∃ tree tree' : Patricia.Tree Account, run H (accountHash H) fuel ops new = some tree ∧
      run H (accountHash H) fuel ops' new = some tree' ∧
      ((hashWalletList H fuel tree).map (·.1) = (hashWalletList H fuel tree').map (·.1) →
        ∀ addr, get addr tree = get addr tree') := by
  obtain ⟨tree, hrun, h⟩ := sound_run H (accountHash H) hfuel hops
  obtain ⟨tree', hrun', h'⟩ := sound_run H (accountHash H) hfuel hops'
  refine ⟨tree, tree', hrun, hrun', fun hhash addr => ?_⟩
  obtain ⟨_, _, hcompute, -⟩ := h.computeHash hfuel
  obtain ⟨_, _, hcompute', -⟩ := h'.computeHash hfuel
  rw [hashWalletList, hashWalletList, hcompute, hcompute', Option.map_some, Option.map_some,
    Option.some.injEq] at hhash
  have hmaps : contents ops = contents ops' := eq_of_rootHash_eq (fun e he => haccounts _ _ (live_eq_some.mpr he))
    (fun e he => haccounts' _ _ (live_eq_some.mpr he)) hH hsep hhash
  rw [h.represents.get_eq, h'.represents.get_eq, hmaps]

def sampleOps : List (Op Account) :=
  [.insert (List.replicate 32 1) (.v2 10 [] 1 true),
    .insert (List.replicate 32 2) (.v2 20 (List.replicate 32 7) 1 false)]

/-- The same accounts, with a detour. -/
def sampleOps' : List (Op Account) :=
  [.insert (List.replicate 32 2) (.v2 7 [] 1 false), .computeHash,
    .insert (List.replicate 32 1) (.v2 10 [] 1 true),
    .insert (List.replicate 32 2) (.v2 20 (List.replicate 32 7) 1 false)]

set_option maxRecDepth 10000 in
theorem hashWalletList_binds_sampleOps :
    ∃ tree tree' : Patricia.Tree Account,
      run Sha2.sha384 (accountHash Sha2.sha384) 34 sampleOps new = some tree ∧
      run Sha2.sha384 (accountHash Sha2.sha384) 34 sampleOps' new = some tree' ∧
      ((hashWalletList Sha2.sha384 34 tree).map (·.1) = (hashWalletList Sha2.sha384 34 tree').map (·.1) →
        ∀ addr, get addr tree = get addr tree') := by
  have haccounts : ∀ ops ∈ [sampleOps, sampleOps'], ∀ e ∈ (contents ops).entries,
      e.1.length = 32 ∧ e.2.era = .v2 ∧ e.2.WellFormed := by decide
  apply hashWalletList_binds Sha2.sha384 .v2 sampleOps sampleOps' 32 34 (by decide) (by decide) (by decide)
  · intro addr acc h
    exact haccounts sampleOps (by simp) _ (live_eq_some.mp h)
  · intro addr acc h
    exact haccounts sampleOps' (by simp) _ (live_eq_some.mp h)
  · decide +kernel
  · decide +kernel

end Arweave.Wallet

import Arweave.Tx.ReplayPool

/-!
# Replay protection

What the verification of a block knows when it comes to a transaction: the accounts are those
after the transactions before it, the map holds their identifiers, and every account that has
sent one of them ends in one of these identifiers. An account can therefore anchor its first
transaction only, and the others are compared with the identifiers of the block.
-/

namespace Arweave.Tx
open Arweave.Lib Arweave.Ledger

/-- The pool after the given transactions. -/
structure Pool.After (wallets : Accounts) (denomination : Nat) (before : List TX) (pool : Pool) : Prop where
  applied : applyTxs wallets denomination before = some pool.wallets
  mempool : ∀ x, x ∈ pool.mempool ↔ ∃ earlier ∈ before, earlier.id = x
  lastTx : ∀ earlier ∈ before, lastTxAt pool.wallets earlier.address ∈ pool.mempool

section Run

variable {ctx : Context} {wallets : Accounts} {denomination : Nat} {before txs : List TX} {tx : TX}
  {pool newPool : Pool}

lemma applyTxs_append_singleton :
    applyTxs wallets denomination (before ++ [tx]) =
      (applyTxs wallets denomination before).bind fun accounts => applyTx accounts denomination tx := by
  unfold applyTxs
  rw [List.foldlM_append]
  simp

lemma Pool.After.init : Pool.After wallets denomination [] (Pool.init wallets) where
  applied := rfl
  mempool x := by simp [Pool.init]
  lastTx earlier h := by cases h

lemma Pool.After.add (hafter : Pool.After wallets denomination before pool)
    (hknown : (pool.wallets.lookup tx.address).isSome = true)
    (hadd : pool.add denomination tx = some newPool) :
    Pool.After wallets denomination (before ++ [tx]) newPool := by
  unfold Pool.add at hadd
  simp only [bind, Option.bind_eq_some_iff, Option.some.injEq] at hadd
  obtain ⟨newWallets, happly, rfl⟩ := hadd
  constructor
  · rw [applyTxs_append_singleton, hafter.applied]
    exact happly
  · intro x
    rw [OrdSet.mem_add, hafter.mempool]
    simp only [List.mem_append, List.mem_singleton, or_and_right, exists_or, exists_eq_left]
    rw [or_comm, eq_comm]
  · intro earlier hmem
    change lastTxAt newWallets earlier.address ∈ pool.mempool.add tx.id
    rw [lastTxAt_applyTx happly hknown, OrdSet.mem_add]
    split_ifs with hsame
    · exact .inl rfl
    · rw [List.mem_append, List.mem_singleton] at hmem
      rcases hmem with hmem | rfl
      · exact .inr (hafter.lastTx earlier hmem)
      · exact absurd rfl hsame

lemma verified_of_verifyTx2 {verifySignature : Bool}
    (h : verifyTx2 ctx tx pool.wallets pool.mempool verifySignature = some .valid) :
    Verified ctx.toArgs tx pool.wallets ∧ verifyAnchor ctx tx pool.wallets pool.mempool = .valid := by
  unfold verifyTx2 at h
  simp only [bind, Option.bind_eq_some_iff, Option.some.injEq] at h
  obtain ⟨verified, hverify, hverdict⟩ := h
  split_ifs at hverdict with hv
  rw [hv] at hverify
  exact ⟨verified_of_verify hverify, hverdict⟩

lemma exists_pool_of_verifyBlockTxsFrom (hafter : Pool.After wallets ctx.denomination before pool)
    (h : verifyBlockTxsFrom ctx txs pool = some .valid) {first rest : List TX} (hsplit : txs = first ++ tx :: rest) :
    ∃ pool', Pool.After wallets ctx.denomination (before ++ first) pool' ∧
      verifyTx2 ctx tx pool'.wallets pool'.mempool true = some .valid := by
  induction first generalizing before pool txs with
  | nil =>
    rw [hsplit, List.nil_append, verifyBlockTxsFrom_cons] at h
    rw [List.append_nil]
    exact ⟨pool, hafter, h.1⟩
  | cons head first ih =>
    rw [hsplit, List.cons_append, verifyBlockTxsFrom_cons] at h
    obtain ⟨hvalid, newPool, hadd, -, hrest⟩ := h
    have hknown := (verified_of_verifyTx2 hvalid).1.known
    obtain ⟨pool', hafter', hvalid'⟩ := ih (hafter.add hknown hadd) hrest rfl
    rw [List.append_assoc] at hafter'
    exact ⟨pool', hafter', hvalid'⟩

end Run

/-- The anchor is the last transaction of the account of the sender. -/
def AnchoredAtAccount (accounts : Accounts) (tx : TX) : Prop :=
  ∃ account, accounts.lookup tx.address = some account ∧ account.lastTx = tx.lastTx

/-- The anchor is a recent block, and the transaction is neither in the recent blocks nor among
the earlier ones of its block. -/
def AnchoredAtBlock (ctx : Context) (before : List TX) (tx : TX) : Prop :=
  tx.lastTx ∈ ctx.blockAnchors ∧ tx.id ∉ ctx.recentTxs ∧ ∀ earlier ∈ before, tx.id ≠ earlier.id

lemma anchored_of_verifyLastTx {ctx : Context} {accounts : Accounts} {mempool : OrdSet Bytes} {tx : TX}
    (hknown : (accounts.lookup tx.address).isSome = true) (h : verifyLastTx ctx tx accounts mempool = .valid) :
    AnchoredAtAccount accounts tx ∨
      tx.lastTx ∈ ctx.blockAnchors ∧ tx.id ∉ ctx.recentTxs ∧ tx.id ∉ mempool := by
  unfold verifyLastTx at h
  split_ifs at h with hcheck
  · left
    obtain ⟨account, hlookup⟩ := Option.isSome_iff_exists.mp hknown
    have hsize : accounts.size ≠ 0 := by
      have hmem := SortedMap.lookup_eq_some.mp hlookup
      exact (List.length_pos_of_mem hmem).ne'
    unfold checkLastTx at hcheck
    rw [if_neg hsize, hlookup] at hcheck
    exact ⟨account, hlookup, of_decide_eq_true hcheck⟩
  · right
    unfold verifyBlockAnchor verifyTxInWeave verifyTxInMempool at h
    split_ifs at h with hanchor hweave hmempool
    exact ⟨hanchor, hweave, hmempool⟩

/-- From the fork 1.8 on, no transaction of a valid block is anchored at an earlier one, the
transactions of one account have different identifiers, and every transaction is anchored at
the account of its sender, as it is when the transaction is applied, or at a recent block
that it is not a part of. -/
theorem verifyBlockTxs_noReplay (ctx : Context) (wallets : Accounts) (txs : List TX)
    (hfork : Fork.height_1_8 ≤ ctx.height) (h : verifyBlockTxs ctx wallets txs = some .valid)
    (before after : List TX) (tx : TX) (hsplit : txs = before ++ tx :: after) :
    ∃ current, applyTxs wallets ctx.denomination before = some current ∧
      (∀ earlier ∈ before, tx.lastTx ≠ earlier.id) ∧
      (∀ earlier ∈ before, tx.address = earlier.address → tx.id ≠ earlier.id) ∧
      (AnchoredAtAccount current tx ∨ AnchoredAtBlock ctx before tx) := by
  obtain ⟨pool, hafter, hvalid⟩ := exists_pool_of_verifyBlockTxsFrom Pool.After.init h hsplit
  rw [List.nil_append] at hafter
  obtain ⟨hverified, hanchor⟩ := verified_of_verifyTx2 hvalid
  unfold verifyAnchor at hanchor
  split_ifs at hanchor with hchain
  have hlast : tx.lastTx ∉ pool.mempool := fun hmem => hchain ⟨hfork, hmem⟩
  have hanchored : AnchoredAtAccount pool.wallets tx ∨ AnchoredAtBlock ctx before tx := by
    refine (anchored_of_verifyLastTx hverified.known hanchor).imp_right ?_
    rintro ⟨hblock, hweave, hmempool⟩
    refine ⟨hblock, hweave, fun earlier hmem hid => hmempool ?_⟩
    rw [hafter.mempool]
    exact ⟨earlier, hmem, hid.symm⟩
  refine ⟨pool.wallets, hafter.applied, ?_, ?_, hanchored⟩
  · intro earlier hmem heq
    apply hlast
    rw [hafter.mempool]
    exact ⟨earlier, hmem, heq.symm⟩
  · intro earlier hmem haddr
    rcases hanchored with ⟨account, hlookup, heq⟩ | hblock
    · -- the account of an earlier sender ends in an identifier of the block
      have hpool := hafter.lastTx earlier hmem
      rw [← haddr, lastTxAt, hlookup, Option.elim_some, heq] at hpool
      exact absurd hpool hlast
    · exact hblock.2.2 earlier hmem

set_option maxRecDepth 10000 in
lemma verifyBlockTxs_transfers :
    verifyBlockTxs sampleContext sampleWallets [transferAB, transferBA] = some .valid := by
  decide +kernel

theorem verifyBlockTxs_noReplay_transfers :
    Fork.height_1_8 ≤ sampleContext.height ∧
    verifyBlockTxs sampleContext sampleWallets [transferAB, transferBA] = some .valid ∧
    ∃ current, applyTxs sampleWallets 1 [transferAB] = some current ∧
      (∀ earlier ∈ [transferAB], transferBA.lastTx ≠ earlier.id) ∧
      (∀ earlier ∈ [transferAB], transferBA.address = earlier.address → transferBA.id ≠ earlier.id) ∧
      (AnchoredAtAccount current transferBA ∨ AnchoredAtBlock sampleContext [transferAB] transferBA) :=
  ⟨by decide, verifyBlockTxs_transfers, verifyBlockTxs_noReplay sampleContext sampleWallets
    [transferAB, transferBA] (by decide) verifyBlockTxs_transfers [transferAB] [] transferBA rfl⟩

/-- A transfer anchored at the account of its sender, whose last transaction is the other
transfer. -/
def anchoredTransferBA : TX where
  id := Bytes.ofNat 32 0x6b9e1c027981af22693b7238f50e5df28a053323f4ca57ca661d75c9b31c1c31
  lastTx := transferAB.id
  owner := ownerB
  target := addressA
  quantity := 3
  reward := 2564790
  signature :=
    Bytes.ofNat 68 0xc18fa85cf52b49eb7c54facf3fe707c596a3bcdba87e7a46cadd6a749103a89251c16e42bf0666b04265f40d7e1a19f959892fbbedb56f3284534d813cf3b13012318856

/-- The owner of the first key has an account for each of two signature types. -/
def twoTypesWallets : Accounts :=
  ((SortedMap.empty.insert addressA (.pair 10000000 [])).insert
    (toAddress ownerA .ecdsa) (.pair 10000000 [])).insert addressB (.pair 10000000 transferAB.id)

def replayedTxs : List TX :=
  [anchoredTransferBA, transferAB, { transferAB with signatureType := .ecdsa }]

set_option maxRecDepth 10000 in
/-- The signature type is not signed, and references to later transactions are not looked for. -/
theorem verifyBlockTxs_replayedTxs :
    Fork.height_1_8 ≤ sampleContext.height ∧
    verifyBlockTxs sampleContext twoTypesWallets replayedTxs = some .valid ∧
    ¬(replayedTxs.map TX.id).Nodup ∧
    ¬∀ tx ∈ replayedTxs, ∀ other ∈ replayedTxs, tx ≠ other → tx.lastTx ≠ other.id := by
  refine ⟨by decide, by decide +kernel, by decide +kernel, ?_⟩
  intro h
  apply h anchoredTransferBA (by simp [replayedTxs]) transferAB (by simp [replayedTxs])
  · intro heq
    have hquantity := congrArg TX.quantity heq
    exact absurd hquantity (by decide)
  · rfl

end Arweave.Tx

import Mathlib.Data.List.Sort
import Arweave.Tx.Verify

/-!
# The transactions of a block

`ar_tx_replay_pool` verifies the transactions of a block one on top of another, and picks
transactions from the mempool for a new block in the same way. The identifiers of the
transactions that came before are kept in a map, so that no transaction is taken twice or
refers to another one of the block. A crash of the source is `none`.
-/

namespace Arweave.Tx
open Arweave.Lib Arweave.Ledger

def blockTxCountLimit : Nat := 1000

def blockTxDataSizeLimit : Int := txDataSizeLimit

/-- What the transactions of a block are verified against, besides the accounts. The recent
transactions are the keys of `RecentTXMap`. -/
structure Context extends Args where
  blockAnchors : List Bytes
  recentTxs : OrdSet Bytes
  deriving DecidableEq

/-- The accounts, the identifiers, the number and the size of the transactions so far. -/
structure Pool where
  wallets : Accounts
  mempool : OrdSet Bytes
  count : Nat
  size : Int

def Pool.init (wallets : Accounts) : Pool := ⟨wallets, OrdSet.empty, 0, 0⟩

inductive InvalidReason where
  | txVerificationFailed
  | lastTxInMempool
  | txBadAnchor
  | txAlreadyInWeave
  | txAlreadyInMempool
  deriving DecidableEq, Repr

inductive Verdict where
  | valid
  | invalid (reason : InvalidReason)
  deriving DecidableEq, Repr

def verifyTxInMempool (tx : TX) (mempool : OrdSet Bytes) : Verdict :=
  if tx.id ∈ mempool then .invalid .txAlreadyInMempool else .valid

def verifyTxInWeave (ctx : Context) (tx : TX) (mempool : OrdSet Bytes) : Verdict :=
  if tx.id ∈ ctx.recentTxs then .invalid .txAlreadyInWeave else verifyTxInMempool tx mempool

def verifyBlockAnchor (ctx : Context) (tx : TX) (mempool : OrdSet Bytes) : Verdict :=
  if tx.lastTx ∈ ctx.blockAnchors then verifyTxInWeave ctx tx mempool else .invalid .txBadAnchor

def verifyLastTx (ctx : Context) (tx : TX) (wallets : Accounts) (mempool : OrdSet Bytes) : Verdict :=
  if checkLastTx wallets tx then .valid else verifyBlockAnchor ctx tx mempool

/-- Chains of references inside of a block were allowed before the fork 1.8. -/
def verifyAnchor (ctx : Context) (tx : TX) (wallets : Accounts) (mempool : OrdSet Bytes) : Verdict :=
  if Fork.height_1_8 ≤ ctx.height ∧ tx.lastTx ∈ mempool then .invalid .lastTxInMempool
  else verifyLastTx ctx tx wallets mempool

def verifyTx2 (ctx : Context) (tx : TX) (wallets : Accounts) (mempool : OrdSet Bytes)
    (verifySignature : Bool) : Option Verdict := do
  let verified ← verify ctx.toArgs tx wallets verifySignature
  some (if verified then verifyAnchor ctx tx wallets mempool else .invalid .txVerificationFailed)

/-- The pool after a valid transaction. -/
def Pool.add (pool : Pool) (denomination : Nat) (tx : TX) : Option Pool := do
  let newWallets ← applyTx pool.wallets denomination tx
  some {
    wallets := newWallets
    mempool := pool.mempool.add tx.id
    count := pool.count + 1
    size := if tx.format = 1 then pool.size + tx.dataSize else pool.size }

def Pool.exceedsLimit (pool : Pool) : Bool :=
  blockTxCountLimit < pool.count || blockTxDataSizeLimit < pool.size

inductive BlockVerdict where
  | valid
  | invalid
  deriving DecidableEq, Repr

/-- `verify_block_txs/2`. The limits hold from the fork 1.8 on. -/
def verifyBlockTxsFrom (ctx : Context) : List TX → Pool → Option BlockVerdict
  | [], _ => some .valid
  | tx :: txs, pool => do
    match ← verifyTx2 ctx tx pool.wallets pool.mempool true with
    | .invalid _ => some .invalid
    | .valid =>
      let newPool ← pool.add ctx.denomination tx
      if Fork.height_1_8 ≤ ctx.height ∧ newPool.exceedsLimit then some .invalid
      else verifyBlockTxsFrom ctx txs newPool

/-- `verify_block_txs/1` -/
def verifyBlockTxs (ctx : Context) (wallets : Accounts) (txs : List TX) : Option BlockVerdict :=
  verifyBlockTxsFrom ctx txs (Pool.init wallets)

/-- Invalid transactions and those beyond the limits are left out. -/
def pickTxsUnderSizeLimit (ctx : Context) : List TX → Pool → Option (List TX)
  | [], _ => some []
  | tx :: txs, pool => do
    match ← verifyTx2 ctx tx pool.wallets pool.mempool true with
    | .invalid _ => pickTxsUnderSizeLimit ctx txs pool
    | .valid =>
      let newPool ← pool.add ctx.denomination tx
      if newPool.exceedsLimit then pickTxsUnderSizeLimit ctx txs pool
      else do
        let rest ← pickTxsUnderSizeLimit ctx txs newPool
        some (tx :: rest)

/-- The anchors are given from the newest to the oldest, and older ones come first. -/
def compareAnchors (anchor1 anchor2 : Bytes) : List Bytes → Bool
  | [] => true
  | anchor :: anchors =>
    if anchor1 = anchor2 then true
    else if anchor1 = anchor then false
    else if anchor2 = anchor then true
    else compareAnchors anchor1 anchor2 anchors

def compareTxsByUtility (tx1 tx2 : TX) (bhl : List Bytes) : Bool :=
  let u1 := utility tx1
  let u2 := utility tx2
  if u1 = u2 then compareAnchors tx1.lastTx tx2.lastTx bhl
  else u2.1 < u1.1 || (u2.1 = u1.1 && u2.2 < u1.2)

def compareTxs (tx1 tx2 : TX) (bhl : List Bytes) : Bool :=
  if tx1.lastTx ∈ bhl then
    if tx2.lastTx ∈ bhl then compareTxsByUtility tx1 tx2 bhl else false
  else true

/-- `lists:sort/2`, which is stable. -/
def sortTxsByUtilityAndAnchor (txs : List TX) (bhl : List Bytes) : List TX :=
  txs.insertionSort fun tx1 tx2 => compareTxs tx1 tx2 bhl = true

def pickTxsToMine (ctx : Context) (wallets : Accounts) (txs : List TX) : Option (List TX) :=
  pickTxsUnderSizeLimit ctx (sortTxsByUtilityAndAnchor txs ctx.blockAnchors) (Pool.init wallets)

section Steps

variable {ctx : Context} {tx : TX} {txs picked : List TX} {pool : Pool}

lemma verifyBlockTxsFrom_cons :
    verifyBlockTxsFrom ctx (tx :: txs) pool = some .valid ↔
      verifyTx2 ctx tx pool.wallets pool.mempool true = some .valid ∧
      ∃ newPool, pool.add ctx.denomination tx = some newPool ∧
        ¬(Fork.height_1_8 ≤ ctx.height ∧ newPool.exceedsLimit = true) ∧
        verifyBlockTxsFrom ctx txs newPool = some .valid := by
  rw [verifyBlockTxsFrom]
  cases hverdict : verifyTx2 ctx tx pool.wallets pool.mempool true with
  | none => simp
  | some verdict =>
    cases verdict with
    | invalid reason => simp
    | valid =>
      cases hadd : pool.add ctx.denomination tx with
      | none => simp
      | some newPool =>
        by_cases hlimit : Fork.height_1_8 ≤ ctx.height ∧ newPool.exceedsLimit = true
        · simp [hlimit]
        · simp only [Option.bind_eq_bind, Option.bind_some, if_neg hlimit]
          constructor
          · intro hrest
            exact ⟨trivial, newPool, rfl, hlimit, hrest⟩
          · rintro ⟨-, _, heq, -, hrest⟩
            cases heq
            exact hrest

lemma pickTxsUnderSizeLimit_cons (h : pickTxsUnderSizeLimit ctx (tx :: txs) pool = some picked) :
    pickTxsUnderSizeLimit ctx txs pool = some picked ∨
      verifyTx2 ctx tx pool.wallets pool.mempool true = some .valid ∧
      ∃ newPool rest, pool.add ctx.denomination tx = some newPool ∧ newPool.exceedsLimit = false ∧
        pickTxsUnderSizeLimit ctx txs newPool = some rest ∧ picked = tx :: rest := by
  rw [pickTxsUnderSizeLimit] at h
  cases hverdict : verifyTx2 ctx tx pool.wallets pool.mempool true with
  | none => simp [hverdict] at h
  | some verdict =>
    cases verdict with
    | invalid reason =>
      left
      simpa [hverdict] using h
    | valid =>
      cases hadd : pool.add ctx.denomination tx with
      | none => simp [hverdict, hadd] at h
      | some newPool =>
        cases hlimit : newPool.exceedsLimit with
        | true =>
          left
          simpa [hverdict, hadd, hlimit] using h
        | false =>
          right
          simp only [hverdict, hadd, hlimit, Option.bind_eq_bind, Option.bind_some, Bool.false_eq_true,
            if_false, Option.bind_eq_some_iff, Option.some.injEq] at h
          obtain ⟨rest, hrest, rfl⟩ := h
          exact ⟨rfl, newPool, rest, rfl, hlimit, hrest, rfl⟩

lemma verifyBlockTxsFrom_of_pick (h : pickTxsUnderSizeLimit ctx txs pool = some picked) :
    verifyBlockTxsFrom ctx picked pool = some .valid := by
  induction txs generalizing pool picked with
  | nil =>
    cases h
    rfl
  | cons tx txs ih =>
    rcases pickTxsUnderSizeLimit_cons h with hskip | ⟨hvalid, newPool, rest, hadd, hlimit, hrest, rfl⟩
    · exact ih hskip
    · rw [verifyBlockTxsFrom_cons]
      refine ⟨hvalid, newPool, hadd, ?_, ih hrest⟩
      rw [hlimit]
      simp

end Steps

/-- The transactions picked for a block are valid in the order of the selection. -/
theorem pickTxsToMine_valid (ctx : Context) (wallets : Accounts) (txs picked : List TX)
    (h : pickTxsToMine ctx wallets txs = some picked) :
    verifyBlockTxs ctx wallets picked = some .valid := by
  unfold pickTxsToMine at h
  unfold verifyBlockTxs
  exact verifyBlockTxsFrom_of_pick h

def ownerA : Bytes :=
  Bytes.ofNat 68 0xee7b91033408642c512dae0f6bac9b3a07efb1d2e3967c90d942d17b18e4ef39b0ac5bfac17e70491b2de808b73d0b380680b0eb3379696d72a5a16583d5b61d273c7d23

def addressA : Bytes :=
  Bytes.ofNat 32 0xbbc1c5d41487112f63c01f977b9959ae688cdbcc5a2c6665c922bf4b00f44428

def ownerB : Bytes :=
  Bytes.ofNat 68 0xd2d36cc5a65f500cc263ad19ef066e000c21ecb58f371360a02153d49740d502d66f741fe1704d67f27ef57e9697bb52216ab692ba31da95a3860843a0def6b6ddfe531f

def addressB : Bytes :=
  Bytes.ofNat 32 0x3bd5689026b455e7975ef3a95f5114b5a33dc4b628c40417c1078f6b5d803d5d

/-- A transfer of version one, anchored at the account of its sender. -/
def transferAB : TX where
  id := Bytes.ofNat 32 0xcfe9bb5b013d2c218c631ff951005731c579089bc660b9a1da911964cc668aee
  owner := ownerA
  target := addressB
  quantity := 5
  reward := 2564790
  signature :=
    Bytes.ofNat 68 0xbb2f07191001af97601728049336e54f0a2c042484ad455eb4ee988fe59185f0f3057debf0af1e7efe785c3a7d66adb11fbe5db929462e13af5bf2812e24306ae3eec1da

/-- A transfer with a denomination, anchored at a block. -/
def transferBA : TX where
  id := Bytes.ofNat 32 0x6ad3c6d2a223378d4fefc426250cc2b8b571e40489ee6c5011ed98f9602b4e39
  lastTx := List.replicate 48 7
  owner := ownerB
  target := addressA
  quantity := 7
  reward := 2564790
  denomination := 1
  signature :=
    Bytes.ofNat 68 0x3fd8c521f0a2d78d8708ada83edb119929337728da56e2cd2ed4f5bfa28625a06243fb62b6777fb1df81a842e5d992dae57edf694f42a685d000b9c64e453f5a2765fdb8

def sampleContext : Context where
  rate := (1, 10)
  pricePerGiBMinute := 400
  kryderPlusRateMultiplier := 1
  denomination := 1
  redenominationHeight := 0
  height := 1300000
  timestamp := 1700000000
  blockAnchors := [List.replicate 48 7]
  recentTxs := OrdSet.empty

def sampleWallets : Accounts :=
  (SortedMap.empty.insert addressA (.pair 10000000 [])).insert addressB (.quad 20000000 [1] 1 true)

set_option maxRecDepth 10000 in
/-- The forged transfer is left out, and the one anchored at an account comes first. -/
theorem pickTxsToMine_valid_transfers :
    pickTxsToMine sampleContext sampleWallets
        [transferBA, { transferAB with quantity := 6 }, transferAB] = some [transferAB, transferBA] ∧
      verifyBlockTxs sampleContext sampleWallets [transferAB, transferBA] = some .valid := by
  have hpick : pickTxsToMine sampleContext sampleWallets
      [transferBA, { transferAB with quantity := 6 }, transferAB] = some [transferAB, transferBA] := by
    decide +kernel
  exact ⟨hpick, pickTxsToMine_valid _ _ _ _ hpick⟩

end Arweave.Tx

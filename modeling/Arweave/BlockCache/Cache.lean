import Mathlib.Data.Prod.Lex
import Arweave.Lib.Prefix
import Arweave.Lib.Sorted

/-!
# The block cache

The tables of `ar_block_cache`: the blocks with their statuses, arrival times and children, the
links ordered by height, the blocks of every solution, the block with the maximum cumulative
difficulty, the tip and the longest chain. `none` as a result stands for a crash of the Erlang
code.
-/

namespace Arweave.BlockCache
open Arweave.Lib

/-- The stages of a block that is not validated. -/
inductive Stage where
  | awaitingValidation
  | awaitingNonceLimiterValidation
  | nonceLimiterValidationScheduled
  | nonceLimiterValidated
  deriving DecidableEq, Repr

inductive Status where
  | onChain
  | validated
  | notValidated (stage : Stage)
  deriving DecidableEq, Repr

/-- The fields of a block that the cache reads; `txs` are the identifiers of the
transactions. -/
structure Block where
  indepHash : Bytes
  hash : Bytes
  previousBlock : Bytes
  cumulativeDiff : Nat
  height : Nat
  txs : List Bytes
  deriving DecidableEq, Repr

/-- The value under `{block, H}`, with the arrival time in microseconds. -/
@[ext]
structure Entry where
  block : Block
  status : Status
  timestamp : Nat
  children : OrdSet Bytes
  deriving DecidableEq

/-- What `longest_chain` holds: block hashes with transactions, newest first, and the number of
these blocks that are not on chain. -/
abbrev LongestChain := List (Bytes × List Bytes) × Nat

structure Cache where
  blocks : SortedMap Bytes Entry
  links : OrdSet (Nat ×ₗ Bytes)
  solutions : SortedMap Bytes (OrdSet Bytes)
  maxCdiff : Nat × Bytes
  tip : Bytes
  longestChain : Option LongestChain

/-- The constants of the node, and the order in which the elements of a set are visited. -/
structure Config where
  height26 : Nat
  storeBlocksBehindCurrent : Nat
  order : List Bytes → List Bytes
  order_perm : ∀ l, (order l).Perm l

variable (cfg : Config)

/-- `get_longest_chain_block_txs_pairs/7`. A retry of the Erlang code returns the value that is
cached already. -/
def getLongestChainBlockTxsPairs (c : Cache) : Nat → Bytes → Nat → Option Status → Bytes →
    List (Bytes × List Bytes) → Nat → Option LongestChain
  | 0, _, _, _, _, _, _ => none
  | fuel + 1, h, n, prevStatus, prevH, pairs, notOnChainCount =>
    if n = 0 then
      some (pairs.reverse, notOnChainCount)
    else
      match c.blocks.lookup h with
      | some e =>
        match e.status with
        | .notValidated .awaitingNonceLimiterValidation
        | .notValidated .nonceLimiterValidationScheduled =>
          getLongestChainBlockTxsPairs c fuel e.block.previousBlock cfg.storeBlocksBehindCurrent none [] [] 0
        | status =>
          if prevStatus = some .onChain ∧ status ≠ .onChain then
            c.longestChain
          else
            getLongestChainBlockTxsPairs c fuel e.block.previousBlock (n - 1) (some status) h
              ((e.block.indepHash, e.block.txs) :: pairs)
              (if status = .onChain then notOnChainCount else notOnChainCount + 1)
      | none =>
        if prevStatus = some .onChain then
          match c.blocks.lookup prevH with
          | none => c.longestChain
          | some _ => some (pairs.reverse, notOnChainCount)
        else
          c.longestChain

/-- The walk visits a block at most once and ends one step below the lowest block. -/
def updateLongestChainCache (c : Cache) : Option Cache := do
  let result ← getLongestChainBlockTxsPairs cfg c (c.blocks.size + 2) c.maxCdiff.2
    cfg.storeBlocksBehindCurrent none [] [] 0
  some { c with longestChain := some result }

/-- The blocks with a solution hash. -/
def Cache.solutionSet (c : Cache) (solutionH : Bytes) : OrdSet Bytes :=
  (c.solutions.lookup solutionH).getD .empty

def new (b : Block) (stamp : Nat) : Option Cache :=
  updateLongestChainCache cfg
    { maxCdiff := (b.cumulativeDiff, b.indepHash)
      links := .ofList [toLex (b.height, b.indepHash)]
      solutions := SortedMap.empty.insert b.hash (.ofList [b.indepHash])
      tip := b.indepHash
      blocks := SortedMap.empty.insert b.indepHash ⟨b, .onChain, stamp, .empty⟩
      longestChain := none }

def removeSolution (c : Cache) (h solutionH : Bytes) : Option Cache := do
  let solutionSet ← c.solutions.lookup solutionH
  if solutionSet.elems.length = 1 then
    some { c with solutions := c.solutions.erase solutionH }
  else
    some { c with solutions := c.solutions.insert solutionH (solutionSet.erase h) }

/-- Delete a block and the blocks on top. A block is deleted before its children, so the number
of blocks is enough fuel. -/
def remove2 : Nat → Cache → Bytes → Option Cache
  | 0, _, _ => none
  | fuel + 1, c, h => do
    let e ← c.blocks.lookup h
    let c2 ← removeSolution { c with blocks := c.blocks.erase h } h e.block.hash
    let c3 := { c2 with links := c2.links.erase (toLex (e.block.height, h)) }
    (cfg.order e.children.elems).foldlM (fun c child => remove2 fuel c child) c3

def findMaxCdiffFrom (c : Cache) : List (Nat ×ₗ Bytes) → Option (Nat × Bytes) → Option (Nat × Bytes)
  | [], acc => acc
  | link :: rest, none => do
    let e ← c.blocks.lookup (ofLex link).2
    findMaxCdiffFrom c rest (some (e.block.cumulativeDiff, (ofLex link).2))
  | link :: rest, some acc => do
    let e ← c.blocks.lookup (ofLex link).2
    findMaxCdiffFrom c rest
      (if acc.1 < e.block.cumulativeDiff then some (e.block.cumulativeDiff, (ofLex link).2) else some acc)

/-- The result `not_set`, for no links, makes the update of the longest chain crash. -/
def findMaxCdiff (c : Cache) : Option (Nat × Bytes) := findMaxCdiffFrom c c.links.elems none

def remove (c : Cache) (h : Bytes) : Option Cache :=
  match c.blocks.lookup h with
  | none => some c
  | some e => do
    let prevH := e.block.previousBlock
    let prev ← c.blocks.lookup prevH
    let c2 ← remove2 cfg c.blocks.size c h
    let maxCdiff ← (if (c2.blocks.lookup c.maxCdiff.2).isNone then findMaxCdiff c2 else some c.maxCdiff)
    updateLongestChainCache cfg
      { c2 with
        maxCdiff
        blocks := c2.blocks.insert prevH { prev with children := prev.children.erase h } }

/-- `get_fork_length/2` for one branch. -/
def branchLength (c : Cache) : Nat → Bytes → Option Nat
  | 0, _ => none
  | fuel + 1, h => do
    let e ← c.blocks.lookup h
    if e.children.isEmpty then
      some 1
    else do
      let lengths ← e.children.elems.mapM (branchLength c fuel)
      some (1 + (1 + lengths.foldr max 0))

/-- `get_fork_length/2` for a list of branches. -/
def getForkLength (c : Cache) (branches : List Bytes) : Option Nat := do
  let lengths ← branches.mapM (branchLength c (c.blocks.size + 1))
  some (1 + lengths.foldr max 0)

/-- The lifetime in microseconds, five seconds for every block. -/
def getAlternativeBlockLifetime (c : Cache) (children : OrdSet Bytes) : Option Nat := do
  let forkLen ← getForkLength c children.elems
  some (5000000 * forkLen)

/-- The test of `remove_expired_alternative_blocks/2` for one block, at the time when it is
made. -/
def isExpired (c : Cache) (clock : Bytes → Nat) (h : Bytes) : Option Bool := do
  let e ← c.blocks.lookup h
  if e.status = .onChain then
    some false
  else do
    let lifetime ← getAlternativeBlockLifetime c e.children
    some (decide (e.timestamp + lifetime ≤ clock h))

def removeExpiredAlternativeBlocks (clock : Bytes → Nat) : Cache → List Bytes → Option (Cache × List Bytes)
  | c, [] => some (c, [])
  | c, h :: hs => do
    let expired ← isExpired c clock h
    if expired then do
      let c2 ← remove cfg c h
      removeExpiredAlternativeBlocks clock c2 hs
    else do
      let (c2, remaining) ← removeExpiredAlternativeBlocks clock c hs
      some (c2, h :: remaining)

def add (c : Cache) (b : Block) (clock : Bytes → Nat) (stamp : Nat) : Option Cache :=
  let h := b.indepHash
  let status := if cfg.height26 ≤ b.height then .notValidated .awaitingNonceLimiterValidation
    else .notValidated .awaitingValidation
  match c.blocks.lookup h with
  | none => do
    let (c2, remaining) ←
      removeExpiredAlternativeBlocks cfg clock c (cfg.order (c.solutionSet b.hash).elems)
    let prev ← c2.blocks.lookup b.previousBlock
    let links2 ← c2.links.insert (toLex (b.height, h))
    updateLongestChainCache cfg
      { c2 with
        maxCdiff := if c2.maxCdiff.1 < b.cumulativeDiff then (b.cumulativeDiff, h) else c2.maxCdiff
        links := links2
        solutions := c2.solutions.insert b.hash (.ofList (h :: remaining))
        blocks := (c2.blocks.insert h ⟨b, status, stamp, .empty⟩).insert b.previousBlock
          { prev with children := prev.children.add h } }
  | some ⟨_, .notValidated stage, timestamp, children⟩ =>
    updateLongestChainCache cfg
      { c with blocks := c.blocks.insert h ⟨b, .notValidated stage, timestamp, children⟩ }
  | some _ => some c

/-- `add_validated/2` with the entry of the previous block, which is read before alternative
blocks expire and written back after. -/
def addAbove (c : Cache) (b : Block) (prev : Entry) (clock : Bytes → Nat) (stamp : Nat) : Option Cache :=
  let h := b.indepHash
  let prev2 := { prev with children := prev.children.add h }
  match c.blocks.lookup h with
  | none => do
    let (c2, remaining) ←
      removeExpiredAlternativeBlocks cfg clock c (cfg.order (c.solutionSet b.hash).elems)
    let links2 ← c2.links.insert (toLex (b.height, h))
    updateLongestChainCache cfg
      { c2 with
        blocks := (c2.blocks.insert b.previousBlock prev2).insert h ⟨b, .validated, stamp, .empty⟩
        maxCdiff := if c2.maxCdiff.1 < b.cumulativeDiff then (b.cumulativeDiff, h) else c2.maxCdiff
        links := links2
        solutions := c2.solutions.insert b.hash (.ofList (h :: remaining)) }
  | some ⟨_, .onChain, timestamp, children⟩ =>
    updateLongestChainCache cfg
      { c with blocks := (c.blocks.insert b.previousBlock prev2).insert h ⟨b, .onChain, timestamp, children⟩ }
  | some ⟨_, _, timestamp, children⟩ =>
    updateLongestChainCache cfg
      { c with blocks := (c.blocks.insert b.previousBlock prev2).insert h ⟨b, .validated, timestamp, children⟩ }

def addValidated (c : Cache) (b : Block) (clock : Bytes → Nat) (stamp : Nat) : Option Cache := do
  let prev ← c.blocks.lookup b.previousBlock
  match prev.status with
  | .notValidated _ => none
  | _ => addAbove cfg c b prev clock stamp

/-- Change the stage of a block, if it has the expected one. -/
def setStage (c : Cache) (h : Bytes) (expected stage : Stage) : Option Cache :=
  match c.blocks.lookup h with
  | some e =>
    if e.status = .notValidated expected then
      updateLongestChainCache cfg
        { c with blocks := c.blocks.insert h { e with status := .notValidated stage } }
    else
      some c
  | none => some c

def markNonceLimiterValidated (c : Cache) (h : Bytes) : Option Cache :=
  setStage cfg c h .nonceLimiterValidationScheduled .nonceLimiterValidated

def markNonceLimiterValidationScheduled (c : Cache) (h : Bytes) : Option Cache :=
  setStage cfg c h .awaitingNonceLimiterValidation .nonceLimiterValidationScheduled

/-- The entries of the blocks of an abandoned fork. The accumulator is dropped at a block that
is on chain. -/
def markOffChain (c : Cache) : Nat → List Bytes → Option (List (Bytes × Entry))
  | 0, _ => none
  | fuel + 1, set =>
    (cfg.order set).foldlM (fun acc h =>
      match c.blocks.lookup h with
      | some e =>
        if e.status = .onChain then do
          let rest ← markOffChain c fuel e.children.elems
          some ((h, { e with status := .validated }) :: rest)
        else
          some acc
      | none => some acc) []

/-- The entries that change below a new tip. -/
def markOnChain (c : Cache) : Nat → Block → Option (List (Bytes × Entry))
  | 0, _ => none
  | fuel + 1, b => do
    let prev ← c.blocks.lookup b.previousBlock
    match prev.status with
    | .notValidated _ => none
    | .onChain => markOffChain cfg c (c.blocks.size + 1) (prev.children.erase b.indepHash).elems
    | .validated => do
      let rest ← markOnChain c fuel prev.block
      some ((b.previousBlock, { prev with status := .onChain }) :: rest)

def insertEntries (blocks : SortedMap Bytes Entry) (entries : List (Bytes × Entry)) : SortedMap Bytes Entry :=
  entries.foldl (fun blocks x => blocks.insert x.1 x.2) blocks

def markTip (c : Cache) (h : Bytes) : Option Cache := do
  let e ← c.blocks.lookup h
  let entries ← markOnChain cfg c (c.blocks.size + 1) e.block
  updateLongestChainCache cfg
    { c with
      tip := h
      blocks := insertEntries c.blocks ((h, { e with status := .onChain }) :: entries) }

/-- Remove the children of a block that are not on chain. -/
def removeForks (c : Cache) (children : List Bytes) : Option Cache :=
  children.foldlM (fun c child => do
    let e ← c.blocks.lookup child
    if e.status = .onChain then some c else remove cfg c child) c

/-- `prune/3`. Every round deletes the lowest block, so the number of links is enough fuel. -/
def pruneFrom (depth tipHeight : Nat) : Nat → Cache → Option Cache
  | 0, _ => none
  | fuel + 1, c =>
    match c.links.smallest with
    | none => some c
    | some link =>
      let h := (ofLex link).2
      if tipHeight ≤ (ofLex link).1 + depth then
        some c
      else do
        let c2 := { c with links := c.links.erase link }
        let e ← c2.blocks.lookup h
        if e.status = .onChain then do
          let c3 ← removeForks cfg c2 (cfg.order e.children.elems)
          let c4 ← removeSolution c3 h e.block.hash
          let c5 ← updateLongestChainCache cfg { c4 with blocks := c4.blocks.erase h }
          pruneFrom depth tipHeight fuel c5
        else
          none

def prune (c : Cache) (depth : Nat) : Option Cache := do
  let e ← c.blocks.lookup c.tip
  pruneFrom cfg depth e.block.height (c.links.elems.length + 1) c

/-- The blocks are sorted from newest to oldest and come with the times of their calls. -/
def initializeFromList : List (Block × (Bytes → Nat) × Nat) → Option Cache
  | [] => none
  | [(b, _, stamp)] => new cfg b stamp
  | (b, clock, stamp) :: blocks => do
    let c ← initializeFromList blocks
    let c2 ← addValidated cfg c b clock stamp
    markTip cfg c2 b.indepHash

end Arweave.BlockCache

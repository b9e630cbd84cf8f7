import Arweave.BlockIndex.Index
import Arweave.Intervals.Set
import Arweave.Lib.Ranges
import Arweave.Tx.Transaction

/-!
# Header syncing

`ar_header_sync` keeps a record of the heights whose headers are in its key-value store. The record
is in memory and, with the recent block index and the height of the tip, in a stored term. A message
is handled with a list of writes and a new state, and `none` is a crash before the first write. A
crash after some of the writes leaves what is on disk, and the process starts over from the stored
term. The retry queue and the downloads are left out, as are the writes of other modules. The key
`<< Height:256 >>` is the height.
-/

namespace Arweave.HeaderSync
open Arweave.Lib Arweave.BlockIndex Arweave.Intervals

structure Block where
  height : Nat
  indepHash : Bytes
  previousBlock : Bytes
  txRoot : Bytes

/-- The term `{SyncRecord, LastHeight, BI}` of `header_sync_state`. -/
structure Stored where
  syncRecord : IntervalSet
  height : Int
  blockIndex : List Element

structure State where
  blockIndex : List Element
  height : Int
  syncRecord : IntervalSet
  retryRecord : IntervalSet
  isDiskSpaceSufficient : Bool

def State.stored (s : State) : Stored := ⟨s.syncRecord, s.height, s.blockIndex⟩

/-- The key-value store has the term `{H, PrevH}` at a height. -/
structure Disk where
  headers : SortedMap Int (Bytes × Bytes)
  stored : Option Stored

inductive Write where
  | put (height : Int) (h prevH : Bytes)
  | delete (height : Int)
  | deleteRange (start stop : Int)
  | writeTerm (stored : Stored)

def Disk.apply (d : Disk) : Write → Disk
  | .put height h prevH => { d with headers := d.headers.insert height (h, prevH) }
  | .delete height => { d with headers := d.headers.erase height }
  | .deleteRange start stop => { d with headers := d.headers.deleteRange start stop }
  | .writeTerm stored => { d with stored := some stored }

def init (d : Disk) : State :=
  match d.stored with
  | none => ⟨[], -1, new, new, true⟩
  | some stored => ⟨stored.blockIndex, stored.height, stored.syncRecord, new, true⟩

/-- What other modules answer while a message is handled: whether the node has joined, its block index,
which blocks `ar_storage:write_full_block/2` writes, and whether `ar_storage:write_term/2` writes. -/
structure Environment where
  isJoined : Bool
  index : Table
  writeFullBlock : Block → Bool
  writeTerm : Bool

variable (env : Environment)

/-- `ar_node:get_block_index_entry/1`. The inner `none` is `not_joined` or `not_found`. -/
def getBlockIndexEntry (height : Int) : Option (Option Element) :=
  if env.isJoined then env.index.getElementByHeight height else some none

def checkFork (b : Block) : Option Bool :=
  if b.height < Fork.height_2_0 then some true
  else
    (getBlockIndexEntry env b.height).map fun
      | none => false
      | some e => e.h = b.indepHash ∧ e.txRoot = b.txRoot

def storeSyncState (s : State) : Write := .writeTerm s.stored

def addBlock2 (b : Block) (s : State) : Option (List Write × State) :=
  if s.isDiskSpaceSufficient = false then some ([], s)
  else if env.writeFullBlock b then
    if isInside s.syncRecord b.height then some ([], s)
    else do
      let syncRecord2 ← add s.syncRecord b.height (b.height - 1)
      let retryRecord2 ← delete s.retryRecord b.height (b.height - 1)
      some ([.put b.height b.indepHash b.previousBlock],
        { s with syncRecord := syncRecord2, retryRecord := retryRecord2 })
  else some ([], s)

def addBlock (b : Block) (s : State) : Option (List Write × State) := do
  if ← checkFork env b then addBlock2 env b s else some ([], s)

def addBlocks : List Block → State → Option (List Write × State)
  | [], s => some ([], s)
  | b :: blocks, s => do
    let (writes, s2) ← addBlock env b s
    let (writes2, s3) ← addBlocks blocks s2
    some (writes ++ writes2, s3)

/-- The state of the new block index, without what is above the intersection. No intersection halts the
node. -/
def intersect (height : Nat) (recentBI : List Element) (s : State) : Option (List Write × State) :=
  let s2 := { s with height := height, blockIndex := recentBI }
  let startHeight := s.height - s.blockIndex.length + 1
  match s.blockIndex, env.index.getIntersectionAt startHeight s.blockIndex with
  | [], _ => some ([], s2)
  | _, none => none
  | _, some (intersectionHeight, _) =>
    let s3 := { s2 with
      syncRecord := cut s.syncRecord intersectionHeight
      retryRecord := cut s.retryRecord intersectionHeight }
    some ([storeSyncState s3, .deleteRange (intersectionHeight + 1) (s.height + 1)], s3)

/-- A state that is not stored is a crash. -/
def join (height : Nat) (recentBI : List Element) (blocks : List Block) (s : State) : Option (List Write × State) := do
  let (writes, s3) ← intersect env height recentBI s
  let (writes2, s4) ← addBlocks env blocks s3
  some (writes ++ writes2 ++ [storeSyncState s4], s4)

/-- The height of the first stored element that the given list has. -/
def getBaseHeight : List Element → Int → List Element → Option Int
  | [], _, _ => none
  | e :: bi, height, recentBI =>
    if recentBI.any (·.h = e.h) then some height else getBaseHeight bi (height - 1) recentBI

/-- A state that is not stored is given up, after the header of the tip has been put. -/
def addTipBlock (b : Block) (recentBI : List Element) (s : State) : Option (List Write × State) := do
  let baseHeight ← getBaseHeight s.blockIndex s.height recentBI
  let s2 := { s with
    syncRecord := cut s.syncRecord baseHeight
    retryRecord := cut s.retryRecord baseHeight
    blockIndex := recentBI
    height := b.height }
  let (writes, s3) ← addBlock env b s2
  if env.writeTerm then some (writes ++ [storeSyncState s3, .deleteRange (baseHeight + 1) (s.height + 1)], s3)
  else some (writes, s)

def addHistoricalBlock (b : Block) (s : State) : Option (List Write × State) :=
  if s.isDiskSpaceSufficient = false then some ([], s) else addBlock env b s

def removeBlock (height : Int) (s : State) : Option (List Write × State) := do
  let syncRecord ← delete s.syncRecord height (height - 1)
  some ([.delete height], { s with syncRecord := syncRecord })

/-- The height is that of the block of the transaction, if it is found. A state that is not stored is a
crash. -/
def preparingUnblacklisting (height : Option Int) (s : State) : Option (List Write × State) :=
  match height with
  | none => some ([], s)
  | some height => do
    let syncRecord ← delete s.syncRecord height (height - 1)
    let retryRecord ← delete s.retryRecord height (height - 1)
    let s2 := { s with syncRecord := syncRecord, retryRecord := retryRecord }
    some ([storeSyncState s2, .delete height], s2)

/-- The latest height that is not in a record. The inner `none` is `nothing_to_sync`. -/
def pickUnsyncedBlock (s : State) : Option (Option Int) := do
  let u ← union s.syncRecord s.retryRecord
  match u.last with
  | none => some (some s.height)
  | some p =>
    let (e, start) := ofLex p
    if s.height > e then some (some s.height)
    else if start = -1 then some none
    else some (some start)

/-- A height that is to be downloaded is recorded. -/
def processItem (s : State) : Option (List Write × State) :=
  if s.isDiskSpaceSufficient = false then some ([], s)
  else do
    match ← pickUnsyncedBlock s with
    | none => some ([], s)
    | some height =>
      match ← getBlockIndexEntry env height with
      | none => some ([], s)
      | some _ => do
        let retryRecord ← add s.retryRecord height (height - 1)
        some ([], { s with retryRecord := retryRecord })

/-- The buffers of the disk pool and of the disk cache are given by their sum. -/
def remainingDiskSpace (bytes buffers : Nat) (s : State) : State :=
  let bufferSize := 10000000000
  if bytes < buffers + bufferSize / 2 then { s with isDiskSpaceSufficient := false }
  else if bytes > buffers + bufferSize then { s with isDiskSpaceSufficient := true }
  else s

inductive Message where
  | join (height : Nat) (recentBI : List Element) (blocks : List Block)
  | addTipBlock (b : Block) (recentBI : List Element)
  | addHistoricalBlock (b : Block)
  | addBlock (b : Block)
  | processItem
  | removeBlock (height : Int)
  | storeSyncState
  | preparingUnblacklisting (height : Option Int)
  | remainingDiskSpace (bytes buffers : Nat)

def handle (s : State) : Message → Option (List Write × State)
  | .join height recentBI blocks => join env height recentBI blocks s
  | .addTipBlock b recentBI => addTipBlock env b recentBI s
  | .addHistoricalBlock b => addHistoricalBlock env b s
  | .addBlock b => addBlock env b s
  | .processItem => processItem env s
  | .removeBlock height => removeBlock height s
  | .storeSyncState => some (if env.writeTerm then [storeSyncState s] else [], s)
  | .preparingUnblacklisting height => preparingUnblacklisting height s
  | .remainingDiskSpace bytes buffers => some ([], remainingDiskSpace bytes buffers s)

structure Server where
  disk : Disk
  state : State

def Server.start (d : Disk) : Server := ⟨d, init d⟩

/-- A message with the answers that it meets, and the number of its writes that are done before a
crash if there is one. -/
structure Event where
  env : Environment
  message : Message
  crash : Option Nat

def Server.step (s : Server) (event : Event) : Server :=
  match handle event.env s.state event.message, event.crash with
  | none, _ => Server.start s.disk
  | some (writes, state), none => ⟨writes.foldl Disk.apply s.disk, state⟩
  | some (writes, _), some k => Server.start ((writes.take k).foldl Disk.apply s.disk)

/-- A run from the start without a stored term. -/
def run (events : List Event) : Server := events.foldl Server.step (Server.start ⟨SortedMap.empty, none⟩)

end Arweave.HeaderSync

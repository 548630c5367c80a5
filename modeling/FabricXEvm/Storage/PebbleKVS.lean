import FabricXEvm.Lib.OrderedStore
import FabricXEvm.Storage.PebbleFormat

/-!
# PebbleKVS

The endorser's persistent store.  A commit overwrites the current records in place, copies
what it supersedes aside as history, drops the history that left the window, and moves the
checkpoint, all in one batch.  A snapshot is a height: it answers from the current record if
that is not newer, and otherwise from the history.

The database is an ordered store of byte strings.  Block and transaction numbers are below
2^64 and versions do not overflow; the functions here do not check it.
-/

namespace Storage

open Blocks BigEndian

abbrev Database := OrderedStore Bytes Bytes

abbrev Batch := List (OrderedStore.Change Bytes Bytes)

/-- `NewIterator`: the entries under a prefix, from `start` on. -/
def newIterator (db : Database) (front start : Bytes) : List (Bytes × Bytes) :=
  db.scan (front ++ start) front.isPrefixOf

/-- `PebbleKVS`: the database and what is kept in memory about it.  `openReaders` has the
number of live readers of each height that has any. -/
structure PebbleKVS where
  db : Database
  historySize : Nat
  currentBlock : Nat
  hasCheckpoint : Bool
  oldestRetained : Nat
  openReaders : List (Nat × Nat)

/-! ## Opening -/

/-- `readMeta`: a stored number, and whether there is one. -/
def readMeta (db : Database) (key : Bytes) : Except PebbleError (Nat × Bool) :=
  match db.get key with
  | none => .ok (0, false)
  | some raw =>
      if raw.length ≠ 8 then .error (.corrupt "meta value") else .ok (decode raw, true)

def defaultHistorySize : Nat := 128

/-- `NewPebbleKVS` on the database of a directory. -/
def PebbleKVS.new (db : Database) (historySize : Int) : Except PebbleError PebbleKVS := do
  let historySize := if historySize ≤ 0 then defaultHistorySize else historySize.toNat
  let (block, found) ← readMeta db metaBlockKey
  let (oldest, _) ← readMeta db metaOldestKey
  return { db, historySize, currentBlock := block, hasCheckpoint := found
           oldestRetained := oldest, openReaders := [] }

/-! ## Committing a block -/

/-- Why a block was not applied. -/
inductive CommitError where
  /-- `failed to read current record` or `stored record`. -/
  | read (key : Bytes) (err : PebbleError)
  | index (err : PebbleError)
  | missingWrite (key : Bytes) (blockNum : Nat)
  | conflictingWrite (key : Bytes) (blockNum : Nat) (existingDelete : Bool) (existingTx : Bytes)
      (replayedDelete : Bool) (replayedTx : Bytes)
deriving DecidableEq, Repr

/-- `currentRecord`: the record of a key and the bytes it came from. -/
def currentRecord (db : Database) (fullKey : Bytes) :
    Except PebbleError (Option (ValueVersion × Bytes)) :=
  match db.get (dataKey fullKey) with
  | none => .ok none
  | some raw =>
      match decodeRecord raw with
      | .ok r => .ok (some (r, raw))
      | .error err => .error err

/-- `stageHistory`. -/
def stageHistory (blockNum : Nat) (fullKey : Bytes) (prev : ValueVersion) (raw : Bytes) : Batch :=
  let histKey := historyKey fullKey prev.blockNum prev.txNum
  [.put histKey raw, .put (indexKey blockNum histKey) []]

/-- The staged changes, and the next version of each key written so far. -/
structure Staged where
  nextVersion : Bytes → Option Nat := fun _ => none
  batch : Batch := []

/-- One write of a block. -/
def stageWrite (acc : Staged) (u : KeyValueVersion) (version : Nat) (history : Batch) : Staged where
  nextVersion := Function.update acc.nextVersion u.key (some (version + 1))
  batch := acc.batch ++ history ++ [.put (dataKey u.key) (encodeRecord (u.at version))]

/-- The body of the loop over the updates.  The first write of a key in the block takes its
version from the committed record and retains that; later ones only count up. -/
def stageUpdate (db : Database) (blockNum : Nat) (acc : Staged) (u : KeyValueVersion) :
    Except CommitError Staged :=
  match acc.nextVersion u.key with
  | some version => .ok (stageWrite acc u version [])
  | none =>
      match currentRecord db u.key with
      | .error err => .error (.read u.key err)
      | .ok none => .ok (stageWrite acc u 0 [])
      | .ok (some (prev, raw)) =>
          .ok (stageWrite acc u (prev.version + 1) (stageHistory blockNum u.key prev raw))

/-- `lowestPinnedLocked`. -/
def lowestPinned (openReaders : List (Nat × Nat)) : Nat :=
  openReaders.foldl (fun lowest r => if r.1 < lowest then r.1 else lowest) (2 ^ 64 - 1)

/-- The loop of `pruneLocked` over the index. -/
def pruneIndex (cutoff : Nat) : List (Bytes × Bytes) → Except CommitError Batch
  | [] => .ok []
  | (key, _) :: entries =>
      match parseIndexKey key with
      | .error err => .error (.index err)
      | .ok (block, histKey) =>
          if cutoff < block then .ok []
          else do
            let rest ← pruneIndex cutoff entries
            return .delete histKey :: .delete key :: rest

namespace PebbleKVS

/-- The highest superseding block whose history goes. -/
def cutoff (p : PebbleKVS) (blockNum : Nat) : Nat :=
  let cutoff := blockNum - p.historySize - 1
  if lowestPinned p.openReaders < cutoff then lowestPinned p.openReaders else cutoff

/-- `pruneLocked`: what to delete, and the new oldest block, or 0. -/
def pruneLocked (p : PebbleKVS) (blockNum : Nat) : Except CommitError (Batch × Nat) :=
  if blockNum < p.historySize + 1 then .ok ([], 0)
  else do
    let deletes ← pruneIndex (p.cutoff blockNum) (newIterator p.db [prefixIndex] [])
    let oldest := p.cutoff blockNum + 1
    if oldest ≤ p.oldestRetained then return (deletes, 0)
    else return (deletes ++ [.put metaOldestKey (u64be oldest)], oldest)

/-- One key of `verifyTipReplay`. -/
def verifyTipKey (p : PebbleKVS) (u : KeyValueVersion) : Except CommitError Unit :=
  match currentRecord p.db u.key with
  | .error err => .error (.read u.key err)
  | .ok none => .error (.missingWrite u.key u.blockNum)
  | .ok (some (stored, _)) =>
      if stored.blockNum ≠ u.blockNum then .error (.missingWrite u.key u.blockNum)
      else if stored.isDelete ≠ u.isDelete ∨ stored.value.getD [] ≠ u.value.getD [] ∨
          stored.txID ≠ u.txID then
        .error (.conflictingWrite u.key u.blockNum stored.isDelete stored.txID u.isDelete u.txID)
      else .ok ()

/-- `verifyTipReplay`.  Go visits the keys in no particular order; this is one of the
orders. -/
def verifyTipReplay (p : PebbleKVS) (updates : List KeyValueVersion) : Except CommitError Unit :=
  (updates.foldl (fun final u => ListMap.upsert KeyValueVersion.key u final) []).forM
    p.verifyTipKey

/-- A block past the checkpoint. -/
def applyBlock (p : PebbleKVS) (blockNum : Nat) (updates : List KeyValueVersion) :
    Except CommitError PebbleKVS := do
  let staged ← updates.foldlM (stageUpdate p.db blockNum) {}
  let (deletes, oldest) ← p.pruneLocked blockNum
  return { p with
    db := p.db.write (staged.batch ++ deletes ++ [.put metaBlockKey (u64be blockNum)])
    currentBlock := blockNum
    hasCheckpoint := true
    oldestRetained := if 0 < oldest then oldest else p.oldestRetained }

/-- `commitBlock`. -/
def commitBlock (p : PebbleKVS) (blockNum : Nat) (updates : List KeyValueVersion) :
    Except CommitError PebbleKVS :=
  if p.hasCheckpoint && blockNum ≤ p.currentBlock then
    if blockNum < p.currentBlock then .ok p
    else do
      p.verifyTipReplay updates
      return p
  else p.applyBlock blockNum updates

/-- `PebbleKVS.Handle`. -/
def handle (p : PebbleKVS) (b : Block) : Except CommitError PebbleKVS :=
  p.commitBlock b.number (blockUpdates b)

/-- `BlockNumber`. -/
def blockNumber (p : PebbleKVS) : Nat := p.currentBlock

end PebbleKVS

/-! ## Snapshots -/

/-- `pebbleSnapshot`; its database and owner are those it was opened on. -/
structure PebbleSnapshot where
  lastBlock : Nat
  closed : Bool := false
deriving DecidableEq, Repr

/-- Why there is no snapshot of a height. -/
inductive PebbleSnapshotError where
  /-- `snapshot not found for block number %d (retained history starts at %d, head is %d)`. -/
  | notFound (blockNumber oldest head : Nat)
deriving DecidableEq, Repr

/-- The number of readers of a height. -/
def readersAt (openReaders : List (Nat × Nat)) (bn : Nat) : Nat :=
  ((openReaders.find? fun r => r.1 = bn).map Prod.snd).getD 0

/-- The height a snapshot is pinned to: the tip, unless an earlier block is asked for. -/
def pinnedHeight (head : Nat) : Option Nat → Nat
  | some n => if n < head then n else head
  | none => head

namespace PebbleKVS

/-- `releaseReader`. -/
def releaseReader (p : PebbleKVS) (bn : Nat) : PebbleKVS :=
  let n := readersAt p.openReaders bn
  { p with
    openReaders :=
      if 1 < n then ListMap.upsert Prod.fst (bn, n - 1) p.openReaders
      else p.openReaders.filter fun r => r.1 ≠ bn }

/-- `NewSnapshot`. -/
def newSnapshot (p : PebbleKVS) (blockNumber : Option Nat) :
    Except PebbleSnapshotError (PebbleKVS × PebbleSnapshot) :=
  let head := p.currentBlock
  let bn := pinnedHeight head blockNumber
  if bn < p.oldestRetained then .error (.notFound bn p.oldestRetained head)
  else .ok ({ p with
    openReaders := ListMap.upsert Prod.fst (bn, readersAt p.openReaders bn + 1) p.openReaders },
    { lastBlock := bn })

end PebbleKVS

/-- Why a read failed. -/
inductive GetError where
  | readerClosed
  | store (err : PebbleError)
deriving DecidableEq, Repr

/-- A stored record under the name it was asked for. -/
def ValueVersion.under (r : ValueVersion) (ns key : Bytes) : WriteRecord where
  ns := ns
  key := key
  blockNum := r.blockNum
  txNum := r.txNum
  version := r.version
  value := r.value
  isDelete := r.isDelete
  txID := r.txID

namespace PebbleSnapshot

/-- The first part of `Get`: the current record, if the snapshot may see it. -/
def getCurrent (s : PebbleSnapshot) (db : Database) (ns key : Bytes) :
    Except GetError (Option WriteRecord) :=
  if s.closed then .error .readerClosed
  else
    match currentRecord db (fullKey ns key) with
    | .error err => .error (.store err)
    | .ok none => .ok none
    | .ok (some (rec, _)) =>
        if rec.blockNum ≤ s.lastBlock then .ok (some (rec.under ns key)) else .ok none

/-- The second part of `Get`: the newest history entry that is not after the snapshot. -/
def getHistory (s : PebbleSnapshot) (db : Database) (ns key : Bytes) :
    Except GetError (Option WriteRecord) :=
  match (newIterator db (historyPrefix (fullKey ns key)) (u64be (not64 s.lastBlock))).head? with
  | none => .ok none
  | some (_, raw) =>
      match decodeRecord raw with
      | .error err => .error (.store err)
      | .ok rec => .ok (some (rec.under ns key))

/-- `Get`, whose two parts may see different states of the database. -/
def getAcross (s : PebbleSnapshot) (db db' : Database) (ns key : Bytes) :
    Except GetError (Option WriteRecord) := do
  match ← s.getCurrent db ns key with
  | some rec => return some rec
  | none => s.getHistory db' ns key

end PebbleSnapshot

/-- `pebbleSnapshot.Close`: only the first call releases the reader. -/
def PebbleKVS.closeSnapshot (p : PebbleKVS) (s : PebbleSnapshot) : PebbleKVS × PebbleSnapshot :=
  if s.closed then (p, s) else (p.releaseReader s.lastBlock, { s with closed := true })

end Storage

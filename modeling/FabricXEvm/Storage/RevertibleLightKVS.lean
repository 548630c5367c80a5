import FabricXEvm.Storage.LightKVS

/-!
# RevertibleLightKVS

The in-memory store with rollback.  It embeds a `LightKVS` and keeps its history as a list,
oldest first, in the slots before `nextIndex`; once they are all taken the oldest snapshot
is forgotten.

`revertToBlock` makes the state of an earlier snapshot current again, but under the version
info of the current records: the ledger is not rewound, and later writes have to count on
from it.  A key that the earlier snapshot does not have becomes a tombstone.
-/

namespace Storage

open Blocks

/-- `RevertibleLightKVS`, with the fields of the `LightKVS` in it. -/
structure RevertibleLightKVS where
  current : Snapshot
  history : List (Option Snapshot)
  nextIndex : Nat

/-- What a scan of the history finds for a height: the last snapshot of that number, and
the latest before it, with their slots. -/
structure Scan where
  exact : Option (Snapshot × Nat) := none
  best : Option (Snapshot × Nat) := none

/-- The body of the loop over the history. -/
def Scan.visit (bn : Nat) (acc : Scan) (slot : Option Snapshot × Nat) : Scan :=
  match slot.1 with
  | none => acc
  | some snap =>
      if snap.blockNumber = bn then { acc with exact := some (snap, slot.2) }
      else if snap.blockNumber < bn ∧ acc.best.all (·.1.blockNumber < snap.blockNumber) then
        { acc with best := some (snap, slot.2) }
      else acc

/-- The loop of `NewSnapshot` and of `RevertToBlock`. -/
def scanHistory (history : List (Option Snapshot)) (bn : Nat) : Scan :=
  history.zipIdx.foldl (Scan.visit bn) {}

/-- `cannot revert: snapshot not found for block number %d`. -/
inductive RevertError where
  | notFound (blockNumber : Nat)
deriving DecidableEq, Repr

/-- The data of a revert: the values and delete flags of the target under the version info
of the current records. -/
def mergedData (current target : Data) : Data := fun key =>
  (current key).map fun currentValue =>
    match target key with
    | some targetValue =>
        { currentValue with value := targetValue.value, isDelete := targetValue.isDelete }
    | none => { currentValue with value := none, isDelete := true }

namespace RevertibleLightKVS

/-- `NewRevertibleLightKVS(NewLightKVS(historySize))`. -/
def new (historySize : Nat) : RevertibleLightKVS where
  current := { blockNumber := 0, data := fun _ => none, placeholder := true }
  history := List.replicate historySize none
  nextIndex := 0

/-- `NewSnapshot`: `none` is the tip; a height below it is read from its own snapshot or the
nearest older one. -/
def newSnapshot (kvs : RevertibleLightKVS) : Option Nat → Except SnapshotError Reader
  | none => .ok ⟨some kvs.current⟩
  | some bn =>
      if kvs.current.blockNumber ≤ bn then .ok ⟨some kvs.current⟩
      else
        let found := scanHistory kvs.history bn
        match found.exact, found.best with
        | some (exact, _), _ => .ok ⟨some exact⟩
        | none, some (best, _) => .ok ⟨some best⟩
        | none, none => .error (.notFound bn)

/-- `applyBlockSequential`.  Without slots no history is kept; a full history is shifted by
one slot. -/
def applyBlockSequential (kvs : RevertibleLightKVS) (blockNum : Nat)
    (updates : List KeyValueVersion) : RevertibleLightKVS :=
  let current : Snapshot :=
    { blockNumber := blockNum, data := applyUpdates kvs.current.data updates }
  let count := kvs.nextIndex
  if kvs.history.length = 0 then { kvs with current }
  else if count = kvs.history.length then
    { current, history := kvs.history.tail ++ [some kvs.current], nextIndex := count % 2 ^ 32 }
  else
    { current, history := kvs.history.set count (some kvs.current)
      nextIndex := (count + 1) % 2 ^ 32 }

/-- `RevertibleLightKVS.Handle`, whose guard is that of `LightKVS.Handle`. -/
def handle (kvs : RevertibleLightKVS) (b : Block) : Except ReplayError RevertibleLightKVS :=
  replayGuard kvs.current b kvs (kvs.applyBlockSequential b.number (blockUpdates b))

/-- `RevertToBlock`.  An older snapshot stands in for a number before the tip that has
none. -/
def revertToBlock (kvs : RevertibleLightKVS) (blockNumber : Nat) :
    Except RevertError RevertibleLightKVS :=
  if kvs.current.blockNumber = blockNumber then .ok kvs
  else
    let found := scanHistory kvs.history blockNumber
    let target :=
      if found.exact.isNone && blockNumber < kvs.current.blockNumber then found.best
      else found.exact
    match target with
    | none => .error (.notFound blockNumber)
    | some (targetSnapshot, targetIndex) => .ok
        { current := { blockNumber, data := mergedData kvs.current.data targetSnapshot.data }
          history := kvs.history.mapIdx fun i slot =>
            if targetIndex ≤ i ∧ i < kvs.nextIndex then none else slot
          nextIndex := targetIndex }

/-- `BlockNumber`, promoted from the `LightKVS`. -/
def blockNumber (kvs : RevertibleLightKVS) : Nat := kvs.current.blockNumber

/-- The tip after a block. -/
theorem current_applyBlockSequential (kvs : RevertibleLightKVS) (blockNum : Nat)
    (updates : List KeyValueVersion) :
    (kvs.applyBlockSequential blockNum updates).current =
      { blockNumber := blockNum, data := applyUpdates kvs.current.data updates } := by
  unfold applyBlockSequential
  dsimp only
  split
  · rfl
  · split
    · rfl
    · rfl

end RevertibleLightKVS

end Storage

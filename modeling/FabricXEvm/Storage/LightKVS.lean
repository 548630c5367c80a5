import FabricXEvm.Execution.StateDB

/-!
# LightKVS

The endorser's in-memory store: the current snapshot and a ring of earlier ones.  A block
replaces the current snapshot by one with the block's valid writes applied.  Every write
of a key takes the key's previous version plus one; a delete is kept as a tombstone, so
that the count survives it.

`applyUpdates` computes the versions of a whole block with a side table.
`applyUpdates_eq_foldl` says that this is the same as putting the writes one by one.
-/

namespace Storage

open Blocks

/-- `ValueVersion`. -/
structure ValueVersion where
  value : Option Bytes
  blockNum : Nat
  txNum : Nat
  version : Nat
  txID : Bytes
  isDelete : Bool
deriving DecidableEq, Repr

abbrev Data := Bytes → Option ValueVersion

/-- `Snapshot`.  Only the store of `newLightKVS` has a placeholder, which is not a commit of
block 0. -/
structure Snapshot where
  blockNumber : Nat
  data : Data
  placeholder : Bool := false

/-- `LightKVS`, with the ring of earlier snapshots.  The index wraps at the length as a
`uint32`.  The Go code panics at the first block if that is zero, as for an empty ring; the
factory always makes one slot or more. -/
structure LightKVS where
  current : Snapshot
  history : List (Option Snapshot)
  nextIndex : Nat
  inRange : nextIndex < history.length % 2 ^ 32

/-- `KeyValueVersion`, an update under its full key. -/
structure KeyValueVersion where
  key : Bytes
  value : Option Bytes
  blockNum : Nat
  txNum : Nat
  txID : Bytes
  isDelete : Bool
deriving DecidableEq, Repr

/-- The key of a record in the store. -/
def fullKey (ns key : Bytes) : Bytes := ns ++ ascii ":" ++ key

theorem fullKey_inj {ns key key' : Bytes} (h : fullKey ns key = fullKey ns key') : key = key' :=
  List.append_cancel_left h

/-- Why there is no reader for a height. -/
inductive SnapshotError where
  /-- `snapshot not found for block number %d`. -/
  | notFound (blockNumber : Nat)
deriving DecidableEq, Repr

/-- `Reader`; closing it drops the snapshot. -/
structure Reader where
  snapshot : Option Snapshot

/-- The record of a key in some data. -/
def record (data : Data) (ns key : Bytes) : Option WriteRecord :=
  (data (fullKey ns key)).map fun vv =>
    { ns, key, blockNum := vv.blockNum, txNum := vv.txNum, version := vv.version
      value := vv.value, isDelete := vv.isDelete, txID := vv.txID }

/-- `Reader.Get`. -/
def Reader.get (r : Reader) : Execution.ReadStore := fun ns key =>
  match r.snapshot with
  | none => .error "reader is closed"
  | some snapshot => .ok (record snapshot.data ns key)

/-! ## Applying a block -/

/-- `applyUpdates`.  `nextVersion` has the version of the next write of each key already
written in this batch. -/
def applyUpdates (oldData : Data) (updates : List KeyValueVersion) : Data :=
  (updates.foldl
    (fun (acc : (Bytes → Option Nat) × Data) update =>
      let version := match acc.1 update.key with
        | some version => version
        | none =>
            match oldData update.key with
            | some existing => existing.version + 1
            | none => 0
      (Function.update acc.1 update.key (some (version + 1)),
        Function.update acc.2 update.key (some
          { value := update.value, blockNum := update.blockNum, txNum := update.txNum
            version, txID := update.txID, isDelete := update.isDelete })))
    (fun _ => none, oldData)).2

/-- `collectWrites`: the writes of one transaction, none if it is not valid. -/
def collectWrites (nsrwsList : List NsReadWriteSet) (blockNum txNum : Nat) (txID : Bytes)
    (valid : Bool) : List KeyValueVersion :=
  if valid then
    nsrwsList.flatMap fun nsrws => nsrws.rws.writes.map fun w =>
      { key := fullKey nsrws.ns w.key, value := w.value, blockNum, txNum, txID
        isDelete := w.isDelete }
  else []

/-- The updates of a block, in order. -/
def blockUpdates (b : Block) : List KeyValueVersion :=
  b.transactions.flatMap fun tx =>
    collectWrites tx.nsRWS b.number (uint64OfInt tx.number) tx.id tx.valid

/-- What `verifyReplay` reports. -/
inductive ReplayError where
  | nothingStored (key : Bytes) (blockNum : Nat) (replayedDelete : Bool)
  | deleteMismatch (key : Bytes) (blockNum : Nat) (replayedDelete : Bool)
  | txMismatch (key : Bytes) (blockNum : Nat) (storedBy replayedBy : Bytes)
  | valueMismatch (key : Bytes) (blockNum storedLen replayedLen : Nat) (txID : Bytes)
deriving DecidableEq, Repr

/-- One key of `verifyReplay`. -/
def verifyKey (current : Snapshot) (u : KeyValueVersion) : Except ReplayError Unit :=
  match current.data u.key with
  | none => .error (.nothingStored u.key u.blockNum u.isDelete)
  | some existing =>
      if existing.isDelete ≠ u.isDelete then
        .error (.deleteMismatch u.key u.blockNum u.isDelete)
      else if existing.txID ≠ u.txID then
        .error (.txMismatch u.key u.blockNum existing.txID u.txID)
      else if !u.isDelete && existing.value.getD [] ≠ u.value.getD [] then
        .error (.valueMismatch u.key u.blockNum (existing.value.getD []).length
          (u.value.getD []).length u.txID)
      else .ok ()

/-- `verifyReplay`.  Go visits the keys in no particular order; this is one of the orders. -/
def verifyReplay (current : Snapshot) (updates : List KeyValueVersion) :
    Except ReplayError Unit :=
  (updates.foldl (fun final u => ListMap.upsert KeyValueVersion.key u final) []).forM
    (verifyKey current)

namespace LightKVS

/-- `NewLightKVS`. -/
def new (historySize : Nat) (h : 0 < historySize % 2 ^ 32) : LightKVS where
  current := { blockNumber := 0, data := fun _ => none, placeholder := true }
  history := List.replicate historySize none
  nextIndex := 0
  inRange := by rwa [List.length_replicate]

/-- `NewSnapshot`: `none` is the tip, and a height that is neither at the tip nor in the
ring is an error. -/
def newSnapshot (kvs : LightKVS) : Option Nat → Except SnapshotError Reader
  | none => .ok ⟨some kvs.current⟩
  | some bn =>
      if kvs.current.blockNumber ≤ bn then .ok ⟨some kvs.current⟩
      else
        match kvs.history.find? fun s => s.any (·.blockNumber == bn) with
        | some (some snapshot) => .ok ⟨some snapshot⟩
        | _ => .error (.notFound bn)

/-- `LightKVS.Get`. -/
def get (kvs : LightKVS) : Execution.ReadStore := Reader.get ⟨some kvs.current⟩

/-- `applyBlock`. -/
def applyBlock (kvs : LightKVS) (blockNum : Nat) (updates : List KeyValueVersion) : LightKVS where
  current := { blockNumber := blockNum, data := applyUpdates kvs.current.data updates }
  history := kvs.history.set kvs.nextIndex (some kvs.current)
  nextIndex := (kvs.nextIndex + 1) % (kvs.history.length % 2 ^ 32)
  inRange := by
    rw [List.length_set]
    exact Nat.mod_lt _ (Nat.lt_of_le_of_lt (Nat.zero_le _) kvs.inRange)

/-- `LightKVS.Handle`. -/
def handle (kvs : LightKVS) (b : Block) : Except ReplayError LightKVS :=
  if !kvs.current.placeholder && b.number < kvs.current.blockNumber then .ok kvs
  else if !kvs.current.placeholder && b.number == kvs.current.blockNumber then do
    verifyReplay kvs.current (blockUpdates b)
    return kvs
  else .ok (kvs.applyBlock b.number (blockUpdates b))

/-- `BlockNumber`. -/
def blockNumber (kvs : LightKVS) : Nat := kvs.current.blockNumber

end LightKVS

/-! ## Writes one by one -/

/-- The version of the next write of a key. -/
def nextVersion (data : Data) (key : Bytes) : Nat :=
  match data key with
  | some existing => existing.version + 1
  | none => 0

/-- What an update stores, at a version. -/
def KeyValueVersion.at (u : KeyValueVersion) (version : Nat) : ValueVersion where
  value := u.value
  blockNum := u.blockNum
  txNum := u.txNum
  version := version
  txID := u.txID
  isDelete := u.isDelete

/-- Put one write, at the key's next version. -/
def put (data : Data) (u : KeyValueVersion) : Data :=
  Function.update data u.key (some (u.at (nextVersion data u.key)))

theorem put_self (data : Data) (u : KeyValueVersion) :
    put data u u.key = some (u.at (nextVersion data u.key)) :=
  Function.update_self _ _ _

theorem put_of_ne (data : Data) {u : KeyValueVersion} {key : Bytes} (h : key ≠ u.key) :
    put data u key = data key :=
  Function.update_of_ne h _ _

/-- The side table has the version after the stored one for the keys written so far, and
the other keys are as they were. -/
def TableOk (oldData : Data) (acc : (Bytes → Option Nat) × Data) : Prop :=
  ∀ key, match acc.1 key with
    | some version => nextVersion acc.2 key = version
    | none => acc.2 key = oldData key

/-- Versions from the side table are the versions of writes put one by one. -/
theorem applyUpdates_eq_foldl (oldData : Data) (updates : List KeyValueVersion) :
    applyUpdates oldData updates = updates.foldl put oldData := by
  suffices h : ∀ acc, TableOk oldData acc →
      (updates.foldl _ acc).2 = updates.foldl put acc.2 from
    h (fun _ => none, oldData) fun _ => rfl
  induction updates with
  | nil => exact fun acc _ => rfl
  | cons u us ih =>
      intro acc hacc
      have hversion : (match acc.1 u.key with
          | some version => version
          | none => nextVersion oldData u.key) = nextVersion acc.2 u.key := by
        have hkey := hacc u.key
        cases htab : acc.1 u.key with
        | some version =>
            rw [htab] at hkey
            exact hkey.symm
        | none =>
            rw [htab] at hkey
            simp only [nextVersion, hkey]
      rw [List.foldl_cons, List.foldl_cons, ih]
      · congr 1
        change Function.update acc.2 u.key (some (u.at _)) = put acc.2 u
        rw [put, ← hversion]
        rfl
      · intro key
        by_cases hk : key = u.key
        · subst hk
          simp [nextVersion]
        · have := hacc key
          simpa [hk, nextVersion] using this

/-! ## Writes of distinct keys -/

theorem foldl_put_of_notMem (data : Data) {us : List KeyValueVersion} {key : Bytes}
    (h : key ∉ us.map KeyValueVersion.key) : us.foldl put data key = data key := by
  induction us generalizing data with
  | nil => rfl
  | cons u us ih =>
      rw [List.map_cons, List.mem_cons, not_or] at h
      rw [List.foldl_cons, ih _ h.2, put_of_ne _ h.1]

theorem foldl_put_of_mem (data : Data) {us : List KeyValueVersion}
    (hnodup : (us.map KeyValueVersion.key).Nodup) {u : KeyValueVersion} (hu : u ∈ us) :
    us.foldl put data u.key = some (u.at (nextVersion data u.key)) := by
  induction us generalizing data with
  | nil => cases hu
  | cons v us ih =>
      rw [List.map_cons, List.nodup_cons] at hnodup
      rw [List.foldl_cons]
      rcases List.mem_cons.mp hu with rfl | hu
      · rw [foldl_put_of_notMem _ hnodup.1, put_self]
      · have hne : u.key ≠ v.key := fun h => hnodup.1 (h ▸ List.mem_map_of_mem hu)
        rw [ih _ hnodup.2 hu]
        simp only [nextVersion, put_of_ne _ hne]

/-- A key is written by one of the updates, or left alone. -/
theorem foldl_put_cases (data : Data) {us : List KeyValueVersion}
    (hnodup : (us.map KeyValueVersion.key).Nodup) (key : Bytes) :
    (∃ u ∈ us, u.key = key ∧ us.foldl put data key = some (u.at (nextVersion data key))) ∨
      us.foldl put data key = data key := by
  by_cases hmem : key ∈ us.map KeyValueVersion.key
  · obtain ⟨u, hu, rfl⟩ := List.mem_map.mp hmem
    exact .inl ⟨u, hu, rfl, foldl_put_of_mem data hnodup hu⟩
  · exact .inr (foldl_put_of_notMem data hmem)

/-! ## The replay guard -/

/-- The guard of `Handle` in the in-memory stores: older blocks are skipped, a redelivered
tip is verified, and `next` is the store with the block applied. -/
def replayGuard {σ : Type} (current : Snapshot) (b : Block) (kvs next : σ) : Except ReplayError σ :=
  if !current.placeholder && b.number < current.blockNumber then .ok kvs
  else if !current.placeholder && b.number == current.blockNumber then do
    verifyReplay current (blockUpdates b)
    return kvs
  else .ok next

/-- The block is past the tip. -/
def Snapshot.Past (current : Snapshot) (b : Block) : Prop :=
  current.placeholder = true ∨ current.blockNumber < b.number

section Guard

variable {σ : Type} {current : Snapshot} {b : Block} {kvs next : σ}

theorem replayGuard_next (h : current.Past b) : replayGuard current b kvs next = .ok next := by
  unfold replayGuard
  rcases h with h | h
  · simp [h]
  · have h₁ : ¬ b.number < current.blockNumber := by omega
    have h₂ : ¬ b.number = current.blockNumber := by omega
    simp [h₁, h₂]

/-- A redelivery of the tip is verified. -/
theorem replayGuard_tip (h : ¬ current.Past b) (htip : b.number = current.blockNumber) :
    replayGuard current b kvs next =
      (do verifyReplay current (blockUpdates b); return kvs) := by
  rw [Snapshot.Past, not_or, Bool.not_eq_true] at h
  unfold replayGuard
  rw [h.1, if_neg (by simp [htip]), if_pos (by simp [htip])]

/-- A block that is not past the tip changes nothing. -/
theorem replayGuard_skip (h : ¬ current.Past b) {kvs' : σ}
    (hok : replayGuard current b kvs next = .ok kvs') : kvs' = kvs := by
  by_cases htip : b.number = current.blockNumber
  · rw [replayGuard_tip h htip] at hok
    cases hv : verifyReplay current (blockUpdates b) with
    | error err =>
        rw [hv] at hok
        cases hok
    | ok _ =>
        rw [hv] at hok
        exact (Except.ok.inj hok).symm
  · rw [Snapshot.Past, not_or, Bool.not_eq_true] at h
    unfold replayGuard at hok
    rw [h.1, if_pos (by simp; omega)] at hok
    exact (Except.ok.inj hok).symm

end Guard

theorem LightKVS.handle_eq (kvs : LightKVS) (b : Block) :
    kvs.handle b =
      replayGuard kvs.current b kvs (kvs.applyBlock b.number (blockUpdates b)) := rfl

/-- A block past the tip is applied. -/
theorem LightKVS.handle_next {kvs : LightKVS} {b : Block} (h : kvs.current.Past b) :
    kvs.handle b = .ok (kvs.applyBlock b.number (blockUpdates b)) :=
  (kvs.handle_eq b).trans (replayGuard_next h)

end Storage

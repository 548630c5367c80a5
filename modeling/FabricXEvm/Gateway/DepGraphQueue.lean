import FabricXEvm.Events
import FabricXEvm.Execution.Keys
import FabricXEvm.Gateway.Chain
import FabricXEvm.Lib.RecentWrites

/-!
# The dependency-graph queue

`DepGraphQueue` endorses every transaction for its read-write set, hands the set to the
committer's dependency manager, and serves what the manager releases as clash free.  Each
method is a function here, since each runs under the queue's lock.  What a method sends on
the `validated` channel after it let go of the lock is its second result.

The manager knows a transaction by the hex of its hash (`txRefID`), and the queue reads
the hash back when a node is released (`hashFromTxRefID`).

The logs and metrics are left out.  `DebugPanic` does nothing outside debug builds.  The
counter of blocks is a natural number: no run of the gateway handles 2^64 blocks.
-/

open Blocks Common

namespace Gateway

/-- What an `Enqueue` may report. -/
inductive QueueError where
  /-- `transaction already pending`. -/
  | alreadyPending
  /-- `transaction queue is full`. -/
  | full
  /-- `transaction queue is closed`. -/
  | closed
deriving DecidableEq, Repr

/-- The hashes of a block, as `Handle` computes them. -/
def blockHashes (block : Domain.Block) : List Bytes :=
  block.transactions.map fun tx => bytesToHash tx.txHash

/-! ## References -/

/-- `hex.EncodeToString`. -/
def hexEncode (b : Bytes) : Bytes :=
  b.flatMap fun c => [Execution.hexByte (c.toNat / 16), Execution.hexByte (c.toNat % 16)]

theorem decodeString_hexEncode (b : Bytes) : Execution.decodeString (hexEncode b) = (b, true) := by
  induction b with
  | nil => rfl
  | cons c b ih =>
      have hc := c.toNat_lt
      have hhi := Execution.fromHexChar_hexByte (d := c.toNat / 16) (by omega)
      have hlo := Execution.fromHexChar_hexByte (d := c.toNat % 16) (by omega)
      change Execution.decodeString (_ :: _ :: hexEncode b) = _
      rw [Execution.decodeString, hhi, hlo, ih]
      simp [Nat.div_add_mod]

theorem length_hexEncode (b : Bytes) : (hexEncode b).length = 2 * b.length := by
  induction b with
  | nil => rfl
  | cons c b ih =>
      change (hexEncode b).length + 2 = _
      rw [ih, List.length_cons]
      omega

/-- The id the manager knows a transaction by. -/
def txRefID (hash : Bytes) : Bytes := ascii "0x" ++ hexEncode hash

/-- The hash an id stands for, if the queue made it. -/
def hashFromTxRefID (id : Bytes) : Option Bytes :=
  if id.length ≠ 2 + 2 * 32 ∨ id.take 2 ≠ ascii "0x" then none
  else
    let (b, ok) := Execution.decodeString (id.drop 2)
    if ok then some (bytesToHash b) else none

/-- The manager returns the same bytes, so the hash is found again. -/
theorem hashFromTxRefID_txRefID {hash : Bytes} (h : hash.length = 32) :
    hashFromTxRefID (txRefID hash) = some hash := by
  have hlen : (txRefID hash).length = 2 + 2 * 32 := by
    simp [txRefID, length_hexEncode, ascii, h]
  have htake : (txRefID hash).take 2 = ascii "0x" := rfl
  have hdrop : (txRefID hash).drop 2 = hexEncode hash := rfl
  rw [hashFromTxRefID, if_neg (by simp [hlen, htake]), hdrop, decodeString_hexEncode]
  simp [bytesToHash, h]

/-! ## Read-write sets -/

/-- `applicationpb.TxNamespace`, the keys of its three lists. -/
structure TxNamespace where
  nsId : Bytes
  readsOnly : List Bytes := []
  readWrites : List Bytes := []
  blindWrites : List Bytes := []
deriving DecidableEq, Repr

/-- `applicationpb.Tx`, which `txContent` takes out of an endorsement. -/
abbrev Content := List TxNamespace

def stateKey (ns key : Bytes) : Bytes := ns ++ 0 :: key

/-- The state keys a transaction reads and the ones it writes.  A read-write counts as
both. -/
def readWriteKeys (content : Content) : List Bytes × List Bytes :=
  (content.flatMap fun ns =>
      ns.readsOnly.map (stateKey ns.nsId) ++ ns.readWrites.map (stateKey ns.nsId),
    content.flatMap fun ns =>
      ns.readWrites.map (stateKey ns.nsId) ++ ns.blindWrites.map (stateKey ns.nsId))

/-- `dependencygraph.TransactionNode`.  Nodes are pointers, told apart by `serial`. -/
structure Node where
  serial : Nat
  id : Bytes
  content : Content
deriving DecidableEq, Repr

/-! ## The queue -/

/-- `trackedTx`, one transaction between `Enqueue` and `Complete`. -/
structure TrackedTx (ε : Type) where
  tx : EthTx
  /-- The node the manager released for it. -/
  node : Option Node := none
  /-- `end`, while `endorsed`. -/
  kept : Option ε := none
  readSeq : Nat := 0
  reads : List Bytes := []
  writes : List Bytes := []

/-- How many blocks an endorsement can be reused across. -/
def reuseWindow : Nat := 64

instance : NeZero reuseWindow := ⟨by decide⟩

structure DepGraphQueue (ε : Type) where
  /-- The capacity of the channels. -/
  chanSize : Nat
  admitted : List EthTx := []
  ready : List EthTx := []
  tracked : FinMap Bytes (TrackedTx ε) := ∅
  done : Bool := false
  commitSeq : Nat := 0
  lastWrite : FinMap Bytes Nat := ∅
  recent : Fin reuseWindow → List Bytes := fun _ => []
  total : Nat := 0
  invalid : Nat := 0

namespace DepGraphQueue

variable {ε : Type}

/-- `Enqueue`. -/
def enqueue (q : DepGraphQueue ε) (tx : EthTx) : Except QueueError (DepGraphQueue ε) :=
  if q.done then .error .closed
  else if (q.tracked.lookup tx.hash).isSome then .error .alreadyPending
  else if q.chanSize ≤ q.admitted.length then .error .full
  else .ok
    { q with
      admitted := q.admitted ++ [tx]
      tracked := q.tracked.insert tx.hash { tx } }

/-- `drop` removes a transaction that will never reach the manager. -/
def drop (q : DepGraphQueue ε) (hash : Bytes) : DepGraphQueue ε :=
  { q with tracked := q.tracked.erase hash }

/-- `keepEndorsement`; `seq` is the `commitSeq` it was executed at. -/
def keepEndorsement (q : DepGraphQueue ε) (hash : Bytes) (seq : Nat) (endorsement : ε)
    (content : Content) : DepGraphQueue ε :=
  match q.tracked.lookup hash with
  | none => q
  | some t =>
      { q with
        tracked := q.tracked.insert hash
          { t with
            kept := some endorsement
            readSeq := seq
            reads := (readWriteKeys content).1
            writes := (readWriteKeys content).2 } }

/-- One node of `markReady`: the transaction of a tracked hash is ready, and any other
node is an orphan. -/
def markReadyNode (acc : DepGraphQueue ε × List Node) (node : Node) :
    DepGraphQueue ε × List Node :=
  match hashFromTxRefID node.id with
  | none => (acc.1, acc.2 ++ [node])
  | some hash =>
      match acc.1.tracked.lookup hash with
      | none => (acc.1, acc.2 ++ [node])
      | some t =>
          ({ acc.1 with
              tracked := acc.1.tracked.insert hash { t with node := some node }
              ready := acc.1.ready ++ [t.tx] },
            acc.2)

/-- `markReady`. -/
def markReady (q : DepGraphQueue ε) (nodes : List Node) : DepGraphQueue ε × List Node :=
  nodes.foldl markReadyNode (q, [])

/-- `Dequeue`, `none` while it has to wait. -/
def dequeue (q : DepGraphQueue ε) : Option (EthTx × DepGraphQueue ε) :=
  match q.ready with
  | [] => none
  | tx :: rest => some (tx, { q with ready := rest })

/-- `IsPending`. -/
def isPending (q : DepGraphQueue ε) (hash : Bytes) : Option EthTx :=
  (q.tracked.lookup hash).map TrackedTx.tx

/-- `InFlight`. -/
def inFlight (q : DepGraphQueue ε) : Nat := q.tracked.entries.length

/-- One hash of `takeNodes`. -/
def takeNode (acc : DepGraphQueue ε × List Node) (hash : Bytes) : DepGraphQueue ε × List Node :=
  match acc.1.tracked.lookup hash with
  | none => acc
  | some t => ({ acc.1 with tracked := acc.1.tracked.erase hash }, acc.2 ++ t.node.toList)

/-- `takeNodes` untracks each hash and collects their nodes. -/
def takeNodes (q : DepGraphQueue ε) (hashes : List Bytes) : DepGraphQueue ε × List Node :=
  hashes.foldl takeNode (q, [])

/-- `Complete`. -/
def complete (q : DepGraphQueue ε) (hash : Bytes) : DepGraphQueue ε × List Node :=
  q.takeNodes [hash]

/-- The keys the valid tracked transactions of a block wrote. -/
def committedWrites (q : DepGraphQueue ε) (txs : List Domain.Transaction) : List Bytes :=
  txs.flatMap fun tx =>
    if tx.fabricTxStatus.valid then
      match q.tracked.lookup (bytesToHash tx.txHash) with
      | none => []
      | some t => t.writes
    else []

/-- `recordCommitted`.  The comparison with `seq - reuseWindow` is in `uint64`, where it
fails for the first blocks. -/
def recordCommitted (q : DepGraphQueue ε) (txs : List Domain.Transaction) : DepGraphQueue ε :=
  let seq := q.commitSeq + 1
  let slot := Fin.ofNat reuseWindow seq
  let evicted := (q.recent slot).foldl
    (fun m k => if RecentWrites.lastOf m k + reuseWindow = seq then m.erase k else m)
    q.lastWrite
  let keys := q.committedWrites txs
  { q with
    commitSeq := seq
    lastWrite := keys.foldl (fun m k => m.insert k seq) evicted
    recent := Function.update q.recent slot keys }

/-- `Handle`. -/
def handle (q : DepGraphQueue ε) (block : Domain.Block) : DepGraphQueue ε × List Node :=
  let txs := block.transactions
  if txs.length = 0 then (q, [])
  else
    let counted : DepGraphQueue ε :=
      { q with
        total := q.total + txs.length
        invalid := q.invalid + txs.countP fun tx => tx.status = 0 }
    (counted.recordCommitted txs).takeNodes (txs.map fun tx => bytesToHash tx.txHash)

/-- `ReusableEndorsement` hands over, once, the endorsement kept for a hash. -/
def reusableEndorsement (q : DepGraphQueue ε) (hash : Bytes) : DepGraphQueue ε × Option ε :=
  match q.tracked.lookup hash with
  | none => (q, none)
  | some t =>
      match t.kept with
      | none => (q, none)
      | some endorsement =>
          let q' := { q with tracked := q.tracked.insert hash { t with kept := none } }
          if reuseWindow ≤ q.commitSeq - t.readSeq then (q', none)
          else if t.reads.any fun k => t.readSeq < RecentWrites.lastOf q.lastWrite k then
            (q', none)
          else (q', some endorsement)

end DepGraphQueue

end Gateway

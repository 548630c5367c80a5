import FabricXEvm.Gateway.TxQueue

/-!
# The participant queue

`TxQueueV2` serves transactions that share a participant one after the other.  An entry
that conflicts with a ready or pending one waits for it, and waiting entries wait for a new
one they share a participant with.  `Complete` unlinks an entry and promotes those that
waited for nothing else.

Entries point to each other, so they are in a heap and pointers are numbers.  An entry's
element of a list is its pointer.
-/

open Blocks Common

namespace Gateway

/-! ## Participants -/

/-- What else go-ethereum reads off a transaction. -/
structure TxReader where
  isProtected : EthTx → Bool
  /-- `tx.Type() == types.LegacyTxType`. -/
  isLegacy : EthTx → Bool
  data : EthTx → Bytes

/-- `senderForTx`. -/
def senderForTx (d : Decoders) (r : TxReader) (tx : EthTx) : Option Bytes :=
  if r.isProtected tx = false ∧ r.isLegacy tx then none
  else d.sender (.latestForChainID tx.chainId) tx

/-- `recipientForTx`: the recipient of an ERC-20 transfer. -/
def recipientForTx (r : TxReader) (tx : EthTx) : Option Bytes :=
  if tx.toAddress = none then none
  else if (r.data tx).length < 4 + 32 + 32 then none
  else some (bytesToAddress (((r.data tx).drop (4 + 12)).take 20))

/-- `participantsForTx`. -/
def participantsForTx (d : Decoders) (r : TxReader) (tx : EthTx) : List Bytes :=
  let participants := (senderForTx d r tx).toList
  match recipientForTx r tx with
  | none => participants
  | some recipient =>
      if recipient ∈ participants then participants else participants ++ [recipient]

/-- The address is the sender or the recipient. -/
def Involves (d : Decoders) (r : TxReader) (tx : EthTx) (p : Bytes) : Prop :=
  senderForTx d r tx = some p ∨ recipientForTx r tx = some p

theorem mem_participantsForTx {d : Decoders} {r : TxReader} {tx : EthTx} {p : Bytes} :
    p ∈ participantsForTx d r tx ↔ Involves d r tx p := by
  unfold participantsForTx Involves
  split
  next hnone => simp [hnone]
  next recipient hsome =>
    dsimp only
    split
    next hmem =>
      rw [Option.mem_toList] at hmem
      simp only [Option.mem_toList, hsome, Option.some.injEq]
      constructor
      · exact .inl
      · rintro (hp | rfl)
        · exact hp
        · exact hmem
    next => simp [hsome, eq_comm]

theorem participantsForTx_nodup (d : Decoders) (r : TxReader) (tx : EthTx) :
    (participantsForTx d r tx).Nodup := by
  have hsender : (senderForTx d r tx).toList.Nodup := by
    cases senderForTx d r tx <;> simp
  unfold participantsForTx
  split
  next => exact hsender
  next recipient _ =>
    dsimp only
    split
    next => exact hsender
    next hnew =>
      rw [← List.concat_eq_append]
      exact hsender.concat hnew

/-! ## The queue -/

inductive EntryState where
  | ready
  | waiting
  | pending
deriving DecidableEq, Repr

structure TxEntry where
  tx : EthTx
  txHash : Bytes
  participants : List Bytes
  state : EntryState := .ready
  /-- The entries that wait for this one. -/
  blocks : List Nat := []
  isBlockedBy : List Nat := []

structure TxQueueV2 where
  /-- The heap: the entries made so far have the pointers below `made`. -/
  entries : Nat → TxEntry := fun _ =>
    { tx := { hash := List.replicate 32 0, chainId := 0, toAddress := none, nonce := 0
              hash_length := List.length_replicate }
      txHash := [], participants := [] }
  made : Nat := 0
  readyList : List Nat := []
  waitingList : List Nat := []
  participantMap : FinMap Bytes (List Nat) := ∅
  hashMap : FinMap Bytes Nat := ∅
  pendingMap : FinMap Bytes EthTx := ∅
  total : Nat := 0
  invalid : Nat := 0
  totalEnq : Nat := 0
  conflictEnq : Nat := 0

/-- `removeFromSlice`: the last element takes the place of the one removed. -/
def removeFromSlice (slice : List Nat) (target : Nat) : List Nat :=
  match slice with
  | [] => []
  | item :: rest =>
      if item = target then
        match rest.getLast? with
        | none => []
        | some last => last :: rest.dropLast
      else item :: removeFromSlice rest target

namespace TxQueueV2

/-- A write through a pointer. -/
def update (q : TxQueueV2) (e : Nat) (f : TxEntry → TxEntry) : TxQueueV2 :=
  { q with entries := Function.update q.entries e (f (q.entries e)) }

/-- `w` waits for `b`. -/
def link (q : TxQueueV2) (w b : Nat) : TxQueueV2 :=
  (q.update w fun entry => { entry with isBlockedBy := entry.isBlockedBy ++ [b] }).update b
    fun entry => { entry with blocks := entry.blocks ++ [w] }

/-- The entries that share a participant, as `Enqueue` meets them. -/
def sharing (q : TxQueueV2) (participants : List Bytes) : List Nat :=
  participants.flatMap fun p => (q.participantMap.lookup p).getD []

/-- The entries a new one must wait for, a set in the source. -/
def conflictingTxs (q : TxQueueV2) (participants : List Bytes) : List Nat :=
  ((q.sharing participants).filter fun e => (q.entries e).state ≠ .waiting).dedup

/-- The entries that must wait for a new one. -/
def waitingTxsToBlock (q : TxQueueV2) (participants : List Bytes) : List Nat :=
  (q.sharing participants).filter fun e => (q.entries e).state = .waiting

/-- The links of a new entry: `(w, b)` for an entry `w` that waits for `b`. -/
def newLinks (q : TxQueueV2) (participants : List Bytes) : List (Nat × Nat) :=
  (q.conflictingTxs participants).map (q.made, ·) ++
    (q.waitingTxsToBlock participants).map (·, q.made)

/-- A new entry, in its list and in the maps. -/
def place (q : TxQueueV2) (tx : EthTx) (participants : List Bytes) : TxQueueV2 :=
  let conflicts := 0 < (q.conflictingTxs participants).length
  let e := q.made
  { q with
    entries := Function.update q.entries e
      { tx, txHash := tx.hash, participants, state := if conflicts then .waiting else .ready }
    made := e + 1
    totalEnq := q.totalEnq + 1
    conflictEnq := if conflicts then q.conflictEnq + 1 else q.conflictEnq
    readyList := if conflicts then q.readyList else q.readyList ++ [e]
    waitingList := if conflicts then q.waitingList ++ [e] else q.waitingList
    hashMap := q.hashMap.insert tx.hash e
    participantMap := participants.foldl
      (fun m p => m.insert p ((m.lookup p).getD [] ++ [e])) q.participantMap }

/-- `Enqueue`. -/
def enqueue (d : Decoders) (r : TxReader) (q : TxQueueV2) (tx : EthTx) :
    Except QueueError TxQueueV2 :=
  if (q.hashMap.lookup tx.hash).isSome then .error .alreadyPending
  else
    let participants := participantsForTx d r tx
    .ok ((q.newLinks participants).foldl (fun q p => q.link p.1 p.2) (q.place tx participants))

/-- `Dequeue`, when it does not block. -/
def dequeue (q : TxQueueV2) : Option (EthTx × TxQueueV2) :=
  match q.readyList with
  | [] => none
  | e :: rest =>
      let entry := q.entries e
      some (entry.tx, { q.update e fun entry => { entry with state := .pending } with
        readyList := rest
        pendingMap := q.pendingMap.insert entry.txHash entry.tx })

/-- `w` no longer waits for `e`.  If it waits for nothing, it is promoted. -/
def unblock (e : Nat) (q : TxQueueV2) (w : Nat) : TxQueueV2 :=
  let isBlockedBy := removeFromSlice (q.entries w).isBlockedBy e
  if isBlockedBy.length = 0 then
    { q.update w fun entry => { entry with isBlockedBy, state := .ready } with
      waitingList := q.waitingList.erase w
      readyList := q.readyList ++ [w] }
  else q.update w fun entry => { entry with isBlockedBy }

/-- An entry leaves the list of a participant, and an empty list goes. -/
def leave (e : Nat) (m : FinMap Bytes (List Nat)) (p : Bytes) : FinMap Bytes (List Nat) :=
  match m.lookup p with
  | none => m
  | some txList =>
      let txList := removeFromSlice txList e
      if txList.length = 0 then m.erase p else m.insert p txList

/-- `completeUnlocked`. -/
def complete (q : TxQueueV2) (hash : Bytes) : TxQueueV2 :=
  let q : TxQueueV2 := { q with pendingMap := q.pendingMap.erase hash }
  match q.hashMap.lookup hash with
  | none => q
  | some e =>
      let entry := q.entries e
      { entry.blocks.foldl (unblock e) q with
        hashMap := q.hashMap.erase hash
        participantMap := entry.participants.foldl (leave e) q.participantMap }

/-- `InFlight`. -/
def inFlight (q : TxQueueV2) : Nat := q.hashMap.entries.length

/-- `IsPending`. -/
def isPending (q : TxQueueV2) (hash : Bytes) : Option EthTx :=
  match q.pendingMap.lookup hash with
  | some tx => some tx
  | none => (q.hashMap.lookup hash).map fun e => (q.entries e).tx

/-- One transaction of a handled block. -/
def handleTx (q : TxQueueV2) (tx : Domain.Transaction) : TxQueueV2 :=
  { q.complete (bytesToHash tx.txHash) with
    total := q.total + 1
    invalid := if tx.status = 0 then q.invalid + 1 else q.invalid }

/-- `Handle`. -/
def handle (q : TxQueueV2) (block : Domain.Block) : TxQueueV2 :=
  block.transactions.foldl handleTx q

def interface (d : Decoders) (r : TxReader) : TxQueueInterface TxQueueV2 where
  enqueue := enqueue d r
  dequeue := dequeue
  isPending := isPending
  inFlight := inFlight
  complete := complete
  handle := handle

end TxQueueV2

end Gateway

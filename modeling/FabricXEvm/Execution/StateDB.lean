import FabricXEvm.Execution.AccessList
import FabricXEvm.Lib.Comp
import FabricXEvm.Lib.ListMap

/-!
# The journaled StateDB

`StateDB` implements go-ethereum's `vm.StateDB` over a read-only ledger store.  One
journal records every read of the store, every write, and an undo entry for each change
of the in-memory side state (refund, self-destructed and new contracts, transient
storage, access list).  Reverting a snapshot takes the journal back entry by entry and
truncates it, and `result` folds what is left into a read-write set.

The operations are computations in `DB`: they read the store and the configuration,
thread the mutable state, and stop with a `Panic` where the Go code panics.
-/

namespace Execution

open Blocks

/-- `Log`. -/
structure Log where
  address : Bytes
  topics : List Bytes
  data : Bytes
deriving DecidableEq, Repr

abbrev StoreError := String

/-- `ReadStore.Get`, a store pinned to one block height. -/
abbrev ReadStore := Bytes → Bytes → Except StoreError (Option WriteRecord)

/-- `revision`: a snapshot point in the journal. -/
structure Revision where
  id : Nat
  journalIndex : Nat
  logIndex : Nat
deriving DecidableEq, Repr

/-- The entry types of the journal. -/
inductive JournalEntry where
  /-- A read from the store, which creates an MVCC dependency. -/
  | read (read : KVRead)
  | write (write : KVWrite)
  | refund (prevRefund : UInt64)
  | selfDestruct (addr : Address)
  | newContract (addr : Address)
  | transientStorage (account : Address) (key prevalue : Hash)
  | accessListAddAddress (addr : Address)
  | accessListAddSlot (addr : Address) (slot : Hash)
deriving DecidableEq, Repr

/-- The fields of a `StateDB` that never change: the store it reads, the namespace it
reads in, and how read versions are built. -/
structure Backing where
  keccak : Bytes → Hash
  ns : Bytes
  store : ReadStore
  monotonicVersions : Bool

/-- The mutable fields of a `StateDB`. -/
structure StateDB where
  /-- The journal index of the latest write of a key; `none` is rebuilt on demand. -/
  writeIdx : Option (Bytes → Option Nat)
  logs : List Log
  refund : UInt64
  selfDestructed : Finset Address
  newContracts : Finset Address
  accessList : AccessList
  transientStorage : Address → Option (Hash → Option Hash)
  journal : List JournalEntry
  validRevisions : List Revision
  nextRevisionId : Nat

/-- Where the Go code panics. -/
inductive Panic where
  | getBalanceFailed (err : StoreError)
  | getNonceFailed (err : StoreError)
  | getCodeFailed (err : StoreError)
  | getStateFailed (err : StoreError)
  | getStateAndCommittedStateFailed (err : StoreError)
  | setStateFailed (err : StoreError)
  | refundBelowZero (gas refund : UInt64)
  /-- `binary.BigEndian.Uint64` on a slice shorter than eight bytes. -/
  | indexOutOfRange
  /-- A journal position that does not hold a write entry. -/
  | interfaceConversion
deriving DecidableEq, Repr

/-- A computation on a `StateDB`. -/
abbrev DB := Comp Backing StateDB Panic

namespace StateDB

/-- `NewStateDB`. -/
def new : StateDB where
  writeIdx := none
  logs := []
  refund := 0
  selfDestructed := ∅
  newContracts := ∅
  accessList := .new
  transientStorage := fun _ => none
  journal := []
  validRevisions := []
  nextRevisionId := 0

/-- Append a journal entry. -/
def push (e : JournalEntry) (s : StateDB) : StateDB := { s with journal := s.journal ++ [e] }

/-! ## Internal state query helpers -/

/-- The index `getStateFromJournal` rebuilds: each key's latest write. -/
def buildIndex (journal : List JournalEntry) : Bytes → Option Nat :=
  journal.zipIdx.foldl
    (fun idx p =>
      match p.1 with
      | .write w => Function.update idx w.key (some p.2)
      | _ => idx)
    fun _ => none

/-- `getStateFromJournal`: the latest write of a key, `none` if the journal has none.  A
delete is found with a nil value. -/
def getStateFromJournal (key : Bytes) : DB (Option (Option Bytes)) := do
  Comp.modify fun s => { s with writeIdx := some (s.writeIdx.getD (buildIndex s.journal)) }
  let s ← Comp.get
  match s.writeIdx.bind (· key) with
  | none => return none
  | some i =>
      match s.journal[i]? with
      | some (.write w) => if w.isDelete then return some none else return some w.value
      | _ => Comp.throw .interfaceConversion

/-- The read `getStateFromStore` journals.  A deleted key reads without a version. -/
def readOf (monotonicVersions : Bool) (key : Bytes) : Option WriteRecord → KVRead
  | none => { key }
  | some record =>
      if record.isDelete then { key }
      else if monotonicVersions then { key, version := some { blockNum := record.version } }
      else { key, version := some { blockNum := record.blockNum, txNum := record.txNum } }

/-- `getStateFromStore`: read the store and journal the read. -/
def getStateFromStore (key : Bytes) : DB (Except StoreError (Option Bytes)) := do
  let env ← Comp.ask
  match env.store env.ns key with
  | .error err => return .error err
  | .ok record =>
      Comp.modify (push (.read (readOf env.monotonicVersions key record)))
      return .ok (record.bind (·.value))

/-- `getState` (the unexported one, by key): the journal first, then the store. -/
def getState (key : Bytes) : DB (Except StoreError (Option Bytes)) := do
  match ← getStateFromJournal key with
  | some val => return .ok val
  | none => getStateFromStore key

/-- The write `putState` journals.  An empty value is a delete. -/
def writeOf (key value : Bytes) : KVWrite :=
  if value = [] then { key, isDelete := true } else { key, value := some value }

/-- `putState`: journal a write. -/
def putState (key value : Bytes) (s : StateDB) : StateDB :=
  { s with
    writeIdx := s.writeIdx.map fun idx => Function.update idx key (some s.journal.length)
    journal := s.journal ++ [.write (writeOf key value)] }

/-! ## Accounts -/

def balKey (env : Backing) (addr : Address) : Bytes := accKey env.keccak addr (ascii "bal")
def nonceKey (env : Backing) (addr : Address) : Bytes := accKey env.keccak addr (ascii "nonce")
def codeKey (env : Backing) (addr : Address) : Bytes := accKey env.keccak addr (ascii "code")

/-- `markNewContract`: idempotent. -/
def markNewContract (addr : Address) (s : StateDB) : StateDB :=
  if addr ∈ s.newContracts then s
  else
    { s with
      journal := s.journal ++ [.newContract addr]
      newContracts := insert addr s.newContracts }

def createAccount (addr : Address) : DB Unit := do
  let env ← Comp.ask
  Comp.modify (putState (balKey env addr) (uint256ToBytes 0))
  Comp.modify (putState (nonceKey env addr) (uint64ToBytes 0))
  Comp.modify (markNewContract addr)

def createContract (addr : Address) : DB Unit := do
  let env ← Comp.ask
  Comp.modify (putState (codeKey env addr) [])
  Comp.modify (markNewContract addr)

def getBalance (addr : Address) : DB (BitVec 256) := do
  let env ← Comp.ask
  match ← getState (balKey env addr) with
  | .error err => Comp.throw (.getBalanceFailed err)
  | .ok val => return bytesToUint256 (val.getD [])

def addBalance (addr : Address) (amount : BitVec 256) : DB (BitVec 256) := do
  if amount = 0 then return 0
  else
    let prev ← getBalance addr
    let env ← Comp.ask
    Comp.modify (putState (balKey env addr) (uint256ToBytes (prev + amount)))
    return prev

def subBalance (addr : Address) (amount : BitVec 256) : DB (BitVec 256) := do
  if amount = 0 then return 0
  else
    let prev ← getBalance addr
    let env ← Comp.ask
    Comp.modify (putState (balKey env addr) (uint256ToBytes (prev - amount)))
    return prev

def getNonce (addr : Address) : DB UInt64 := do
  let env ← Comp.ask
  match ← getState (nonceKey env addr) with
  | .error err => Comp.throw (.getNonceFailed err)
  | .ok val =>
      match bytesToUint64 (val.getD []) with
      | some n => return n
      | none => Comp.throw .indexOutOfRange

def setNonce (addr : Address) (nonce : UInt64) : DB Unit := do
  let env ← Comp.ask
  Comp.modify (putState (nonceKey env addr) (uint64ToBytes nonce))

def getCode (addr : Address) : DB (Option Bytes) := do
  let env ← Comp.ask
  match ← getState (codeKey env addr) with
  | .error err => Comp.throw (.getCodeFailed err)
  | .ok val => return val

def getCodeSize (addr : Address) : DB Nat := do
  let code ← getCode addr
  return (code.getD []).length

def setCode (addr : Address) (code : Bytes) : DB (Option Bytes) := do
  let prev ← getCode addr
  let env ← Comp.ask
  Comp.modify (putState (codeKey env addr) code)
  return prev

/-- A field of an account is there: `err == nil && val != nil`. -/
def present : Except StoreError (Option Bytes) → Bool
  | .ok (some _) => true
  | _ => false

/-- `Exist`: whether any account field exists.  A store error counts as absent. -/
def exist (addr : Address) : DB Bool := do
  let env ← Comp.ask
  let bal ← getState (balKey env addr)
  if present bal then return true
  else
    let nonce ← getState (nonceKey env addr)
    if present nonce then return true
    else
      let code ← getState (codeKey env addr)
      return present code

/-- `Empty` (EIP-161). -/
def empty (addr : Address) : DB Bool := do
  let balance ← getBalance addr
  if balance ≠ 0 then return false
  else
    let nonce ← getNonce addr
    if 0 < nonce then return false
    else
      let codeSize ← getCodeSize addr
      return codeSize == 0

def getCodeHash (addr : Address) : DB Hash := do
  let found ← exist addr
  if found then
    let code ← getCode addr
    let env ← Comp.ask
    return env.keccak (code.getD [])
  else return 0

/-! ## Storage -/

/-- A stored slot value as a word, with the empty value for zero. -/
def wordOf (val : Option Bytes) : Hash :=
  if (val.getD []).length = 0 then 0 else bytesToHash (val.getD [])

/-- `GetState` (the exported one, by address and slot). -/
def getStateSlot (addr : Address) (slot : Hash) : DB Hash := do
  let env ← Comp.ask
  match ← getState (storeKey env.keccak addr slot) with
  | .error err => Comp.throw (.getStateFailed err)
  | .ok val => return wordOf val

/-- `GetStateAndCommittedState`: the journal's value and the store's, which is journaled
as a read even when the journal has a write. -/
def getStateAndCommittedState (addr : Address) (slot : Hash) : DB (Hash × Hash) := do
  let env ← Comp.ask
  let key := storeKey env.keccak addr slot
  let currentVal ← getStateFromJournal key
  match ← getStateFromStore key with
  | .error err => Comp.throw (.getStateAndCommittedStateFailed err)
  | .ok committedVal =>
      let committed := wordOf committedVal
      match currentVal with
      | some val => return (wordOf val, committed)
      | none => return (committed, committed)

/-- The previous value `SetState` returns: from the journal, else from the store without
journaling the read. -/
def previousState (key : Bytes) : DB Hash := do
  match ← getStateFromJournal key with
  | some prevVal => return wordOf prevVal
  | none =>
      let env ← Comp.ask
      match env.store env.ns key with
      | .error err => Comp.throw (.setStateFailed err)
      | .ok none => return 0
      | .ok (some record) => if record.isDelete then return 0 else return wordOf record.value

/-- `SetState`: a blind write.  The zero word is written as a delete. -/
def setState (addr : Address) (slot value : Hash) : DB Hash := do
  let env ← Comp.ask
  let key := storeKey env.keccak addr slot
  let prev ← previousState key
  Comp.modify (putState key (if value = 0 then [] else value.bytes))
  return prev

/-- `GetStorageRoot`, a stub. -/
def getStorageRoot (_addr : Address) : Hash := 0

/-! ## Self-destruction, refunds, logs -/

/-- The second half of `SelfDestruct`: the entry is appended whenever the contract is new,
also when it is already marked. -/
def markSelfDestructed (addr : Address) (s : StateDB) : StateDB :=
  if addr ∈ s.newContracts then
    { s with
      journal := s.journal ++ [.selfDestruct addr]
      selfDestructed := insert addr s.selfDestructed }
  else s

/-- `SelfDestruct`, with the semantics of EIP-6780. -/
def selfDestruct (addr : Address) : DB Unit := do
  let prevBalance ← getBalance addr
  let env ← Comp.ask
  if prevBalance ≠ 0 then
    Comp.modify (putState (balKey env addr) (uint256ToBytes 0))
  Comp.modify (markSelfDestructed addr)

def hasSelfDestructed (s : StateDB) (addr : Address) : Bool := addr ∈ s.selfDestructed

def isNewContract (s : StateDB) (addr : Address) : Bool := addr ∈ s.newContracts

def addRefund (gas : UInt64) (s : StateDB) : StateDB :=
  { s with journal := s.journal ++ [.refund s.refund], refund := s.refund + gas }

def subRefund (gas : UInt64) : DB Unit := do
  let s ← Comp.get
  if s.refund < gas then Comp.throw (.refundBelowZero gas s.refund)
  else
    Comp.modify fun s =>
      { s with journal := s.journal ++ [.refund s.refund], refund := s.refund - gas }

def addLog (address : Address) (topics : List Hash) (data : Bytes) (s : StateDB) : StateDB :=
  { s with logs := s.logs ++ [⟨address.bytes, topics.map Hash.bytes, data⟩] }

/-! ## Transient storage and access list -/

def getTransientState (s : StateDB) (addr : Address) (key : Hash) : Hash :=
  match s.transientStorage addr with
  | some storage => (storage key).getD 0
  | none => 0

/-- `s.transientStorage[addr][key] = value`, with the inner map made on demand. -/
def putTransient (s : StateDB) (addr : Address) (key value : Hash) : StateDB :=
  let storage := (s.transientStorage addr).getD fun _ => none
  { s with
    transientStorage := Function.update s.transientStorage addr
      (some (Function.update storage key (some value))) }

def setTransientState (addr : Address) (key value : Hash) (s : StateDB) : StateDB :=
  putTransient (s.push (.transientStorage addr key (s.getTransientState addr key))) addr key value

def addressInAccessList (s : StateDB) (addr : Address) : Bool := s.accessList.containsAddress addr

def slotInAccessList (s : StateDB) (addr : Address) (slot : Hash) : Bool × Bool :=
  s.accessList.contains addr slot

def addAddressToAccessList (addr : Address) (s : StateDB) : StateDB :=
  if s.accessList.containsAddress addr then s
  else
    { s with
      journal := s.journal ++ [.accessListAddAddress addr]
      accessList := s.accessList.addAddress addr }

def addSlotToAccessList (addr : Address) (slot : Hash) (s : StateDB) : StateDB :=
  let present := s.accessList.contains addr slot
  if present.1 && present.2 then s
  else
    let entries :=
      if present.1 then [.accessListAddSlot addr slot]
      else [.accessListAddAddress addr, .accessListAddSlot addr slot]
    { s with
      journal := s.journal ++ entries
      accessList := s.accessList.addSlot addr slot }

/-- The arguments of `Prepare`. -/
structure PrepareArgs where
  isShanghai : Bool
  sender : Address
  coinbase : Address
  dest : Option Address
  precompiles : List Address
  txAccesses : List (Address × List Hash)
deriving DecidableEq, Repr

/-- `Prepare`: a fresh access list for the transaction, not journaled. -/
def prepare (args : PrepareArgs) (s : StateDB) : StateDB :=
  let al := AccessList.new.addAddress args.sender
  let al := match args.dest with
    | some dest => al.addAddress dest
    | none => al
  let al := args.precompiles.foldl AccessList.addAddress al
  let al := args.txAccesses.foldl
    (fun al el => el.2.foldl (fun al key => al.addSlot el.1 key) (al.addAddress el.1)) al
  { s with accessList := if args.isShanghai then al.addAddress args.coinbase else al }

/-! ## Snapshots -/

/-- `Snapshot`: the new snapshot's id is the counter before the call. -/
def snapshot (s : StateDB) : StateDB :=
  { s with
    nextRevisionId := s.nextRevisionId + 1
    validRevisions := s.validRevisions ++
      [⟨s.nextRevisionId, s.journal.length, s.logs.length⟩] }

/-- What reverting does with one journal entry. -/
def undo (e : JournalEntry) (s : StateDB) : StateDB :=
  match e with
  | .refund prevRefund => { s with refund := prevRefund }
  | .selfDestruct addr => { s with selfDestructed := s.selfDestructed.erase addr }
  | .newContract addr => { s with newContracts := s.newContracts.erase addr }
  | .transientStorage account key prevalue => putTransient s account key prevalue
  | .accessListAddAddress addr => { s with accessList := s.accessList.deleteAddress addr }
  | .accessListAddSlot addr slot => { s with accessList := s.accessList.deleteSlot addr slot }
  | .read _ => s
  | .write _ => s

/-- `RevertToSnapshot`.  An unknown id is ignored. -/
def revertToSnapshot (revid : Nat) (s : StateDB) : StateDB :=
  match s.validRevisions.findIdx? (·.id == revid) with
  | none => s
  | some idx =>
      match s.validRevisions[idx]? with
      | none => s
      | some rev =>
          -- newest entry first, as the loop counts down
          let s := (s.journal.drop rev.journalIndex).foldr undo s
          { s with
            journal := s.journal.take rev.journalIndex
            writeIdx := none
            logs := s.logs.take rev.logIndex
            validRevisions := s.validRevisions.take idx }

/-! ## The read-write set -/

/-- The reads left in the journal, one per key. -/
def reads (journal : List JournalEntry) : List KVRead :=
  journal.foldl (fun m e => match e with | .read r => ListMap.upsert KVRead.key r m | _ => m) []

/-- The last write of each key left in the journal. -/
def writes (journal : List JournalEntry) : List KVWrite :=
  journal.foldl (fun m e => match e with | .write w => ListMap.upsert KVWrite.key w m | _ => m) []

/-- `Result`.  Go lists the two maps in no particular order; this is one of the orders. -/
def result (s : StateDB) : ReadWriteSet where
  reads := reads s.journal
  writes := writes s.journal

end StateDB

end Execution

import FabricXEvm.Events
import FabricXEvm.Gateway.Chain
import FabricXEvm.Lib.FinMap

/-!
# The nonce gate

`nonceGate` hands a sender's transaction to the queue when it has the sender's next nonce,
parks it when its nonce is higher, and rejects it when it is lower.  The next nonce is
cached per sender.  It starts out unknown, is seeded from the store by `Admit`, which lets
go of the lock to read it, and is raised by `Observe` as blocks are committed.

`Admit` holds a pointer to the sender's state across the unlocked read, so states are in a
heap here and the cache maps a sender to a pointer.  Each definition is what one critical
section does; what it hands to the queue is part of its result.  `Turn` puts them together:
the gate before, what happened and the gate after.

Metrics and logs are left out.  The two loops of the source over Go maps whose order shows
take the order as an argument.
-/

open Blocks Common

namespace Gateway

structure ParkedTx where
  tx : EthTx
  parkedAt : Int
deriving DecidableEq, Repr

/-- `expectedNonce`, `none` until it is known.  `raise` only moves it forwards. -/
def raise (expected : Option Nat) (n : Nat) : Option Nat :=
  match expected with
  | none => some n
  | some nonce => if nonce < n then some n else some nonce

structure SenderState where
  /-- `from`. -/
  sender : Bytes
  next : Option Nat := none
  parked : FinMap Nat ParkedTx := ∅
  lastSeen : Int := 0
  /-- The callers that hold this entry. -/
  refs : Nat := 0

structure NonceGate where
  /-- The heap: the states made so far have the pointers below `made`. -/
  states : Nat → SenderState := fun _ => { sender := [] }
  made : Nat := 0
  /-- `senderCache`. -/
  entries : FinMap Bytes Nat := ∅
  /-- Parked transactions by hash. -/
  byHash : FinMap Bytes EthTx := ∅
  maxPerSender : Nat
  maxSenders : Nat
  ttl : Int

/-- What an `Admit` that knows the next nonce ends with. -/
inductive AdmitResult where
  | nonceTooLow (next nonce : Nat)
  /-- The transaction goes to the queue, whose answer is returned. -/
  | enqueue
  | tooManyParked
  | parked
deriving DecidableEq, Repr

namespace NonceGate

/-! ## The cache -/

/-- A write through a pointer. -/
def update (g : NonceGate) (ref : Nat) (f : SenderState → SenderState) : NonceGate :=
  { g with states := Function.update g.states ref (f (g.states ref)) }

/-- `acquire` pins the entry of a sender, reserving a new one if it is unknown. -/
def acquire (g : NonceGate) (sender : Bytes) : NonceGate × Nat :=
  match g.entries.lookup sender with
  | some ref => (g.update ref fun ss => { ss with refs := ss.refs + 1 }, ref)
  | none =>
      ({ g with
          states := Function.update g.states g.made { sender, refs := 1 }
          made := g.made + 1
          entries := g.entries.insert sender g.made },
        g.made)

/-- `release` unpins an entry.  One that never got a nonce and holds nothing is dropped. -/
def release (g : NonceGate) (ref : Nat) : NonceGate :=
  let ss := g.states ref
  let g := g.update ref fun ss => { ss with refs := ss.refs - 1 }
  if 0 < ss.refs - 1 ∨ ss.next.isSome ∨ 0 < ss.parked.entries.length then g
  else { g with entries := g.entries.erase ss.sender }

/-! ## Parking -/

/-- `park`. -/
def park (g : NonceGate) (ref : Nat) (tx : EthTx) (now : Int) : NonceGate :=
  let byHash := match (g.states ref).parked.lookup tx.nonce with
    | none => g.byHash
    | some old => g.byHash.erase old.tx.hash
  { g.update ref fun ss => { ss with parked := ss.parked.insert tx.nonce ⟨tx, now⟩ } with
    byHash := byHash.insert tx.hash tx }

/-- `unpark` removes any parked transaction at a nonce and returns it. -/
def unpark (g : NonceGate) (ref : Nat) (nonce : Nat) : NonceGate × Option EthTx :=
  match (g.states ref).parked.lookup nonce with
  | none => (g, none)
  | some p =>
      ({ g.update ref fun ss => { ss with parked := ss.parked.erase nonce } with
          byHash := g.byHash.erase p.tx.hash },
        some p.tx)

def unparkAll (g : NonceGate) (ref : Nat) (nonces : List Nat) : NonceGate :=
  nonces.foldl (fun g nonce => (g.unpark ref nonce).1) g

/-- `IsPending`. -/
def isPending (g : NonceGate) (hash : Bytes) : Option EthTx := g.byHash.lookup hash

/-! ## Admit -/

/-- The end of `Admit`, when the next nonce is known. -/
def settle (g : NonceGate) (ref : Nat) (tx : EthTx) (now : Int) : NonceGate × AdmitResult :=
  let g := g.update ref fun ss => { ss with lastSeen := now }
  let ss := g.states ref
  let next := ss.next.getD 0
  if tx.nonce < next then (g, .nonceTooLow next tx.nonce)
  else if tx.nonce = next then (g, .enqueue)
  else if (ss.parked.lookup tx.nonce).isNone ∧ g.maxPerSender ≤ ss.parked.entries.length then
    (g, .tooManyParked)
  else (g.park ref tx now, .parked)

/-- `Admit` up to its end or to the unlocked read, for which it holds the pointer. -/
def admitTx (g : NonceGate) (sender : Bytes) (tx : EthTx) (now : Int) :
    NonceGate × Nat × Option AdmitResult :=
  let (g, ref) := g.acquire sender
  match (g.states ref).next with
  | none => (g, ref, none)
  | some _ =>
      let (g, result) := g.settle ref tx now
      (g.release ref, ref, some result)

/-- `Admit` after the read; `none` is a read that failed. -/
def admitSeeded (g : NonceGate) (ref : Nat) (tx : EthTx) (seed : Option Nat) (now : Int) :
    NonceGate × Option AdmitResult :=
  match seed with
  | none => (g.release ref, none)
  | some seed =>
      let g := g.update ref fun ss => { ss with next := raise ss.next seed }
      let (g, result) := g.settle ref tx now
      (g.release ref, some result)

/-! ## Observe -/

/-- The highest valid nonce per sender in a block. -/
def highest (d : Decoders) (committed : List Domain.Transaction) : FinMap Bytes Nat :=
  committed.foldl
    (fun highest t =>
      if t.fabricTxStatus.valid = false then highest
      else match d.unmarshalBinary t.rawTx with
        | none => highest
        | some tx =>
            let sender := bytesToAddress t.fromAddress
            match highest.lookup sender with
            | none => highest.insert sender tx.nonce
            | some cur => if cur < tx.nonce then highest.insert sender tx.nonce else highest)
    ∅

/-- The nonce after `n`, a `uint64`. -/
def nonceAfter (n : Nat) : Nat := (n + 1) % 2 ^ 64

/-- A parked transaction whose nonce is spent can never commit. -/
def dropSpent (g : NonceGate) (ref : Nat) (next : Nat) : NonceGate :=
  g.unparkAll ref ((g.states ref).parked.keys.filter (· < next))

/-- One sender of `Observe`, with the transaction it hands to the queue. -/
def observeSender (g : NonceGate) (now : Int) (sender : Bytes) (n : Nat) :
    NonceGate × Option EthTx :=
  let (g, ref) := g.acquire sender
  let g := g.update ref fun ss => { ss with next := raise ss.next (nonceAfter n), lastSeen := now }
  let next := (g.states ref).next.getD 0
  let (g, tx) := (g.dropSpent ref next).unpark ref next
  (g.release ref, tx)

/-! ## The reaper -/

/-- The parked transactions of one sender that waited too long go. -/
def expireSender (g : NonceGate) (now : Int) (ref : Nat) : NonceGate :=
  let expired := (g.states ref).parked.entries.filter fun e => g.ttl < now - e.2.parkedAt
  g.unparkAll ref (expired.map Sigma.fst)

def expire (g : NonceGate) (now : Int) : NonceGate :=
  g.entries.entries.foldl (fun g e => g.expireSender now e.2) g

/-- No caller holds the entry, and it has no parked transaction. -/
def evictable (g : NonceGate) (ref : Nat) : Bool :=
  (g.states ref).refs = 0 && (g.states ref).parked.entries.length = 0

/-- One turn of the search for the least recently seen entry. -/
def older (g : NonceGate) (oldest : Option Nat) (ref : Nat) : Option Nat :=
  if g.evictable ref then
    match oldest with
    | none => some ref
    | some o => if (g.states ref).lastSeen < (g.states o).lastSeen then some ref else oldest
  else oldest

/-- The entry to evict: the least recently seen one, the first of them in this order. -/
def oldest (g : NonceGate) (order : List Nat) : Option Nat := order.foldl g.older none

/-- The second loop of `prune`. -/
inductive Evicts : NonceGate → NonceGate → Prop where
  | done {g : NonceGate} : g.entries.entries.length ≤ g.maxSenders → Evicts g g
  | stuck {g : NonceGate} {order : List Nat} : g.maxSenders < g.entries.entries.length →
      order.Perm (g.entries.entries.map Sigma.snd) → g.oldest order = none → Evicts g g
  | evict {g g' : NonceGate} {order : List Nat} {ref : Nat} :
      g.maxSenders < g.entries.entries.length →
      order.Perm (g.entries.entries.map Sigma.snd) → g.oldest order = some ref →
      Evicts { g with entries := g.entries.erase (g.states ref).sender } g' → Evicts g g'

/-! ## Turns -/

/-- A call of `Admit` off the lock, with the pointer it holds and what it read, if it
read: a nonce, or nothing if the read failed. -/
structure Call where
  sender : Bytes
  ref : Nat
  tx : EthTx
  seed : Option (Option Nat) := none

/-- What happens at the gate under its lock. -/
inductive Event where
  /-- `Admit` finds the next nonce. -/
  | admitTx (sender : Bytes) (tx : EthTx) (r : AdmitResult)
  /-- `Admit` lets go of the lock to read the nonce. -/
  | admitReads (c : Call)
  /-- `Admit` takes the lock again, with what the store said or after a read that failed. -/
  | resume (c : Call) (seed : Option Nat) (r : Option AdmitResult)
  /-- One sender of `Observe`, with the transaction that goes to the queue. -/
  | observeSender (sender : Bytes) (n : Nat) (tx : Option EthTx)
  | prune (now : Int)

/-- The gate takes a turn. -/
inductive Turn (d : Decoders) (signer : Signer) : NonceGate → Event → NonceGate → Prop where
  | admitTx {g gate : NonceGate} {A : Bytes} {tx : EthTx} {now : Int} {ref : Nat} {r : AdmitResult}
      (hsender : d.sender signer tx = some A) (hcall : g.admitTx A tx now = (gate, ref, some r)) :
      Turn d signer g (.admitTx A tx r) gate
  | admitReads {g gate : NonceGate} {A : Bytes} {tx : EthTx} {now : Int} {ref : Nat}
      (hsender : d.sender signer tx = some A) (hcall : g.admitTx A tx now = (gate, ref, none)) :
      Turn d signer g (.admitReads { sender := A, ref, tx }) gate
  | resume {g gate : NonceGate} {c : Call} {seed : Option Nat} {now : Int} {r : Option AdmitResult}
      (hcall : g.admitSeeded c.ref c.tx seed now = (gate, r)) : Turn d signer g (.resume c seed r) gate
  | observeSender {g gate : NonceGate} {A : Bytes} {n : Nat} {now : Int} {tx : Option EthTx}
      (hcall : g.observeSender now A n = (gate, tx)) : Turn d signer g (.observeSender A n tx) gate
  | prune {g gate : NonceGate} {now : Int} (hevicts : Evicts (g.expire now) gate) :
      Turn d signer g (.prune now) gate

end NonceGate

end Gateway

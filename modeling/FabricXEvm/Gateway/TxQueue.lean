import FabricXEvm.Gateway.DepGraphQueue

/-!
# The queue interface and the plain queue

`TxQueueInterface` is what the gateway asks of a queue.  A method runs under the queue's
lock, so it is a function here.  `Serving` is a queue in use: it keeps, next to the queue,
the transactions that `Dequeue` returned and that were neither completed nor in a handled
block since.

`TxQueue` is the plain queue, first come first served.  Its answers about what is pending
are consistent in every run (`TxQueue.reachable_inv`, `TxQueue.Inv.consistent`).
-/

open Blocks Common

namespace Gateway

/-- `TxQueueInterface`.  `Close` and `Stats` are left out. -/
structure TxQueueInterface (Q : Type) where
  enqueue : Q → EthTx → Except QueueError Q
  /-- Nothing is returned when `Dequeue` blocks, or the queue is closed and empty. -/
  dequeue : Q → Option (EthTx × Q)
  isPending : Q → Bytes → Option EthTx
  inFlight : Q → Nat
  complete : Q → Bytes → Q
  handle : Q → Domain.Block → Q

/-- A call of the queue. -/
inductive QueueCall where
  | enqueue (tx : EthTx)
  | dequeue
  | complete (hash : Bytes)
  | handle (block : Domain.Block)

/-- A queue in use. -/
structure Serving (Q : Type) where
  queue : Q
  running : List EthTx := []

namespace Serving

variable {Q : Type}

def step (I : TxQueueInterface Q) (s : Serving Q) : QueueCall → Serving Q
  | .enqueue tx =>
      match I.enqueue s.queue tx with
      | .ok queue => { s with queue }
      | .error _ => s
  | .dequeue =>
      match I.dequeue s.queue with
      | none => s
      | some (tx, queue) => { queue, running := s.running ++ [tx] }
  | .complete hash =>
      { queue := I.complete s.queue hash, running := s.running.filter (·.hash ≠ hash) }
  | .handle block =>
      { queue := I.handle s.queue block
        running := s.running.filter (·.hash ∉ blockHashes block) }

/-- The states reached from the empty queue by calls that `ok` allows. -/
inductive Reachable (I : TxQueueInterface Q) (empty : Q) (ok : Q → QueueCall → Prop) :
    Serving Q → Prop where
  | start : Reachable I empty ok { queue := empty }
  | step {s : Serving Q} {call : QueueCall} : Reachable I empty ok s → ok s.queue call →
      Reachable I empty ok (s.step I call)

/-- Each call is allowed when its turn comes. -/
def Allowed (I : TxQueueInterface Q) (ok : Q → QueueCall → Prop) (s : Serving Q) :
    List QueueCall → Prop
  | [] => True
  | call :: calls => ok s.queue call ∧ Allowed I ok (s.step I call) calls

theorem Reachable.run {I : TxQueueInterface Q} {empty : Q} {ok : Q → QueueCall → Prop}
    {s : Serving Q} {calls : List QueueCall} (h : Reachable I empty ok s)
    (hok : Allowed I ok s calls) : Reachable I empty ok (calls.foldl (Serving.step I) s) := by
  induction calls generalizing s with
  | nil => exact h
  | cons call calls ih => exact ih (h.step hok.1) hok.2

end Serving

/-- The pending view of a queue is consistent, `present` being the hashes that are queued
or in progress. -/
structure Consistent {Q : Type} (I : TxQueueInterface Q) (present : Q → List Bytes) (q : Q) :
    Prop where
  inFlight : ∃ pending : Finset Bytes,
    (∀ hash, hash ∈ pending ↔ I.isPending q hash ≠ none) ∧ I.inFlight q = pending.card
  enqueue : ∀ tx, (∃ q', I.enqueue q tx = .ok q') ↔ I.isPending q tx.hash = none
  once : (present q).Nodup

/-! ## The plain queue -/

structure TxQueue where
  pendingQueue : List EthTx := []
  /-- Mirrors `pendingQueue` by hash. -/
  queuedMap : FinMap Bytes EthTx := ∅
  inProgressMap : FinMap Bytes EthTx := ∅
  total : Nat := 0
  invalid : Nat := 0

namespace TxQueue

/-- `Enqueue`. -/
def enqueue (q : TxQueue) (tx : EthTx) : Except QueueError TxQueue :=
  if (q.queuedMap.lookup tx.hash).isSome then .error .alreadyPending
  else if (q.inProgressMap.lookup tx.hash).isSome then .error .alreadyPending
  else .ok { q with
    pendingQueue := q.pendingQueue ++ [tx]
    queuedMap := q.queuedMap.insert tx.hash tx }

/-- `Dequeue`, when it does not block. -/
def dequeue (q : TxQueue) : Option (EthTx × TxQueue) :=
  match q.pendingQueue with
  | [] => none
  | tx :: rest =>
      some (tx, { q with
        pendingQueue := rest
        queuedMap := q.queuedMap.erase tx.hash
        inProgressMap := q.inProgressMap.insert tx.hash tx })

/-- `IsPending`. -/
def isPending (q : TxQueue) (hash : Bytes) : Option EthTx :=
  match q.inProgressMap.lookup hash with
  | some tx => some tx
  | none => q.queuedMap.lookup hash

/-- `InFlight`. -/
def inFlight (q : TxQueue) : Nat := q.pendingQueue.length + q.inProgressMap.entries.length

/-- `Complete`.  A hash that completes before a worker dequeues it stays queued. -/
def complete (q : TxQueue) (hash : Bytes) : TxQueue :=
  { q with inProgressMap := q.inProgressMap.erase hash }

/-- One transaction of a handled block. -/
def handleTx (q : TxQueue) (tx : Domain.Transaction) : TxQueue :=
  { q.complete (bytesToHash tx.txHash) with
    total := q.total + 1
    invalid := if tx.status = 0 then q.invalid + 1 else q.invalid }

/-- `Handle`. -/
def handle (q : TxQueue) (block : Domain.Block) : TxQueue := block.transactions.foldl handleTx q

def interface : TxQueueInterface TxQueue where
  enqueue := enqueue
  dequeue := dequeue
  isPending := isPending
  inFlight := inFlight
  complete := complete
  handle := handle

/-- The hashes that are queued or in progress. -/
def present (q : TxQueue) : List Bytes := q.pendingQueue.map (·.hash) ++ q.inProgressMap.keys

/-! ### The invariant -/

structure Inv (q : TxQueue) : Prop where
  mirror : ∀ hash, hash ∈ q.queuedMap ↔ hash ∈ q.pendingQueue.map (·.hash)
  once : q.present.Nodup

variable {q q' : TxQueue}

theorem mem_present {hash : Bytes} :
    hash ∈ q.present ↔ hash ∈ q.pendingQueue.map (·.hash) ∨ hash ∈ q.inProgressMap := by
  rw [present, List.mem_append, AList.mem_keys]

theorem isPending_eq_none (h : Inv q) {hash : Bytes} :
    q.isPending hash = none ↔ hash ∉ q.present := by
  rw [mem_present, ← h.mirror, not_or, ← AList.lookup_eq_none, ← AList.lookup_eq_none, isPending]
  cases q.inProgressMap.lookup hash <;> simp

theorem enqueue_ok (h : Inv q) (tx : EthTx) :
    q.enqueue tx = .ok { q with
      pendingQueue := q.pendingQueue ++ [tx], queuedMap := q.queuedMap.insert tx.hash tx } ∧
        tx.hash ∉ q.present ∨
      q.enqueue tx = .error .alreadyPending ∧ tx.hash ∈ q.present := by
  rw [mem_present, ← h.mirror, ← AList.lookup_isSome, ← AList.lookup_isSome, enqueue]
  cases (q.queuedMap.lookup tx.hash).isSome <;> cases (q.inProgressMap.lookup tx.hash).isSome <;>
    simp

theorem Inv.enqueue (h : Inv q) {tx : EthTx} (hq : q.enqueue tx = .ok q') : Inv q' := by
  obtain ⟨hok, hnew⟩ | ⟨herror, -⟩ := enqueue_ok h tx
  · obtain rfl := Except.ok.inj (hok.symm.trans hq)
    refine ⟨fun hash => ?_, ?_⟩
    · simp only [AList.mem_insert, h.mirror, List.map_append, List.mem_append, List.map_cons,
        List.map_nil, List.mem_singleton]
      tauto
    · have hperm : (tx.hash :: q.present).Perm
          ((q.pendingQueue ++ [tx]).map (·.hash) ++ q.inProgressMap.keys) := by
        simpa [present] using List.perm_middle.symm
      exact hperm.nodup (List.nodup_cons.mpr ⟨hnew, h.once⟩)
  · exact nomatch herror.symm.trans hq

theorem dequeue_spec {tx : EthTx} (h : q.dequeue = some (tx, q')) :
    ∃ rest, q.pendingQueue = tx :: rest ∧ q' = { q with
      pendingQueue := rest
      queuedMap := q.queuedMap.erase tx.hash
      inProgressMap := q.inProgressMap.insert tx.hash tx } := by
  unfold TxQueue.dequeue at h
  split at h
  next => exact nomatch h
  next tx' rest hpending =>
    obtain ⟨rfl, rfl⟩ := Prod.mk.inj (Option.some.inj h)
    exact ⟨rest, hpending, rfl⟩

theorem Inv.dequeue (h : Inv q) {tx : EthTx} (hq : q.dequeue = some (tx, q')) : Inv q' := by
  obtain ⟨rest, hpending, rfl⟩ := dequeue_spec hq
  have honce := h.once
  rw [present, hpending] at honce
  have hnot : tx.hash ∉ q.inProgressMap.keys := fun hmem =>
    (List.nodup_cons.mp honce).1 (List.mem_append_right _ hmem)
  constructor
  · intro hash
    have hmirror := h.mirror hash
    rw [hpending, List.map_cons, List.mem_cons] at hmirror
    rw [AList.mem_erase, hmirror]
    have hrest : tx.hash ∉ rest.map (·.hash) := fun hmem =>
      (List.nodup_cons.mp honce).1 (List.mem_append_left _ hmem)
    constructor
    · rintro ⟨hne, heq | hmem⟩
      · exact absurd heq hne
      · exact hmem
    · exact fun hmem => ⟨fun heq => hrest (heq ▸ hmem), .inr hmem⟩
  · show (rest.map (·.hash) ++ (q.inProgressMap.insert tx.hash tx).keys).Nodup
    rw [FinMap.keys_insert_of_notMem hnot]
    exact List.perm_middle.symm.nodup honce

theorem Inv.complete (h : Inv q) (hash : Bytes) : Inv (q.complete hash) where
  mirror := h.mirror
  once := h.once.sublist (List.Sublist.append_left (FinMap.keys_erase_sublist _ hash) _)

theorem Inv.handle (h : Inv q) (block : Domain.Block) : Inv (q.handle block) := by
  unfold TxQueue.handle
  induction block.transactions generalizing q with
  | nil => exact h
  | cons tx txs ih =>
      have hone := h.complete (bytesToHash tx.txHash)
      exact ih ⟨hone.mirror, hone.once⟩

theorem reachable_inv {ok : TxQueue → QueueCall → Prop} {s : Serving TxQueue}
    (h : s.Reachable interface {} ok) : Inv s.queue := by
  induction h with
  | start => exact ⟨fun hash => by simp, List.nodup_nil⟩
  | @step s call _ _ ih =>
      cases call with
      | enqueue tx =>
          simp only [Serving.step]
          split
          next q' hq => exact ih.enqueue hq
          next => exact ih
      | dequeue =>
          simp only [Serving.step]
          split
          next => exact ih
          next tx q' hq => exact ih.dequeue hq
      | complete hash => exact ih.complete hash
      | handle block => exact ih.handle block

theorem Inv.consistent (h : Inv q) : Consistent interface present q where
  inFlight := by
    refine ⟨q.present.toFinset, fun hash => ?_, ?_⟩
    · rw [List.mem_toFinset]
      exact (not_iff_not.mpr (isPending_eq_none h)).trans not_not |>.symm
    · rw [List.toFinset_card_of_nodup h.once]
      simp [interface, inFlight, present, AList.keys, List.keys]
  enqueue := fun tx => by
    show (∃ q', q.enqueue tx = .ok q') ↔ q.isPending tx.hash = none
    rw [isPending_eq_none h]
    obtain ⟨hok, hnew⟩ | ⟨herror, hold⟩ := enqueue_ok h tx
    · exact ⟨fun _ => hnew, fun _ => ⟨_, hok⟩⟩
    · refine ⟨fun ⟨q', hq⟩ => ?_, fun hnew => absurd hold hnew⟩
      exact nomatch herror.symm.trans hq
  once := h.once

end TxQueue

end Gateway

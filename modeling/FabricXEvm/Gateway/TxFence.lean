import FabricXEvm.Gateway.NonceGate
import FabricXEvm.Gateway.ReusedEndorsements
import FabricXEvm.Gateway.TxQueueV2Runs

/-!
# The fence of the test RPC

A rewind (`evm_snapshot`, `evm_revert`) must not move the ledger under a transaction that
the gateway has accepted.  `txFence` turns submissions away while a rewind is on, and
`beginRewind` polls the queue until nothing is in flight.  Blocks are still handled
meanwhile, and `Observe` hands parked transactions to the queue past the fence.

`Fenced.Step` interleaves the submissions, the workers, any number of `Gateway.Handle`
calls, the goroutines of the queue, the reaper and one rewinder.  A submission holds the fence's
mutex, `Observe` and the end of `Admit` hold the gate's lock, and the queue has a lock for each
method, so other parties get at the queue between two transactions that `Observe` hands over.

A block comes with valid transactions that the queue tracks.  `Gateway.Handle` has `Observe` done
before the queue forgets them (`Fenced.Tied`).  So while it still has a transaction to hand over,
one that made it ready is in flight, and the poll cannot end
(`Fenced.Reachable.quiet_until_endRewind`).
-/

open Blocks Common

namespace Gateway

open NonceGate

variable {Q ε : Type}

/-- What is tracked goes from the one list to the other: nothing is added, and only these hashes
may be forgotten. -/
structure ForgetsOnly (hashes before after : List Bytes) : Prop where
  subset : after ⊆ before
  keeps : ∀ hash ∈ before, hash ∉ hashes → hash ∈ after

/-- The hashes that a queue tracks.  `InFlight` counts them, only `Enqueue` adds one, and `Complete`
and `Handle` forget no others than they are given. -/
structure Tracking (I : WorkQueue Q ε) (tracked : Q → List Bytes) : Prop where
  inFlight : ∀ q, I.inFlight q = (tracked q).length
  enqueue : ∀ {q tx q'}, I.enqueue q tx = .ok q' → tracked q ⊆ tracked q'
  dequeue : ∀ {q tx q'}, I.dequeue q = some (tx, q') → ForgetsOnly [] (tracked q) (tracked q')
  complete : ∀ q hash, ForgetsOnly [hash] (tracked q) (tracked (I.complete q hash))
  handle : ∀ q block, ForgetsOnly (blockHashes block) (tracked q) (tracked (I.handle q block))
  reuse : ∀ q hash, ForgetsOnly [] (tracked q) (tracked (I.reusableEndorsement q hash).1)
  background : ∀ {executes q q'}, I.background executes q q' → tracked q' ⊆ tracked q

/-- The queue after `Enqueue`.  One that fails adds nothing. -/
def afterEnqueue (I : WorkQueue Q ε) (q : Q) (tx : EthTx) : Q :=
  match I.enqueue q tx with
  | .ok q' => q'
  | .error _ => q

/-- Where the submission is that holds the fence's mutex. -/
inductive Submission where
  /-- In `SendTransaction`, before `Admit`. -/
  | sending (tx : EthTx)
  /-- In `Admit`, off the gate's lock. -/
  | reading (call : Call)
  /-- In `Admit`, before `Enqueue`. -/
  | handing (tx : EthTx)

/-- Where a call of `Gateway.Handle` is. -/
inductive Phase where
  | delivered
  /-- In the loop of `Observe`, with these senders left. -/
  | observing (left : List (Σ _ : Bytes, Nat))
  /-- In that loop, before `Enqueue`. -/
  | handing (tx : EthTx) (left : List (Σ _ : Bytes, Nat))
  | observed

structure Handling where
  block : Domain.Block
  phase : Phase := .delivered

inductive Rewinder where
  | idle
  /-- In the loop of `beginRewind`. -/
  | draining
  /-- `beginRewind` returned nil when this had been given to `Enqueue`. -/
  | quiet (offered : List EthTx)

/-- A gateway behind the fence. -/
structure Fenced (Q : Type) where
  queue : Q
  gate : NonceGate
  /-- The gate's lock is taken. -/
  locked : Bool := false
  /-- `txFence.rewinding`. -/
  rewinding : Bool := false
  submission : Option Submission := none
  handles : List Handling := []
  rewinder : Rewinder := .idle
  /-- What was given to `Enqueue`. -/
  offered : List EthTx := []

/-! ## The queues -/

theorem ForgetsOnly.refl (before : List Bytes) : ForgetsOnly [] before before :=
  ⟨List.Subset.refl _, fun _ h _ => h⟩

theorem ForgetsOnly.trans {hashes hashes' l₁ l₂ l₃ : List Bytes} (h : ForgetsOnly hashes l₁ l₂)
    (h' : ForgetsOnly hashes' l₂ l₃) : ForgetsOnly (hashes ++ hashes') l₁ l₃ where
  subset := List.Subset.trans h'.subset h.subset
  keeps hash hmem hnot := by
    rw [List.mem_append, not_or] at hnot
    exact h'.keeps hash (h.keeps hash hmem hnot.1) hnot.2

/-- A queue that handles a block transaction by transaction. -/
theorem forgetsOnly_foldl {tracked : Q → List Bytes} {handleTx : Q → Domain.Transaction → Q}
    (h : ∀ q t, ForgetsOnly [bytesToHash t.txHash] (tracked q) (tracked (handleTx q t)))
    (txs : List Domain.Transaction) (q : Q) :
    ForgetsOnly (txs.map fun t => bytesToHash t.txHash) (tracked q)
      (tracked (txs.foldl handleTx q)) := by
  induction txs generalizing q with
  | nil => exact .refl _
  | cons t txs ih => exact (h q t).trans (ih (handleTx q t))

theorem forgetsOnly_erase {α : Type} (m : FinMap Bytes α) (hash : Bytes) :
    ForgetsOnly [hash] m.keys (m.erase hash).keys where
  subset := (FinMap.keys_erase_sublist m hash).subset
  keeps _ hmem hnot := AList.mem_erase.mpr ⟨fun heq => hnot (List.mem_singleton.mpr heq), hmem⟩

namespace TxQueue

theorem forgetsOnly_complete (q : TxQueue) (hash : Bytes) :
    ForgetsOnly [hash] q.present (q.complete hash).present := by
  have hkeys := forgetsOnly_erase q.inProgressMap hash
  refine ⟨fun k hmem => ?_, fun k hmem hnot => ?_⟩
  · exact List.mem_append.mpr ((List.mem_append.mp hmem).imp_right fun h => hkeys.subset h)
  · exact List.mem_append.mpr ((List.mem_append.mp hmem).imp_right fun h => hkeys.keeps k h hnot)

theorem tracking : Tracking (workQueue (ε := ε)) present where
  inFlight q := by simp [workQueue, interface, inFlight, present, AList.keys, List.keys]
  enqueue {q tx q'} hq := by
    unfold workQueue interface enqueue at hq
    dsimp only at hq
    split at hq
    next => cases hq
    next =>
      split at hq
      next => cases hq
      next =>
        cases hq
        intro hash hmem
        rw [mem_present] at hmem ⊢
        exact hmem.imp_left fun h => by
          rw [List.map_append]
          exact List.mem_append_left _ h
  dequeue {q tx q'} hq := by
    obtain ⟨rest, hpending, rfl⟩ := dequeue_spec hq
    have hiff : ∀ hash, hash ∈ present { q with
        pendingQueue := rest
        queuedMap := q.queuedMap.erase tx.hash
        inProgressMap := q.inProgressMap.insert tx.hash tx } ↔ hash ∈ q.present := by
      intro hash
      rw [mem_present, AList.mem_insert, mem_present, hpending, List.map_cons, List.mem_cons]
      tauto
    exact ⟨fun hash => (hiff hash).mp, fun hash hmem _ => (hiff hash).mpr hmem⟩
  complete := forgetsOnly_complete
  handle q block :=
    @forgetsOnly_foldl _ _ handleTx (fun q t => forgetsOnly_complete q _) block.transactions q
  reuse q hash := .refl _
  background h := nomatch h

end TxQueue

namespace TxQueueV2

/-- The participant queue has no goroutines, and nothing to reuse. -/
def workQueue (d : Decoders) (r : TxReader) : WorkQueue TxQueueV2 ε := { interface d r with }

theorem forgetsOnly_complete (q : TxQueueV2) (hash : Bytes) :
    ForgetsOnly [hash] q.hashMap.keys (q.complete hash).hashMap.keys := by
  unfold complete
  dsimp only
  split
  next => exact ⟨List.Subset.refl _, fun _ hmem _ => hmem⟩
  next => exact forgetsOnly_erase q.hashMap hash

theorem tracking (d : Decoders) (r : TxReader) :
    Tracking (workQueue (ε := ε) d r) (·.hashMap.keys) where
  inFlight q := by simp [workQueue, interface, inFlight, AList.keys, List.keys]
  enqueue {q tx q'} hq := by
    have henqueue : q.enqueue d r tx = .ok q' := hq
    unfold enqueue at henqueue
    split at henqueue
    next => cases henqueue
    next =>
      cases henqueue
      show q.hashMap.keys ⊆ _
      rw [(links_spec _ _).2.1]
      exact fun hash hmem => AList.mem_keys.mp ((AList.mem_insert _).mpr (.inr hmem))
  dequeue {q tx q'} hq := by
    obtain ⟨e, rest, -, hd⟩ := dequeue_spec hq
    show ForgetsOnly [] q.hashMap.keys q'.hashMap.keys
    rw [hd.hashMap]
    exact .refl _
  complete := forgetsOnly_complete
  handle q block := @forgetsOnly_foldl _ (fun q : TxQueueV2 => q.hashMap.keys) handleTx
    (fun q t => forgetsOnly_complete q _) block.transactions q
  reuse q hash := .refl _
  background h := nomatch h

end TxQueueV2

namespace DepGraphQueue

theorem mem_tracked {q : DepGraphQueue ε} {hash : Bytes} :
    hash ∈ q.tracked.keys ↔ (q.entry hash).isSome := by
  rw [entry, Option.isSome_map, AList.lookup_isSome]
  rfl

/-- The hashes are forgotten, and all other entries stay. -/
theorem forgetsOnly_of_entry {q q' : DepGraphQueue ε} {hashes : List Bytes}
    (h : ∀ k, (q'.entry k).isSome = if k ∈ hashes then false else (q.entry k).isSome) :
    ForgetsOnly hashes q.tracked.keys q'.tracked.keys where
  subset k hmem := by
    rw [mem_tracked, h] at hmem
    split at hmem
    next => cases hmem
    next => exact mem_tracked.mpr hmem
  keeps k hmem hnot := by
    rw [mem_tracked, h, if_neg hnot]
    exact mem_tracked.mp hmem

end DepGraphQueue

theorem Pipeline.tracking : Tracking (workQueue (ε := ε)) (·.queue.tracked.keys) where
  inFlight s := by simp [workQueue, DepGraphQueue.inFlight, AList.keys, List.keys]
  enqueue {s tx s'} h k hmem := by
    rw [DepGraphQueue.mem_tracked] at hmem ⊢
    rw [DepGraphQueue.entry_enqueue (enqueue_eq_ok h)]
    split
    next => rfl
    next => exact hmem
  dequeue h := DepGraphQueue.forgetsOnly_of_entry fun k => by
    rw [DepGraphQueue.entry_dequeue (dequeue_eq_some h), if_neg List.not_mem_nil]
  complete s hash := DepGraphQueue.forgetsOnly_of_entry fun k =>
    (congrArg Option.isSome ((DepGraphQueue.entry_takeNodes [hash]).2 k)).trans (apply_ite ..)
  handle s block := DepGraphQueue.forgetsOnly_of_entry fun k =>
    (congrArg Option.isSome (DepGraphQueue.entry_handle block)).trans (apply_ite ..)
  reuse s hash := DepGraphQueue.forgetsOnly_of_entry fun k => by
    show ((s.queue.reusableEndorsement hash).1.entry k).isSome = _
    rw [DepGraphQueue.entry_reusableEndorsement, if_neg List.not_mem_nil]
    split
    next => exact Option.isSome_map
    next => rfl
  background {executes s s'} h k hmem := by
    obtain ⟨a, hworks, hstep⟩ := h
    rw [DepGraphQueue.mem_tracked] at hmem ⊢
    rcases entry_of_works hworks hstep k with hsame | hnone | ⟨hsome, -⟩
    · rwa [← hsame]
    · rw [hnone] at hmem
      cases hmem
    · exact hsome

/-! ## The interleavings -/

namespace Fenced

/-- `Admit` ends, or goes on to `Enqueue` with the gate's lock. -/
def admitted (s : Fenced Q) (gate : NonceGate) (tx : EthTx) (r : Option AdmitResult) : Fenced Q :=
  if r = some .enqueue then { s with gate, locked := true, submission := some (.handing tx) }
  else { s with gate, submission := none }

/-- `Observe` after one sender, whose parked transaction may be ready. -/
def promoted (left : List (Σ _ : Bytes, Nat)) : Option EthTx → Phase
  | none => .observing left
  | some tx => .handing tx left

/-- A valid transaction with this hash is in a block whose `Observe` is not over. -/
def Awaits (handles : List Handling) (hash : Bytes) : Prop :=
  ∃ c ∈ handles, c.phase ≠ .observed ∧
    ∃ t ∈ c.block.transactions, t.fabricTxStatus.valid ∧ bytesToHash t.txHash = hash

inductive Step (I : WorkQueue Q ε) (executes : EthTx → ε → Prop) (tracked : Q → List Bytes)
    (d : Decoders) (signer : Signer) : Fenced Q → Fenced Q → Prop where
  /-- `submit`.  It takes the mutex, and goes on only if no rewind is on. -/
  | submit {s : Fenced Q} (tx : EthTx) (hmu : s.submission = none) (hopen : s.rewinding = false) :
      Step I executes tracked d signer s { s with submission := some (.sending tx) }
  /-- `SendTransaction` may refuse a transaction before `Admit`. -/
  | refuse {s : Fenced Q} {tx} (hsub : s.submission = some (.sending tx)) :
      Step I executes tracked d signer s { s with submission := none }
  | admitTx {s : Fenced Q} {A tx r gate} (hsub : s.submission = some (.sending tx))
      (hlock : s.locked = false) (hturn : Turn d signer s.gate (.admitTx A tx r) gate) :
      Step I executes tracked d signer s (s.admitted gate tx (some r))
  | admitReads {s : Fenced Q} {c gate} (hsub : s.submission = some (.sending c.tx))
      (hlock : s.locked = false) (hturn : Turn d signer s.gate (.admitReads c) gate) :
      Step I executes tracked d signer s { s with gate, submission := some (.reading c) }
  | resume {s : Fenced Q} {c seed r gate} (hsub : s.submission = some (.reading c))
      (hlock : s.locked = false) (hturn : Turn d signer s.gate (.resume c seed r) gate) :
      Step I executes tracked d signer s (s.admitted gate c.tx r)
  | enqueue {s : Fenced Q} {tx} (hsub : s.submission = some (.handing tx)) :
      Step I executes tracked d signer s { s with
        queue := afterEnqueue I s.queue tx, offered := s.offered ++ [tx], locked := false
        submission := none }
  /-- `Gateway.Handle` is called with a block that converts.  Its valid transactions are tracked,
  and it has none in common with a block that is still being handled. -/
  | deliver {s : Fenced Q} (block : Domain.Block)
      (htracked : ∀ t ∈ block.transactions, t.fabricTxStatus.valid →
        bytesToHash t.txHash ∈ tracked s.queue)
      (hother : ∀ c ∈ s.handles, (blockHashes c.block).Disjoint (blockHashes block)) :
      Step I executes tracked d signer s { s with handles := s.handles ++ [{ block }] }
  | observe {s : Fenced Q} {pre block post order}
      (hcall : s.handles = pre ++ ⟨block, .delivered⟩ :: post) (hlock : s.locked = false)
      (horder : order.Perm (highest d block.transactions).entries) :
      Step I executes tracked d signer s
        { s with locked := true, handles := pre ++ ⟨block, .observing order⟩ :: post }
  | observeSender {s : Fenced Q} {pre block A n left post gate tx}
      (hcall : s.handles = pre ++ ⟨block, .observing (⟨A, n⟩ :: left)⟩ :: post)
      (hturn : Turn d signer s.gate (.observeSender A n tx) gate) :
      Step I executes tracked d signer s
        { s with gate, handles := pre ++ ⟨block, promoted left tx⟩ :: post }
  | promote {s : Fenced Q} {pre block tx left post}
      (hcall : s.handles = pre ++ ⟨block, .handing tx left⟩ :: post) :
      Step I executes tracked d signer s { s with
        queue := afterEnqueue I s.queue tx, offered := s.offered ++ [tx]
        handles := pre ++ ⟨block, .observing left⟩ :: post }
  | observed {s : Fenced Q} {pre block post}
      (hcall : s.handles = pre ++ ⟨block, .observing []⟩ :: post) :
      Step I executes tracked d signer s
        { s with locked := false, handles := pre ++ ⟨block, .observed⟩ :: post }
  /-- `Handle` of the queue, the last step of `Gateway.Handle`.  The plain queue takes its lock
  for each transaction of the block: what it does before the last one is `complete`. -/
  | handle {s : Fenced Q} {pre block post} (hcall : s.handles = pre ++ ⟨block, .observed⟩ :: post) :
      Step I executes tracked d signer s
        { s with queue := I.handle s.queue block, handles := pre ++ post }
  | dequeue {s : Fenced Q} {tx queue} (hqueue : I.dequeue s.queue = some (tx, queue)) :
      Step I executes tracked d signer s { s with queue }
  | reuse {s : Fenced Q} (hash : Bytes) :
      Step I executes tracked d signer s
        { s with queue := (I.reusableEndorsement s.queue hash).1 }
  /-- `Complete`, by a worker or the submitter, after an error: the transaction is in no block. -/
  | complete {s : Fenced Q} (hash : Bytes) (hfailed : ¬ Awaits s.handles hash) :
      Step I executes tracked d signer s { s with queue := I.complete s.queue hash }
  /-- A goroutine of the queue.  What it gives up is in no block either. -/
  | background {s : Fenced Q} {queue} (hqueue : I.background executes s.queue queue)
      (hfailed : ∀ hash ∈ tracked s.queue, hash ∉ tracked queue → ¬ Awaits s.handles hash) :
      Step I executes tracked d signer s { s with queue }
  | prune {s : Fenced Q} {now gate} (hlock : s.locked = false)
      (hturn : Turn d signer s.gate (.prune now) gate) :
      Step I executes tracked d signer s { s with gate }
  /-- `beginRewind`. -/
  | beginRewind {s : Fenced Q} (hidle : s.rewinder = .idle) (hmu : s.submission = none) :
      Step I executes tracked d signer s { s with rewinding := true, rewinder := .draining }
  /-- The loop of `beginRewind` ends, and it returns nil. -/
  | drained {s : Fenced Q} (hdrain : s.rewinder = .draining) (hzero : I.inFlight s.queue = 0) :
      Step I executes tracked d signer s { s with rewinder := .quiet s.offered }
  /-- The context is done, or the deadline is over. -/
  | giveUp {s : Fenced Q} (hdrain : s.rewinder = .draining) (hmu : s.submission = none) :
      Step I executes tracked d signer s { s with rewinding := false, rewinder := .idle }
  | endRewind {s : Fenced Q} {offered} (hquiet : s.rewinder = .quiet offered)
      (hmu : s.submission = none) :
      Step I executes tracked d signer s { s with rewinding := false, rewinder := .idle }

/-- The states that any interleaving leads to. -/
inductive Reachable (I : WorkQueue Q ε) (executes : EthTx → ε → Prop) (tracked : Q → List Bytes)
    (d : Decoders) (signer : Signer) : Fenced Q → Prop where
  | start (queue : Q) (gate : NonceGate) : Reachable I executes tracked d signer { queue, gate }
  | step {s s'} (h : Reachable I executes tracked d signer s)
      (hstep : Step I executes tracked d signer s s') : Reachable I executes tracked d signer s'

variable {I : WorkQueue Q ε} {executes : EthTx → ε → Prop} {tracked : Q → List Bytes} {d : Decoders}
  {signer : Signer} {s s' : Fenced Q}

/-! ## Until `Observe` is over -/

/-- A valid transaction of a block is tracked as long as `Observe` is not over, and no two blocks
that are being handled have a transaction in common. -/
structure Tied (tracked : Q → List Bytes) (s : Fenced Q) : Prop where
  tracked : ∀ hash, Awaits s.handles hash → hash ∈ tracked s.queue
  apart : (s.handles.map fun c => blockHashes c.block).Pairwise List.Disjoint

/-- The calls stay, and the queue forgets nothing that one of them needs. -/
theorem Tied.keeps (h : Tied tracked s) (hhandles : s'.handles = s.handles)
    (hqueue : ∀ hash ∈ tracked s.queue, Awaits s.handles hash → hash ∈ tracked s'.queue) :
    Tied tracked s' where
  tracked hash hawaits := by
    rw [hhandles] at hawaits
    exact hqueue hash (h.tracked hash hawaits) hawaits
  apart := hhandles ▸ h.apart

/-- One call goes on, and the queue forgets nothing. -/
theorem Tied.goes_on (h : Tied tracked s) {pre post : List Handling} {block : Domain.Block}
    {phase phase' : Phase} (hcall : s.handles = pre ++ ⟨block, phase⟩ :: post)
    (hphase : phase ≠ .observed) (hcall' : s'.handles = pre ++ ⟨block, phase'⟩ :: post)
    (hqueue : tracked s.queue ⊆ tracked s'.queue) : Tied tracked s' where
  tracked hash := by
    rintro ⟨c, hc, hopen, hvalid⟩
    refine hqueue (h.tracked hash ?_)
    rw [hcall', List.mem_append, List.mem_cons] at hc
    rw [hcall]
    rcases hc with hc | rfl | hc
    · exact ⟨c, List.mem_append_left _ hc, hopen, hvalid⟩
    · exact ⟨⟨block, phase⟩, List.mem_append_right _ List.mem_cons_self, hphase, hvalid⟩
    · exact ⟨c, List.mem_append_right _ (List.mem_cons_of_mem _ hc), hopen, hvalid⟩
  apart := by
    have hapart := h.apart
    rw [hcall, List.map_append, List.map_cons] at hapart
    rw [hcall', List.map_append, List.map_cons]
    exact hapart

theorem Tied.deliver (h : Tied tracked s) {block : Domain.Block}
    (htracked : ∀ t ∈ block.transactions, t.fabricTxStatus.valid →
      bytesToHash t.txHash ∈ tracked s.queue)
    (hother : ∀ c ∈ s.handles, (blockHashes c.block).Disjoint (blockHashes block)) :
    Tied tracked { s with handles := s.handles ++ [{ block }] } where
  tracked hash := by
    rintro ⟨c, hc, hopen, hvalid⟩
    rcases List.mem_append.mp hc with hc | hc
    · exact h.tracked hash ⟨c, hc, hopen, hvalid⟩
    · obtain rfl := List.mem_singleton.mp hc
      obtain ⟨t, ht, hv, rfl⟩ := hvalid
      exact htracked t ht hv
  apart := by
    rw [List.map_append, List.pairwise_append]
    refine ⟨h.apart, List.pairwise_singleton _ _, fun hashes hmem hashes' hmem' => ?_⟩
    obtain ⟨c, hc, rfl⟩ := List.mem_map.mp hmem
    obtain rfl := List.mem_singleton.mp hmem'
    exact hother c hc

/-- The queue forgets a block when the other calls need none of its transactions. -/
theorem Tied.handle (hI : Tracking I tracked) (h : Tied tracked s) {pre post : List Handling}
    {block : Domain.Block} {phase : Phase} (hcall : s.handles = pre ++ ⟨block, phase⟩ :: post) :
    Tied tracked { s with queue := I.handle s.queue block, handles := pre ++ post } := by
  have hapart := h.apart
  rw [hcall, List.map_append, List.map_cons, List.pairwise_middle List.disjoint_symm,
    List.pairwise_cons, ← List.map_append] at hapart
  obtain ⟨hother, hrest⟩ := hapart
  refine ⟨fun hash hawaits => ?_, hrest⟩
  obtain ⟨c, hc, hopen, t, ht, hvalid, rfl⟩ := hawaits
  have hmem : c ∈ s.handles := by
    rw [hcall]
    exact ((List.sublist_cons_self _ _).append_left _).subset hc
  have htracked := h.tracked _ ⟨c, hmem, hopen, t, ht, hvalid, rfl⟩
  have hdisjoint := hother (blockHashes c.block) (List.mem_map.mpr ⟨c, hc, rfl⟩)
  have hhash : bytesToHash t.txHash ∈ blockHashes c.block := List.mem_map.mpr ⟨t, ht, rfl⟩
  exact (hI.handle s.queue block).keeps _ htracked fun hblock => hdisjoint hblock hhash

theorem subset_afterEnqueue (hI : Tracking I tracked) (q : Q) (tx : EthTx) :
    tracked q ⊆ tracked (afterEnqueue I q tx) := by
  unfold afterEnqueue
  split
  next q' hq => exact hI.enqueue hq
  next => exact List.Subset.refl _

theorem Tied.step (hI : Tracking I tracked) (h : Tied tracked s)
    (hstep : Step I executes tracked d signer s s') : Tied tracked s' := by
  cases hstep with
  | submit | refuse | admitReads | prune | beginRewind | drained | giveUp | endRewind =>
      exact h.keeps rfl fun _ hmem _ => hmem
  | admitTx | resume =>
      unfold admitted
      split <;> exact h.keeps rfl fun _ hmem _ => hmem
  | enqueue => exact h.keeps rfl fun _ hmem _ => subset_afterEnqueue hI _ _ hmem
  | deliver block htracked hother => exact h.deliver htracked hother
  | observe hcall | observed hcall => exact h.goes_on hcall nofun rfl (List.Subset.refl _)
  | observeSender hcall => exact h.goes_on hcall nofun rfl (List.Subset.refl _)
  | promote hcall => exact h.goes_on hcall nofun rfl (subset_afterEnqueue hI _ _)
  | handle hcall => exact h.handle hI hcall
  | dequeue hqueue =>
      exact h.keeps rfl fun k hmem _ => (hI.dequeue hqueue).keeps k hmem List.not_mem_nil
  | reuse hash => exact h.keeps rfl fun k hmem _ => (hI.reuse _ hash).keeps k hmem List.not_mem_nil
  | complete hash hfailed =>
      refine h.keeps rfl fun k hmem hawaits => (hI.complete _ hash).keeps k hmem fun hk => ?_
      exact hfailed (List.mem_singleton.mp hk ▸ hawaits)
  | background hqueue hfailed =>
      refine h.keeps rfl fun k hmem hawaits => ?_
      by_contra hgone
      exact hfailed k hmem hgone hawaits

/-! ## While a rewind is quiet -/

/-- What the loop of `Observe` still has to do, a valid transaction of the block is behind. -/
def Backed (c : Handling) : Prop :=
  match c.phase with
  | .delivered | .observing [] | .observed => True
  | .observing (_ :: _) | .handing _ _ => ∃ t ∈ c.block.transactions, t.fabricTxStatus.valid

structure Inv (tracked : Q → List Bytes) (s : Fenced Q) : Prop where
  fence : s.rewinding = false → s.rewinder = .idle
  mutex : s.submission ≠ none → s.rewinding = false
  backed : ∀ c ∈ s.handles, Backed c
  quiet : ∀ {offered}, s.rewinder = .quiet offered → tracked s.queue = [] ∧ s.offered = offered

theorem highest_eq_empty {txs : List Domain.Transaction}
    (h : ∀ t ∈ txs, t.fabricTxStatus.valid = false) : highest d txs = ∅ := by
  unfold highest
  induction txs with
  | nil => rfl
  | cons t txs ih =>
      rw [List.foldl_cons, if_pos (h t List.mem_cons_self)]
      exact ih fun t ht => h t (List.mem_cons_of_mem _ ht)

theorem backed_observing {block : Domain.Block} {order : List (Σ _ : Bytes, Nat)}
    (horder : order.Perm (highest d block.transactions).entries) :
    Backed ⟨block, .observing order⟩ := by
  cases order with
  | nil => trivial
  | cons e left =>
      show ∃ t ∈ block.transactions, t.fabricTxStatus.valid
      by_contra hnone
      simp only [not_exists, not_and, Bool.not_eq_true] at hnone
      rw [highest_eq_empty hnone] at horder
      exact List.cons_ne_nil _ _ horder.eq_nil

theorem Backed.promoted {block : Domain.Block} {e : Σ _ : Bytes, Nat}
    {left : List (Σ _ : Bytes, Nat)} (h : Backed ⟨block, .observing (e :: left)⟩)
    (tx : Option EthTx) : Backed ⟨block, promoted left tx⟩ := by
  cases tx with
  | some tx => exact h
  | none =>
      cases left with
      | nil => trivial
      | cons e left => exact h

theorem Backed.observing {block : Domain.Block} {tx : EthTx} {left : List (Σ _ : Bytes, Nat)}
    (h : Backed ⟨block, .handing tx left⟩) : Backed ⟨block, .observing left⟩ := by
  cases left with
  | nil => trivial
  | cons e left => exact h

/-- One call goes on, and the other ones stay. -/
theorem Inv.goes_on (h : Inv tracked s) {pre post : List Handling} {c c' : Handling}
    (hcall : s.handles = pre ++ c :: post) (hc : Backed c → Backed c') :
    ∀ c ∈ pre ++ c' :: post, Backed c := by
  have hall := h.backed
  rw [hcall] at hall
  simp only [List.forall_mem_append, List.forall_mem_cons] at hall ⊢
  exact ⟨hall.1, hc hall.2.1, hall.2.2⟩

/-- In a quiet gateway `Observe` has nothing to hand over. -/
theorem Inv.not_handing (h : Inv tracked s) (htied : Tied tracked s) {offered : List EthTx}
    (hquiet : s.rewinder = .quiet offered) {block : Domain.Block} {tx : EthTx}
    {left : List (Σ _ : Bytes, Nat)} : ⟨block, .handing tx left⟩ ∉ s.handles := by
  intro hmem
  obtain ⟨t, ht, hvalid⟩ : ∃ t ∈ block.transactions, t.fabricTxStatus.valid := h.backed _ hmem
  have htracked := htied.tracked _ ⟨_, hmem, nofun, t, ht, hvalid, rfl⟩
  rw [(h.quiet hquiet).1] at htracked
  exact List.not_mem_nil htracked

/-- What leaves the fence, the rewinder and the calls as they are, and makes the queue forget
at most. -/
theorem Inv.forgets (h : Inv tracked s) {queue : Q} (gate : NonceGate)
    (hqueue : tracked queue ⊆ tracked s.queue) : Inv tracked { s with queue, gate } where
  fence := h.fence
  mutex := h.mutex
  backed := h.backed
  quiet hquiet := by
    obtain ⟨hnone, hoffered⟩ := h.quiet hquiet
    rw [hnone] at hqueue
    exact ⟨List.subset_nil.mp hqueue, hoffered⟩

/-- A submission goes on, in a gateway that no rewind has closed. -/
theorem Inv.submits (h : Inv tracked s) (hopen : s.rewinding = false)
    (hs' : s'.rewinding = s.rewinding ∧ s'.rewinder = s.rewinder ∧ s'.handles = s.handles) :
    Inv tracked s' := by
  obtain ⟨hrewinding, hrewinder, hhandles⟩ := hs'
  have hidle : s'.rewinder = .idle := hrewinder.trans (h.fence hopen)
  refine ⟨fun _ => hidle, fun _ => hrewinding.trans hopen, hhandles ▸ h.backed, ?_⟩
  intro offered hquiet
  exact nomatch hidle.symm.trans hquiet

theorem Inv.step (hI : Tracking I tracked) (h : Inv tracked s) (htied : Tied tracked s)
    (hstep : Step I executes tracked d signer s s') : Inv tracked s' := by
  cases hstep with
  | submit tx hmu hopen => exact h.submits hopen ⟨rfl, rfl, rfl⟩
  | refuse hsub => exact h.submits (h.mutex (by simp [hsub])) ⟨rfl, rfl, rfl⟩
  | admitTx hsub =>
      refine h.submits (h.mutex (by simp [hsub])) ?_
      unfold admitted
      split <;> exact ⟨rfl, rfl, rfl⟩
  | admitReads hsub => exact h.submits (h.mutex (by simp [hsub])) ⟨rfl, rfl, rfl⟩
  | resume hsub =>
      refine h.submits (h.mutex (by simp [hsub])) ?_
      unfold admitted
      split <;> exact ⟨rfl, rfl, rfl⟩
  | enqueue hsub => exact h.submits (h.mutex (by simp [hsub])) ⟨rfl, rfl, rfl⟩
  | deliver block htracked hother =>
      refine ⟨h.fence, h.mutex, ?_, h.quiet⟩
      simp only [List.forall_mem_append, List.forall_mem_singleton]
      exact ⟨h.backed, trivial⟩
  | observe hcall hlock horder =>
      exact ⟨h.fence, h.mutex, h.goes_on hcall fun _ => backed_observing horder, h.quiet⟩
  | observeSender hcall hturn =>
      exact ⟨h.fence, h.mutex, h.goes_on hcall fun hc => hc.promoted _, h.quiet⟩
  | promote hcall =>
      refine ⟨h.fence, h.mutex, h.goes_on hcall Backed.observing, fun hquiet => ?_⟩
      exact absurd (hcall ▸ List.mem_append_right _ List.mem_cons_self) (h.not_handing htied hquiet)
  | observed hcall => exact ⟨h.fence, h.mutex, h.goes_on hcall fun _ => trivial, h.quiet⟩
  | @handle pre block post hcall =>
      have hforgets := h.forgets s.gate (hI.handle s.queue block).subset
      refine ⟨h.fence, h.mutex, fun c hc => h.backed c ?_, hforgets.quiet⟩
      rw [hcall]
      exact (List.sublist_cons_self _ _).append_left _ |>.subset hc
  | dequeue hqueue => exact h.forgets _ (hI.dequeue hqueue).subset
  | reuse hash => exact h.forgets _ (hI.reuse _ hash).subset
  | complete hash => exact h.forgets _ (hI.complete _ hash).subset
  | background hqueue => exact h.forgets _ (hI.background hqueue)
  | prune hlock hturn => exact h.forgets _ (List.Subset.refl _)
  | beginRewind hidle hmu => exact ⟨nofun, fun hsome => absurd hmu hsome, h.backed, nofun⟩
  | drained hdrain hzero =>
      rw [hI.inFlight, List.length_eq_zero_iff] at hzero
      refine ⟨fun hopen => ?_, h.mutex, h.backed, fun hquiet => ?_⟩
      · exact nomatch hdrain.symm.trans (h.fence hopen)
      · cases hquiet
        exact ⟨hzero, rfl⟩
  | giveUp hdrain hmu => exact ⟨fun _ => rfl, fun _ => rfl, h.backed, nofun⟩
  | endRewind hquiet hmu => exact ⟨fun _ => rfl, fun _ => rfl, h.backed, nofun⟩

theorem Reachable.inv (hI : Tracking I tracked) (h : Reachable I executes tracked d signer s) :
    Inv tracked s ∧ Tied tracked s := by
  induction h with
  | start queue gate =>
      refine ⟨⟨fun _ => rfl, fun _ => rfl, nofun, nofun⟩, ?_, List.Pairwise.nil⟩
      rintro hash ⟨c, hc, -⟩
      exact absurd hc List.not_mem_nil
  | step _ hstep ih => exact ⟨ih.1.step hI ih.2 hstep, ih.2.step hI hstep⟩

/-- From the moment `beginRewind` returns nil until `endRewind`, the queue tracks nothing, no
submission is under way, and nothing is given to `Enqueue`. -/
theorem Reachable.quiet_until_endRewind (hI : Tracking I tracked)
    (h : Reachable I executes tracked d signer s) {offered : List EthTx}
    (hquiet : s.rewinder = .quiet offered) :
    tracked s.queue = [] ∧ s.submission = none ∧ s.offered = offered := by
  have hinv := (h.inv hI).1
  obtain ⟨hnone, hoffered⟩ := hinv.quiet hquiet
  refine ⟨hnone, ?_, hoffered⟩
  by_contra hsub
  exact nomatch hquiet.symm.trans (hinv.fence (hinv.mutex hsub))

theorem not_awaits_nil {hash : Bytes} : ¬ Awaits [] hash := fun ⟨_, hc, _⟩ => List.not_mem_nil hc

/-- The nonce 0 is submitted and the nonce 1 parked.  A rewind begins, the block with the nonce 0
comes and releases the nonce 1, and the queue cannot have it endorsed.  Then the rewind goes on. -/
theorem quiet_past_promotion : ∃ s : Fenced (Pipeline Unit),
    Reachable Pipeline.workQueue (fun _ _ => True) (·.queue.tracked.keys) sampleDecoders sampleSigner
        s ∧
      s.rewinder = .quiet [transfer₀.tx, transfer₁.tx] ∧ s.queue.queue.tracked.keys = [] := by
  have h₀ : Reachable Pipeline.workQueue (fun _ (_ : Unit) => True) (·.queue.tracked.keys)
      sampleDecoders sampleSigner _ :=
    .start { queue := { chanSize := 2 } } { maxPerSender := 4, maxSenders := 1, ttl := 100 }
  have hsubmitted := (((h₀.step (.submit transfer₀.tx rfl rfl)).step
    (@Step.admitReads _ _ _ _ _ _ _ _ ⟨account₀, 0, transfer₀.tx, none⟩ _ rfl rfl
      (@Turn.admitReads _ _ _ _ account₀ transfer₀.tx 0 _ rfl rfl))).step
    (@Step.resume _ _ _ _ _ _ _ _ _ (some 0) _ _ rfl rfl (@Turn.resume _ _ _ _ _ _ 0 _ rfl))).step
    (.enqueue rfl)
  have hparked := (hsubmitted.step (.submit transfer₁.tx rfl rfl)).step
    (@Step.admitTx _ _ _ _ _ _ _ _ account₀ _ _ _ rfl rfl
      (@Turn.admitTx _ _ _ _ _ _ 0 _ _ rfl rfl))
  have htaken := ((((((hparked.step (.beginRewind rfl rfl)).step
    (@Step.background _ _ _ _ _ _ _ _ _ ⟨.take, trivial, rfl⟩ fun _ _ _ => not_awaits_nil)).step
    (@Step.background _ _ _ _ _ _ _ _ _ ⟨.endorse 0 () [], fun _ _ => trivial, rfl⟩
      fun _ _ _ => not_awaits_nil)).step
    (@Step.background _ _ _ _ _ _ _ _ _
      ⟨.release [⟨0, txRefID transfer₀.tx.hash, []⟩], trivial, rfl⟩
      fun _ _ _ => not_awaits_nil)).step
    (@Step.background _ _ _ _ _ _ _ _ _ ⟨.drain, trivial, rfl⟩ fun _ _ _ => not_awaits_nil)).step
    (.dequeue rfl)).step (.reuse transfer₀.tx.hash)
  have hdelivered := htaken.step (.deliver (minedBlock transfer₀) (by decide) nofun)
  have hobserved := ((((hdelivered.step
    (@Step.observe _ _ _ _ _ _ _ _ [] _ [] _ rfl rfl (.refl _))).step
    (@Step.observeSender _ _ _ _ _ _ _ _ [] _ _ _ [] [] _ _ rfl
      (@Turn.observeSender _ _ _ _ _ _ 0 _ rfl))).step
    (@Step.promote _ _ _ _ _ _ _ _ [] _ _ _ [] rfl)).step
    (@Step.observed _ _ _ _ _ _ _ _ [] _ [] rfl)).step
    (@Step.handle _ _ _ _ _ _ _ _ [] _ [] rfl)
  have hdrained := ((hobserved.step
    (@Step.background _ _ _ _ _ _ _ _ _ ⟨.take, trivial, rfl⟩ fun _ _ _ => not_awaits_nil)).step
    (@Step.background _ _ _ _ _ _ _ _ _ ⟨.fail 0, trivial, rfl⟩ fun _ _ _ => not_awaits_nil)).step
    (.drained rfl rfl)
  exact ⟨_, hdrained, rfl, (hdrained.quiet_until_endRewind Pipeline.tracking rfl).1⟩

end Fenced

end Gateway

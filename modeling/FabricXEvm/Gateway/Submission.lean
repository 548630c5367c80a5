import FabricXEvm.Gateway.TxQueue

/-!
# From the queue to the orderer

The workers of the gateway take transactions from the queue, have them endorsed, and send the
endorsements over a channel to the batch submitter, whose own workers hand them to the
orderer.  A transaction that fails on the way is completed in the queue, since no block will
ever do that.

`Flow` has every worker with what it holds, and `Flow.Step` what any one of them can do next,
so a run is any interleaving.  Between `Dequeue` and the return of `Submit` nothing is lost
and nothing is doubled, whatever the queue (`accounted`).  With the plain queue, what is in
progress is on its way or awaits a block (`no_leak`), and when nothing is in flight everything
that was accepted has reached a block or failed (`settled_of_inFlight_eq_zero`).  There one
worker with one submitter keeps the order of the queue (`in_order`).
-/

open Blocks Common

namespace Gateway

/-- `EndorsedTx`. -/
structure EndorsedTx (ε : Type) where
  hash : Bytes
  endorsement : ε

/-- Where `Gateway.worker` is. -/
inductive Worker (ε : Type) where
  /-- In `Dequeue`. -/
  | idle
  /-- In `processTx`, before it asks for an endorsement to reuse. -/
  | processing (tx : EthTx)
  /-- In `ExecuteEthTx`. -/
  | endorsing (tx : EthTx)
  /-- In `SubmitFabricTx`, at the channel. -/
  | sending (e : EndorsedTx ε)

/-- Where `BatchSubmitter.worker` is. -/
inductive BatchWorker (ε : Type) where
  /-- At the channel. -/
  | idle
  /-- In `submitOne`, before `Submit`. -/
  | limited (e : EndorsedTx ε)
  /-- In `Submit`. -/
  | submitting (e : EndorsedTx ε)

/-- The hash a worker holds. -/
def Worker.held {ε : Type} : Worker ε → List Bytes
  | .idle => []
  | .processing tx | .endorsing tx => [tx.hash]
  | .sending e => [e.hash]

def BatchWorker.held {ε : Type} : BatchWorker ε → List Bytes
  | .idle => []
  | .limited e | .submitting e => [e.hash]

/-- The hash a worker has yet to call `Submit` with. -/
def BatchWorker.waiting {ε : Type} : BatchWorker ε → List Bytes
  | .limited e => [e.hash]
  | .idle | .submitting _ => []

/-- The gateway's workers, the channel and the batch submitter, with what happened so far. -/
structure Flow (Q ε : Type) where
  queue : Q
  workers : List (Worker ε)
  channel : List (EndorsedTx ε) := []
  submitters : List (BatchWorker ε)
  /-- What `Enqueue` took. -/
  accepted : List EthTx := []
  /-- What `Dequeue` returned. -/
  taken : List EthTx := []
  /-- What `Submit` was called with. -/
  calls : List (EndorsedTx ε) := []
  /-- What `Submit` was called with, unless it failed or a block had it since. -/
  awaited : List Bytes := []
  /-- What was awaited when a block had it. -/
  ordered : List Bytes := []
  /-- What `Submit` returned no error for. -/
  submitted : List Bytes := []
  /-- What was completed after an error. -/
  failed : List Bytes := []

/-- A queue as the workers use it: its methods, `ReusableEndorsement`, and what the queue's own
goroutines may do meanwhile, given what `ExecuteTransaction` may return to them. -/
structure WorkQueue (Q ε : Type) extends TxQueueInterface Q where
  /-- A queue that is no `endorsementReuser` has nothing to reuse. -/
  reusableEndorsement : Q → Bytes → Q × Option ε := fun q _ => (q, none)
  background : (EthTx → ε → Prop) → Q → Q → Prop := fun _ _ _ => False

/-- The plain queue has no goroutines, and nothing to reuse. -/
def TxQueue.workQueue {ε : Type} : WorkQueue TxQueue ε := { TxQueue.interface with }

/-- What the gateway works with: what `ExecuteTransaction` may return, the size of the channel,
when `Submit` may fail, which blocks may arrive, and whether the context may end. -/
structure Setting (Q ε : Type) where
  executes : EthTx → ε → Prop
  endorsementChanSize : Nat
  refuses : Flow Q ε → EndorsedTx ε → Prop
  delivers : Flow Q ε → Domain.Block → Prop
  contextEnds : Prop := True

namespace Flow

variable {Q ε : Type}

/-- A transaction failed: it is completed in the queue. -/
def fail (I : WorkQueue Q ε) (s : Flow Q ε) (hash : Bytes) : Flow Q ε :=
  { s with queue := I.complete s.queue hash, failed := s.failed ++ [hash] }

/-- What may happen next. -/
inductive Step (I : WorkQueue Q ε) (S : Setting Q ε) : Flow Q ε → Flow Q ε → Prop where
  | enqueue {s : Flow Q ε} {tx : EthTx} {queue : Q} (h : I.enqueue s.queue tx = .ok queue) :
      Step I S s { s with queue, accepted := s.accepted ++ [tx] }
  | dequeue {s : Flow Q ε} {pre post : List (Worker ε)} {tx : EthTx} {queue : Q}
      (hw : s.workers = pre ++ .idle :: post) (h : I.dequeue s.queue = some (tx, queue)) :
      Step I S s { s with
        queue, workers := pre ++ .processing tx :: post, taken := s.taken ++ [tx] }
  | background {s : Flow Q ε} {queue : Q} (h : I.background S.executes s.queue queue) :
      Step I S s { s with queue }
  | reuse {s : Flow Q ε} {pre post : List (Worker ε)} {tx : EthTx} {e : ε} {queue : Q}
      (hw : s.workers = pre ++ .processing tx :: post)
      (h : I.reusableEndorsement s.queue tx.hash = (queue, some e)) :
      Step I S s { s with queue, workers := pre ++ .sending ⟨tx.hash, e⟩ :: post }
  | execute {s : Flow Q ε} {pre post : List (Worker ε)} {tx : EthTx} {queue : Q}
      (hw : s.workers = pre ++ .processing tx :: post)
      (h : I.reusableEndorsement s.queue tx.hash = (queue, none)) :
      Step I S s { s with queue, workers := pre ++ .endorsing tx :: post }
  | executed {s : Flow Q ε} {pre post : List (Worker ε)} {tx : EthTx} {e : ε}
      (hw : s.workers = pre ++ .endorsing tx :: post) (h : S.executes tx e) :
      Step I S s { s with workers := pre ++ .sending ⟨tx.hash, e⟩ :: post }
  /-- `ExecuteEthTx` fails. -/
  | rejected {s : Flow Q ε} {pre post : List (Worker ε)} {tx : EthTx}
      (hw : s.workers = pre ++ .endorsing tx :: post) :
      Step I S s { s.fail I tx.hash with workers := pre ++ .idle :: post }
  | send {s : Flow Q ε} {pre post : List (Worker ε)} {e : EndorsedTx ε}
      (hw : s.workers = pre ++ .sending e :: post)
      (hroom : s.channel.length < S.endorsementChanSize) :
      Step I S s { s with workers := pre ++ .idle :: post, channel := s.channel ++ [e] }
  /-- The context is done first. -/
  | canceled {s : Flow Q ε} {pre post : List (Worker ε)} {e : EndorsedTx ε}
      (hw : s.workers = pre ++ .sending e :: post) (hends : S.contextEnds) :
      Step I S s { s.fail I e.hash with workers := pre ++ .idle :: post }
  | receive {s : Flow Q ε} {pre post : List (BatchWorker ε)} {e : EndorsedTx ε}
      {rest : List (EndorsedTx ε)} (hw : s.submitters = pre ++ .idle :: post)
      (hc : s.channel = e :: rest) :
      Step I S s { s with submitters := pre ++ .limited e :: post, channel := rest }
  /-- The wait for the rate limiter fails, since the context is done. -/
  | throttled {s : Flow Q ε} {pre post : List (BatchWorker ε)} {e : EndorsedTx ε}
      (hw : s.submitters = pre ++ .limited e :: post) (hends : S.contextEnds) :
      Step I S s { s.fail I e.hash with submitters := pre ++ .idle :: post }
  | submit {s : Flow Q ε} {pre post : List (BatchWorker ε)} {e : EndorsedTx ε}
      (hw : s.submitters = pre ++ .limited e :: post) :
      Step I S s { s with
        submitters := pre ++ .submitting e :: post
        calls := s.calls ++ [e]
        awaited := s.awaited ++ [e.hash] }
  | submitted {s : Flow Q ε} {pre post : List (BatchWorker ε)} {e : EndorsedTx ε}
      (hw : s.submitters = pre ++ .submitting e :: post) :
      Step I S s { s with
        submitters := pre ++ .idle :: post, submitted := s.submitted ++ [e.hash] }
  /-- `Submit` fails. -/
  | refused {s : Flow Q ε} {pre post : List (BatchWorker ε)} {e : EndorsedTx ε}
      (hw : s.submitters = pre ++ .submitting e :: post) (h : S.refuses s e) :
      Step I S s { s.fail I e.hash with
        submitters := pre ++ .idle :: post, awaited := s.awaited.erase e.hash }
  /-- A block arrives, at any time between the other steps. -/
  | handle {s : Flow Q ε} {block : Domain.Block} (h : S.delivers s block) :
      Step I S s { s with
        queue := I.handle s.queue block
        awaited := s.awaited.filter (· ∉ blockHashes block)
        ordered := s.ordered ++ s.awaited.filter (· ∈ blockHashes block) }

/-- Nothing has happened yet. -/
def start (queue : Q) (workerCount numWorkers : Nat) : Flow Q ε where
  queue := queue
  workers := List.replicate workerCount .idle
  submitters := List.replicate numWorkers .idle

inductive Reachable (I : WorkQueue Q ε) (S : Setting Q ε) (s₀ : Flow Q ε) :
    Flow Q ε → Prop where
  | refl : Reachable I S s₀ s₀
  | step {s t : Flow Q ε} (h : Reachable I S s₀ s) (hstep : Step I S s t) : Reachable I S s₀ t

/-- The hashes that somebody holds between `Dequeue` and the return of `Submit`. -/
def held (s : Flow Q ε) : List Bytes :=
  s.workers.flatMap Worker.held ++ s.channel.map EndorsedTx.hash ++
    s.submitters.flatMap BatchWorker.held

/-- The hashes on their way to `Submit`, the next ones first. -/
def waiting (s : Flow Q ε) : List Bytes :=
  s.submitters.flatMap BatchWorker.waiting ++ s.channel.map EndorsedTx.hash ++
    s.workers.flatMap Worker.held

variable {I : WorkQueue Q ε} {S : Setting Q ε} {queue : Q} {workerCount numWorkers : Nat}
  {s t : Flow Q ε}

theorem held_start : (start queue workerCount numWorkers : Flow Q ε).held = [] := by
  simp [start, held, List.flatMap_replicate, Worker.held, BatchWorker.held]

theorem waiting_start : (start queue workerCount numWorkers : Flow Q ε).waiting = [] := by
  simp [start, waiting, List.flatMap_replicate, Worker.held, BatchWorker.waiting]

/-! ## A transaction on its way -/

/-- An orderer that may refuse what is awaited, and blocks with nothing that is still on its
way. -/
def openSetting (executes : EthTx → ε → Prop) : Setting Q ε where
  executes := executes
  endorsementChanSize := 1
  refuses s e := e.hash ∈ s.awaited
  delivers s block := ∀ hash ∈ blockHashes block, hash ∉ s.waiting

/-- One transaction, from the queue to `Submit`. -/
theorem reachable_awaited {executes : EthTx → ε → Prop} {e : ε} (h : executes transfer₀.tx e) :
    ∃ s, Reachable TxQueue.workQueue (openSetting executes) (start {} 1 1) s ∧
      s.accepted = [transfer₀.tx] ∧ s.taken = [transfer₀.tx] ∧ s.calls = [⟨transfer₀.tx.hash, e⟩] ∧
      s.queue = { inProgressMap := AList.insert transfer₀.tx.hash transfer₀.tx ∅ } ∧ s.waiting = [] := by
  have hendorsed := ((((Reachable.refl (I := TxQueue.workQueue) (S := openSetting executes)).step
    (@Step.enqueue _ _ _ _ (start {} 1 1) transfer₀.tx _ rfl)).step
    (@Step.dequeue _ _ _ _ _ [] [] transfer₀.tx _ rfl rfl)).step
    (@Step.execute _ _ _ _ _ [] [] transfer₀.tx _ rfl rfl)).step
    (@Step.executed _ _ _ _ _ [] [] transfer₀.tx e rfl h)
  have hcalled := ((hendorsed.step
    (@Step.send _ _ _ _ _ [] [] ⟨transfer₀.tx.hash, e⟩ rfl Nat.zero_lt_one)).step
    (@Step.receive _ _ _ _ _ [] [] ⟨transfer₀.tx.hash, e⟩ [] rfl rfl)).step
    (@Step.submit _ _ _ _ _ [] [] ⟨transfer₀.tx.hash, e⟩ rfl)
  exact ⟨_, hcalled, rfl, rfl, rfl, rfl, rfl⟩

/-- Every transaction is endorsed. -/
def anyEndorsement : EthTx → Unit → Prop := fun _ _ => True

theorem any_transfer : anyEndorsement transfer₀.tx () := trivial

/-! ## Nothing is lost and nothing is doubled -/

/-- The books of a run, by hash. -/
structure Accounted (s : Flow Q ε) : Prop where
  taken : ∀ hash, (s.taken.map EthTx.hash).count hash =
    s.held.count hash + s.submitted.count hash + s.failed.count hash
  calls : ∀ hash, (s.calls.map EndorsedTx.hash).count hash + s.waiting.count hash ≤
    (s.taken.map EthTx.hash).count hash

theorem Accounted.step (h : Accounted s) (hstep : Step I S s t) : Accounted t := by
  suffices hboth : ∀ hash,
      (t.taken.map EthTx.hash).count hash =
        t.held.count hash + t.submitted.count hash + t.failed.count hash ∧
      (t.calls.map EndorsedTx.hash).count hash + t.waiting.count hash ≤
        (t.taken.map EthTx.hash).count hash from
    ⟨fun hash => (hboth hash).1, fun hash => (hboth hash).2⟩
  intro hash
  have htaken := h.taken hash
  have hcalls := h.calls hash
  cases hstep with
  | enqueue _ | background _ | handle _ => exact ⟨htaken, hcalls⟩
  | receive hw hc =>
      simp only [held, waiting, hw, hc, List.flatMap_append, List.flatMap_cons,
        List.count_append, List.map_cons, List.count_cons, BatchWorker.held,
        BatchWorker.waiting, List.count_nil] at htaken hcalls ⊢
      omega
  | dequeue hw _ | reuse hw _ | execute hw _ | executed hw _ | rejected hw | send hw _
  | canceled hw _ | throttled hw _ | submit hw | submitted hw | refused hw _ =>
      simp only [held, waiting, fail, hw, List.flatMap_append, List.flatMap_cons,
        List.count_append, List.map_append, List.map_cons, List.map_nil, List.count_cons,
        Worker.held, BatchWorker.held, BatchWorker.waiting, List.count_nil] at htaken hcalls ⊢
      omega

theorem Reachable.books (h : Reachable I S (start queue workerCount numWorkers) s) :
    Accounted s := by
  induction h with
  | refl =>
      constructor
      · intro hash
        rw [held_start]
        rfl
      · intro hash
        rw [waiting_start]
        rfl
  | step _ hstep ih => exact ih.step hstep

/-- Whatever the queue, what `Dequeue` returned is held by somebody, was submitted or was
completed after an error, each time once; and `Submit` is called at most once for it. -/
theorem accounted (h : Reachable I S (start queue workerCount numWorkers) s) :
    (s.taken.map EthTx.hash).Perm (s.held ++ s.submitted ++ s.failed) ∧
      (s.calls.map EndorsedTx.hash).Subperm (s.taken.map EthTx.hash) := by
  have hbooks := h.books
  constructor
  · rw [List.perm_iff_count]
    intro hash
    rw [List.count_append, List.count_append]
    exact hbooks.taken hash
  · rw [List.subperm_ext_iff]
    intro hash _
    have := hbooks.calls hash
    omega

theorem accounted_transfer : ∃ s : Flow TxQueue Unit, s.taken = [transfer₀.tx] ∧
    (s.taken.map EthTx.hash).Perm (s.held ++ s.submitted ++ s.failed) ∧
      (s.calls.map EndorsedTx.hash).Subperm (s.taken.map EthTx.hash) := by
  obtain ⟨s, hreach, -, htaken, -⟩ := reachable_awaited any_transfer
  exact ⟨s, htaken, accounted hreach⟩

end Flow

/-! ## With the plain queue -/

namespace TxQueue

theorem mem_inProgressMap_handle {q : TxQueue} {block : Domain.Block} {hash : Bytes} :
    hash ∈ (q.handle block).inProgressMap ↔
      hash ∈ q.inProgressMap ∧ hash ∉ blockHashes block := by
  unfold handle blockHashes
  induction block.transactions generalizing q with
  | nil => simp
  | cons tx txs ih =>
      rw [List.foldl_cons, ih, handleTx, complete, AList.mem_erase, List.map_cons,
        List.mem_cons]
      tauto

end TxQueue

namespace Flow

variable {ε : Type} {S : Setting TxQueue ε} {workerCount numWorkers : Nat} {s t : Flow TxQueue ε}

/-- The hashes that are on their way to `Submit` or await a block. -/
def outstanding (s : Flow TxQueue ε) : List Bytes := s.waiting ++ s.awaited

/-- What a step does to the books of the plain queue. -/
inductive Effect (S : Setting TxQueue ε) (s t : Flow TxQueue ε) : Prop where
  | none (hq : t.queue.inProgressMap = s.queue.inProgressMap)
      (ho : t.outstanding.Perm s.outstanding) (htaken : t.taken = s.taken)
      (hordered : t.ordered = s.ordered) (hfailed : t.failed = s.failed)
  | take {tx : EthTx} (hnew : tx.hash ∉ s.queue.inProgressMap)
      (hq : t.queue.inProgressMap = s.queue.inProgressMap.insert tx.hash tx)
      (ho : t.outstanding.Perm (tx.hash :: s.outstanding)) (htaken : t.taken = s.taken ++ [tx])
      (hordered : t.ordered = s.ordered) (hfailed : t.failed = s.failed)
  | fail {hash : Bytes} (hq : t.queue.inProgressMap = s.queue.inProgressMap.erase hash)
      (ho : s.outstanding.Perm (hash :: t.outstanding)) (htaken : t.taken = s.taken)
      (hordered : t.ordered = s.ordered) (hfailed : t.failed = s.failed ++ [hash])
  /-- `Submit` fails after a block had the transaction. -/
  | late {e : EndorsedTx ε} (hrefuses : S.refuses s e) (hlate : e.hash ∉ s.awaited)
      (hq : t.queue.inProgressMap = s.queue.inProgressMap.erase e.hash)
      (ho : t.outstanding = s.outstanding)
  | handle {block : Domain.Block} (hdelivers : S.delivers s block)
      (hq : t.queue = s.queue.handle block)
      (hwaiting : t.waiting = s.waiting)
      (hawaited : t.awaited = s.awaited.filter (· ∉ blockHashes block))
      (htaken : t.taken = s.taken)
      (hordered : t.ordered = s.ordered ++ s.awaited.filter (· ∈ blockHashes block))
      (hfailed : t.failed = s.failed)

theorem Step.effect (hinv : s.queue.Inv) (hstep : Step TxQueue.workQueue S s t) :
    Effect S s t := by
  cases hstep with
  | enqueue hq =>
      obtain ⟨hok, -⟩ | ⟨herror, -⟩ := TxQueue.enqueue_ok hinv _
      · obtain rfl := Except.ok.inj (hok.symm.trans hq)
        exact .none rfl (.refl _) rfl rfl rfl
      · cases herror.symm.trans hq
  | @dequeue pre post tx _ hw hq =>
      obtain ⟨rest, hpending, rfl⟩ := TxQueue.dequeue_spec hq
      have hnew : tx.hash ∉ s.queue.inProgressMap := fun hmem => by
        have honce := hinv.once
        rw [TxQueue.present, hpending, List.map_cons, List.cons_append] at honce
        exact (List.nodup_cons.mp honce).1 (List.mem_append_right _ hmem)
      refine .take hnew rfl (List.perm_iff_count.mpr fun hash => ?_) rfl rfl rfl
      simp only [outstanding, waiting, hw, List.flatMap_append, List.flatMap_cons,
        List.count_append, List.count_cons, Worker.held, List.count_nil]
      omega
  | receive hw hc =>
      refine .none rfl (List.perm_iff_count.mpr fun hash => ?_) rfl rfl rfl
      simp only [outstanding, waiting, hw, hc, List.flatMap_append, List.flatMap_cons,
        List.count_append, List.map_cons, List.count_cons, BatchWorker.waiting, List.count_nil]
      omega
  | send hw _ | submit hw =>
      refine .none rfl (List.perm_iff_count.mpr fun hash => ?_) rfl rfl rfl
      simp only [outstanding, waiting, hw, List.flatMap_append, List.flatMap_cons,
        List.count_append, List.map_append, List.map_cons, List.map_nil, List.count_cons,
        Worker.held, BatchWorker.waiting, List.count_nil]
      omega
  | background h => cases h
  | reuse _ h => cases h
  | execute hw h =>
      cases h
      refine .none rfl (.of_eq ?_) rfl rfl rfl
      simp only [outstanding, waiting, hw, List.flatMap_append, List.flatMap_cons, Worker.held]
  | executed hw _ | submitted hw =>
      refine .none rfl (.of_eq ?_) rfl rfl rfl
      simp only [outstanding, waiting, hw, List.flatMap_append, List.flatMap_cons, Worker.held,
        BatchWorker.waiting]
  | rejected hw | canceled hw _ | throttled hw _ =>
      refine .fail rfl (List.perm_iff_count.mpr fun hash => ?_) rfl rfl rfl
      simp only [outstanding, waiting, Flow.fail, hw, List.flatMap_append, List.flatMap_cons,
        List.count_append, List.count_cons, Worker.held, BatchWorker.waiting, List.count_nil]
      omega
  | @refused pre post e hw h =>
      have hwaiting : s.submitters.flatMap BatchWorker.waiting =
          (pre ++ .idle :: post).flatMap BatchWorker.waiting := by
        simp only [hw, List.flatMap_append, List.flatMap_cons, BatchWorker.waiting]
      by_cases hmem : e.hash ∈ s.awaited
      · refine .fail rfl ?_ rfl rfl rfl
        rw [outstanding, outstanding, waiting, hwaiting]
        exact ((List.perm_cons_erase hmem).append_left _).trans List.perm_middle
      · refine .late h hmem rfl ?_
        rw [outstanding, outstanding, waiting, waiting, hwaiting]
        exact congrArg _ (List.erase_of_not_mem hmem)
  | handle h => exact .handle h rfl rfl rfl rfl rfl rfl

theorem inv_step (hinv : s.queue.Inv) (hstep : Step TxQueue.workQueue S s t) : t.queue.Inv := by
  cases hstep with
  | enqueue hq => exact hinv.enqueue hq
  | dequeue _ hq => exact hinv.dequeue hq
  | rejected | canceled | throttled | refused => exact hinv.complete _
  | handle => exact hinv.handle _
  | background h | reuse _ h => cases h
  | execute _ h =>
      cases h
      exact hinv
  | executed | send | receive | submit | submitted => exact hinv

theorem Reachable.inv (h : Reachable TxQueue.workQueue S (start {} workerCount numWorkers) s) :
    s.queue.Inv := by
  induction h with
  | refl => exact ⟨fun hash => by simp [start], List.nodup_nil⟩
  | step _ hstep ih => exact inv_step ih hstep

/-- What is in progress is on its way to `Submit`, or it awaits a block: no interleaving, no
error and no block leaves a transaction in progress that nobody will complete. -/
theorem no_leak (h : Reachable TxQueue.workQueue S (start {} workerCount numWorkers) s)
    {hash : Bytes} (hmem : hash ∈ s.queue.inProgressMap) :
    hash ∈ s.waiting ∨ hash ∈ s.awaited := by
  suffices hout : ∀ hash ∈ s.queue.inProgressMap, hash ∈ s.outstanding from
    List.mem_append.mp (hout hash hmem)
  clear hmem
  induction h with
  | refl => exact fun hash hmem => absurd hmem (AList.notMem_empty hash)
  | step hreach hstep ih =>
      intro hash hmem
      cases hstep.effect hreach.inv with
      | none hq ho =>
          rw [hq] at hmem
          exact ho.mem_iff.mpr (ih hash hmem)
      | take _ hq ho =>
          rw [hq, AList.mem_insert] at hmem
          rw [ho.mem_iff, List.mem_cons]
          exact hmem.imp_right (ih hash)
      | fail hq ho =>
          rw [hq, AList.mem_erase] at hmem
          exact (List.mem_cons.mp (ho.mem_iff.mp (ih hash hmem.2))).resolve_left hmem.1
      | late _ _ hq ho =>
          rw [hq, AList.mem_erase] at hmem
          exact ho ▸ ih hash hmem.2
      | handle _ hq hwaiting hawaited =>
          rw [hq, TxQueue.mem_inProgressMap_handle] at hmem
          rw [outstanding, hwaiting, hawaited, List.mem_append, List.mem_filter]
          exact (List.mem_append.mp (ih hash hmem.1)).imp_right fun h =>
            ⟨h, decide_eq_true hmem.2⟩

theorem no_leak_transfer : ∃ s : Flow TxQueue Unit, transfer₀.tx.hash ∈ s.queue.inProgressMap ∧
    (transfer₀.tx.hash ∈ s.waiting ∨ transfer₀.tx.hash ∈ s.awaited) := by
  obtain ⟨s, hreach, -, -, -, hqueue, -⟩ := reachable_awaited any_transfer
  have hmem : transfer₀.tx.hash ∈ s.queue.inProgressMap := by
    rw [hqueue]
    exact (AList.mem_insert _).mpr (.inl rfl)
  exact ⟨s, hmem, no_leak hreach hmem⟩

/-! ## Nothing in flight -/

/-- The orderer is this gateway's: a transaction is in a block only after `Submit` was called
with it, and what `Submit` fails for is in no block. -/
structure Orderly (S : Setting TxQueue ε) : Prop where
  delivers : ∀ {s block}, S.delivers s block → ∀ hash ∈ blockHashes block, hash ∉ s.waiting
  refuses : ∀ {s e}, S.refuses s e → e.hash ∈ s.awaited

theorem orderly_openSetting (executes : EthTx → ε → Prop) : Orderly (openSetting executes) :=
  ⟨fun h => h, fun h => h⟩

/-- What was taken is outstanding, ordered or failed, and what is outstanding is in progress. -/
structure Tracked (s : Flow TxQueue ε) : Prop where
  once : s.outstanding.Nodup
  inProgress : ∀ hash ∈ s.outstanding, hash ∈ s.queue.inProgressMap
  taken : ∀ hash, (s.taken.map EthTx.hash).count hash =
    s.outstanding.count hash + s.ordered.count hash + s.failed.count hash

theorem Tracked.handle (hS : Orderly S) (h : Tracked s) {block : Domain.Block}
    (hdelivers : S.delivers s block) (hq : t.queue = s.queue.handle block)
    (hwaiting : t.waiting = s.waiting)
    (hawaited : t.awaited = s.awaited.filter (· ∉ blockHashes block))
    (htaken : t.taken = s.taken)
    (hordered : t.ordered = s.ordered ++ s.awaited.filter (· ∈ blockHashes block))
    (hfailed : t.failed = s.failed) : Tracked t := by
  have hsub : t.outstanding.Sublist s.outstanding := by
    rw [outstanding, outstanding, hwaiting, hawaited]
    exact List.filter_sublist.append_left _
  refine ⟨h.once.sublist hsub, fun hash hmem => ?_, fun hash => ?_⟩
  · rw [hq, TxQueue.mem_inProgressMap_handle]
    refine ⟨h.inProgress hash (hsub.subset hmem), ?_⟩
    rw [outstanding, hwaiting, hawaited, List.mem_append, List.mem_filter] at hmem
    rcases hmem with hmem | ⟨-, hnot⟩
    · exact fun hblock => hS.delivers hdelivers hash hblock hmem
    · exact of_decide_eq_true hnot
  · have hsplit := (List.filter_append_perm (· ∈ blockHashes block) s.awaited).count_eq hash
    have ih := h.taken hash
    simp only [outstanding, List.count_append] at hsplit ih
    simp only [htaken, hordered, hfailed, outstanding, hwaiting, hawaited, List.count_append,
      decide_not]
    omega

theorem Tracked.step (hS : Orderly S) (h : Tracked s) (hinv : s.queue.Inv)
    (hstep : Step TxQueue.workQueue S s t) : Tracked t := by
  cases hstep.effect hinv with
  | none hq ho htaken hordered hfailed =>
      refine ⟨ho.nodup_iff.mpr h.once, fun hash hmem => ?_, fun hash => ?_⟩
      · exact hq ▸ h.inProgress hash (ho.mem_iff.mp hmem)
      · rw [htaken, hordered, hfailed, ho.count_eq]
        exact h.taken hash
  | @take tx hnew hq ho htaken hordered hfailed =>
      have hout : tx.hash ∉ s.outstanding := fun hmem => hnew (h.inProgress _ hmem)
      refine ⟨ho.nodup_iff.mpr (List.nodup_cons.mpr ⟨hout, h.once⟩), fun hash hmem => ?_,
        fun hash => ?_⟩
      · rw [hq, AList.mem_insert]
        exact (List.mem_cons.mp (ho.mem_iff.mp hmem)).imp_right (h.inProgress hash)
      · have ih := h.taken hash
        rw [htaken, hordered, hfailed, ho.count_eq, List.map_append, List.count_append,
          List.map_cons, List.map_nil, List.count_cons, List.count_cons, List.count_nil]
        omega
  | @fail failed hq ho htaken hordered hfailed =>
      obtain ⟨hout, honce⟩ := List.nodup_cons.mp (ho.nodup_iff.mp h.once)
      refine ⟨honce, fun hash hmem => ?_, fun hash => ?_⟩
      · rw [hq, AList.mem_erase]
        exact ⟨fun heq => hout (heq ▸ hmem),
          h.inProgress hash (ho.mem_iff.mpr (List.mem_cons_of_mem _ hmem))⟩
      · have ih := h.taken hash
        rw [ho.count_eq, List.count_cons] at ih
        rw [htaken, hordered, hfailed, List.count_append, List.count_cons, List.count_nil]
        omega
  | late hrefuses hlate => exact absurd (hS.refuses hrefuses) hlate
  | handle hdelivers hq hwaiting hawaited htaken hordered hfailed =>
      exact h.handle hS hdelivers hq hwaiting hawaited htaken hordered hfailed

theorem pendingQueue_handle (q : TxQueue) (block : Domain.Block) :
    (q.handle block).pendingQueue = q.pendingQueue := by
  unfold TxQueue.handle
  induction block.transactions generalizing q with
  | nil => rfl
  | cons tx txs ih => exact ih _

theorem enqueue_spec {q q' : TxQueue} {tx : EthTx} (h : q.enqueue tx = .ok q') :
    q'.pendingQueue = q.pendingQueue ++ [tx] := by
  unfold TxQueue.enqueue at h
  split at h
  next => cases h
  next =>
    split at h
    next => cases h
    next =>
      obtain rfl := Except.ok.inj h
      rfl

theorem accepted_step (h : s.accepted = s.taken ++ s.queue.pendingQueue)
    (hstep : Step TxQueue.workQueue S s t) : t.accepted = t.taken ++ t.queue.pendingQueue := by
  cases hstep with
  | enqueue hq => simp only [h, enqueue_spec hq, List.append_assoc]
  | dequeue _ hq =>
      obtain ⟨rest, hpending, rfl⟩ := TxQueue.dequeue_spec hq
      simp only [h, hpending, List.append_assoc, List.singleton_append]
  | handle => exact h.trans (congrArg _ (pendingQueue_handle _ _).symm)
  | background h' | reuse _ h' => cases h'
  | execute _ h' =>
      cases h'
      exact h
  | executed | rejected | send | canceled | receive | throttled | submit | submitted
  | refused => exact h

/-- The plain queue hands out what it took, in order. -/
theorem Reachable.accepted_eq
    (h : Reachable TxQueue.workQueue S (start {} workerCount numWorkers) s) :
    s.accepted = s.taken ++ s.queue.pendingQueue := by
  induction h with
  | refl => rfl
  | step _ hstep ih => exact accepted_step ih hstep

/-- Nothing in flight means that everything that was accepted has reached a block or failed,
each time it was accepted. -/
theorem settled_of_inFlight_eq_zero (hS : Orderly S)
    (h : Reachable TxQueue.workQueue S (start {} workerCount numWorkers) s)
    (hzero : s.queue.inFlight = 0) :
    (s.accepted.map EthTx.hash).Perm (s.ordered ++ s.failed) := by
  have htracked : Tracked s := by
    clear hzero
    induction h with
    | refl =>
        have hnil : (start {} workerCount numWorkers : Flow TxQueue ε).outstanding = [] := by
          rw [outstanding, waiting_start]
          rfl
        refine ⟨?_, ?_, fun hash => ?_⟩ <;> rw [hnil]
        · exact List.nodup_nil
        · exact fun hash hmem => absurd hmem List.not_mem_nil
        · rfl
    | step hreach hstep ih => exact ih.step hS hreach.inv hstep
  obtain ⟨hpending, hprogress⟩ := Nat.add_eq_zero_iff.mp hzero
  have hout : s.outstanding = [] := by
    refine List.eq_nil_iff_forall_not_mem.mpr fun hash hmem => ?_
    have hkey : hash ∈ s.queue.inProgressMap.keys := htracked.inProgress hash hmem
    rw [AList.keys, List.eq_nil_of_length_eq_zero hprogress] at hkey
    exact absurd hkey List.not_mem_nil
  rw [h.accepted_eq, List.eq_nil_of_length_eq_zero hpending, List.append_nil,
    List.perm_iff_count]
  intro hash
  rw [htracked.taken hash, hout, List.count_nil, Nat.zero_add, List.count_append]

theorem settled_transfer : ∃ s : Flow TxQueue Unit, s.accepted = [transfer₀.tx] ∧
    s.queue.inFlight = 0 ∧ (s.accepted.map EthTx.hash).Perm (s.ordered ++ s.failed) := by
  obtain ⟨s, hreach, haccepted, -, -, hqueue, hwaiting⟩ := reachable_awaited any_transfer
  have hdelivers : (openSetting anyEndorsement).delivers s (minedBlock transfer₀) := fun hash _ => by
    rw [hwaiting]
    exact List.not_mem_nil
  have hhandled := hreach.step (.handle hdelivers)
  have hzero : (s.queue.handle (minedBlock transfer₀)).inFlight = 0 := by
    rw [hqueue]
    rfl
  have hsettled := settled_of_inFlight_eq_zero (orderly_openSetting _) hhandled hzero
  refine ⟨_, ?_, ?_, hsettled⟩
  · exact haccepted
  · exact hzero

/-! ## One worker and one submitter -/

/-- What reaches `Submit`, and what is on its way there, are in the order of the queue. -/
structure InOrder (s : Flow TxQueue ε) : Prop where
  worker : s.workers.length = 1
  submitter : s.submitters.length = 1
  calls : (s.calls.map EndorsedTx.hash ++ s.waiting).Sublist (s.taken.map EthTx.hash)

theorem eq_nil_of_one {α : Type} {l pre post : List α} {a : α} (h : l.length = 1)
    (hl : l = pre ++ a :: post) : pre = [] ∧ post = [] := by
  rw [hl, List.length_append, List.length_cons] at h
  exact ⟨List.eq_nil_of_length_eq_zero (by omega), List.eq_nil_of_length_eq_zero (by omega)⟩

theorem InOrder.step (h : InOrder s) (hstep : Step TxQueue.workQueue S s t) : InOrder t := by
  have hcalls := h.calls
  cases hstep with
  | enqueue | background | handle => exact ⟨h.worker, h.submitter, hcalls⟩
  | @dequeue _ _ tx _ hw =>
      obtain ⟨rfl, rfl⟩ := eq_nil_of_one h.worker hw
      refine ⟨rfl, h.submitter, ?_⟩
      have happend := hcalls.append_right [tx.hash]
      simpa [waiting, hw, Worker.held] using happend
  | reuse hw | execute hw | executed hw | send hw =>
      obtain ⟨rfl, rfl⟩ := eq_nil_of_one h.worker hw
      refine ⟨rfl, h.submitter, ?_⟩
      simpa [waiting, hw, Worker.held] using hcalls
  | rejected hw | canceled hw =>
      obtain ⟨rfl, rfl⟩ := eq_nil_of_one h.worker hw
      refine ⟨rfl, h.submitter, List.Sublist.trans ?_ hcalls⟩
      simp [waiting, Flow.fail, hw, Worker.held]
  | receive hw hc =>
      obtain ⟨rfl, rfl⟩ := eq_nil_of_one h.submitter hw
      refine ⟨h.worker, rfl, ?_⟩
      simpa [waiting, hw, hc, BatchWorker.waiting] using hcalls
  | submit hw | submitted hw | refused hw =>
      obtain ⟨rfl, rfl⟩ := eq_nil_of_one h.submitter hw
      refine ⟨h.worker, rfl, ?_⟩
      simpa [waiting, Flow.fail, hw, BatchWorker.waiting] using hcalls
  | throttled hw =>
      obtain ⟨rfl, rfl⟩ := eq_nil_of_one h.submitter hw
      refine ⟨h.worker, rfl, List.Sublist.trans ?_ hcalls⟩
      simp [waiting, Flow.fail, hw, BatchWorker.waiting]

/-- One worker and one submitter call `Submit` in the order `Enqueue` took the transactions. -/
theorem in_order (h : Reachable TxQueue.workQueue S (start {} 1 1) s) :
    (s.calls.map EndorsedTx.hash).Sublist (s.accepted.map EthTx.hash) := by
  have horder : InOrder s := by
    induction h with
    | refl => exact ⟨rfl, rfl, .refl _⟩
    | step _ hstep ih => exact ih.step hstep
  rw [h.accepted_eq, List.map_append]
  exact (List.sublist_append_left _ _).trans (horder.calls.trans (List.sublist_append_left _ _))

/-- Two transactions, the second of which is taken when the first is submitted. -/
theorem in_order_two : ∃ s : Flow TxQueue Unit,
    s.calls = [⟨transfer₀.tx.hash, ()⟩, ⟨transfer₁.tx.hash, ()⟩] ∧
      (s.calls.map EndorsedTx.hash).Sublist (s.accepted.map EthTx.hash) := by
  have hqueued := ((Reachable.refl (I := TxQueue.workQueue) (S := openSetting anyEndorsement)).step
    (@Step.enqueue _ _ _ _ (start {} 1 1) transfer₀.tx _ rfl)).step
    (@Step.enqueue _ _ _ _ _ transfer₁.tx _ rfl)
  have hfirst := (((((((hqueued.step (@Step.dequeue _ _ _ _ _ [] [] transfer₀.tx _ rfl rfl)).step
    (@Step.execute _ _ _ _ _ [] [] transfer₀.tx _ rfl rfl)).step
    (@Step.executed _ _ _ _ _ [] [] transfer₀.tx () rfl trivial)).step
    (@Step.send _ _ _ _ _ [] [] ⟨transfer₀.tx.hash, ()⟩ rfl Nat.zero_lt_one)).step
    (@Step.receive _ _ _ _ _ [] [] ⟨transfer₀.tx.hash, ()⟩ [] rfl rfl)).step
    (@Step.submit _ _ _ _ _ [] [] ⟨transfer₀.tx.hash, ()⟩ rfl)).step
    (@Step.submitted _ _ _ _ _ [] [] ⟨transfer₀.tx.hash, ()⟩ rfl))
  have hsecond := ((((((hfirst.step (@Step.dequeue _ _ _ _ _ [] [] transfer₁.tx _ rfl rfl)).step
    (@Step.execute _ _ _ _ _ [] [] transfer₁.tx _ rfl rfl)).step
    (@Step.executed _ _ _ _ _ [] [] transfer₁.tx () rfl trivial)).step
    (@Step.send _ _ _ _ _ [] [] ⟨transfer₁.tx.hash, ()⟩ rfl Nat.zero_lt_one)).step
    (@Step.receive _ _ _ _ _ [] [] ⟨transfer₁.tx.hash, ()⟩ [] rfl rfl)).step
    (@Step.submit _ _ _ _ _ [] [] ⟨transfer₁.tx.hash, ()⟩ rfl))
  exact ⟨_, rfl, in_order hsecond⟩

end Flow

end Gateway

import FabricXEvm.Gateway.Submission

/-!
# Stopping the gateway

`Gateway.Stop` closes the queue, waits for the gateway's workers and then stops the batch
submitter.  A worker returns once `Dequeue` finds the queue closed and empty.  A batch worker
returns when its `select` picks the closed `stopChan`, which it may do with endorsements left
in the channel.

`Shutdown` is a `Flow` whose queue is closed; a goroutine that returned is gone from its list.
Transactions and blocks still arrive from outside, since the plain `Enqueue` does not look at
`done`.  The moves of the gateway itself are counted: there is a bounded number of them, and until
`Stop` has returned there is one that does not need the context to end, as long as the calls of
endorsers and of the orderer return (`stop_terminates`).  Of what was accepted before `Stop`,
nothing is left unprocessed but what the channel holds at the end (`stop_drains`).
-/

open Blocks Common

namespace Gateway

variable {ε : Type}

/-! ## The work that is left -/

/-- How many moves a worker has left at most, the endorsement it sends included. -/
def Worker.work : Worker ε → Nat
  | .idle => 1
  | .processing _ => 7
  | .endorsing _ => 6
  | .sending _ => 5

def BatchWorker.work : BatchWorker ε → Nat
  | .idle => 1
  | .limited _ => 3
  | .submitting _ => 2

namespace Flow

def work (s : Flow TxQueue ε) : Nat :=
  8 * s.queue.pendingQueue.length + (s.workers.map Worker.work).sum + 3 * s.channel.length +
    (s.submitters.map BatchWorker.work).sum

variable {S : Setting TxQueue ε} {s t : Flow TxQueue ε}

/-- A step from outside: nobody in the gateway moves. -/
structure Outside (s t : Flow TxQueue ε) : Prop where
  workers : t.workers = s.workers
  channel : t.channel = s.channel
  submitters : t.submitters = s.submitters
  pending : t.queue.pendingQueue.length + s.accepted.length =
    s.queue.pendingQueue.length + t.accepted.length

/-- A step is from outside, or it leaves less work. -/
theorem Step.work_lt (hstep : Step TxQueue.workQueue S s t) :
    Outside s t ∨ t.work < s.work ∧ t.accepted = s.accepted := by
  cases hstep with
  | enqueue hq =>
      refine .inl ⟨rfl, rfl, rfl, ?_⟩
      simp only [enqueue_spec hq, List.length_append, List.length_singleton]
      omega
  | handle => exact .inl ⟨rfl, rfl, rfl, congrArg (·.length + _) (pendingQueue_handle _ _)⟩
  | dequeue hw hq =>
      obtain ⟨rest, hpending, rfl⟩ := TxQueue.dequeue_spec hq
      refine .inr ⟨?_, rfl⟩
      simp only [work, hw, hpending, List.map_append, List.map_cons, List.sum_append,
        List.sum_cons, List.length_cons, Worker.work]
      omega
  | receive hw hc =>
      refine .inr ⟨?_, rfl⟩
      simp only [work, hw, hc, List.map_append, List.map_cons, List.sum_append, List.sum_cons,
        List.length_cons, BatchWorker.work]
      omega
  | background h | reuse _ h => cases h
  | execute hw h =>
      cases h
      refine .inr ⟨?_, rfl⟩
      simp only [work, hw, List.map_append, List.map_cons, List.sum_append, List.sum_cons,
        Worker.work]
      omega
  | executed hw | rejected hw | send hw | canceled hw | throttled hw | submit hw | submitted hw
  | refused hw =>
      refine .inr ⟨?_, rfl⟩
      simp only [work, Flow.fail, TxQueue.workQueue, TxQueue.interface, TxQueue.complete, hw,
        List.map_append, List.map_cons, List.sum_append, List.sum_cons, List.length_append, List.length_singleton,
        Worker.work, BatchWorker.work]
      omega

/-- No step adds or removes a goroutine, or overfills the channel. -/
theorem Step.lengths {Q : Type} {I : WorkQueue Q ε} {S : Setting Q ε} {s t : Flow Q ε}
    (hstep : Step I S s t) :
    t.workers.length = s.workers.length ∧ t.submitters.length = s.submitters.length ∧
      t.channel.length ≤ max s.channel.length S.endorsementChanSize := by
  cases hstep with
  | enqueue | background | handle => exact ⟨rfl, rfl, le_max_left _ _⟩
  | send hw hroom =>
      refine ⟨by simp [hw], rfl, le_max_of_le_right ?_⟩
      rw [List.length_append]
      exact hroom
  | receive hw hc => exact ⟨rfl, by simp [hw], le_max_of_le_left (by simp [hc])⟩
  | dequeue hw | reuse hw | execute hw | executed hw | rejected hw | canceled hw =>
      exact ⟨by simp [hw], rfl, le_max_left _ _⟩
  | throttled hw | submit hw | submitted hw | refused hw =>
      exact ⟨rfl, by simp [hw], le_max_left _ _⟩

/-- What was accepted and what was taken only grow. -/
theorem Step.grows {Q : Type} {I : WorkQueue Q ε} {S : Setting Q ε} {s t : Flow Q ε}
    (hstep : Step I S s t) : s.accepted <+: t.accepted ∧ s.taken <+: t.taken := by
  cases hstep with
  | enqueue => exact ⟨List.prefix_append _ _, List.prefix_refl _⟩
  | dequeue => exact ⟨List.prefix_refl _, List.prefix_append _ _⟩
  | background | reuse | execute | executed | rejected | send | canceled | receive | throttled
  | submit | submitted | refused | handle => exact ⟨List.prefix_refl _, List.prefix_refl _⟩

end Flow

/-! ## Runs of `Stop` -/

/-- The setting in which the context does not end. -/
def Setting.patient (S : Setting TxQueue ε) : Setting TxQueue ε := { S with contextEnds := False }

/-- A gateway after `TxQueue.Close`. -/
structure Shutdown (ε : Type) where
  flow : Flow TxQueue ε
  /-- `stopChan` is closed. -/
  stopping : Bool := false

namespace Shutdown

/-- What a goroutine of the gateway, or `Stop` itself, may do next. -/
inductive Move (S : Setting TxQueue ε) : Shutdown ε → Shutdown ε → Prop where
  | work {s : Shutdown ε} {flow : Flow TxQueue ε}
      (hstep : Flow.Step TxQueue.workQueue S s.flow flow)
      (hmoved : flow.workers ≠ s.flow.workers ∨ flow.submitters ≠ s.flow.submitters) :
      Move S s { s with flow }
  /-- `Dequeue` returns `false`. -/
  | leave {s : Shutdown ε} {pre post : List (Worker ε)}
      (hw : s.flow.workers = pre ++ .idle :: post) (hempty : s.flow.queue.dequeue = none) :
      Move S s { s with flow := { s.flow with workers := pre ++ post } }
  /-- `wg.Wait` returns and `BatchSubmitter.Stop` closes `stopChan`. -/
  | stop {s : Shutdown ε} (hworkers : s.flow.workers = []) (hstopping : s.stopping = false) :
      Move S s { s with stopping := true }
  /-- The `select` of a batch worker picks `stopChan`, whatever the channel holds. -/
  | quit {s : Shutdown ε} {pre post : List (BatchWorker ε)} (hstopping : s.stopping = true)
      (hw : s.flow.submitters = pre ++ .idle :: post) :
      Move S s { s with flow := { s.flow with submitters := pre ++ post } }

/-- `Stop` has returned. -/
def Stopped (s : Shutdown ε) : Prop := s.stopping = true ∧ s.flow.submitters = []

/-- A run with its number of moves. -/
inductive Run (S : Setting TxQueue ε) (s₀ : Shutdown ε) : Nat → Shutdown ε → Prop where
  | refl : Run S s₀ 0 s₀
  /-- A transaction or a block arrives. -/
  | outside {n : Nat} {s : Shutdown ε} {flow : Flow TxQueue ε} (h : Run S s₀ n s)
      (hstep : Flow.Step TxQueue.workQueue S s.flow flow)
      (hstay : flow.workers = s.flow.workers ∧ flow.submitters = s.flow.submitters) :
      Run S s₀ n { s with flow }
  | move {n : Nat} {s t : Shutdown ε} (h : Run S s₀ n s) (hmove : Move S s t) :
      Run S s₀ (n + 1) t

def work (s : Shutdown ε) : Nat := s.flow.work + if s.stopping then 0 else 1

variable {S : Setting TxQueue ε} {workerCount numWorkers n : Nat} {f : Flow TxQueue ε}
  {s₀ s t : Shutdown ε}

theorem Move.work_lt (hmove : Move S s t) :
    t.work < s.work ∧ t.flow.accepted = s.flow.accepted := by
  cases hmove with
  | work hstep hmoved =>
      obtain hout | ⟨hlt, haccepted⟩ := hstep.work_lt
      · exact absurd hmoved (by simp [hout.workers, hout.submitters])
      · exact ⟨Nat.add_lt_add_right hlt _, haccepted⟩
  | stop _ hstopping => exact ⟨by simp [Shutdown.work, hstopping], rfl⟩
  | leave hw | quit _ hw =>
      refine ⟨?_, rfl⟩
      simp only [Shutdown.work, Flow.work, hw, List.map_append, List.map_cons, List.sum_append,
        List.sum_cons, Worker.work, BatchWorker.work]
      omega

/-- Every move takes some of the work, and only what arrives adds to it. -/
theorem Run.work_le (h : Run S s₀ n s) :
    n + s.work + 8 * s₀.flow.accepted.length ≤ s₀.work + 8 * s.flow.accepted.length := by
  induction h with
  | refl => omega
  | outside _ hstep _ ih =>
      obtain hout | ⟨hlt, haccepted⟩ := hstep.work_lt
      · have hpending := hout.pending
        simp only [work, Flow.work, hout.workers, hout.channel, hout.submitters] at ih ⊢
        omega
      · simp only [work, haccepted] at ih ⊢
        omega
  | move _ hmove ih =>
      obtain ⟨hlt, haccepted⟩ := hmove.work_lt
      rw [haccepted]
      omega

/-! ## What holds in every run -/

/-- `f` is the gateway as it was when the queue was closed. -/
structure Inv (S : Setting TxQueue ε) (f : Flow TxQueue ε) (s : Shutdown ε) : Prop where
  books : s.flow.Accounted
  accepted : s.flow.accepted = s.flow.taken ++ s.flow.queue.pendingQueue
  before : f.accepted <+: s.flow.accepted
  /-- The last worker leaves an empty queue. -/
  drained : s.flow.workers = [] → f.workers = [] ∨ f.accepted <+: s.flow.taken
  room : s.flow.channel.length ≤ S.endorsementChanSize
  /-- The batch workers outlive the others. -/
  workers : s.stopping = true → s.flow.workers = []
  submitters : s.stopping = false → s.flow.submitters ≠ []

theorem lengths_of_reachable
    (h : Flow.Reachable TxQueue.workQueue S (.start {} workerCount numWorkers) f) :
    f.workers.length = workerCount ∧ f.submitters.length = numWorkers ∧
      f.channel.length ≤ S.endorsementChanSize := by
  induction h with
  | refl => exact ⟨List.length_replicate, List.length_replicate, Nat.zero_le _⟩
  | step _ hstep ih =>
      obtain ⟨hw, hs, hc⟩ := hstep.lengths
      exact ⟨hw.trans ih.1, hs.trans ih.2.1, hc.trans (max_le ih.2.2 le_rfl)⟩

theorem inv_of_reachable
    (h : Flow.Reachable TxQueue.workQueue S (.start {} workerCount numWorkers) f)
    (hnum : 0 < numWorkers) : Inv S f { flow := f } := by
  obtain ⟨-, hsubmitters, hroom⟩ := lengths_of_reachable h
  exact {
    books := h.books
    accepted := h.accepted_eq
    before := List.prefix_refl _
    drained := .inl
    room := hroom
    workers := fun hstopping => by cases hstopping
    submitters := fun _ hnil =>
      absurd ((List.length_eq_zero_iff.mpr hnil).symm.trans hsubmitters) hnum.ne }

theorem Inv.step (h : Inv S f s) {flow : Flow TxQueue ε}
    (hstep : Flow.Step TxQueue.workQueue S s.flow flow) : Inv S f { s with flow } := by
  obtain ⟨hw, hs, hc⟩ := hstep.lengths
  obtain ⟨haccepted, htaken⟩ := hstep.grows
  have hworkers : s.flow.workers = [] ↔ flow.workers = [] := by
    rw [← List.length_eq_zero_iff, ← List.length_eq_zero_iff, hw]
  have hsubmitters : s.flow.submitters = [] ↔ flow.submitters = [] := by
    rw [← List.length_eq_zero_iff, ← List.length_eq_zero_iff, hs]
  exact {
    books := h.books.step hstep
    accepted := Flow.accepted_step h.accepted hstep
    before := h.before.trans haccepted
    drained := fun hnil => (h.drained (hworkers.mpr hnil)).imp_right (·.trans htaken)
    room := hc.trans (max_le h.room le_rfl)
    workers := fun hstopping => hworkers.mp (h.workers hstopping)
    submitters := fun hstopping hnil => h.submitters hstopping (hsubmitters.mpr hnil) }

theorem pendingQueue_eq_nil {q : TxQueue} (h : q.dequeue = none) : q.pendingQueue = [] := by
  unfold TxQueue.dequeue at h
  split at h
  next hnil => exact hnil
  next => cases h

/-- A goroutine that returns holds nothing. -/
theorem books_of_held {flow flow' : Flow TxQueue ε} (h : flow.Accounted)
    (hheld : flow'.held = flow.held) (hwaiting : flow'.waiting = flow.waiting)
    (htaken : flow'.taken = flow.taken) (hcalls : flow'.calls = flow.calls)
    (hsubmitted : flow'.submitted = flow.submitted) (hfailed : flow'.failed = flow.failed) :
    flow'.Accounted where
  taken hash := by rw [hheld, htaken, hsubmitted, hfailed]; exact h.taken hash
  calls hash := by rw [hwaiting, htaken, hcalls]; exact h.calls hash

theorem Inv.move (h : Inv S f s) (hmove : Move S s t) : Inv S f t := by
  cases hmove with
  | work hstep => exact h.step hstep
  | stop hworkers =>
      exact { h with workers := fun _ => hworkers, submitters := fun hrunning => by cases hrunning }
  | leave hw hempty =>
      refine { h with books := ?_, drained := fun _ => ?_, workers := fun hstopping => ?_ }
      · refine books_of_held h.books ?_ ?_ rfl rfl rfl rfl <;>
          simp [Flow.held, Flow.waiting, hw, Worker.held]
      · have haccepted := h.accepted
        rw [pendingQueue_eq_nil hempty, List.append_nil] at haccepted
        exact .inr (haccepted ▸ h.before)
      · exact absurd (h.workers hstopping) (by simp [hw])
  | quit hstopping hw =>
      refine { h with books := ?_, submitters := fun hrunning => ?_ }
      · refine books_of_held h.books ?_ ?_ rfl rfl rfl rfl <;>
          simp [Flow.held, Flow.waiting, hw, BatchWorker.held, BatchWorker.waiting]
      · cases hstopping.symm.trans hrunning

theorem Run.inv (h : Run S { flow := f } n s) (h₀ : Inv S f { flow := f }) : Inv S f s := by
  induction h with
  | refl => exact h₀
  | outside _ hstep _ ih => exact ih.step hstep
  | move _ hmove ih => exact ih.move hmove

/-! ## `Stop` is never stuck -/

theorem exists_move_of_workers {w w' : Worker ε} {rest : List (Worker ε)}
    {flow : Flow TxQueue ε} (hstep : Flow.Step TxQueue.workQueue S s.flow flow)
    (hw : s.flow.workers = w :: rest) (hw' : flow.workers = w' :: rest) (hne : w' ≠ w) :
    ∃ t, Move S s t :=
  ⟨_, .work hstep (.inl (by simpa [hw, hw'] using hne))⟩

theorem exists_move_of_submitters {b b' : BatchWorker ε} {rest : List (BatchWorker ε)}
    {flow : Flow TxQueue ε} (hstep : Flow.Step TxQueue.workQueue S s.flow flow)
    (hw : s.flow.submitters = b :: rest) (hw' : flow.submitters = b' :: rest) (hne : b' ≠ b) :
    ∃ t, Move S s t :=
  ⟨_, .work hstep (.inr (by simpa [hw, hw'] using hne))⟩

/-- A batch worker can go on unless it waits at the channel. -/
theorem submitter_moves {b : BatchWorker ε} {rest : List (BatchWorker ε)}
    (hw : s.flow.submitters = b :: rest) : b = .idle ∨ ∃ t, Move S.patient s t := by
  cases b with
  | idle => exact .inl rfl
  | limited e =>
      have hstep := @Flow.Step.submit _ _ TxQueue.workQueue S.patient s.flow [] rest e hw
      exact .inr (exists_move_of_submitters hstep hw rfl (by simp))
  | submitting e =>
      have hstep := @Flow.Step.submitted _ _ TxQueue.workQueue S.patient s.flow [] rest e hw
      exact .inr (exists_move_of_submitters hstep hw rfl (by simp))

/-- A full channel holds up no one for long: some batch worker is there to empty it. -/
theorem full_moves (h : Inv S f s) (hrunning : s.stopping = false)
    (hfull : s.flow.channel ≠ []) : ∃ t, Move S.patient s t := by
  obtain ⟨b, rest, hw⟩ := List.exists_cons_of_ne_nil (h.submitters hrunning)
  obtain ⟨e, channel, hc⟩ := List.exists_cons_of_ne_nil hfull
  rcases submitter_moves (S := S) hw with rfl | hmove
  · have hstep := @Flow.Step.receive _ _ TxQueue.workQueue S.patient s.flow [] rest e channel hw hc
    exact exists_move_of_submitters hstep hw rfl (by simp)
  · exact hmove

/-- While a worker is left somebody can go on. -/
theorem worker_moves (hsize : 0 < S.endorsementChanSize) (h : Inv S f s) {w : Worker ε}
    {rest : List (Worker ε)} (hw : s.flow.workers = w :: rest) : ∃ t, Move S.patient s t := by
  cases w with
  | idle =>
      cases hq : s.flow.queue.dequeue with
      | none => exact ⟨_, @Move.leave _ _ _ [] rest hw hq⟩
      | some r =>
          have hstep :=
            @Flow.Step.dequeue _ _ TxQueue.workQueue S.patient s.flow [] rest r.1 r.2 hw hq
          exact exists_move_of_workers hstep hw rfl (by simp)
  | processing tx =>
      have hstep := @Flow.Step.execute _ _ TxQueue.workQueue S.patient s.flow [] rest tx _ hw rfl
      exact exists_move_of_workers hstep hw rfl (by simp)
  | endorsing tx =>
      -- `ExecuteEthTx` returns, if only with an error
      have hstep := @Flow.Step.rejected _ _ TxQueue.workQueue S.patient s.flow [] rest tx hw
      exact exists_move_of_workers hstep hw rfl (by simp)
  | sending e =>
      by_cases hroom : s.flow.channel.length < S.endorsementChanSize
      · have hstep := @Flow.Step.send _ _ TxQueue.workQueue S.patient s.flow [] rest e hw hroom
        exact exists_move_of_workers hstep hw rfl (by simp)
      · have hrunning : s.stopping = false := by
          by_contra hstopping
          cases hw.symm.trans (h.workers (by simpa using hstopping))
        exact full_moves h hrunning (List.ne_nil_of_length_pos (by omega))

/-- Until `Stop` has returned somebody can go on, without waiting for the context to end. -/
theorem stopped_or_moves (hsize : 0 < S.endorsementChanSize) (h : Inv S f s) :
    s.Stopped ∨ ∃ t, Move S.patient s t := by
  cases hw : s.flow.workers with
  | cons w rest => exact .inr (worker_moves hsize h hw)
  | nil =>
      cases hstopping : s.stopping with
      | false => exact .inr ⟨_, .stop hw hstopping⟩
      | true =>
          cases hb : s.flow.submitters with
          | nil => exact .inl ⟨hstopping, hb⟩
          | cons b rest =>
              rcases submitter_moves (S := S) hb with rfl | hmove
              · exact .inr ⟨_, @Move.quit _ _ _ [] rest hstopping hb⟩
              · exact .inr hmove

/-- In every interleaving the gateway makes a bounded number of moves after the queue is closed, at
most eight more for each transaction that still arrives.  Before `Stop` has returned it is never
stuck: there is a move that is possible also if the context does not end. -/
theorem stop_terminates
    (hreach : Flow.Reachable TxQueue.workQueue S (.start {} workerCount numWorkers) f)
    (hnum : 0 < numWorkers) (hsize : 0 < S.endorsementChanSize)
    (hrun : Run S { flow := f } n s) :
    n + 8 * f.accepted.length ≤ work { flow := f } + 8 * s.flow.accepted.length ∧
      (s.Stopped ∨ ∃ t, Move S.patient s t) := by
  have hinv := hrun.inv (inv_of_reachable hreach hnum)
  have hwork := hrun.work_le
  refine ⟨?_, stopped_or_moves hsize hinv⟩
  dsimp only at hwork
  omega

/-- When `Stop` has returned, everything that was accepted before it has been taken, and each
time it was submitted, completed after an error, or is one of the endorsements that the channel
still has room for.  Nothing else is lost. -/
theorem stop_drains
    (hreach : Flow.Reachable TxQueue.workQueue S (.start {} workerCount numWorkers) f)
    (hworker : 0 < workerCount) (hnum : 0 < numWorkers) (hrun : Run S { flow := f } n s)
    (hstopped : s.Stopped) :
    f.accepted <+: s.flow.taken ∧
      (s.flow.taken.map EthTx.hash).Perm
        (s.flow.channel.map EndorsedTx.hash ++ s.flow.submitted ++ s.flow.failed) ∧
      s.flow.channel.length ≤ S.endorsementChanSize := by
  have hinv := hrun.inv (inv_of_reachable hreach hnum)
  have hworkers := hinv.workers hstopped.1
  have hdrained : f.accepted <+: s.flow.taken := by
    refine (hinv.drained hworkers).resolve_left fun hnil => hworker.ne ?_
    rw [← (lengths_of_reachable hreach).1, hnil, List.length_nil]
  have hheld : s.flow.held = s.flow.channel.map EndorsedTx.hash := by
    simp [Flow.held, hworkers, hstopped.2]
  refine ⟨hdrained, List.perm_iff_count.mpr fun hash => ?_, hinv.room⟩
  rw [List.count_append, List.count_append, ← hheld]
  exact hinv.books.taken hash

/-! ## An endorsement that is left behind -/

open Gateway.Flow

/-- Two transactions are queued. -/
def queuedFlow : Flow TxQueue Unit :=
  { start
      { pendingQueue := [transfer₀.tx, transfer₁.tx]
        queuedMap :=
          (AList.insert transfer₀.tx.hash transfer₀.tx ∅).insert transfer₁.tx.hash transfer₁.tx }
      1 1 with
    accepted := [transfer₀.tx, transfer₁.tx] }

theorem reachable_queuedFlow :
    Reachable TxQueue.workQueue (openSetting anyEndorsement) (start {} 1 1) queuedFlow :=
  (Reachable.refl.step
    (@Step.enqueue _ _ _ _ (start ({} : TxQueue) 1 1) transfer₀.tx _ rfl)).step
    (@Step.enqueue _ _ _ _ _ transfer₁.tx _ rfl)

/-- The worker is at the channel, which has no room. -/
def fullChannel : Flow TxQueue Unit where
  queue :=
    { inProgressMap :=
        (AList.insert transfer₀.tx.hash transfer₀.tx ∅).insert transfer₁.tx.hash transfer₁.tx }
  workers := [.sending ⟨transfer₁.tx.hash, ()⟩]
  channel := [⟨transfer₀.tx.hash, ()⟩]
  submitters := [.idle]
  accepted := [transfer₀.tx, transfer₁.tx]
  taken := [transfer₀.tx, transfer₁.tx]

theorem run_fullChannel :
    Run (openSetting anyEndorsement) { flow := queuedFlow } 7 { flow := fullChannel } := by
  have hsent := ((((@Run.refl _ (openSetting anyEndorsement) { flow := queuedFlow }).move
    (.work (@Step.dequeue _ _ _ _ _ [] [] transfer₀.tx _ rfl rfl)
      (.inl (by simp [queuedFlow, start])))).move
    (.work (@Step.execute _ _ _ _ _ [] [] transfer₀.tx _ rfl rfl) (.inl (by simp)))).move
    (.work (@Step.executed _ _ _ _ _ [] [] transfer₀.tx () rfl trivial) (.inl (by simp)))).move
    (.work (@Step.send _ _ _ _ _ [] [] ⟨transfer₀.tx.hash, ()⟩ rfl Nat.zero_lt_one)
      (.inl (by simp)))
  exact ((hsent.move
    (.work (@Step.dequeue _ _ _ _ _ [] [] transfer₁.tx _ rfl rfl) (.inl (by simp)))).move
    (.work (@Step.execute _ _ _ _ _ [] [] transfer₁.tx _ rfl rfl) (.inl (by simp)))).move
    (.work (@Step.executed _ _ _ _ _ [] [] transfer₁.tx () rfl trivial)
      (.inl (by simp [fullChannel])))

/-- There the batch worker can go on. -/
theorem stop_terminates_fullChannel :
    7 + 8 * queuedFlow.accepted.length ≤
        work { flow := queuedFlow } + 8 * fullChannel.accepted.length ∧
      (Stopped { flow := fullChannel } ∨
        ∃ t, Move (openSetting anyEndorsement).patient { flow := fullChannel } t) :=
  stop_terminates reachable_queuedFlow Nat.one_pos Nat.one_pos run_fullChannel

/-- A batch worker that finds both channels ready may pick `stopChan`. -/
theorem exists_left_behind : ∃ n s, Run (openSetting anyEndorsement) { flow := queuedFlow } n s ∧
    s.Stopped ∧ s.flow.channel = [⟨transfer₁.tx.hash, ()⟩] := by
  have hsent := (run_fullChannel.move
    (.work (@Step.receive _ _ _ _ _ [] [] ⟨transfer₀.tx.hash, ()⟩ [] rfl rfl)
      (.inr (by simp [fullChannel])))).move
    (.work (@Step.send _ _ _ _ _ [] [] ⟨transfer₁.tx.hash, ()⟩ rfl Nat.zero_lt_one)
      (.inl (by simp [fullChannel])))
  have hsubmitted := (hsent.move
    (.work (@Step.submit _ _ _ _ _ [] [] ⟨transfer₀.tx.hash, ()⟩ rfl) (.inr (by simp)))).move
    (.work (@Step.submitted _ _ _ _ _ [] [] ⟨transfer₀.tx.hash, ()⟩ rfl) (.inr (by simp)))
  have hstopped := ((hsubmitted.move (@Move.leave _ _ _ [] [] rfl rfl)).move (.stop rfl rfl)).move
    (@Move.quit _ _ _ [] [] rfl rfl)
  exact ⟨_, _, hstopped, ⟨rfl, rfl⟩, rfl⟩

theorem stop_drains_left_behind : ∃ s : Shutdown Unit,
    s.flow.channel = [⟨transfer₁.tx.hash, ()⟩] ∧ queuedFlow.accepted <+: s.flow.taken ∧
      (s.flow.taken.map EthTx.hash).Perm
        (s.flow.channel.map EndorsedTx.hash ++ s.flow.submitted ++ s.flow.failed) ∧
      s.flow.channel.length ≤ 1 := by
  obtain ⟨n, s, hrun, hstopped, hchannel⟩ := exists_left_behind
  exact ⟨s, hchannel, stop_drains reachable_queuedFlow Nat.one_pos Nat.one_pos hrun hstopped⟩

end Shutdown

end Gateway

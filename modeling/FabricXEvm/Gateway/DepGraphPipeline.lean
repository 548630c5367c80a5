import FabricXEvm.Gateway.DepGraphQueue
import FabricXEvm.Lib.Loops

/-!
# The queue, its workers and the dependency manager

A transaction goes from `Enqueue` over the `admitted` channel to a worker that endorses
it, then to the manager, which makes a node of it and releases the node when it sees fit,
and comes back through `markReady` into the ready list.  `Pipeline` has all of it.  Next to
the queue it records which nodes were received and handed back, and which transactions are
out: returned by `Dequeue` and since then neither completed nor in a handled block.

Any number of transactions with the same hash may be in the pipeline, as a hash can be
enqueued again once it is not tracked any more.  What the manager promises about the nodes
it releases is not part of the step function; a run is over the actions a predicate allows.
-/

open Blocks Common

namespace Gateway

variable {ε : Type}

/-! ## Entries -/

/-- The transaction tracked under a hash, and the node it holds. -/
def DepGraphQueue.held (q : DepGraphQueue ε) (hash : Bytes) : Option (EthTx × Option Node) :=
  (q.tracked.lookup hash).map fun t => (t.tx, t.node)

/-- The transaction a node is released for, if it is tracked. -/
def DepGraphQueue.servedBy (q : DepGraphQueue ε) (node : Node) : Option (EthTx × Node) :=
  (hashFromTxRefID node.id).bind fun hash => (q.held hash).map fun entry => (entry.1, node)

/-! ## The machine -/

structure Pipeline (ε : Type) where
  queue : DepGraphQueue ε
  /-- The transactions workers are endorsing, with the `commitSeq` they loaded. -/
  endorsing : List (EthTx × Nat) := []
  /-- Endorsed and on its way to the manager, or there and not released. -/
  waiting : List Node := []
  nextSerial : Nat := 0
  outgoing : List (List Node) := []
  /-- The nodes `markReady` was called with. -/
  received : List Node := []
  /-- The nodes sent on the `validated` channel. -/
  validated : List Node := []
  /-- The ready transactions, each with the node it was released with. -/
  serving : List (EthTx × Node) := []
  /-- Returned by `Dequeue`, and not completed or in a handled block since. -/
  inFlight : List (EthTx × Node) := []

inductive Action (ε : Type) where
  | enqueue (tx : EthTx)
  /-- A worker takes the next admitted transaction. -/
  | take
  /-- The endorsement of the `i`-th transaction fails. -/
  | fail (i : Nat)
  | endorse (i : Nat) (endorsement : ε) (content : Content)
  /-- The manager releases a batch. -/
  | release (nodes : List Node)
  /-- `drainReleased` gets the next batch. -/
  | drain
  | dequeue
  | complete (hash : Bytes)
  | handle (block : Domain.Block)
  | reuse (hash : Bytes)

namespace Pipeline

/-- All nodes the manager has released. -/
def released (s : Pipeline ε) : List Node := s.received ++ s.outgoing.flatten

/-- After a method untracked the hashes and sent the nodes back. -/
def handBack (s : Pipeline ε) (result : DepGraphQueue ε × List Node) (hashes : List Bytes) :
    Pipeline ε :=
  { s with
    queue := result.1
    validated := s.validated ++ result.2
    inFlight := s.inFlight.filter fun p => p.1.hash ∉ hashes }

def step (s : Pipeline ε) : Action ε → Option (Pipeline ε)
  | .enqueue tx =>
      match s.queue.enqueue tx with
      | .error _ => some s
      | .ok q => some { s with queue := q }
  | .take =>
      match s.queue.admitted with
      | [] => none
      | tx :: rest => some
          { s with
            queue := { s.queue with admitted := rest }
            endorsing := s.endorsing ++ [(tx, s.queue.commitSeq)] }
  | .fail i =>
      s.endorsing[i]?.map fun p =>
        { s with queue := s.queue.drop p.1.hash, endorsing := s.endorsing.eraseIdx i }
  | .endorse i endorsement content =>
      s.endorsing[i]?.map fun p =>
        { s with
          queue := s.queue.keepEndorsement p.1.hash p.2 endorsement content
          endorsing := s.endorsing.eraseIdx i
          waiting := s.waiting ++ [⟨s.nextSerial, txRefID p.1.hash, content⟩]
          nextSerial := s.nextSerial + 1 }
  | .release nodes =>
      if nodes.Nodup ∧ ∀ n ∈ nodes, n ∈ s.waiting then some
        { s with
          waiting := s.waiting.filter (· ∉ nodes)
          outgoing := s.outgoing ++ [nodes] }
      else none
  | .drain =>
      match s.outgoing with
      | [] => none
      | nodes :: rest =>
          let result := s.queue.markReady nodes
          some
            { s with
              queue := result.1
              outgoing := rest
              received := s.received ++ nodes
              validated := s.validated ++ result.2
              serving := s.serving ++ nodes.filterMap s.queue.servedBy }
  | .dequeue =>
      match s.queue.dequeue, s.serving with
      | some (tx, q), p :: rest => some
          { s with queue := q, serving := rest, inFlight := s.inFlight ++ [(tx, p.2)] }
      | _, _ => none
  | .complete hash => some (s.handBack (s.queue.complete hash) [hash])
  | .handle block => some (s.handBack (s.queue.handle block) (blockHashes block))
  | .reuse hash => some { s with queue := (s.queue.reusableEndorsement hash).1 }

/-- The states reached by actions that `ok` allows. -/
inductive Reachable (ok : Pipeline ε → Action ε → Prop) : Pipeline ε → Prop where
  | start (chanSize : Nat) : Reachable ok { queue := { chanSize } }
  | step {s s' : Pipeline ε} {a : Action ε} :
      Reachable ok s → ok s a → s.step a = some s' → Reachable ok s'

end Pipeline

/-! ## What each method does to the entries -/

namespace DepGraphQueue

variable {q : DepGraphQueue ε} {hash k : Bytes}

theorem held_insert (t : TrackedTx ε) :
    { q with tracked := q.tracked.insert hash t }.held k =
      if k = hash then some (t.tx, t.node) else q.held k := by
  unfold held
  rw [FinMap.lookup_insert_if]
  split <;> rfl

theorem held_erase :
    { q with tracked := q.tracked.erase hash }.held k = if k = hash then none else q.held k := by
  unfold held
  rw [FinMap.lookup_erase_if]
  split <;> rfl

/-- An update of the other fields of an entry. -/
theorem held_insert_same {t t' : TrackedTx ε} (h : q.tracked.lookup hash = some t)
    (htx : t'.tx = t.tx) (hnode : t'.node = t.node) :
    { q with tracked := q.tracked.insert hash t' }.held k = q.held k := by
  rw [held_insert]
  split
  next hk => rw [hk, held, h, htx, hnode]; rfl
  next => rfl

theorem enqueue_ok {q' : DepGraphQueue ε} {tx : EthTx} (h : q.enqueue tx = .ok q') :
    q.held tx.hash = none ∧ q'.admitted = q.admitted ++ [tx] ∧ q'.ready = q.ready ∧
      ∀ k, q'.held k = if k = tx.hash then some (tx, none) else q.held k := by
  unfold enqueue at h
  split at h
  · cases h
  · split at h
    · cases h
    next hnew =>
      split at h
      · cases h
      · obtain rfl := Except.ok.inj h
        exact ⟨by simpa [held] using hnew, rfl, rfl, fun k => held_insert (q := q) { tx }⟩

/-- The method changes the map of entries only, and no transaction or node in it. -/
def SameEntries (q q' : DepGraphQueue ε) : Prop :=
  (∃ tracked, q' = { q with tracked }) ∧ ∀ k, q'.held k = q.held k

theorem sameEntries_keepEndorsement (hash : Bytes) (seq : Nat) (endorsement : ε) (content : Content) :
    SameEntries q (q.keepEndorsement hash seq endorsement content) := by
  unfold keepEndorsement
  cases h : q.tracked.lookup hash with
  | none => exact ⟨⟨_, rfl⟩, fun _ => rfl⟩
  | some t => exact ⟨⟨_, rfl⟩, fun k => held_insert_same h rfl rfl⟩

theorem sameEntries_reusableEndorsement (hash : Bytes) :
    SameEntries q (q.reusableEndorsement hash).1 := by
  unfold reusableEndorsement
  cases h : q.tracked.lookup hash with
  | none => exact ⟨⟨_, rfl⟩, fun _ => rfl⟩
  | some t =>
      cases hkept : t.kept with
      | none =>
          simp only [hkept]
          exact ⟨⟨_, rfl⟩, fun _ => rfl⟩
      | some e =>
          have hsame : SameEntries q
              { q with tracked := q.tracked.insert hash { t with kept := none } } :=
            ⟨⟨_, rfl⟩, fun k => held_insert_same h rfl rfl⟩
          simp only [hkept]
          split
          · exact hsame
          · split <;> exact hsame

/-- `Handle` counts the block and then untracks its hashes. -/
theorem handle_eq (block : Domain.Block) :
    ∃ q' : DepGraphQueue ε, q.handle block = q'.takeNodes (blockHashes block) ∧
      (∀ k, q'.held k = q.held k) ∧ q'.ready = q.ready := by
  unfold handle
  dsimp only
  split
  next h =>
    refine ⟨q, ?_, fun _ => rfl, rfl⟩
    rw [blockHashes, List.length_eq_zero_iff.mp h]
    rfl
  next => exact ⟨_, rfl, fun _ => rfl, rfl⟩

/-- `takeNodes` works hash by hash. -/
theorem takeNodes_cons (hashes : List Bytes) :
    q.takeNodes (hash :: hashes) =
      (((q.complete hash).1.takeNodes hashes).1,
        (q.complete hash).2 ++ ((q.complete hash).1.takeNodes hashes).2) := by
  refine List.foldl_collect (fun q out hash => ?_) hashes _ _
  unfold takeNode
  dsimp only
  split <;> simp

theorem complete_cases (hash : Bytes) :
    (q.held hash = none ∧ q.complete hash = (q, [])) ∨
      ∃ tx node, q.held hash = some (tx, node) ∧
        q.complete hash = ({ q with tracked := q.tracked.erase hash }, node.toList) := by
  unfold complete takeNodes held
  rw [List.foldl_cons, List.foldl_nil, takeNode]
  cases h : q.tracked.lookup hash with
  | none => exact .inl ⟨rfl, rfl⟩
  | some t => exact .inr ⟨t.tx, t.node, rfl, rfl⟩

/-- `markReady` works node by node. -/
theorem markReady_cons (n : Node) (nodes : List Node) :
    q.markReady (n :: nodes) =
      (((q.markReady [n]).1.markReady nodes).1,
        (q.markReady [n]).2 ++ ((q.markReady [n]).1.markReady nodes).2) := by
  refine List.foldl_collect (fun q out n => ?_) nodes _ _
  unfold markReadyNode
  dsimp only
  split
  · simp
  · split <;> simp

theorem markReady_cases (n : Node) :
    (q.servedBy n = none ∧ q.markReady [n] = (q, [n])) ∨
      ∃ hash tx node q', hashFromTxRefID n.id = some hash ∧ q.held hash = some (tx, node) ∧
        q.servedBy n = some (tx, n) ∧ q.markReady [n] = (q', []) ∧
        q'.ready = q.ready ++ [tx] ∧ q'.admitted = q.admitted ∧
        ∀ k, q'.held k = if k = hash then some (tx, some n) else q.held k := by
  unfold markReady servedBy
  rw [List.foldl_cons, List.foldl_nil, markReadyNode]
  cases hid : hashFromTxRefID n.id with
  | none => exact .inl ⟨rfl, rfl⟩
  | some hash =>
      simp only [Option.bind_some]
      cases h : q.tracked.lookup hash with
      | none => exact .inl ⟨by simp [held, h], rfl⟩
      | some t =>
          exact .inr ⟨hash, t.tx, t.node, _, rfl, by simp [held, h], by simp [held, h], rfl, rfl, rfl,
            fun k => held_insert { t with node := some n }⟩

end DepGraphQueue

namespace Pipeline

variable {s s' : Pipeline ε}

/-! ## Node by node and hash by hash -/

theorem handBack_cons (hash : Bytes) (hashes : List Bytes) :
    s.handBack (s.queue.takeNodes (hash :: hashes)) (hash :: hashes) =
      (s.handBack (s.queue.complete hash) [hash]).handBack
        ((s.queue.complete hash).1.takeNodes hashes) hashes := by
  rw [DepGraphQueue.takeNodes_cons]
  simp only [handBack, List.append_assoc, List.filter_filter, mk.injEq, true_and]
  refine List.filter_congr fun p _ => ?_
  simp [Bool.and_comm]

/-- What completing one hash keeps, `takeNodes` keeps. -/
theorem takeNodes_rule {P : Pipeline ε → Prop} {hashes : List Bytes}
    (hstep : ∀ {s hash}, hash ∈ hashes → P s → P (s.handBack (s.queue.complete hash) [hash]))
    (hs : P s) : P (s.handBack (s.queue.takeNodes hashes) hashes) := by
  induction hashes generalizing s with
  | nil =>
      have hnil : s.handBack (s.queue.takeNodes []) [] = s := by
        simp [handBack, DepGraphQueue.takeNodes]
      rwa [hnil]
  | cons hash hashes ih =>
      rw [handBack_cons]
      exact ih (fun hmem => hstep (List.mem_cons_of_mem _ hmem)) (hstep (List.mem_cons_self ..) hs)

/-- One node of a batch is received. -/
def receive (s : Pipeline ε) (n : Node) (outgoing : List (List Node)) : Pipeline ε :=
  { s with
    queue := (s.queue.markReady [n]).1
    outgoing := outgoing
    received := s.received ++ [n]
    validated := s.validated ++ (s.queue.markReady [n]).2
    serving := s.serving ++ (s.queue.servedBy n).toList }

/-- `markReady` leaves every transaction tracked that was. -/
theorem servedBy_markReady (q : DepGraphQueue ε) (n m : Node) :
    (q.markReady [n]).1.servedBy m = q.servedBy m := by
  rcases q.markReady_cases n with ⟨_, h⟩ | ⟨hash, tx, node, q', _, hheld, _, h, _, _, hk⟩
  · rw [h]
  · rw [h]
    unfold DepGraphQueue.servedBy
    refine Option.bind_congr fun k _ => ?_
    rw [hk]
    split
    next hkey => rw [hkey, hheld]; rfl
    next => rfl

/-- What receiving one node keeps, `drain` keeps. -/
theorem drain_rule {P : Pipeline ε → Prop}
    (hstep : ∀ {s n nodes rest}, s.outgoing = (n :: nodes) :: rest → P s →
      P (s.receive n (nodes :: rest)))
    (hdone : ∀ {s rest}, s.outgoing = [] :: rest → P s → P { s with outgoing := rest })
    (hs : P s) (h : s.step .drain = some s') : P s' := by
  cases hout : s.outgoing with
  | nil => simp [step, hout] at h
  | cons nodes rest =>
      simp only [step, hout, Option.some.injEq] at h
      subst h
      induction nodes generalizing s with
      | nil => simpa [DepGraphQueue.markReady] using hdone hout hs
      | cons n nodes ih =>
          have hrec := ih (hstep hout hs) rfl
          rw [DepGraphQueue.markReady_cons]
          have hserved : nodes.filterMap (s.queue.markReady [n]).1.servedBy =
              nodes.filterMap s.queue.servedBy :=
            List.filterMap_congr fun m _ => servedBy_markReady s.queue n m
          simp only [receive, hserved, List.append_assoc, List.singleton_append] at hrec
          convert hrec using 2
          cases hn : s.queue.servedBy n <;> simp [hn]

/-! ## What an action can do -/

theorem step_enqueue {tx : EthTx} (h : s.step (.enqueue tx) = some s') :
    s' = s ∨ ∃ q, s.queue.enqueue tx = .ok q ∧ s' = { s with queue := q } := by
  simp only [step] at h
  split at h
  · exact .inl (Option.some.inj h).symm
  next q hq => exact .inr ⟨q, hq, (Option.some.inj h).symm⟩

theorem step_take (h : s.step .take = some s') :
    ∃ tx rest, s.queue.admitted = tx :: rest ∧
      s' = { s with
        queue := { s.queue with admitted := rest }
        endorsing := s.endorsing ++ [(tx, s.queue.commitSeq)] } := by
  simp only [step] at h
  split at h
  · cases h
  next tx rest hadm => exact ⟨tx, rest, hadm, (Option.some.inj h).symm⟩

theorem step_release {nodes : List Node} (h : s.step (.release nodes) = some s') :
    nodes.Nodup ∧ (∀ n ∈ nodes, n ∈ s.waiting) ∧
      s' = { s with
        waiting := s.waiting.filter (· ∉ nodes), outgoing := s.outgoing ++ [nodes] } := by
  simp only [step] at h
  split at h
  next hok => exact ⟨hok.1, hok.2, (Option.some.inj h).symm⟩
  · cases h

theorem step_dequeue (h : s.step .dequeue = some s') :
    ∃ tx ready p rest, s.queue.ready = tx :: ready ∧ s.serving = p :: rest ∧
      s' = { s with
        queue := { s.queue with ready }, serving := rest, inFlight := s.inFlight ++ [(tx, p.2)] } := by
  simp only [step, DepGraphQueue.dequeue] at h
  cases hready : s.queue.ready with
  | nil => simp [hready] at h
  | cons tx ready =>
      cases hserving : s.serving with
      | nil => simp [hready, hserving] at h
      | cons p rest =>
          simp only [hready, hserving, Option.some.injEq] at h
          exact ⟨tx, ready, p, rest, rfl, rfl, h.symm⟩

/-- A block is counted, and then completes its hashes. -/
theorem handle_rule {P : Pipeline ε → Prop} {block : Domain.Block}
    (hcount : ∀ q : DepGraphQueue ε, (∀ k, q.held k = s.queue.held k) →
      q.ready = s.queue.ready → P { s with queue := q })
    (hstep : ∀ {s hash}, hash ∈ blockHashes block → P s →
      P (s.handBack (s.queue.complete hash) [hash]))
    (h : s.step (.handle block) = some s') : P s' := by
  obtain rfl := Option.some.inj h
  obtain ⟨q, hq, hheld, hready⟩ := s.queue.handle_eq block
  rw [hq]
  exact takeNodes_rule (s := { s with queue := q }) hstep (hcount q hheld hready)

end Pipeline

end Gateway

import FabricXEvm.Gateway.DepGraphNodes

/-!
# Conflicting transactions stay apart

The manager releases a node only when no conflicting node is out.  The queue serves the
transaction of a node between its release and its return, so two conflicting transactions
are never out at once, as long as no node goes back while its transaction still sits in the
ready list (`apart_of_not_ready`).

`Complete` and `Handle` do not look at the ready list.  A block may name a transaction that
is ready and not yet dequeued; its node goes back, the manager releases a conflicting
transaction, and `Dequeue` returns both (`ready_completed_conflicts`).
-/

open Blocks Common

namespace Gateway

/-- Two read-write sets conflict on a key: one writes what the other reads or writes. -/
def Conflict (c c' : Content) : Prop :=
  (∃ k ∈ (readWriteKeys c).2, k ∈ (readWriteKeys c').1 ∨ k ∈ (readWriteKeys c').2) ∨
    ∃ k ∈ (readWriteKeys c').2, k ∈ (readWriteKeys c).1

instance (c c' : Content) : Decidable (Conflict c c') := inferInstanceAs (Decidable (_ ∨ _))

theorem Conflict.symm {c c' : Content} (h : Conflict c c') : Conflict c' c := by
  rcases h with ⟨k, hk, hk' | hk'⟩ | ⟨k, hk, hk'⟩
  · exact .inr ⟨k, hk, hk'⟩
  · exact .inl ⟨k, hk', .inr hk⟩
  · exact .inl ⟨k, hk, .inl hk'⟩

namespace Pipeline

variable {ε : Type} {s s' : Pipeline ε} {a : Action ε}

/-- The manager releases a node only when no earlier conflicting node it released is still
to be handed back. -/
def NoConflictOut (s : Pipeline ε) : Action ε → Prop
  | .release nodes =>
      (∀ n ∈ nodes, ∀ m ∈ s.released, m ∉ s.validated → ¬ Conflict m.content n.content) ∧
        nodes.Pairwise fun m n => ¬ Conflict m.content n.content
  | _ => True

/-- The transaction of a hash is ready, and its entry holds a node that would go back. -/
def ReadyWithNode (s : Pipeline ε) (hash : Bytes) : Prop :=
  (∃ n, s.Holds hash n) ∧ ∃ tx ∈ s.queue.ready, tx.hash = hash

/-- No node goes back while its transaction is in the ready list. -/
def CompletesNoReady (s : Pipeline ε) : Action ε → Prop
  | .complete hash => ¬ s.ReadyWithNode hash
  | .handle block => ∀ hash ∈ blockHashes block, ¬ s.ReadyWithNode hash
  | _ => True

/-- The transaction is to be run, with a node that is out. -/
def Serves (s : Pipeline ε) (p : EthTx × Node) : Prop :=
  p.2 ∈ s.received ∧ p.2 ∉ s.validated ∧ hashFromTxRefID p.2.id = some p.1.hash

structure Apart (s : Pipeline ε) : Prop where
  compatible : ∀ m ∈ s.released, ∀ n ∈ s.released, m ∉ s.validated → n ∉ s.validated →
    m ≠ n → ¬ Conflict m.content n.content
  ready : s.serving.map Prod.fst = s.queue.ready
  serving : ∀ p ∈ s.serving, s.Serves p
  inFlight : ∀ p ∈ s.inFlight, s.Serves p

/-- Completing another hash makes no transaction ready. -/
theorem readyWithNode_of_complete {hash k : Bytes}
    (h : (s.handBack (s.queue.complete hash) [hash]).ReadyWithNode k) : s.ReadyWithNode k := by
  rcases s.queue.complete_cases hash with ⟨_, hq⟩ | ⟨_, _, _, hq⟩
  · rw [hq] at h
    exact h
  · rw [hq] at h
    obtain ⟨⟨n, tx, hn⟩, hready⟩ := h
    simp only [handBack, DepGraphQueue.held_erase] at hn
    split at hn
    · cases hn
    · exact ⟨⟨n, tx, hn⟩, hready⟩

namespace Apart

/-- Nothing changes that this depends on. -/
theorem congr (hs : Apart s) (hreceived : s'.received = s.received)
    (hreleased : s'.released = s.released) (hvalidated : s'.validated = s.validated)
    (hready : s'.queue.ready = s.queue.ready) (hserving : s'.serving = s.serving)
    (hinFlight : s'.inFlight = s.inFlight) : Apart s' := by
  have hserves : ∀ p, s'.Serves p ↔ s.Serves p := fun p => by
    simp [Serves, hreceived, hvalidated]
  refine ⟨?_, ?_, ?_, ?_⟩
  · rw [hreleased, hvalidated]
    exact hs.compatible
  · rw [hready, hserving]
    exact hs.ready
  · rw [hserving]
    exact fun p hp => (hserves p).mpr (hs.serving p hp)
  · rw [hinFlight]
    exact fun p hp => (hserves p).mpr (hs.inFlight p hp)

theorem complete (hinv : Inv s) (hs : Apart s) {hash : Bytes} (hready : ¬ s.ReadyWithNode hash) :
    Apart (s.handBack (s.queue.complete hash) [hash]) := by
  -- What is still served is not served with a node that goes back.
  have hserves : ∀ p, s.Serves p → (p.1.hash = hash → ¬ ∃ n, s.Holds hash n) →
      Serves (s.handBack (s.queue.complete hash) [hash]) p := by
    rintro p ⟨hrec, hout, hid⟩ hne
    refine ⟨hrec, fun hval => ?_, hid⟩
    rcases List.mem_append.mp hval with hval | hval
    · exact hout hval
    · rcases s.queue.complete_cases hash with ⟨_, h⟩ | ⟨tx, node, hheld, h⟩
      · rw [h] at hval
        cases hval
      · rw [h] at hval
        have hnode : node = some p.2 := Option.mem_toList.mp hval
        subst hnode
        have hid' := ((hinv.entries hheld).2 p.2 rfl).2
        exact hne (Option.some.inj (hid.symm.trans hid')) ⟨p.2, tx, hheld⟩
  refine ⟨?_, ?_, ?_, ?_⟩
  · intro m hm n hn hmout hnout
    exact hs.compatible m hm n hn (fun h => hmout (List.mem_append_left _ h))
      fun h => hnout (List.mem_append_left _ h)
  · rw [show (s.handBack (s.queue.complete hash) [hash]).queue.ready = s.queue.ready from ?_]
    · exact hs.ready
    · rcases s.queue.complete_cases hash with ⟨_, h⟩ | ⟨_, _, _, h⟩ <;> simp [handBack, h]
  · intro p hp
    refine hserves p (hs.serving p hp) fun heq hheld => hready ⟨hheld, p.1, ?_, heq⟩
    rw [← hs.ready]
    exact List.mem_map_of_mem hp
  · intro p hp
    obtain ⟨hp, hne⟩ := List.mem_filter.mp hp
    exact hserves p (hs.inFlight p hp) fun heq => by simp [heq] at hne

theorem receive (hinv : Inv s) (hs : Apart s) {n : Node} {nodes : List Node}
    {rest : List (List Node)} (hout : s.outgoing = (n :: nodes) :: rest) :
    Apart (s.receive n (nodes :: rest)) := by
  have hrel := released_receive hout
  obtain ⟨hnew, hnout⟩ := hinv.new_of_outgoing hout
  rcases s.queue.markReady_cases n with
    ⟨hserved, h⟩ | ⟨hash, tx, node, q', hid, hheld, hserved, h, hready, _, _⟩
  · have hval : (s.receive n (nodes :: rest)).validated = s.validated ++ [n] := by
      simp [Pipeline.receive, h]
    have hserves : ∀ p, s.Serves p → (s.receive n (nodes :: rest)).Serves p := by
      rintro p ⟨hrec, hpout, hid⟩
      refine ⟨List.mem_append_left _ hrec, ?_, hid⟩
      rw [hval]
      intro hmem
      rcases List.mem_append.mp hmem with hmem | hmem
      · exact hpout hmem
      · exact hnew (List.mem_singleton.mp hmem ▸ hrec)
    refine ⟨?_, ?_, ?_, fun p hp => hserves p (hs.inFlight p hp)⟩
    · rw [hrel, hval]
      intro m hm m' hm' hmout hmout'
      exact hs.compatible m hm m' hm' (fun h => hmout (List.mem_append_left _ h))
        fun h => hmout' (List.mem_append_left _ h)
    · simpa [Pipeline.receive, h, hserved] using hs.ready
    · intro p hp
      simp only [Pipeline.receive, hserved, Option.toList_none, List.append_nil] at hp
      exact hserves p (hs.serving p hp)
  · have hval : (s.receive n (nodes :: rest)).validated = s.validated := by
      simp [Pipeline.receive, h]
    have hserves : ∀ p, s.Serves p → (s.receive n (nodes :: rest)).Serves p := by
      rintro p ⟨hrec, hpout, hid⟩
      exact ⟨List.mem_append_left _ hrec, hval ▸ hpout, hid⟩
    refine ⟨?_, ?_, ?_, fun p hp => hserves p (hs.inFlight p hp)⟩
    · rw [hrel, hval]
      exact hs.compatible
    · simp [Pipeline.receive, h, hserved, hready, hs.ready]
    · intro p hp
      simp only [Pipeline.receive, hserved, Option.toList_some] at hp
      rcases List.mem_append.mp hp with hp | hp
      · exact hserves p (hs.serving p hp)
      · obtain rfl := List.mem_singleton.mp hp
        refine ⟨List.mem_append_right _ (by simp), ?_, ?_⟩
        · rw [hval]
          exact hnout
        · rw [(hinv.entries hheld).1]
          exact hid

theorem release (hs : Apart s) {nodes : List Node} (hok : NoConflictOut s (.release nodes)) :
    Apart { s with waiting := s.waiting.filter (· ∉ nodes), outgoing := s.outgoing ++ [nodes] } := by
  refine { hs with compatible := fun m hm n hn hmout hnout hne => ?_ }
  simp only [released, List.flatten_append, List.flatten_singleton, ← List.append_assoc] at hm hn
  rcases List.mem_append.mp hm with hm | hm <;> rcases List.mem_append.mp hn with hn | hn
  · exact hs.compatible m hm n hn hmout hnout hne
  · exact hok.1 n hn m hm hmout
  · exact fun h => hok.1 m hm n hn hnout h.symm
  · have : Std.Symm fun m n : Node => ¬ Conflict m.content n.content :=
      ⟨fun _ _ h h' => h h'.symm⟩
    exact hok.2.forall hm hn hne

theorem dequeue (hs : Apart s) {tx : EthTx} {ready : List EthTx} {p : EthTx × Node}
    {rest : List (EthTx × Node)} (hready : s.queue.ready = tx :: ready)
    (hserving : s.serving = p :: rest) :
    Apart { s with
      queue := { s.queue with ready }, serving := rest, inFlight := s.inFlight ++ [(tx, p.2)] } := by
  have hfirst := hs.ready
  rw [hready, hserving] at hfirst
  obtain ⟨rfl, hrest⟩ := List.cons.inj hfirst
  have hserves := hs.serving
  rw [hserving] at hserves
  refine ⟨hs.compatible, hrest, fun p' hp' => hserves p' (List.mem_cons_of_mem _ hp'), ?_⟩
  intro p' hp'
  rcases List.mem_append.mp hp' with hp' | hp'
  · exact hs.inFlight p' hp'
  · obtain rfl := List.mem_singleton.mp hp'
    exact hserves p (List.mem_cons_self ..)

/-- Every action keeps the transactions apart. -/
theorem step (hinv : Inv s) (hs : Apart s) (hmgr : NoConflictOut s a)
    (hready : CompletesNoReady s a) (h : s.step a = some s') : Apart s' := by
  cases a with
  | enqueue tx =>
      obtain rfl | ⟨q, hq, rfl⟩ := step_enqueue h
      · exact hs
      · exact hs.congr rfl rfl rfl (DepGraphQueue.enqueue_ok hq).2.2.1 rfl rfl
  | take =>
      obtain ⟨tx, rest, _, rfl⟩ := step_take h
      exact hs.congr rfl rfl rfl rfl rfl rfl
  | fail i =>
      obtain ⟨p, hp, rfl⟩ := Option.map_eq_some_iff.mp h
      exact hs.congr rfl rfl rfl rfl rfl rfl
  | endorse i endorsement content =>
      obtain ⟨p, hp, rfl⟩ := Option.map_eq_some_iff.mp h
      obtain ⟨⟨tracked, heq⟩, _⟩ := s.queue.sameEntries_keepEndorsement p.1.hash p.2
        endorsement content
      exact hs.congr rfl rfl rfl (by rw [heq]) rfl rfl
  | release nodes =>
      obtain ⟨_, _, rfl⟩ := step_release h
      exact hs.release hmgr
  | drain =>
      refine (drain_rule (P := fun s => Inv s ∧ Apart s) ?_ ?_ ⟨hinv, hs⟩ h).2
      · intro s n nodes rest hout hs
        exact ⟨hs.1.receive hout, hs.2.receive hs.1 hout⟩
      · intro s rest hout hs
        exact ⟨hs.1.drained hout, hs.2.congr rfl (by simp [released, hout]) rfl rfl rfl rfl⟩
  | dequeue =>
      obtain ⟨tx, ready, p, rest, hqueue, hserving, rfl⟩ := step_dequeue h
      exact hs.dequeue hqueue hserving
  | complete hash =>
      obtain rfl := Option.some.inj h
      exact hs.complete hinv hready
  | handle block =>
      refine (handle_rule (P := fun s => (Inv s ∧ Apart s) ∧
        ∀ hash ∈ blockHashes block, ¬ s.ReadyWithNode hash) ?_ ?_ h).1.2
      · intro q hheld hqueue
        refine ⟨⟨hinv.queue hheld, hs.congr rfl rfl rfl hqueue rfl rfl⟩, ?_⟩
        have hnot : ∀ hash ∈ blockHashes block, ¬ s.ReadyWithNode hash := hready
        simpa only [ReadyWithNode, Holds, hheld, hqueue] using hnot
      · rintro s hash hmem ⟨⟨hinv, hs⟩, hnot⟩
        exact ⟨⟨hinv.complete hash, hs.complete hinv (hnot hash hmem)⟩,
          fun k hk h => hnot k hk (readyWithNode_of_complete h)⟩
  | reuse hash =>
      obtain rfl := Option.some.inj h
      obtain ⟨⟨tracked, heq⟩, _⟩ := s.queue.sameEntries_reusableEndorsement hash
      exact hs.congr rfl rfl rfl (by rw [heq]) rfl rfl

end Apart

theorem Reachable.apart
    (h : Reachable (fun s (a : Action ε) => NoConflictOut s a ∧ CompletesNoReady s a) s) :
    Apart s := by
  induction h with
  | start chanSize => exact ⟨by simp [released], rfl, nofun, nofun⟩
  | step hreach hok hstep ih => exact ih.step hreach.inv hok.1 hok.2 hstep

/-- In every run in which the manager releases no node while a conflicting one is out, and
no node goes back while its transaction is ready, two transactions that are in flight do not
conflict.  The read-write set of a transaction is the one its node was made of. -/
theorem apart_of_not_ready
    (h : Reachable (fun s (a : Action ε) => NoConflictOut s a ∧ CompletesNoReady s a) s) :
    ∀ p ∈ s.inFlight, ∀ p' ∈ s.inFlight, p.1.hash ≠ p'.1.hash →
      ¬ Conflict p.2.content p'.2.content := by
  intro p hp p' hp' hne
  have happart := h.apart
  obtain ⟨hrec, hout, hid⟩ := happart.inFlight p hp
  obtain ⟨hrec', hout', hid'⟩ := happart.inFlight p' hp'
  refine happart.compatible p.2 (List.mem_append_left _ hrec) p'.2 (List.mem_append_left _ hrec')
    hout hout' fun heq => hne ?_
  rw [heq] at hid
  exact Option.some.inj (hid.symm.trans hid')

def tx₂ : EthTx := transfer₁.tx

/-- It writes another key. -/
def otherNode : Node := ⟨2, txRefID other₀.tx.hash, [{ nsId := [110], blindWrites := [[2]] }]⟩

/-- Two transactions that write one key, and one that writes another: the second is released when
the first is done, and runs with the third. -/
def oneByOne : Pipeline Unit :=
  [.enqueue tx₁, .take, .endorse 0 () writesOne, .enqueue tx₂, .take, .endorse 0 () writesOne,
    .enqueue other₀.tx, .take, .endorse 0 () otherNode.content,
    .release [nodeOf 0 tx₁, otherNode], .drain, .dequeue, .dequeue,
    .handle (minedBlock transfer₀), .release [nodeOf 1 tx₂], .drain,
    .dequeue].foldl next { queue := { chanSize := 3 } }

theorem apart_of_not_ready_oneByOne :
    oneByOne.inFlight = [(other₀.tx, otherNode), (tx₂, nodeOf 1 tx₂)] ∧
      ∀ p ∈ oneByOne.inFlight, ∀ p' ∈ oneByOne.inFlight, p.1.hash ≠ p'.1.hash →
        ¬ Conflict p.2.content p'.2.content := by
  refine ⟨by decide, apart_of_not_ready ((Reachable.start 3).run ?_)⟩
  exact ⟨⟨trivial, trivial⟩, ⟨trivial, trivial⟩, ⟨trivial, trivial⟩, ⟨trivial, trivial⟩,
    ⟨trivial, trivial⟩, ⟨trivial, trivial⟩, ⟨trivial, trivial⟩, ⟨trivial, trivial⟩,
    ⟨trivial, trivial⟩, ⟨⟨by decide, by decide⟩, trivial⟩, ⟨trivial, trivial⟩, ⟨trivial, trivial⟩,
    ⟨trivial, trivial⟩, ⟨trivial, fun _ _ ⟨_, _, hready, _⟩ => List.not_mem_nil hready⟩,
    ⟨⟨by decide, by decide⟩, trivial⟩, ⟨trivial, trivial⟩, ⟨trivial, trivial⟩, trivial⟩

/-- The first is named by a block while it is ready. -/
def bothServed : Pipeline Unit :=
  [.enqueue tx₁, .take, .endorse 0 () writesOne, .enqueue tx₂, .take, .endorse 0 () writesOne,
    .release [nodeOf 0 tx₁], .drain, .handle (minedBlock transfer₀),
    .release [nodeOf 1 tx₂], .drain, .dequeue, .dequeue].foldl next { queue := { chanSize := 2 } }

theorem ready_completed_conflicts :
    Reachable NoConflictOut bothServed ∧
      (tx₁, nodeOf 0 tx₁) ∈ bothServed.inFlight ∧ (tx₂, nodeOf 1 tx₂) ∈ bothServed.inFlight ∧
      tx₁.hash ≠ tx₂.hash ∧ Conflict (nodeOf 0 tx₁).content (nodeOf 1 tx₂).content := by
  refine ⟨?_, by decide, by decide, by decide, by decide⟩
  exact (Reachable.start 2).run ⟨trivial, trivial, trivial, trivial, trivial, trivial,
    ⟨by decide, by decide⟩, trivial, trivial, ⟨by decide, by decide⟩, trivial, trivial, trivial,
    trivial⟩

end Pipeline

end Gateway

import FabricXEvm.Gateway.DepGraphPipeline

/-!
# The nodes of the dependency manager

`Inv` holds in every run, whatever the manager releases: a node is made once, carries the
id of a transaction hash, and is held only by the entry of that hash.

A released node goes back exactly once as long as the manager does not release two nodes
of one id at a time, and no worker drops an entry that holds a node
(`returned_exactly_once`).  The second can happen: a transaction that is completed while
the manager has it can be enqueued again, its entry then gets the old node, and when the
second endorsement fails the entry is dropped with it (`drop_loses_node`).
-/

open Blocks Common

namespace Gateway

namespace Pipeline

variable {ε : Type} {s s' : Pipeline ε} {a : Action ε}

/-! ## What holds in every run -/

structure Inv (s : Pipeline ε) : Prop where
  ids : ∀ n, n ∈ s.waiting ∨ n ∈ s.released → ∃ hash, hash.length = 32 ∧ n.id = txRefID hash
  serials : ∀ n, n ∈ s.waiting ∨ n ∈ s.released → n.serial < s.nextSerial
  unreleased : ∀ n ∈ s.waiting, n ∉ s.released
  nodup : s.released.Nodup
  entries : ∀ {hash tx node}, s.queue.held hash = some (tx, node) →
    tx.hash = hash ∧ ∀ n, node = some n → n ∈ s.received ∧ hashFromTxRefID n.id = some hash
  validated : ∀ n ∈ s.validated, n ∈ s.received

theorem released_receive {n : Node} {nodes : List Node} {rest : List (List Node)}
    (hout : s.outgoing = (n :: nodes) :: rest) :
    (s.receive n (nodes :: rest)).released = s.released := by
  simp [released, receive, hout]

namespace Inv

variable (hs : Inv s)
include hs

theorem id_of_hash {n : Node} {hash : Bytes} (hn : n ∈ s.released)
    (h : hashFromTxRefID n.id = some hash) : n.id = txRefID hash := by
  obtain ⟨hash', hlen, hid⟩ := hs.ids n (.inr hn)
  rw [hid, hashFromTxRefID_txRefID hlen] at h
  rw [hid, Option.some.inj h]

/-- The queue changes in what no entry or channel shows. -/
theorem queue {q : DepGraphQueue ε} (hheld : ∀ k, q.held k = s.queue.held k) :
    Inv { s with queue := q } :=
  { hs with entries := fun h => hs.entries ((hheld _).symm.trans h) }

theorem erase (hash : Bytes) :
    Inv { s with queue := { s.queue with tracked := s.queue.tracked.erase hash } } :=
  { hs with
    entries := fun h => by
      rw [DepGraphQueue.held_erase] at h
      split at h
      · cases h
      · exact hs.entries h }

theorem complete (hash : Bytes) : Inv (s.handBack (s.queue.complete hash) [hash]) := by
  rcases s.queue.complete_cases hash with ⟨_, h⟩ | ⟨tx, node, hheld, h⟩
  · rw [h]
    exact { hs with validated := by simpa [handBack] using hs.validated }
  · rw [h]
    refine { hs.erase hash with validated := fun n hn => ?_ }
    rcases List.mem_append.mp hn with hn | hn
    · exact hs.validated n hn
    · exact ((hs.entries hheld).2 n (Option.mem_toList.mp hn)).1

theorem receive {n : Node} {nodes : List Node} {rest : List (List Node)}
    (hout : s.outgoing = (n :: nodes) :: rest) : Inv (s.receive n (nodes :: rest)) := by
  have hrel := released_receive hout
  have hkeep : ∀ m ∈ s.received, m ∈ (s.receive n (nodes :: rest)).received := fun m hm =>
    List.mem_append_left _ hm
  have hn : n ∈ (s.receive n (nodes :: rest)).received := List.mem_append_right _ (by simp)
  have hentries : ∀ {k tx node}, s.queue.held k = some (tx, node) → tx.hash = k ∧
      ∀ m, node = some m → m ∈ (s.receive n (nodes :: rest)).received ∧
        hashFromTxRefID m.id = some k := fun h =>
    ⟨(hs.entries h).1, fun m hm =>
      ⟨hkeep m ((hs.entries h).2 m hm).1, ((hs.entries h).2 m hm).2⟩⟩
  refine ⟨by rw [hrel]; exact hs.ids, by rw [hrel]; exact hs.serials,
    by rw [hrel]; exact hs.unreleased, by rw [hrel]; exact hs.nodup, ?_, ?_⟩
  all_goals
    rcases s.queue.markReady_cases n with
      ⟨_, h⟩ | ⟨hash, tx, node, q', hid, hheld, _, h, _, _, hk⟩
  · intro k tx' node' hk'
    simp only [Pipeline.receive, h] at hk'
    exact hentries hk'
  · intro k tx' node' hk'
    simp only [Pipeline.receive, h] at hk'
    rw [hk] at hk'
    split at hk'
    next hkey =>
      obtain ⟨rfl, rfl⟩ := Prod.mk.inj (Option.some.inj hk')
      refine ⟨hkey ▸ (hs.entries hheld).1, fun m hm => ?_⟩
      obtain rfl := Option.some.inj hm
      exact ⟨hn, hkey ▸ hid⟩
    next => exact hentries hk'
  · intro m hm
    simp only [Pipeline.receive, h] at hm
    rcases List.mem_append.mp hm with hm | hm
    · exact hkeep m (hs.validated m hm)
    · exact List.mem_singleton.mp hm ▸ hn
  · intro m hm
    simp only [Pipeline.receive, h, List.append_nil] at hm
    exact hkeep m (hs.validated m hm)

/-- A node of a batch that was not received. -/
theorem new_of_outgoing {n : Node} {nodes : List Node} {rest : List (List Node)}
    (hout : s.outgoing = (n :: nodes) :: rest) : n ∉ s.received ∧ n ∉ s.validated := by
  have hnew : n ∉ s.received := by
    have hnodup := hs.nodup
    rw [released, List.nodup_append] at hnodup
    intro hn
    exact hnodup.2.2 n hn n (by simp [hout]) rfl
  exact ⟨hnew, fun hn => hnew (hs.validated n hn)⟩

theorem drained {rest : List (List Node)} (hout : s.outgoing = [] :: rest) :
    Inv { s with outgoing := rest } := by
  have hrel : { s with outgoing := rest }.released = s.released := by simp [released, hout]
  exact ⟨by rw [hrel]; exact hs.ids, by rw [hrel]; exact hs.serials,
    by rw [hrel]; exact hs.unreleased, by rw [hrel]; exact hs.nodup, hs.entries, hs.validated⟩

theorem release {nodes : List Node} (hnodup : nodes.Nodup) (hmem : ∀ n ∈ nodes, n ∈ s.waiting) :
    Inv { s with waiting := s.waiting.filter (· ∉ nodes), outgoing := s.outgoing ++ [nodes] } := by
  have hrel : { s with waiting := s.waiting.filter (· ∉ nodes)
                       outgoing := s.outgoing ++ [nodes] }.released = s.released ++ nodes := by
    simp [released]
  have hwas : ∀ n, n ∈ s.waiting.filter (· ∉ nodes) ∨ n ∈ s.released ++ nodes →
      n ∈ s.waiting ∨ n ∈ s.released := by
    rintro n (hn | hn)
    · exact .inl (List.mem_filter.mp hn).1
    · rcases List.mem_append.mp hn with hn | hn
      · exact .inr hn
      · exact .inl (hmem n hn)
  refine ⟨?_, ?_, ?_, ?_, hs.entries, hs.validated⟩
  · intro n hn
    rw [hrel] at hn
    exact hs.ids n (hwas n hn)
  · intro n hn
    rw [hrel] at hn
    exact hs.serials n (hwas n hn)
  · intro n hn hout
    obtain ⟨hwait, hnot⟩ := List.mem_filter.mp hn
    rw [hrel] at hout
    rcases List.mem_append.mp hout with hout | hout
    · exact hs.unreleased n hwait hout
    · simp [hout] at hnot
  · rw [hrel]
    refine hs.nodup.append hnodup fun n hn hn' => ?_
    exact hs.unreleased n (hmem n hn') hn

theorem endorse (p : EthTx × Nat) (i : Nat) (endorsement : ε) (content : Content) :
    Inv { s with
      queue := s.queue.keepEndorsement p.1.hash p.2 endorsement content
      endorsing := s.endorsing.eraseIdx i
      waiting := s.waiting ++ [⟨s.nextSerial, txRefID p.1.hash, content⟩]
      nextSerial := s.nextSerial + 1 } := by
  obtain ⟨-, hheld⟩ := s.queue.sameEntries_keepEndorsement p.1.hash p.2 endorsement content
  refine ⟨?_, ?_, ?_, hs.nodup, ?_, hs.validated⟩
  · rintro n (hn | hn)
    · rcases List.mem_append.mp hn with hn | hn
      · exact hs.ids n (.inl hn)
      · obtain rfl := List.mem_singleton.mp hn
        exact ⟨p.1.hash, p.1.hash_length, rfl⟩
    · exact hs.ids n (.inr hn)
  · rintro n (hn | hn)
    · rcases List.mem_append.mp hn with hn | hn
      · exact Nat.lt_succ_of_lt (hs.serials n (.inl hn))
      · obtain rfl := List.mem_singleton.mp hn
        exact Nat.lt_succ_self _
    · exact Nat.lt_succ_of_lt (hs.serials n (.inr hn))
  · intro n hn hrel
    rcases List.mem_append.mp hn with hn | hn
    · exact hs.unreleased n hn hrel
    · obtain rfl := List.mem_singleton.mp hn
      exact lt_irrefl _ (hs.serials _ (.inr hrel))
  · intro k tx node h
    exact hs.entries ((hheld k).symm.trans h)

end Inv

/-- Every action keeps the invariant. -/
theorem Inv.step (hs : Inv s) (h : s.step a = some s') : Inv s' := by
  cases a with
  | enqueue tx =>
      obtain rfl | ⟨q, hq, rfl⟩ := step_enqueue h
      · exact hs
      · obtain ⟨_, _, _, hheld⟩ := DepGraphQueue.enqueue_ok hq
        refine { hs with entries := fun h => ?_ }
        rw [hheld] at h
        split at h
        next hk =>
          obtain ⟨rfl, rfl⟩ := Prod.mk.inj (Option.some.inj h)
          exact ⟨hk.symm, nofun⟩
        next => exact hs.entries h
  | take =>
      obtain ⟨tx, rest, _, rfl⟩ := step_take h
      exact { hs with }
  | fail i =>
      obtain ⟨p, hp, rfl⟩ := Option.map_eq_some_iff.mp h
      exact { hs.erase p.1.hash with }
  | endorse i endorsement content =>
      obtain ⟨p, hp, rfl⟩ := Option.map_eq_some_iff.mp h
      exact hs.endorse p i endorsement content
  | release nodes =>
      obtain ⟨hnodup, hmem, rfl⟩ := step_release h
      exact hs.release hnodup hmem
  | drain => exact drain_rule (fun hout hs => hs.receive hout) (fun hout hs => hs.drained hout) hs h
  | dequeue =>
      obtain ⟨tx, ready, p, rest, _, _, rfl⟩ := step_dequeue h
      exact { hs with }
  | complete hash =>
      obtain rfl := Option.some.inj h
      exact hs.complete hash
  | handle block =>
      exact handle_rule (fun q hheld _ => hs.queue hheld) (fun _ hs => hs.complete _) h
  | reuse hash =>
      obtain rfl := Option.some.inj h
      exact hs.queue (s.queue.sameEntries_reusableEndorsement hash).2

/-! ## Ownership -/

/-- The entry of a hash holds the node. -/
def Holds (s : Pipeline ε) (hash : Bytes) (n : Node) : Prop :=
  ∃ tx, s.queue.held hash = some (tx, some n)

/-- Every received node is held by one entry or has gone back, once. -/
structure Owned (s : Pipeline ε) : Prop where
  ids : ∀ m ∈ s.released, ∀ n ∈ s.released, m ∉ s.validated → n ∉ s.validated →
    m.id = n.id → m = n
  held : ∀ n ∈ s.received, n ∉ s.validated → ∃ hash, s.Holds hash n
  out : ∀ {hash n}, s.Holds hash n → n ∉ s.validated
  once : s.validated.Nodup

/-- The manager does not release a node for an id while an earlier released node with that
id is out. -/
def OnePerId (s : Pipeline ε) : Action ε → Prop
  | .release nodes =>
      (∀ n ∈ nodes, ∀ m ∈ s.released, m ∉ s.validated → m.id ≠ n.id) ∧
        nodes.Pairwise fun m n => m.id ≠ n.id
  | _ => True

/-- No endorsement fails for a hash whose entry holds a node. -/
def DropsNoNode (s : Pipeline ε) : Action ε → Prop
  | .fail i => ∀ p, s.endorsing[i]? = some p → ∀ n, ¬ s.Holds p.1.hash n
  | _ => True

namespace Owned

/-- Nothing changes that ownership depends on. -/
theorem congr (hs : Owned s) (hreceived : s'.received = s.received)
    (hreleased : s'.released = s.released) (hvalidated : s'.validated = s.validated)
    (hheld : ∀ k, s'.queue.held k = s.queue.held k) : Owned s' := by
  have hholds : ∀ k n, s'.Holds k n ↔ s.Holds k n := fun k n => by simp [Holds, hheld]
  refine ⟨?_, ?_, ?_, ?_⟩
  · rw [hreleased, hvalidated]
    exact hs.ids
  · rw [hreceived, hvalidated]
    intro n hn hout
    obtain ⟨hash, h⟩ := hs.held n hn hout
    exact ⟨hash, (hholds _ _).mpr h⟩
  · intro hash n h
    rw [hvalidated]
    exact hs.out ((hholds _ _).mp h)
  · rw [hvalidated]
    exact hs.once

/-- Nodes go back, and no entry holds them any more. -/
theorem handedBack (hs : Owned s) {back : List Node} (hreleased : s'.released = s.released)
    (hreceived : ∀ n ∈ s'.received, n ∈ s.received ∨ n ∈ back)
    (hvalidated : s'.validated = s.validated ++ back) (hnodup : back.Nodup)
    (hout : ∀ n ∈ back, n ∉ s.validated)
    (hholds : ∀ {k n}, s'.Holds k n ↔ s.Holds k n ∧ n ∉ back) : Owned s' := by
  have hold : ∀ {n}, n ∉ s'.validated ↔ n ∉ s.validated ∧ n ∉ back := by
    intro n
    rw [hvalidated, List.mem_append, not_or]
  refine ⟨?_, ?_, ?_, ?_⟩
  · rw [hreleased]
    intro m hm n hn hmout hnout
    exact hs.ids m hm n hn (hold.mp hmout).1 (hold.mp hnout).1
  · intro n hn hnout
    obtain ⟨hvalid, hback⟩ := hold.mp hnout
    obtain ⟨k, hk⟩ := hs.held n ((hreceived n hn).resolve_right hback) hvalid
    exact ⟨k, hholds.mpr ⟨hk, hback⟩⟩
  · intro k n hk
    obtain ⟨hk, hback⟩ := hholds.mp hk
    exact hold.mpr ⟨hs.out hk, hback⟩
  · rw [hvalidated]
    exact hs.once.append hnodup fun n hn hback => hout n hback hn

theorem complete (hinv : Inv s) (hs : Owned s) (hash : Bytes) :
    Owned (s.handBack (s.queue.complete hash) [hash]) := by
  rcases s.queue.complete_cases hash with ⟨_, h⟩ | ⟨tx, node, hheld, h⟩
  · rw [h]
    exact hs.congr rfl rfl (List.append_nil _) fun _ => rfl
  · rw [h]
    have hback : ∀ {n}, n ∈ node.toList ↔ s.Holds hash n := by
      intro n
      simp [Holds, hheld]
    refine hs.handedBack rfl (fun n hn => .inl hn) rfl ?_ ?_ ?_
    · cases node <;> simp
    · intro n hn
      exact hs.out (hback.mp hn)
    · intro k n
      have hold : Holds (s.handBack ({ s.queue with tracked := s.queue.tracked.erase hash },
          node.toList) [hash]) k n ↔ k ≠ hash ∧ s.Holds k n := by
        simp only [Holds, handBack, DepGraphQueue.held_erase]
        split <;> simp [*]
      rw [hold, hback, and_comm]
      refine and_congr_right fun hk => not_congr ⟨?_, ?_⟩
      · rintro rfl
        exact hk
      · -- A node is held under the hash of its id, so under one only.
        rintro ⟨tx', hn⟩
        obtain ⟨tx'', hk⟩ := hk
        have hid := ((hinv.entries hk).2 n rfl).2
        have hid' := ((hinv.entries hn).2 n rfl).2
        exact Option.some.inj (hid.symm.trans hid')

theorem receive (hinv : Inv s) (hs : Owned s) {n : Node} {nodes : List Node}
    {rest : List (List Node)} (hout : s.outgoing = (n :: nodes) :: rest) :
    Owned (s.receive n (nodes :: rest)) := by
  have hrel := released_receive hout
  have hmem : n ∈ s.released := List.mem_append_right _ (by simp [hout])
  obtain ⟨hnew, hnout⟩ := hinv.new_of_outgoing hout
  rcases s.queue.markReady_cases n with ⟨_, h⟩ | ⟨hash, tx, node, q', hid, hheld, _, h, _, _, hk⟩
  · -- An orphan goes back at once.
    have hval : (s.receive n (nodes :: rest)).validated = s.validated ++ [n] := by
      simp [Pipeline.receive, h]
    refine hs.handedBack hrel (fun m hm => List.mem_append.mp hm) hval (List.nodup_singleton n)
      (by simpa using hnout) ?_
    intro k m
    have hold : (s.receive n (nodes :: rest)).Holds k m ↔ s.Holds k m := by
      simp [Holds, Pipeline.receive, h]
    rw [hold]
    refine (and_iff_left_of_imp ?_).symm
    rintro ⟨tx, hk⟩ hm
    obtain rfl := List.mem_singleton.mp hm
    exact hnew ((hinv.entries hk).2 m rfl).1
  · -- The entry held no node: one of the same id would be out.
    have hnone : node = none := by
      cases hnode : node with
      | none => rfl
      | some m =>
          subst hnode
          obtain ⟨hm, hmid⟩ := (hinv.entries hheld).2 m rfl
          have hmrel : m ∈ s.released := List.mem_append_left _ hm
          have hsame := (hinv.id_of_hash hmrel hmid).trans (hinv.id_of_hash hmem hid).symm
          have heq := hs.ids m hmrel n hmem (hs.out ⟨tx, hheld⟩) hnout hsame
          exact absurd (heq ▸ hm) hnew
    have hval : (s.receive n (nodes :: rest)).validated = s.validated := by
      simp [Pipeline.receive, h]
    have hold : ∀ {k m}, (s.receive n (nodes :: rest)).Holds k m ↔
        k = hash ∧ m = n ∨ s.Holds k m := by
      intro k m
      simp only [Holds, Pipeline.receive, h, hk]
      split
      next hkey =>
        subst hkey
        simp [hheld, hnone, eq_comm]
      next hkey => simp [hkey]
    refine ⟨?_, ?_, ?_, ?_⟩
    · rw [hrel, hval]
      exact hs.ids
    · rw [hval]
      intro m hm hmout
      rcases List.mem_append.mp hm with hm | hm
      · obtain ⟨k, hk⟩ := hs.held m hm hmout
        exact ⟨k, hold.mpr (.inr hk)⟩
      · exact ⟨hash, hold.mpr (.inl ⟨rfl, List.mem_singleton.mp hm⟩)⟩
    · rw [hval]
      intro k m hk
      rcases hold.mp hk with ⟨_, rfl⟩ | hk
      · exact hnout
      · exact hs.out hk
    · rw [hval]
      exact hs.once

theorem enqueue (hs : Owned s) {q : DepGraphQueue ε} {tx : EthTx}
    (hnone : s.queue.held tx.hash = none)
    (hheld : ∀ k, q.held k = if k = tx.hash then some (tx, none) else s.queue.held k) :
    Owned { s with queue := q } := by
  have hold : ∀ {k n}, Holds { s with queue := q } k n ↔ s.Holds k n := by
    intro k n
    simp only [Holds, hheld]
    split
    next hk => simp [hk, hnone]
    next => rfl
  exact { hs with
    held := fun n hn hout => (hs.held n hn hout).imp fun _ => hold.mpr
    out := fun h => hs.out (hold.mp h) }

theorem fail (hs : Owned s) {hash : Bytes} (hnone : ∀ n, ¬ s.Holds hash n) :
    Owned { s with queue := s.queue.drop hash } := by
  have hold : ∀ {k n}, Holds { s with queue := s.queue.drop hash } k n ↔ s.Holds k n := by
    intro k n
    simp only [Holds, DepGraphQueue.drop, DepGraphQueue.held_erase]
    split
    next hk =>
      subst hk
      simpa [Holds] using hnone n
    next => rfl
  exact { hs with
    held := fun n hn hout => (hs.held n hn hout).imp fun _ => hold.mpr
    out := fun h => hs.out (hold.mp h) }

theorem release (hs : Owned s) {nodes : List Node} (hid : OnePerId s (.release nodes)) :
    Owned { s with waiting := s.waiting.filter (· ∉ nodes), outgoing := s.outgoing ++ [nodes] } := by
  refine { hs with ids := fun m hm n hn hmout hnout heq => ?_ }
  simp only [released, List.flatten_append, List.flatten_singleton, ← List.append_assoc] at hm hn
  rcases List.mem_append.mp hm with hm | hm <;> rcases List.mem_append.mp hn with hn | hn
  · exact hs.ids m hm n hn hmout hnout heq
  · exact absurd heq (hid.1 n hn m hm hmout)
  · exact absurd heq.symm (hid.1 m hm n hn hnout)
  · have hnodup : (nodes.map Node.id).Nodup := List.pairwise_map.mpr hid.2
    exact List.inj_on_of_nodup_map hnodup hm hn heq

/-- Every action keeps ownership. -/
theorem step (hinv : Inv s) (hs : Owned s) (hid : OnePerId s a) (hdrop : DropsNoNode s a)
    (h : s.step a = some s') : Owned s' := by
  cases a with
  | enqueue tx =>
      obtain rfl | ⟨q, hq, rfl⟩ := step_enqueue h
      · exact hs
      · obtain ⟨hnone, _, _, hheld⟩ := DepGraphQueue.enqueue_ok hq
        exact hs.enqueue hnone hheld
  | take =>
      obtain ⟨tx, rest, _, rfl⟩ := step_take h
      exact hs.congr rfl rfl rfl fun _ => rfl
  | fail i =>
      obtain ⟨p, hp, rfl⟩ := Option.map_eq_some_iff.mp h
      exact (hs.fail (hdrop p hp)).congr rfl rfl rfl fun _ => rfl
  | endorse i endorsement content =>
      obtain ⟨p, hp, rfl⟩ := Option.map_eq_some_iff.mp h
      exact hs.congr rfl rfl rfl
        (s.queue.sameEntries_keepEndorsement p.1.hash p.2 endorsement content).2
  | release nodes =>
      obtain ⟨_, _, rfl⟩ := step_release h
      exact hs.release hid
  | drain =>
      refine (drain_rule (P := fun s => Inv s ∧ Owned s) ?_ ?_ ⟨hinv, hs⟩ h).2
      · intro s n nodes rest hout hs
        exact ⟨hs.1.receive hout, hs.2.receive hs.1 hout⟩
      · intro s rest hout hs
        exact ⟨hs.1.drained hout, hs.2.congr rfl (by simp [released, hout]) rfl fun _ => rfl⟩
  | dequeue =>
      obtain ⟨tx, ready, p, rest, _, _, rfl⟩ := step_dequeue h
      exact hs.congr rfl rfl rfl fun _ => rfl
  | complete hash =>
      obtain rfl := Option.some.inj h
      exact hs.complete hinv hash
  | handle block =>
      refine (handle_rule (P := fun s => Inv s ∧ Owned s) ?_ ?_ h).2
      · exact fun q hheld _ => ⟨hinv.queue hheld, hs.congr rfl rfl rfl hheld⟩
      · exact fun _ hs => ⟨hs.1.complete _, hs.2.complete hs.1 _⟩
  | reuse hash =>
      obtain rfl := Option.some.inj h
      exact hs.congr rfl rfl rfl (s.queue.sameEntries_reusableEndorsement hash).2

end Owned

theorem Inv.start (chanSize : Nat) : @Inv ε { queue := { chanSize } } :=
  ⟨by simp [released], by simp [released], nofun, by simp [released],
    fun h => by simp [DepGraphQueue.held] at h, nofun⟩

/-- The invariant rule for runs. -/
theorem Reachable.inv {ok : Pipeline ε → Action ε → Prop} (h : Reachable ok s) : Inv s := by
  induction h with
  | start chanSize => exact Inv.start chanSize
  | step _ _ hstep ih => exact ih.step hstep

theorem Reachable.owned (h : Reachable (fun s (a : Action ε) => OnePerId s a ∧ DropsNoNode s a) s) :
    Owned s := by
  induction h with
  | start chanSize =>
      exact ⟨by simp [released], nofun, fun h => by simp [Holds, DepGraphQueue.held] at h,
        List.nodup_nil⟩
  | step hreach hok hstep ih => exact ih.step hreach.inv hok.1 hok.2 hstep

/-- In every run in which the manager has at most one node of an id out, and no
endorsement fails for a hash whose entry holds a node, each node the queue received is held
by exactly one entry and has not been sent back, or is held by none and was sent once.  So
when nothing is tracked, all of them have gone back. -/
theorem returned_exactly_once
    (h : Reachable (fun s (a : Action ε) => OnePerId s a ∧ DropsNoNode s a) s) :
    (∀ n ∈ s.received,
      (∃! hash, s.Holds hash n) ∧ s.validated.count n = 0 ∨
        (∀ hash, ¬ s.Holds hash n) ∧ s.validated.count n = 1) ∧
      ((∀ hash, s.queue.isPending hash = none) → ∀ n ∈ s.received, n ∈ s.validated) := by
  have hinv := h.inv
  have howned := h.owned
  constructor
  · intro n hn
    by_cases hval : n ∈ s.validated
    · exact .inr ⟨fun hash hold => howned.out hold hval,
        List.count_eq_one_of_mem howned.once hval⟩
    · obtain ⟨hash, hold⟩ := howned.held n hn hval
      refine .inl ⟨⟨hash, hold, fun hash' hold' => ?_⟩, List.count_eq_zero.mpr hval⟩
      obtain ⟨tx, htx⟩ := hold
      obtain ⟨tx', htx'⟩ := hold'
      have hid := ((hinv.entries htx).2 n rfl).2
      have hid' := ((hinv.entries htx').2 n rfl).2
      exact Option.some.inj (hid'.symm.trans hid)
  · intro hnone n hn
    by_contra hval
    obtain ⟨hash, tx, hold⟩ := howned.held n hn hval
    have hpending := hnone hash
    simp only [DepGraphQueue.isPending, Option.map_eq_none_iff] at hpending
    simp [DepGraphQueue.held, hpending] at hold

/-- Writes of the key `[1]`. -/
def writesOne : Content := [{ nsId := [110], blindWrites := [[1]] }]

def nodeOf (serial : Nat) (tx : EthTx) : Node := ⟨serial, txRefID tx.hash, writesOne⟩

/-- An action that is not possible leaves the state. -/
def next (s : Pipeline ε) (a : Action ε) : Pipeline ε := (s.step a).getD s

/-- Each action is allowed when its turn comes. -/
def Allowed (ok : Pipeline ε → Action ε → Prop) (s : Pipeline ε) : List (Action ε) → Prop
  | [] => True
  | a :: as => ok s a ∧ Allowed ok (s.next a) as

theorem Reachable.run {ok : Pipeline ε → Action ε → Prop} {as : List (Action ε)}
    (h : Reachable ok s) (hok : Allowed ok s as) : Reachable ok (as.foldl next s) := by
  induction as generalizing s with
  | nil => exact h
  | cons a as ih =>
      refine ih ?_ hok.2
      unfold Pipeline.next
      cases hstep : s.step a with
      | none => exact h
      | some s' => exact .step h hok.1 hstep

theorem isPending_of_empty {q : DepGraphQueue ε} (h : q.tracked.entries = []) (hash : Bytes) :
    q.isPending hash = none := by
  have hempty : q.tracked = ∅ := AList.ext h
  rw [DepGraphQueue.isPending, hempty]
  rfl

def tx₁ : EthTx := transfer₀.tx

/-- A transaction that goes through the queue. -/
def served : Pipeline Unit :=
  [.enqueue tx₁, .take, .endorse 0 () writesOne, .release [nodeOf 0 tx₁], .drain, .dequeue,
    .complete tx₁.hash].foldl next { queue := { chanSize := 1 } }

theorem returned_exactly_once_served :
    served.received = [nodeOf 0 tx₁] ∧ ∀ n ∈ served.received, n ∈ served.validated := by
  have h : Reachable (fun s a => OnePerId s a ∧ DropsNoNode s a) served :=
    (Reachable.start 1).run ⟨⟨trivial, trivial⟩, ⟨trivial, trivial⟩, ⟨trivial, trivial⟩,
      ⟨⟨by decide, by decide⟩, trivial⟩, ⟨trivial, trivial⟩, ⟨trivial, trivial⟩,
      ⟨trivial, trivial⟩, trivial⟩
  exact ⟨by decide, (returned_exactly_once h).2 (isPending_of_empty (by decide))⟩

/-- A transaction is in a handled block while the manager has it, and is enqueued again.
Its new entry gets the node of the first endorsement, and is dropped with it when the second
endorsement fails. -/
def dropped : Pipeline Unit :=
  [.enqueue tx₁, .take, .endorse 0 () writesOne, .handle (minedBlock transfer₀), .enqueue tx₁, .take,
    .release [nodeOf 0 tx₁], .drain, .fail 0].foldl next { queue := { chanSize := 1 } }

theorem drop_loses_node :
    Reachable OnePerId dropped ∧ nodeOf 0 tx₁ ∈ dropped.received ∧
      nodeOf 0 tx₁ ∉ dropped.validated ∧ ∀ hash, dropped.queue.isPending hash = none := by
  refine ⟨?_, by decide, by decide, isPending_of_empty (by decide)⟩
  exact (Reachable.start 1).run ⟨trivial, trivial, trivial, trivial, trivial, trivial,
    ⟨by decide, by decide⟩, trivial, trivial, trivial⟩

end Pipeline

end Gateway

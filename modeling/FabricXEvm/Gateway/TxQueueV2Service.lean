import FabricXEvm.Gateway.TxQueueV2Runs

/-!
# What the participant queue guarantees

A waiting entry always has something to wait for, so the queue drains
(`drains_exactly_once`).  The rest depends on what completes.  `completeUnlocked` takes an
entry out of the maps and leaves it in its list, so an entry that completes before it is
dequeued is served later, when nobody knows of it: next to one it conflicts with
(`ready_completed_overlaps`), and without being counted (`ready_completed_uncounted`).  As
long as only dequeued or unknown hashes complete, entries that share a participant are
served one after the other (`running_apart`), and the pending view is consistent
(`pending_view_consistent`).
-/

open Blocks Common

namespace Gateway

namespace TxQueueV2

variable {d : Decoders} {r : TxReader} {q q' : TxQueueV2} {e x : Nat} {hash : Bytes}

/-! ## Draining -/

/-- The newest waiting entry waits for one that is ready or pending. -/
theorem Inv.progress (h : Inv q) (hwaiting : q.waitingList ≠ []) :
    q.readyList ≠ [] ∨ q.pendingMap.entries ≠ [] := by
  obtain ⟨w, hw, hnewest⟩ := q.waitingList.toFinset.exists_max_image id
    (List.toFinset_nonempty_iff _ |>.mpr hwaiting)
  rw [List.mem_toFinset] at hw
  obtain ⟨hmade, hstate⟩ := (h.lists.waiting w).mp hw
  obtain ⟨b, hb⟩ := List.exists_mem_of_ne_nil _ ((h.lists.blocked w hmade).mp hstate)
  obtain ⟨htracked, hlt⟩ := h.blockers hmade hb
  cases hb : (q.entries b).state with
  | ready => exact .inl (List.ne_nil_of_mem ((h.lists.ready b).mpr ⟨h.made htracked, hb⟩))
  | waiting =>
      have hmem := (h.lists.waiting b).mpr ⟨h.made htracked, hb⟩
      have hle := hnewest b (List.mem_toFinset.mpr hmem)
      exact absurd (hlt hb) (Nat.not_lt.mpr hle)
  | pending =>
      right
      intro hempty
      have hsome := h.pending htracked hb
      have hnil : q.pendingMap = ∅ := AList.ext hempty
      simp [hnil] at hsome

/-- With nothing ready or pending, nothing is left. -/
theorem Inv.drained (h : Inv q) (hready : q.readyList = []) (hpending : q.pendingMap.entries = []) :
    q.waitingList = [] ∧ q.hashMap.entries = [] ∧ q.participantMap.entries = [] := by
  have hwaiting : q.waitingList = [] := by
    by_contra hne
    obtain hne | hne := h.progress hne
    · exact hne hready
    · exact hne hpending
  have htracked : ∀ e, ¬ q.Tracked e := by
    intro e he
    cases hstate : (q.entries e).state with
    | ready =>
        have := (h.lists.ready e).mpr ⟨h.made he, hstate⟩
        rw [hready] at this
        exact nomatch this
    | waiting =>
        have := (h.lists.waiting e).mpr ⟨h.made he, hstate⟩
        rw [hwaiting] at this
        exact nomatch this
    | pending =>
        have hsome := h.pending he hstate
        have hnil : q.pendingMap = ∅ := AList.ext hpending
        simp [hnil] at hsome
  refine ⟨hwaiting, ?_, ?_⟩
  · apply List.eq_nil_iff_forall_not_mem.mpr
    rintro ⟨hash, e⟩ hmem
    have hlookup : q.hashMap.lookup hash = some e := AList.mem_lookup_iff.mpr hmem
    exact htracked e (by rw [Tracked, (h.hash hlookup).1, hlookup])
  · apply List.eq_nil_iff_forall_not_mem.mpr
    rintro ⟨p, txList⟩ hmem
    have hlookup : q.participantMap.lookup p = some txList := AList.mem_lookup_iff.mpr hmem
    obtain ⟨e, he⟩ := List.exists_mem_of_ne_nil txList fun hnil => h.nonempty p (hnil ▸ hlookup)
    have hlisted : e ∈ TxQueueV2.listed q.participantMap p := by
      rw [TxQueueV2.listed, hlookup]
      exact he
    exact htracked e ((h.listed p e).mp hlisted).1

/-- A call while the queue drains. -/
inductive DrainCall where
  | dequeue
  | complete (hash : Bytes)

/-- The queue after some calls, and what they returned. -/
def drain (q : TxQueueV2) : List DrainCall → TxQueueV2 × List EthTx
  | [] => (q, [])
  | .dequeue :: calls =>
      match q.dequeue with
      | none => q.drain calls
      | some (tx, q') => ((q'.drain calls).1, tx :: (q'.drain calls).2)
  | .complete hash :: calls => (q.complete hash).drain calls

/-- The transactions that are still to be returned. -/
def remaining (q : TxQueueV2) : List EthTx :=
  (q.readyList ++ q.waitingList).map fun e => (q.entries e).tx

theorem Dequeues.remaining {rest : List Nat} (hd : Dequeues q q' e rest) :
    q.remaining = (q.entries e).tx :: q'.remaining := by
  have htx : (fun e => (q'.entries e).tx) = fun e => (q.entries e).tx := by
    funext x
    rw [hd.entries]
  rw [TxQueueV2.remaining, TxQueueV2.remaining, hd.first, hd.readyList, hd.waitingList, htx]
  rfl

theorem remaining_complete (h : Inv q) (hash : Bytes) :
    (q.complete hash).remaining.Perm q.remaining := by
  cases he : q.hashMap.lookup hash with
  | none =>
      rw [complete_unknown he]
      exact .refl _
  | some e =>
      have hc := complete_spec h he
      have htx : (fun e => ((q.complete hash).entries e).tx) = fun e => (q.entries e).tx :=
        funext hc.tx
      rw [remaining, remaining, htx]
      exact hc.perm.map _

theorem drain_spec (h : Inv q) (calls : List DrainCall) :
    Inv (q.drain calls).1 ∧
      q.remaining.Perm ((q.drain calls).2 ++ (q.drain calls).1.remaining) := by
  induction calls generalizing q with
  | nil => exact ⟨h, .refl _⟩
  | cons call calls ih =>
      cases call with
      | dequeue =>
          cases hq : q.dequeue with
          | none =>
              simp only [drain, hq]
              exact ih h
          | some p =>
              obtain ⟨tx, q'⟩ := p
              obtain ⟨e, rest, rfl, hd⟩ := dequeue_spec hq
              obtain ⟨hinv, hperm⟩ := ih (h.dequeue hq)
              simp only [drain, hq]
              refine ⟨hinv, ?_⟩
              rw [hd.remaining]
              exact hperm.cons _
      | complete hash =>
          obtain ⟨hinv, hperm⟩ := ih (h.complete hash)
          exact ⟨hinv, (remaining_complete h hash).symm.trans hperm⟩

def plainTransfers : TxReader where
  isProtected _ := true
  isLegacy _ := true
  data _ := []

/-- The participant queue after some calls. -/
def serve (calls : List QueueCall) : Serving TxQueueV2 :=
  calls.foldl (Serving.step (interface sampleDecoders plainTransfers)) { queue := {} }

/-- A transaction waits only while another one is ready or pending.  Calls of `Dequeue` and
`Complete`, in any order and for any hashes, that end with nothing ready or pending have
returned what remained exactly once, and leave nothing behind. -/
theorem drains_exactly_once {ok : TxQueueV2 → QueueCall → Prop} {s : Serving TxQueueV2}
    (h : s.Reachable (interface d r) {} ok) :
    (s.queue.waitingList ≠ [] → s.queue.readyList ≠ [] ∨ s.queue.pendingMap.entries ≠ []) ∧
      ∀ calls, (s.queue.drain calls).1.readyList = [] →
        (s.queue.drain calls).1.pendingMap.entries = [] →
        (s.queue.drain calls).2.Perm s.queue.remaining ∧
          (s.queue.drain calls).1.waitingList = [] ∧
          (s.queue.drain calls).1.hashMap.entries = [] ∧
          (s.queue.drain calls).1.participantMap.entries = [] := by
  have hinv := reachable_inv h
  refine ⟨hinv.progress, fun calls hready hpending => ?_⟩
  obtain ⟨hinv', hperm⟩ := drain_spec hinv calls
  obtain ⟨hwaiting, hhash, hparticipant⟩ := hinv'.drained hready hpending
  have hnone : (s.queue.drain calls).1.remaining = [] := by
    rw [remaining, hready, hwaiting]
    rfl
  rw [hnone, List.append_nil] at hperm
  exact ⟨hperm.symm, hwaiting, hhash, hparticipant⟩

/-- Two transactions of one sender, the second waiting. -/
def twoOfOne : Serving TxQueueV2 := serve [.enqueue transfer₀.tx, .enqueue transfer₁.tx]

theorem drains_exactly_once_two : twoOfOne.queue.waitingList ≠ [] ∧
    (twoOfOne.queue.readyList ≠ [] ∨ twoOfOne.queue.pendingMap.entries ≠ []) ∧
    (twoOfOne.queue.drain [.dequeue, .complete transfer₀.tx.hash, .dequeue,
      .complete transfer₁.tx.hash]).2.Perm twoOfOne.queue.remaining := by
  have h : twoOfOne.Reachable (interface sampleDecoders plainTransfers) {} (fun _ _ => True) :=
    Serving.Reachable.start.run ⟨trivial, trivial, trivial⟩
  have hwaiting : twoOfOne.queue.waitingList ≠ [] := by decide
  obtain ⟨hprogress, hdrains⟩ := drains_exactly_once h
  exact ⟨hwaiting, hprogress hwaiting, (hdrains _ (by decide) (by decide)).1⟩

/-! ## Completing what was dequeued -/

/-- The hash is unknown, or its entry was dequeued. -/
def Dequeued (q : TxQueueV2) (hash : Bytes) : Prop :=
  ∀ e, q.hashMap.lookup hash = some e → (q.entries e).state = .pending

/-- The hashes of a block are so when their turn comes. -/
def AllDequeued (q : TxQueueV2) : List Domain.Transaction → Prop
  | [] => True
  | tx :: txs => q.Dequeued (bytesToHash tx.txHash) ∧ AllDequeued (q.handleTx tx) txs

/-- Only dequeued or unknown hashes complete. -/
def NamesDequeued (q : TxQueueV2) : QueueCall → Prop
  | .enqueue _ => True
  | .dequeue => True
  | .complete hash => q.Dequeued hash
  | .handle block => q.AllDequeued block.transactions

/-- What holds then: every entry that is not pending is tracked, what is pending is, and the
transactions that run are those of some pending entries. -/
structure Proper (d : Decoders) (r : TxReader) (q : TxQueueV2) (running : List EthTx) : Prop where
  inv : Inv q
  entry : ∀ {e}, e < q.made → (q.entries e).txHash = (q.entries e).tx.hash ∧
    (q.entries e).participants = participantsForTx d r (q.entries e).tx
  tracked : ∀ {e}, e < q.made → (q.entries e).state ≠ .pending → q.Tracked e
  pending : ∀ {hash}, (q.pendingMap.lookup hash).isSome →
    ∃ e, q.hashMap.lookup hash = some e ∧ (q.entries e).state = .pending
  running : ∃ es : List Nat, running = es.map (fun e => (q.entries e).tx) ∧ es.Nodup ∧
    ∀ e ∈ es, q.Tracked e ∧ (q.entries e).state = .pending

variable {running : List EthTx}

theorem Proper.enqueue (h : Proper d r q running) {tx : EthTx} (hq : q.enqueue d r tx = .ok q') :
    Proper d r q' running := by
  have he := enqueue_spec hq
  have hlt : ∀ {e}, e < q'.made → e ≠ q.made → e < q.made := by
    intro e hmade hne
    rw [he.made] at hmade
    omega
  refine ⟨he.inv (participantsForTx_nodup d r tx) h.inv, fun {e} hmade => ?_, fun {e} hmade hstate => ?_,
    fun {hash} hsome => ?_, ?_⟩
  · by_cases hne : e = q.made
    · obtain ⟨htx, hhash, hparts, -⟩ := he.entry
      rw [hne, hhash, hparts, htx]
      exact ⟨rfl, rfl⟩
    · obtain ⟨htx, hhash, hparts, -⟩ := he.static hne
      rw [hhash, hparts, htx]
      exact h.entry (hlt hmade hne)
  · rw [he.tracked]
    by_cases hne : e = q.made
    · exact .inl hne
    · rw [(he.static hne).2.2.2] at hstate
      exact .inr (h.tracked (hlt hmade hne) hstate)
  · rw [he.pendingMap] at hsome
    obtain ⟨e, hlookup, hstate⟩ := h.pending hsome
    have hne := (h.inv.hash hlookup).2.ne
    refine ⟨e, ?_, (he.static hne).2.2.2.trans hstate⟩
    rw [he.hashMap, FinMap.lookup_insert_if, if_neg, hlookup]
    intro heq
    rw [heq, he.unknown] at hlookup
    exact nomatch hlookup
  · obtain ⟨es, rfl, hnodup, hes⟩ := h.running
    have hne : ∀ e ∈ es, e ≠ q.made := fun e hmem => (h.inv.made (hes e hmem).1).ne
    refine ⟨es, List.map_congr_left fun e hmem => (he.static (hne e hmem)).1.symm, hnodup,
      fun e hmem => ?_⟩
    rw [he.tracked, (he.static (hne e hmem)).2.2.2]
    exact ⟨.inr (hes e hmem).1, (hes e hmem).2⟩

theorem Proper.dequeue (h : Proper d r q running) {tx : EthTx} (hq : q.dequeue = some (tx, q')) :
    Proper d r q' (running ++ [tx]) := by
  obtain ⟨e, rest, rfl, hd⟩ := dequeue_spec hq
  obtain ⟨hmade, hstate⟩ := (h.inv.lists.ready e).mp (by rw [hd.first]; exact List.mem_cons_self ..)
  have he : q.Tracked e := h.tracked hmade (by rw [hstate]; exact nofun)
  have htracked : ∀ x, q'.Tracked x ↔ q.Tracked x := fun x => by
    rw [Tracked, Tracked, hd.hashMap, hd.entries]
  have hpending : ∀ {x}, (q.entries x).state = .pending → (q'.entries x).state = .pending := by
    intro x hx
    rw [hd.entries]
    simp [hx]
  refine ⟨h.inv.dequeue hq, fun {x} hx => ?_, fun {x} hx hxstate => ?_, fun {hash} hsome => ?_, ?_⟩
  · rw [hd.entries]
    exact h.entry (hd.made ▸ hx)
  · rw [htracked]
    refine h.tracked (hd.made ▸ hx) fun hp => hxstate (hpending hp)
  · rw [hd.hashMap]
    rw [hd.pendingMap, FinMap.lookup_insert_if] at hsome
    split at hsome
    next hhash =>
      refine ⟨e, hhash ▸ he, ?_⟩
      rw [hd.entries]
      simp
    next =>
      obtain ⟨x, hx, hxstate⟩ := h.pending hsome
      exact ⟨x, hx, hpending hxstate⟩
  · obtain ⟨es, rfl, hnodup, hes⟩ := h.running
    have hnot : e ∉ es := fun hmem => by
      have := (hes e hmem).2
      rw [hstate] at this
      exact nomatch this
    refine ⟨es ++ [e], ?_, ?_, fun x hx => ?_⟩
    · rw [List.map_append]
      congr 1
      · exact List.map_congr_left fun x _ => by rw [hd.entries]
      · rw [List.map_singleton, hd.entries]
    · rw [← List.concat_eq_append]
      exact hnodup.concat hnot
    · rw [htracked]
      cases List.mem_append.mp hx with
      | inl hx => exact ⟨(hes x hx).1, hpending (hes x hx).2⟩
      | inr hx =>
          rw [List.mem_singleton.mp hx, hd.entries]
          exact ⟨he, by simp⟩

theorem Completes.pending_iff (hc : Completes q q' hash e) :
    (q'.entries x).state = .pending ↔ (q.entries x).state = .pending := by
  obtain hsame | ⟨hwaiting, hready⟩ := hc.state x
  · rw [hsame]
  · simp [hwaiting, hready]

theorem Proper.complete (h : Proper d r q running) (hhash : q.Dequeued hash) :
    Proper d r (q.complete hash) (running.filter (·.hash ≠ hash)) := by
  have hinv := h.inv.complete hash
  obtain ⟨es, rfl, hnodup, hes⟩ := h.running
  have hmade : ∀ x ∈ es, (q.entries x).txHash = (q.entries x).tx.hash := fun x hx =>
    (h.entry (h.inv.made (hes x hx).1)).1
  have hrunning : (es.map fun x => (q.entries x).tx).filter (·.hash ≠ hash) =
      (es.filter fun x => (q.entries x).txHash ≠ hash).map fun x => (q.entries x).tx := by
    rw [List.filter_map]
    congr 1
    exact List.filter_congr fun x hx => by simp [hmade x hx]
  cases he : q.hashMap.lookup hash with
  | none =>
      rw [complete_unknown he] at hinv ⊢
      refine ⟨hinv, h.entry, h.tracked, fun {k} hsome => ?_, ?_⟩
      · change ((q.pendingMap.erase hash).lookup k).isSome at hsome
        rw [FinMap.lookup_erase_if] at hsome
        split at hsome
        next => exact nomatch hsome
        next => exact h.pending hsome
      · exact ⟨_, hrunning, hnodup.filter _, fun x hx => hes x (List.mem_of_mem_filter hx)⟩
  | some e =>
      have hc := complete_spec h.inv he
      have htracked := hc.tracked h.inv he
      refine ⟨hinv, fun {x} hx => ?_, fun {x} hx hstate => ?_, fun {k} hsome => ?_, ?_⟩
      · rw [hc.txHash, hc.tx, hc.participants]
        exact h.entry (hc.made ▸ hx)
      · rw [ne_eq, hc.pending_iff] at hstate
        refine (htracked x).mpr ⟨h.tracked (hc.made ▸ hx) hstate, fun hxe => hstate ?_⟩
        rw [hxe]
        exact hhash e he
      · rw [hc.pendingMap, FinMap.lookup_erase_if] at hsome
        split at hsome
        next => exact nomatch hsome
        next hne =>
          obtain ⟨x, hx, hxstate⟩ := h.pending hsome
          refine ⟨x, ?_, hc.pending_iff.mpr hxstate⟩
          rw [hc.hashMap, FinMap.lookup_erase_if, if_neg hne, hx]
      · have htx : (fun x => ((q.complete hash).entries x).tx) = fun x => (q.entries x).tx :=
          funext hc.tx
        refine ⟨es.filter fun x => (q.entries x).txHash ≠ hash, by rw [htx]; exact hrunning,
          hnodup.filter _, fun x hx => ?_⟩
        obtain ⟨hmem, hne⟩ := List.mem_filter.mp hx
        rw [htracked, hc.pending_iff]
        refine ⟨⟨(hes x hmem).1, fun hxe => ?_⟩, (hes x hmem).2⟩
        rw [hxe, (h.inv.hash he).1] at hne
        simp at hne

theorem Proper.handle (h : Proper d r q running) (txs : List Domain.Transaction)
    (hhashes : q.AllDequeued txs) : Proper d r (txs.foldl handleTx q)
      (running.filter (·.hash ∉ txs.map fun tx => bytesToHash tx.txHash)) := by
  induction txs generalizing q running with
  | nil => simpa using h
  | cons tx txs ih =>
      have hone := h.complete hhashes.1
      have hcounted : Proper d r (q.handleTx tx)
          (running.filter (·.hash ≠ bytesToHash tx.txHash)) :=
        ⟨h.inv.handleTx tx, hone.entry, hone.tracked, hone.pending, hone.running⟩
      have hrest := ih hcounted hhashes.2
      rw [List.filter_filter] at hrest
      have hsame : (running.filter fun t =>
          decide (t.hash ∉ txs.map fun tx => bytesToHash tx.txHash) &&
            decide (t.hash ≠ bytesToHash tx.txHash)) =
          running.filter (·.hash ∉ (tx :: txs).map fun tx => bytesToHash tx.txHash) :=
        List.filter_congr fun t _ => by
          rw [← Bool.decide_and, decide_eq_decide, List.map_cons, List.mem_cons, not_or, and_comm]
      rw [hsame] at hrest
      exact hrest

theorem reachable_proper {s : Serving TxQueueV2}
    (h : s.Reachable (interface d r) {} NamesDequeued) : Proper d r s.queue s.running := by
  induction h with
  | start =>
      exact ⟨Inv.empty, fun he => absurd he (Nat.not_lt_zero _),
        fun he => absurd he (Nat.not_lt_zero _), nofun, [], rfl, .nil, nofun⟩
  | @step s call _ hok ih =>
      cases call with
      | enqueue tx =>
          simp only [Serving.step]
          split
          next q' hq => exact ih.enqueue hq
          next => exact ih
      | dequeue =>
          simp only [Serving.step]
          split
          next => exact ih
          next tx q' hq => exact ih.dequeue hq
      | complete hash => exact ih.complete hok
      | handle block => exact ih.handle block.transactions hok

/-! ### Exclusion -/

/-- The transactions share a sender or recipient. -/
def SharesParticipant (d : Decoders) (r : TxReader) (a b : EthTx) : Prop :=
  ∃ p, Involves d r a p ∧ Involves d r b p

/-- As long as only dequeued or unknown hashes complete, no two transactions that run share
a participant. -/
theorem running_apart {s : Serving TxQueueV2}
    (h : s.Reachable (interface d r) {} NamesDequeued) :
    s.running.Pairwise fun a b => ¬ SharesParticipant d r a b := by
  have hproper := reachable_proper h
  obtain ⟨es, hrunning, hnodup, hes⟩ := hproper.running
  rw [hrunning, List.pairwise_map]
  refine hnodup.imp_of_mem fun {a b} ha hb hne hshare => ?_
  obtain ⟨hta, hsa⟩ := hes a ha
  obtain ⟨htb, hsb⟩ := hes b hb
  have hlists := hproper.inv.lists
  have hshare' : Share (s.queue.entries a) (s.queue.entries b) := by
    rw [Share, (hproper.entry (hproper.inv.made hta)).2, (hproper.entry (hproper.inv.made htb)).2]
    simpa only [mem_participantsForTx, SharesParticipant] using hshare
  obtain hmem | hmem := hproper.inv.linked hta htb hne hshare'
  · have := (hlists.blocked b (hproper.inv.made htb)).mpr (List.ne_nil_of_mem hmem)
    rw [hsb] at this
    cases this
  · have := (hlists.blocked a (hproper.inv.made hta)).mpr (List.ne_nil_of_mem hmem)
    rw [hsa] at this
    cases this

/-- Two senders, one with two transactions. -/
def twoSenders : Serving TxQueueV2 :=
  serve [.enqueue transfer₀.tx, .enqueue transfer₁.tx, .enqueue other₀.tx, .dequeue,
    .dequeue, .handle (minedBlock transfer₀), .dequeue]

theorem twoSenders_reachable :
    twoSenders.Reachable (interface sampleDecoders plainTransfers) {} NamesDequeued := by
  refine Serving.Reachable.start.run ⟨trivial, trivial, trivial, trivial, trivial,
    ⟨fun e he => ?_, trivial⟩, trivial, trivial⟩
  obtain rfl : 0 = e := Option.some.inj ((show _ = some 0 by decide).symm.trans he)
  decide

theorem running_apart_twoSenders : twoSenders.running = [other₀.tx, transfer₁.tx] ∧
    twoSenders.running.Pairwise
      fun a b => ¬ SharesParticipant sampleDecoders plainTransfers a b :=
  ⟨by decide, running_apart twoSenders_reachable⟩

/-- A ready transaction is in a block of another gateway.  The one that waits for it is
promoted, and both are dequeued. -/
def readyCompleted : Serving TxQueueV2 :=
  serve [.enqueue transfer₀.tx, .enqueue transfer₁.tx, .handle (minedBlock transfer₀),
    .dequeue, .dequeue]

theorem ready_completed_overlaps :
    readyCompleted.Reachable (interface sampleDecoders plainTransfers) {} (fun _ _ => True) ∧
      readyCompleted.running = [transfer₀.tx, transfer₁.tx] ∧
      SharesParticipant sampleDecoders plainTransfers transfer₀.tx transfer₁.tx := by
  refine ⟨Serving.Reachable.start.run ⟨trivial, trivial, trivial, trivial, trivial, trivial⟩,
    by decide, account₀, .inl rfl, .inl rfl⟩

/-! ### The pending view -/

/-- The hashes that are queued or in progress. -/
def present (q : TxQueueV2) : List Bytes :=
  (q.readyList ++ q.waitingList).map (fun e => (q.entries e).txHash) ++ q.pendingMap.keys

theorem Proper.isPending_eq_none (h : Proper d r q running) :
    q.isPending hash = none ↔ q.hashMap.lookup hash = none := by
  unfold TxQueueV2.isPending
  split
  next tx htx =>
    obtain ⟨e, he, -⟩ := h.pending (show (q.pendingMap.lookup hash).isSome by rw [htx]; rfl)
    simp [he]
  next => simp

theorem Proper.present_nodup (h : Proper d r q running) : q.present.Nodup := by
  have hqueued : ∀ e ∈ q.readyList ++ q.waitingList, e < q.made ∧ (q.entries e).state ≠ .pending := by
    intro e he
    cases List.mem_append.mp he with
    | inl he =>
        obtain ⟨hmade, hstate⟩ := (h.inv.lists.ready e).mp he
        exact ⟨hmade, by rw [hstate]; exact nofun⟩
    | inr he =>
        obtain ⟨hmade, hstate⟩ := (h.inv.lists.waiting e).mp he
        exact ⟨hmade, by rw [hstate]; exact nofun⟩
  have hnodup : (q.readyList ++ q.waitingList).Nodup := by
    refine h.inv.lists.readyNodup.append h.inv.lists.waitingNodup fun e hr hw => ?_
    have := ((h.inv.lists.ready e).mp hr).2
    rw [((h.inv.lists.waiting e).mp hw).2] at this
    exact nomatch this
  rw [present]
  refine List.Nodup.append (hnodup.map_on fun a ha b hb heq => ?_) (AList.keys_nodup _)
    fun k hk hp => ?_
  · have hta : q.hashMap.lookup (q.entries a).txHash = some a :=
      h.tracked (hqueued a ha).1 (hqueued a ha).2
    have htb : q.hashMap.lookup (q.entries b).txHash = some b :=
      h.tracked (hqueued b hb).1 (hqueued b hb).2
    rw [heq, htb] at hta
    exact (Option.some.inj hta).symm
  · obtain ⟨a, ha, rfl⟩ := List.mem_map.mp hk
    have hta : q.hashMap.lookup (q.entries a).txHash = some a :=
      h.tracked (hqueued a ha).1 (hqueued a ha).2
    obtain ⟨e, he, hstate⟩ := h.pending (AList.lookup_isSome.mpr (AList.mem_keys.mpr hp))
    rw [he] at hta
    obtain rfl := Option.some.inj hta
    exact (hqueued e ha).2 hstate

theorem Proper.consistent (h : Proper d r q running) : Consistent (interface d r) present q where
  inFlight := by
    refine ⟨q.hashMap.keys.toFinset, fun hash => ?_, ?_⟩
    · show _ ↔ q.isPending hash ≠ none
      rw [List.mem_toFinset, ne_eq, h.isPending_eq_none, AList.lookup_eq_none, AList.mem_keys, not_not]
    · rw [List.toFinset_card_of_nodup (AList.keys_nodup _)]
      simp [interface, inFlight, AList.keys, List.keys]
  enqueue := fun tx => by
    show (∃ q', q.enqueue d r tx = .ok q') ↔ q.isPending tx.hash = none
    rw [h.isPending_eq_none, TxQueueV2.enqueue]
    cases q.hashMap.lookup tx.hash <;> simp
  once := h.present_nodup

/-- The pending view of the plain queue is consistent in every run, that of the participant
queue as long as only dequeued or unknown hashes complete. -/
theorem pending_view_consistent (d : Decoders) (r : TxReader) :
    (∀ s : Serving TxQueue, s.Reachable TxQueue.interface {} (fun _ _ => True) →
      Consistent TxQueue.interface TxQueue.present s.queue) ∧
    ∀ s : Serving TxQueueV2, s.Reachable (interface d r) {} NamesDequeued →
      Consistent (interface d r) present s.queue :=
  ⟨fun _ h => (TxQueue.reachable_inv h).consistent, fun _ h => (reachable_proper h).consistent⟩

/-- The plain queue with one transaction queued and one in progress. -/
def plainTwo : Serving TxQueue :=
  [.enqueue transfer₀.tx, .enqueue transfer₁.tx, .dequeue].foldl
    (Serving.step TxQueue.interface) { queue := {} }

theorem pending_view_consistent_two :
    Consistent TxQueue.interface TxQueue.present plainTwo.queue ∧
      Consistent (interface sampleDecoders plainTransfers) present twoSenders.queue := by
  obtain ⟨hplain, hparticipant⟩ := pending_view_consistent sampleDecoders plainTransfers
  exact ⟨hplain plainTwo (Serving.Reachable.start.run ⟨trivial, trivial, trivial, trivial⟩),
    hparticipant twoSenders twoSenders_reachable⟩

/-- A transaction completes before it is dequeued. -/
def completedFirst : Serving TxQueueV2 :=
  serve [.enqueue transfer₀.tx, .complete transfer₀.tx.hash, .dequeue]

theorem ready_completed_uncounted :
    completedFirst.Reachable (interface sampleDecoders plainTransfers) {} (fun _ _ => True) ∧
      completedFirst.queue.inFlight = 0 ∧
      completedFirst.queue.isPending transfer₀.tx.hash = some transfer₀.tx ∧
      ¬ Consistent (interface sampleDecoders plainTransfers) present completedFirst.queue := by
  have hpending : completedFirst.queue.isPending transfer₀.tx.hash = some transfer₀.tx := by
    decide
  refine ⟨Serving.Reachable.start.run ⟨trivial, trivial, trivial, trivial⟩, by decide, hpending,
    fun h => ?_⟩
  obtain ⟨pending, hmem, hcard⟩ := h.inFlight
  have hone : transfer₀.tx.hash ∈ pending := (hmem _).mpr (by
    show completedFirst.queue.isPending transfer₀.tx.hash ≠ none
    rw [hpending]
    exact nofun)
  have hzero : completedFirst.queue.inFlight = 0 := by decide
  have hempty : pending.card = 0 := hcard.symm.trans hzero
  rw [Finset.card_eq_zero.mp hempty] at hone
  exact nomatch hone

end TxQueueV2

end Gateway

import FabricXEvm.Gateway.DepGraphNodes

/-!
# When an endorsement is reused

`ReusableEndorsement` answers from the last-write map of the recent blocks.  Here its answer
is compared with the log of everything that happened to the queue, which has no window.  The
log tells which hashes are tracked, what was kept for each and whether it was asked for
since, and for each non-empty block the keys that valid transactions tracked then had in
their kept write sets.  `Reusable` is the rule in terms of the log, and `reusable_iff` says
that the queue follows it.
-/

open Blocks Common

namespace Gateway

/-- What `keepEndorsement` was called with. -/
structure Kept (ε : Type) where
  endorsement : ε
  /-- The number of blocks when the transaction was executed. -/
  seq : Nat
  content : Content

inductive Event (ε : Type) where
  /-- An `Enqueue` that was accepted. -/
  | enqueued (hash : Bytes)
  | kept (hash : Bytes) (k : Kept ε)
  | handled (block : Domain.Block)
  | completed (hash : Bytes)
  | dropped (hash : Bytes)
  /-- `ReusableEndorsement`. -/
  | asked (hash : Bytes)

namespace Event

variable {ε : Type}

/-! ## The log, newest event first -/

def tracked (hash : Bytes) : List (Event ε) → Bool
  | [] => false
  | .enqueued h :: log => h = hash || tracked hash log
  | .handled block :: log => hash ∉ blockHashes block && tracked hash log
  | .completed h :: log => h ≠ hash && tracked hash log
  | .dropped h :: log => h ≠ hash && tracked hash log
  | .kept _ _ :: log => tracked hash log
  | .asked _ :: log => tracked hash log

/-- The latest endorsement kept for a hash since it was enqueued. -/
def lastKept (hash : Bytes) : List (Event ε) → Option (Kept ε)
  | [] => none
  | .enqueued h :: log => if h = hash then none else lastKept hash log
  | .kept h k :: log => if h = hash ∧ tracked hash log then some k else lastKept hash log
  | .handled _ :: log => lastKept hash log
  | .completed _ :: log => lastKept hash log
  | .dropped _ :: log => lastKept hash log
  | .asked _ :: log => lastKept hash log

/-- The latest endorsement of a hash has been asked for since it was kept. -/
def asked? (hash : Bytes) : List (Event ε) → Bool
  | [] => false
  | .asked h :: log => h = hash || asked? hash log
  | .kept h _ :: log => !(h = hash && tracked hash log) && asked? hash log
  | .enqueued _ :: log => asked? hash log
  | .handled _ :: log => asked? hash log
  | .completed _ :: log => asked? hash log
  | .dropped _ :: log => asked? hash log

/-- The keys in the kept write set of a hash, if it is tracked. -/
def writeSet (log : List (Event ε)) (hash : Bytes) : List Bytes :=
  if tracked hash log then
    match lastKept hash log with
    | none => []
    | some k => (readWriteKeys k.content).2
  else []

/-- What the valid transactions of a block wrote, as far as the queue can know. -/
def written (log : List (Event ε)) (block : Domain.Block) : List Bytes :=
  block.transactions.flatMap fun tx =>
    if tx.fabricTxStatus.valid then writeSet log (bytesToHash tx.txHash) else []

/-- The non-empty blocks handled, oldest first, each with the keys written. -/
def blocks : List (Event ε) → List (List Bytes)
  | [] => []
  | .handled block :: log =>
      if block.transactions.length = 0 then blocks log else blocks log ++ [written log block]
  | .enqueued _ :: log => blocks log
  | .kept _ _ :: log => blocks log
  | .completed _ :: log => blocks log
  | .dropped _ :: log => blocks log
  | .asked _ :: log => blocks log

/-- The endorsement may be reused: it is the latest one of a tracked hash, was not asked for
since it was kept, and fewer than 64 blocks were handled since it was executed, none of
which wrote a key it read. -/
def Reusable (log : List (Event ε)) (hash : Bytes) (endorsement : ε) : Prop :=
  tracked hash log = true ∧ asked? hash log = false ∧
    ∃ k, lastKept hash log = some k ∧ k.endorsement = endorsement ∧
      (blocks log).length - k.seq < 64 ∧
      ∀ keys ∈ (blocks log).drop k.seq, ∀ key ∈ keys, key ∉ (readWriteKeys k.content).1

end Event

/-! ## Runs -/

namespace DepGraphQueue

variable {ε : Type} {q q' : DepGraphQueue ε} {hash k : Bytes} {log : List (Event ε)}

/-- The queue after any calls of its methods, with the log.  `keepEndorsement` may be called
with any number of blocks counted before. -/
inductive Run : DepGraphQueue ε → List (Event ε) → Prop where
  | start (chanSize : Nat) : Run { chanSize } []
  | enqueue {q q' : DepGraphQueue ε} {log : List (Event ε)} {tx : EthTx} :
      Run q log → q.enqueue tx = .ok q' → Run q' (.enqueued tx.hash :: log)
  | take {q : DepGraphQueue ε} {log : List (Event ε)} {tx : EthTx} {rest : List EthTx} :
      Run q log → q.admitted = tx :: rest → Run { q with admitted := rest } log
  | keep {q : DepGraphQueue ε} {log : List (Event ε)} (hash : Bytes) (k : Kept ε) :
      Run q log → k.seq ≤ q.commitSeq →
      Run (q.keepEndorsement hash k.seq k.endorsement k.content) (.kept hash k :: log)
  | drop {q : DepGraphQueue ε} {log : List (Event ε)} (hash : Bytes) :
      Run q log → Run (q.drop hash) (.dropped hash :: log)
  | markReady {q : DepGraphQueue ε} {log : List (Event ε)} (nodes : List Node) :
      Run q log → Run (q.markReady nodes).1 log
  | dequeue {q q' : DepGraphQueue ε} {log : List (Event ε)} {tx : EthTx} :
      Run q log → q.dequeue = some (tx, q') → Run q' log
  | complete {q : DepGraphQueue ε} {log : List (Event ε)} (hash : Bytes) :
      Run q log → Run (q.complete hash).1 (.completed hash :: log)
  | handle {q : DepGraphQueue ε} {log : List (Event ε)} (block : Domain.Block) :
      Run q log → Run (q.handle block).1 (.handled block :: log)
  | reuse {q : DepGraphQueue ε} {log : List (Event ε)} (hash : Bytes) :
      Run q log → Run (q.reusableEndorsement hash).1 (.asked hash :: log)

/-! ## Entries -/

/-- The parts of an entry that the answer depends on. -/
def entry (q : DepGraphQueue ε) (hash : Bytes) :
    Option (Option ε × Nat × List Bytes × List Bytes) :=
  (q.tracked.lookup hash).map fun t => (t.kept, t.readSeq, t.reads, t.writes)

/-- The entry of a hash, by what the log says about it. -/
def entryFor (tracked : Bool) (kept : Option (Kept ε)) (asked : Bool) :
    Option (Option ε × Nat × List Bytes × List Bytes) :=
  match tracked, kept with
  | false, _ => none
  | true, none => some (none, 0, [], [])
  | true, some k =>
      some (if asked then none else some k.endorsement, k.seq, readWriteKeys k.content)

def loggedEntry (log : List (Event ε)) (hash : Bytes) :
    Option (Option ε × Nat × List Bytes × List Bytes) :=
  entryFor (Event.tracked hash log) (Event.lastKept hash log) (Event.asked? hash log)

theorem entry_insert (t : TrackedTx ε) :
    { q with tracked := q.tracked.insert hash t }.entry k =
      if k = hash then some (t.kept, t.readSeq, t.reads, t.writes) else q.entry k := by
  unfold entry
  rw [FinMap.lookup_insert_if]
  split <;> rfl

theorem entry_erase :
    { q with tracked := q.tracked.erase hash }.entry k =
      if k = hash then none else q.entry k := by
  unfold entry
  rw [FinMap.lookup_erase_if]
  split <;> rfl

theorem entry_takeNodes (hashes : List Bytes) :
    (∃ tracked, (q.takeNodes hashes).1 = { q with tracked }) ∧
      ∀ k, (q.takeNodes hashes).1.entry k = if k ∈ hashes then none else q.entry k := by
  induction hashes generalizing q with
  | nil => exact ⟨⟨_, rfl⟩, fun k => by simp [takeNodes]⟩
  | cons hash hashes ih =>
      rw [takeNodes_cons]
      obtain ⟨⟨tracked, heq⟩, hentry⟩ := ih (q := (q.complete hash).1)
      rcases q.complete_cases hash with ⟨hheld, h⟩ | ⟨_, _, _, h⟩
      · rw [h] at heq hentry ⊢
        refine ⟨⟨tracked, heq⟩, fun k => (hentry k).trans ?_⟩
        have hnone : q.entry hash = none := by simpa [held, entry] using hheld
        by_cases hk : k = hash
        · subst hk
          simp [hnone]
        · simp [hk]
      · rw [h] at heq hentry ⊢
        refine ⟨⟨tracked, heq⟩, fun k => (hentry k).trans ?_⟩
        rw [entry_erase]
        by_cases hk : k = hash <;> simp [hk]

theorem entry_markReady (nodes : List Node) :
    (∃ tracked ready, (q.markReady nodes).1 = { q with tracked, ready }) ∧
      ∀ k, (q.markReady nodes).1.entry k = q.entry k := by
  induction nodes generalizing q with
  | nil => exact ⟨⟨_, _, rfl⟩, fun _ => rfl⟩
  | cons n nodes ih =>
      rw [markReady_cons]
      have hone : (∃ tracked ready, (q.markReady [n]).1 = { q with tracked, ready }) ∧
          ∀ k, (q.markReady [n]).1.entry k = q.entry k := by
        unfold markReady
        rw [List.foldl_cons, List.foldl_nil, markReadyNode]
        split
        · exact ⟨⟨_, _, rfl⟩, fun _ => rfl⟩
        next hash _ =>
          dsimp only
          cases h : q.tracked.lookup hash with
          | none => exact ⟨⟨_, _, rfl⟩, fun _ => rfl⟩
          | some t =>
              refine ⟨⟨_, _, rfl⟩, fun k => ?_⟩
              refine Eq.trans (entry_insert (q := q) { t with node := some n }) ?_
              split
              next hk => rw [hk, entry, h]; rfl
              next => rfl
      obtain ⟨⟨tracked, ready, heq⟩, hentry⟩ := ih (q := (q.markReady [n]).1)
      obtain ⟨⟨tracked', ready', heq'⟩, hentry'⟩ := hone
      refine ⟨⟨tracked, ready, ?_⟩, fun k => (hentry k).trans (hentry' k)⟩
      rw [heq, heq']

theorem loggedEntry_enqueued :
    loggedEntry (.enqueued hash :: log) k =
      if k = hash then some (none, 0, [], []) else loggedEntry log k := by
  by_cases hk : k = hash
  · simp [loggedEntry, Event.tracked, Event.lastKept, entryFor, hk]
  · have hk' : hash ≠ k := fun h => hk h.symm
    simp [loggedEntry, Event.tracked, Event.lastKept, Event.asked?, hk, hk']

theorem loggedEntry_kept (kept : Kept ε) :
    loggedEntry (.kept hash kept :: log) k =
      if k = hash ∧ Event.tracked hash log then
        some (some kept.endorsement, kept.seq, readWriteKeys kept.content)
      else loggedEntry log k := by
  by_cases hk : k = hash
  · subst hk
    cases htracked : Event.tracked k log <;>
      simp [loggedEntry, Event.tracked, Event.lastKept, Event.asked?, entryFor, htracked]
  · have hk' : hash ≠ k := fun h => hk h.symm
    simp [loggedEntry, Event.tracked, Event.lastKept, Event.asked?, hk, hk']

theorem loggedEntry_handled (block : Domain.Block) :
    loggedEntry (.handled block :: log) k =
      if k ∈ blockHashes block then none else loggedEntry log k := by
  by_cases hk : k ∈ blockHashes block
  · simp [loggedEntry, Event.tracked, entryFor, hk]
  · simp [loggedEntry, Event.tracked, Event.lastKept, Event.asked?, hk]

theorem loggedEntry_completed :
    loggedEntry (.completed hash :: log) k = if k = hash then none else loggedEntry log k := by
  by_cases hk : k = hash
  · simp [loggedEntry, Event.tracked, entryFor, hk]
  · have hk' : hash ≠ k := fun h => hk h.symm
    simp [loggedEntry, Event.tracked, Event.lastKept, Event.asked?, hk, hk']

theorem loggedEntry_dropped :
    loggedEntry (.dropped hash :: log) k = if k = hash then none else loggedEntry log k :=
  loggedEntry_completed

theorem loggedEntry_asked :
    loggedEntry (.asked hash :: log) k =
      if k = hash then (loggedEntry log k).map fun e => (none, e.2) else loggedEntry log k := by
  by_cases hk : k = hash
  · subst hk
    cases htracked : Event.tracked k log with
    | false => simp [loggedEntry, Event.tracked, entryFor, htracked]
    | true =>
        cases hkept : Event.lastKept k log <;>
          simp [loggedEntry, Event.tracked, Event.lastKept, Event.asked?, entryFor, htracked, hkept]
  · have hk' : hash ≠ k := fun h => hk h.symm
    simp [loggedEntry, Event.tracked, Event.lastKept, Event.asked?, hk, hk']

/-- The endorsement is handed over once. -/
theorem entry_reusableEndorsement :
    (q.reusableEndorsement hash).1.entry k =
      if k = hash then (q.entry k).map fun e => (none, e.2) else q.entry k := by
  have hinsert : ∀ {t : TrackedTx ε}, q.tracked.lookup hash = some t →
      { q with tracked := q.tracked.insert hash { t with kept := none } }.entry k =
        if k = hash then (q.entry k).map fun e => (none, e.2) else q.entry k := by
    intro t hlookup
    rw [entry_insert]
    by_cases hk : k = hash
    · subst hk
      simp [entry, hlookup]
    · rw [if_neg hk, if_neg hk]
  have hsame : (q.entry hash).map (fun e => (none, e.2)) = q.entry hash →
      q.entry k = if k = hash then (q.entry k).map fun e => (none, e.2) else q.entry k := by
    intro h
    by_cases hk : k = hash
    · rw [if_pos hk, hk, h]
    · rw [if_neg hk]
  unfold reusableEndorsement
  cases hlookup : q.tracked.lookup hash with
  | none => exact hsame (by simp [entry, hlookup])
  | some t =>
      cases hkept : t.kept with
      | none =>
          simp only [hkept]
          exact hsame (by simp [entry, hlookup, hkept])
      | some e =>
          simp only [hkept]
          by_cases hwindow : reuseWindow ≤ q.commitSeq - t.readSeq
          · rw [if_pos hwindow]
            exact hinsert hlookup
          · rw [if_neg hwindow, apply_ite Prod.fst, ite_self]
            exact hinsert hlookup

/-! ## The queue agrees with the log -/

structure Agrees (q : DepGraphQueue ε) (log : List (Event ε)) : Prop where
  count : q.commitSeq = (Event.blocks log).length
  window : RecentWrites.Answers q.lastWrite reuseWindow (Event.blocks log)
  entries : ∀ k, q.entry k = loggedEntry log k
  sampled : ∀ {hash k}, Event.lastKept hash log = some k → k.seq ≤ (Event.blocks log).length

namespace Agrees

variable (hq : Agrees q log)
include hq

theorem isSome_lookup (hash : Bytes) : (q.tracked.lookup hash).isSome = Event.tracked hash log := by
  have hentry := congrArg Option.isSome (hq.entries hash)
  rw [entry, Option.isSome_map] at hentry
  rw [hentry, loggedEntry, entryFor.eq_def]
  split <;> simp [*]

/-- Only the entries change. -/
theorem frame {log' : List (Event ε)} (hcount : q'.commitSeq = q.commitSeq)
    (hlast : q'.lastWrite = q.lastWrite) (hblocks : Event.blocks log' = Event.blocks log)
    (hentries : ∀ k, q'.entry k = loggedEntry log' k)
    (hsampled : ∀ {hash k}, Event.lastKept hash log' = some k →
      k.seq ≤ (Event.blocks log).length) : Agrees q' log' where
  count := by rw [hcount, hblocks]; exact hq.count
  window := by rw [hlast, hblocks]; exact hq.window
  entries := hentries
  sampled h := hblocks ▸ hsampled h

theorem committedWrites_eq (block : Domain.Block) :
    q.committedWrites block.transactions = Event.written log block := by
  refine List.flatMap_congr fun tx _ => ?_
  split
  next =>
    have hentry := hq.entries (bytesToHash tx.txHash)
    rw [entry, loggedEntry, entryFor.eq_def] at hentry
    unfold Event.writeSet
    split at hentry
    next _ _ htracked =>
      rw [htracked, Option.map_eq_none_iff.mp hentry]
      rfl
    next _ _ htracked hkept =>
      obtain ⟨t, hlookup, ht⟩ := Option.map_eq_some_iff.mp hentry
      rw [htracked, hkept, hlookup]
      exact congrArg (fun e => e.2.2.2) ht
    next _ _ k htracked hkept =>
      obtain ⟨t, hlookup, ht⟩ := Option.map_eq_some_iff.mp hentry
      rw [htracked, hkept, hlookup]
      exact congrArg (fun e => e.2.2.2) ht
  next => rfl

theorem enqueue {tx : EthTx} (h : q.enqueue tx = .ok q') :
    Agrees q' (.enqueued tx.hash :: log) := by
  unfold DepGraphQueue.enqueue at h
  split at h
  · cases h
  · split at h
    · cases h
    · split at h
      · cases h
      · obtain rfl := Except.ok.inj h
        refine hq.frame rfl rfl rfl (fun k => ?_) fun {hash k} hkept => ?_
        · rw [loggedEntry_enqueued, ← hq.entries]
          exact entry_insert (q := q) { tx }
        · rw [Event.lastKept] at hkept
          split at hkept
          · cases hkept
          · exact hq.sampled hkept

theorem keep (kept : Kept ε) (hseq : kept.seq ≤ q.commitSeq) :
    Agrees (q.keepEndorsement hash kept.seq kept.endorsement kept.content)
      (.kept hash kept :: log) := by
  have hsampled : ∀ {hash' k}, Event.lastKept hash' (.kept hash kept :: log) = some k →
      k.seq ≤ (Event.blocks log).length := by
    intro hash' k h
    rw [Event.lastKept] at h
    split at h
    · obtain rfl := Option.some.inj h
      exact hq.count ▸ hseq
    · exact hq.sampled h
  have htracked := hq.isSome_lookup hash
  unfold keepEndorsement
  cases hlookup : q.tracked.lookup hash with
  | none =>
      rw [hlookup] at htracked
      refine hq.frame rfl rfl rfl (fun k => ?_) hsampled
      rw [loggedEntry_kept, ← htracked, ← hq.entries]
      simp
  | some t =>
      rw [hlookup] at htracked
      refine hq.frame rfl rfl rfl (fun k => ?_) hsampled
      rw [loggedEntry_kept, ← htracked, ← hq.entries]
      simpa using entry_insert (q := q) _

theorem drop : Agrees (q.drop hash) (.dropped hash :: log) := by
  refine hq.frame rfl rfl rfl (fun k => ?_) hq.sampled
  rw [loggedEntry_dropped, ← hq.entries]
  exact entry_erase

theorem markReady (nodes : List Node) : Agrees (q.markReady nodes).1 log := by
  obtain ⟨⟨tracked, ready, heq⟩, hentry⟩ := q.entry_markReady nodes
  exact hq.frame (by rw [heq]) (by rw [heq]) rfl (fun k => (hentry k).trans (hq.entries k)) hq.sampled

theorem complete : Agrees (q.complete hash).1 (.completed hash :: log) := by
  obtain ⟨⟨tracked, heq⟩, hentry⟩ := q.entry_takeNodes [hash]
  refine hq.frame ?_ ?_ rfl (fun k => ?_) hq.sampled
  · rw [DepGraphQueue.complete, heq]
  · rw [DepGraphQueue.complete, heq]
  · rw [DepGraphQueue.complete, hentry, loggedEntry_completed, ← hq.entries]
    simp

theorem handle (block : Domain.Block) : Agrees (q.handle block).1 (.handled block :: log) := by
  unfold DepGraphQueue.handle
  dsimp only
  split
  next hempty =>
    have hblocks : Event.blocks (.handled block :: log) = Event.blocks log := by
      rw [Event.blocks, if_pos hempty]
    refine hq.frame rfl rfl hblocks (fun k => ?_) hq.sampled
    rw [loggedEntry_handled, ← hq.entries, blockHashes, List.length_eq_zero_iff.mp hempty]
    rfl
  next hne =>
    set counted : DepGraphQueue ε :=
      { q with
        total := q.total + block.transactions.length
        invalid := q.invalid + block.transactions.countP fun tx => tx.status = 0 } with hcounted
    obtain ⟨⟨tracked, heq⟩, hentry⟩ :=
      (counted.recordCommitted block.transactions).entry_takeNodes (blockHashes block)
    have hblocks : Event.blocks (.handled block :: log) =
        Event.blocks log ++ [q.committedWrites block.transactions] := by
      rw [Event.blocks, if_neg hne, hq.committedWrites_eq]
    change Agrees ((counted.recordCommitted block.transactions).takeNodes (blockHashes block)).1 _
    refine ⟨?_, ?_, fun k => ?_, fun {hash k} h => ?_⟩
    · rw [heq, hblocks, List.length_append, ← hq.count]
      rfl
    · have hrecord := hq.window.record (q.recent (Fin.ofNat reuseWindow (q.commitSeq + 1)))
        (q.committedWrites block.transactions)
      rw [← hq.count] at hrecord
      rw [heq, hblocks]
      exact hrecord
    · rw [loggedEntry_handled, ← hq.entries]
      exact hentry k
    · rw [hblocks, List.length_append]
      exact Nat.le_add_right_of_le (hq.sampled h)

theorem reuse : Agrees (q.reusableEndorsement hash).1 (.asked hash :: log) := by
  obtain ⟨tracked, heq⟩ := (q.sameEntries_reusableEndorsement hash).1
  refine hq.frame (by rw [heq]) (by rw [heq]) rfl (fun k => ?_) hq.sampled
  rw [entry_reusableEndorsement, loggedEntry_asked, ← hq.entries]

end Agrees

theorem Run.agrees (h : Run q log) : Agrees q log := by
  induction h with
  | start chanSize =>
      exact ⟨rfl, RecentWrites.answers_empty reuseWindow, fun _ => rfl, fun h => by cases h⟩
  | enqueue _ hq ih => exact ih.enqueue hq
  | take _ _ ih => exact ih.frame rfl rfl rfl ih.entries ih.sampled
  | keep hash k _ hseq ih => exact ih.keep k hseq
  | drop hash _ ih => exact ih.drop
  | markReady nodes _ ih => exact ih.markReady nodes
  | dequeue _ hdequeue ih =>
      unfold DepGraphQueue.dequeue at hdequeue
      split at hdequeue
      · cases hdequeue
      · obtain ⟨rfl, rfl⟩ := Prod.mk.inj (Option.some.inj hdequeue)
        exact ih.frame rfl rfl rfl ih.entries ih.sampled
  | complete hash _ ih => exact ih.complete
  | handle block _ ih => exact ih.handle block
  | reuse hash _ ih => exact ih.reuse

theorem reusableEndorsement_eq_some {endorsement : ε} :
    (q.reusableEndorsement hash).2 = some endorsement ↔
      ∃ t, q.tracked.lookup hash = some t ∧ t.kept = some endorsement ∧
        q.commitSeq - t.readSeq < reuseWindow ∧
        ∀ k ∈ t.reads, ¬ t.readSeq < RecentWrites.lastOf q.lastWrite k := by
  unfold reusableEndorsement
  cases hlookup : q.tracked.lookup hash with
  | none => simp
  | some t =>
      cases hkept : t.kept with
      | none => simp [hkept]
      | some e =>
          by_cases hwindow : reuseWindow ≤ q.commitSeq - t.readSeq
          · simp [hkept, hwindow]
          · by_cases hstale : t.reads.any fun k => t.readSeq < RecentWrites.lastOf q.lastWrite k
            · obtain ⟨k, hk, hlt⟩ := List.any_eq_true.mp hstale
              simp only [hkept, hwindow, hstale, if_false, if_true, reduceCtorEq, false_iff]
              rintro ⟨t', ht', _, _, hfresh⟩
              obtain rfl := Option.some.inj ht'
              exact hfresh k hk (by simpa using hlt)
            · have hfresh : ∀ k ∈ t.reads, ¬ t.readSeq < RecentWrites.lastOf q.lastWrite k := by
                simpa using hstale
              simp only [hkept, hwindow, hstale, Bool.false_eq_true, if_false]
              constructor
              · exact fun h => ⟨t, rfl, hkept.trans h, not_le.mp hwindow, hfresh⟩
              · rintro ⟨t', ht', hkept', _⟩
                obtain rfl := Option.some.inj ht'
                exact hkept.symm.trans hkept'

/-- After any calls, `ReusableEndorsement` returns the kept endorsement exactly when the log
allows it. -/
theorem reusable_iff (h : Run q log) (hash : Bytes) (endorsement : ε) :
    (q.reusableEndorsement hash).2 = some endorsement ↔
      Event.Reusable log hash endorsement := by
  have hq := h.agrees
  have hentry := hq.entries hash
  rw [entry, loggedEntry, entryFor.eq_def] at hentry
  rw [reusableEndorsement_eq_some]
  unfold Event.Reusable
  split at hentry
  next _ _ htracked =>
    rw [Option.map_eq_none_iff.mp hentry, htracked]
    simp
  next _ _ htracked hkept =>
    obtain ⟨t, hlookup, ht⟩ := Option.map_eq_some_iff.mp hentry
    simp [hlookup, (Prod.mk.inj ht).1, hkept]
  next _ _ k htracked hkept =>
    obtain ⟨t, hlookup, ht⟩ := Option.map_eq_some_iff.mp hentry
    obtain ⟨hend, hseq, hkeys⟩ : t.kept = (if Event.asked? hash log then none
        else some k.endorsement) ∧ t.readSeq = k.seq ∧ (t.reads, t.writes) =
          readWriteKeys k.content := by
      simpa only [Prod.mk.injEq] using ht
    have hreads : t.reads = (readWriteKeys k.content).1 := congrArg Prod.fst hkeys
    -- Within the window the last-write map knows every block since the endorsement.
    have hfresh : (Event.blocks log).length - k.seq < reuseWindow →
        ((∀ key ∈ t.reads, ¬ t.readSeq < RecentWrites.lastOf q.lastWrite key) ↔
          ∀ keys ∈ (Event.blocks log).drop k.seq, ∀ key ∈ keys,
            key ∉ (readWriteKeys k.content).1) := by
      intro hwindow
      have hsince := fun key => hq.window.since key k.seq (hq.sampled hkept) (by omega)
      rw [hreads, hseq]
      constructor
      · intro h keys hkeys key hkey hread
        exact h key hread ((hsince key).mpr ⟨keys, hkeys, hkey⟩)
      · intro h key hread hlt
        obtain ⟨keys, hkeys, hkey⟩ := (hsince key).mp hlt
        exact h keys hkeys key hkey hread
    simp only [hlookup, Option.some.injEq, exists_eq_left', hend, hseq, hq.count, htracked, hkept,
      true_and]
    cases hasked : Event.asked? hash log with
    | true => simp
    | false =>
        rw [hseq] at hfresh
        simp only [Bool.false_eq_true, if_false, Option.some.injEq, true_and]
        exact and_congr_right fun _ => and_congr_right hfresh

/-- A transaction that was executed before any block, and a block of another one. -/
theorem reusable_after_other :
    Event.Reusable
      [.handled (minedBlock other₀),
        .kept Pipeline.tx₁.hash ⟨(), 0, Pipeline.writesOne⟩, .enqueued Pipeline.tx₁.hash]
      Pipeline.tx₁.hash () := by
  have hrun : @Run Unit _ [.enqueued Pipeline.tx₁.hash] :=
    .enqueue (.start 1) (rfl : enqueue _ Pipeline.tx₁ = .ok _)
  have hrun := Run.keep Pipeline.tx₁.hash ⟨(), 0, Pipeline.writesOne⟩ hrun le_rfl
  have hrun := Run.handle (minedBlock other₀) hrun
  exact (reusable_iff hrun Pipeline.tx₁.hash ()).mp rfl

end DepGraphQueue

end Gateway

import FabricXEvm.Execution.Invariant
import FabricXEvm.Execution.Writes

/-!
# The write index

`getStateFromJournal` looks a key up in an index of the journal.  The index is made at the first
lookup, kept up to date by writes, and thrown away by a revert.  It stands for a backward scan of
the journal (`backwardScan`), and in every state a `StateDB` gets into it finds what the scan
finds (`Reached.lookup_eq_backwardScan`).

A revert cuts the journal at the position of a snapshot.  The position is always inside of the
journal (`Reached.within`), so the cut never brings back entries that an earlier one removed.
-/

namespace Execution

open Blocks

namespace StateDB

variable {s t : StateDB} {env : Backing} {key : Bytes}

/-! ## The backward scan -/

/-- What the journal has of a key. -/
inductive Found where
  | notFound
  | deleted
  | value (v : Bytes)
deriving DecidableEq, Repr

/-- How `getStateFromJournal` returns it: a value that may be nil, or that nothing was found. -/
def Found.returned : Found → Option (Option Bytes)
  | .notFound => none
  | .deleted => some none
  | .value v => some (some v)

/-- What a write says of its key. -/
def foundIn (w : KVWrite) : Found := if w.isDelete then .deleted else .value (w.value.getD [])

/-- The scan, over the entries newest first. -/
def scanEntries (key : Bytes) : List JournalEntry → Found
  | [] => .notFound
  | .write w :: rest => if w.key = key then foundIn w else scanEntries key rest
  | _ :: rest => scanEntries key rest

/-- The latest write of a key, by a scan from the end of the journal. -/
def backwardScan (journal : List JournalEntry) (key : Bytes) : Found :=
  scanEntries key journal.reverse

/-- Every write of the journal is one that `putState` makes. -/
def Written (journal : List JournalEntry) : Prop :=
  ∀ w, .write w ∈ journal → ∃ value, w = writeOf w.key value

/-- A write of `putState` that is not a delete has a value. -/
theorem returned_foundIn {w : KVWrite} (h : ∃ value, w = writeOf w.key value) :
    (foundIn w).returned = some (visible w) := by
  obtain ⟨value, hw⟩ := h
  rw [hw]
  unfold writeOf
  split
  next => rfl
  next => rfl

theorem returned_scanEntries {es : List JournalEntry} (h : Written es) (key : Bytes) :
    (scanEntries key es).returned = (es.findSome? fun
      | .write w => if w.key = key then some w else none
      | _ => none).map visible := by
  induction es with
  | nil => rfl
  | cons e es ih =>
      have ih := ih fun w hw => h w (List.mem_cons_of_mem _ hw)
      rw [List.findSome?_cons]
      cases e with
      | write w =>
          rw [scanEntries]
          dsimp only
          split
          next => exact returned_foundIn (h w List.mem_cons_self)
          next => exact ih
      | _ => exact ih

/-- The scan returns what the latest write leaves to be read. -/
theorem returned_backwardScan {journal : List JournalEntry} (h : Written journal) (key : Bytes) :
    (backwardScan journal key).returned = (lastWrite journal key).map visible :=
  returned_scanEntries (fun w hw => h w (List.mem_reverse.mp hw)) key

/-! ## The states of a run -/

/-- The states a `StateDB` gets into: by the operations of the interface, and by lookups, reads
and writes of any key.  The store may be another one each time, and it may fail.  An operation
that panics has made some of its lookups and reads before. -/
inductive Reached : StateDB → Prop where
  | new : Reached .new
  | exec {op : Op} {r : Ret} {s t : StateDB} (env : Backing) (h : Reached s)
      (hop : op.exec env s = .ok (r, t)) : Reached t
  | lookup {key : Bytes} {found : Option (Option Bytes)} {s t : StateDB} (env : Backing)
      (h : Reached s) (hlookup : getStateFromJournal key env s = .ok (found, t)) : Reached t
  | read {key : Bytes} {val : Except StoreError (Option Bytes)} {s t : StateDB} (env : Backing)
      (h : Reached s) (hread : getState key env s = .ok (val, t)) : Reached t
  | write {s : StateDB} (key value : Bytes) (h : Reached s) : Reached (putState key value s)

theorem extends_getState {val : Except StoreError (Option Bytes)}
    (h : getState key env s = .ok (val, t)) : Extends s t := by
  obtain ⟨found, s', hlookup, h⟩ := Comp.of_bind_ok h
  have hmove : Extends s s' := (local_getStateFromJournal key).moves hlookup
  cases found with
  | some val =>
      cases h
      exact hmove
  | none =>
      cases hstore : env.store env.ns key with
      | error err =>
          cases (getStateFromStore_error hstore).symm.trans h
          exact hmove
      | ok record =>
          cases (getStateFromStore_ok hstore).symm.trans h
          exact hmove.trans (extends_read _ _)

/-- What the operations keep, and every move that only appends, holds of all states. -/
theorem Reached.of_moves {P : StateDB → Prop} (h : Reached s) (hnew : P .new)
    (hexec : ∀ {op : Op} {env : Backing} {s t : StateDB} {r : Ret}, P s →
      op.exec env s = .ok (r, t) → P t)
    (happend : ∀ {s t : StateDB}, P s → Extends s t → P t) : P s := by
  induction h with
  | new => exact hnew
  | exec env _ hop ih => exact hexec ih hop
  | lookup env _ hlookup ih => exact happend ih ((local_getStateFromJournal _).moves hlookup)
  | read env _ hread ih => exact happend ih (extends_getState hread)
  | write key value _ ih => exact happend ih (extends_putState key value _)

theorem Reached.inv (h : Reached s) : Inv s := h.of_moves Inv.new Inv.exec Inv.append

theorem Written.append {j es : List JournalEntry} (h : Written j)
    (hes : ∀ w, .write w ∈ es → ∃ value, w = writeOf w.key value) : Written (j ++ es) := by
  intro w hw
  rcases List.mem_append.mp hw with hw | hw
  · exact h w hw
  · exact hes w hw

theorem Reached.written (h : Reached s) : Written s.journal := by
  induction h with
  | new => exact fun w hw => nomatch hw
  | exec env _ hop ih =>
      intro w hw
      rcases Op.exec_entry hop hw with hw | hw
      · exact ih w hw
      · exact Op.MayWrite.eq_writeOf hw
  | lookup env _ hlookup ih =>
      obtain ⟨es, hj, hes⟩ := moves_getStateFromJournal _ hlookup
      rw [hj]
      exact ih.append fun w hw => hes _ hw
  | read env _ hread ih =>
      obtain ⟨es, hj, hes⟩ := moves_getState _ hread
      rw [hj]
      exact ih.append fun w hw => hes _ hw
  | write key value _ ih =>
      refine ih.append fun w hw => ?_
      cases List.mem_singleton.mp hw
      exact ⟨value, by rw [writeOf_key]⟩

/-- In every state the index finds what a backward scan of the journal finds, and a lookup
changes nothing but the index. -/
theorem Reached.lookup_eq_backwardScan (h : Reached s) (env : Backing) (key : Bytes) :
    getStateFromJournal key env s =
      .ok ((backwardScan s.journal key).returned,
        { s with writeIdx := some (buildIndex s.journal) }) := by
  rw [getStateFromJournal_run h.inv.index, returned_backwardScan h.written]

/-- A key that was written, looked up and deleted. -/
def removed : StateDB :=
  putState [1] [] (snapshot { putState [1] [7] .new with
    writeIdx := some (buildIndex (putState [1] [7] .new).journal) })

theorem reached_removed : Reached removed := by
  have hindexed := @Reached.lookup [1] _ _ _ emptyLedger (.write [1] [7] .new) rfl
  have hsnapshot := @Reached.exec .snapshot _ _ _ emptyLedger hindexed rfl
  exact .write [1] [] hsnapshot

/-- The delete is found, and after a revert the write before it. -/
theorem lookup_around_revert :
    getStateFromJournal [1] emptyLedger removed =
        .ok (some none, { removed with writeIdx := some (buildIndex removed.journal) }) ∧
      getStateFromJournal [1] emptyLedger (revertToSnapshot 0 removed) =
        .ok (some (some [7]), { revertToSnapshot 0 removed with
          writeIdx := some (buildIndex (revertToSnapshot 0 removed).journal) }) :=
  have hrevert : Reached (revertToSnapshot 0 removed) :=
    @Reached.exec (.revertToSnapshot 0) _ _ _ emptyLedger reached_removed rfl
  ⟨reached_removed.lookup_eq_backwardScan emptyLedger [1],
    hrevert.lookup_eq_backwardScan emptyLedger [1]⟩

/-! ## The cuts -/

/-- The snapshots are inside of the journal and the logs, and in order. -/
structure Within (s : StateDB) : Prop where
  journal : ∀ r ∈ s.validRevisions, r.journalIndex ≤ s.journal.length
  logs : ∀ r ∈ s.validRevisions, r.logIndex ≤ s.logs.length
  sorted : s.validRevisions.Pairwise fun r r' =>
    r.journalIndex ≤ r'.journalIndex ∧ r.logIndex ≤ r'.logIndex

theorem Within.new : Within .new where
  journal r hr := by simp [StateDB.new] at hr
  logs r hr := by simp [StateDB.new] at hr
  sorted := .nil

theorem Within.grow (h : Within s) (hv : t.validRevisions = s.validRevisions)
    (hj : s.journal.length ≤ t.journal.length) (hl : s.logs.length ≤ t.logs.length) :
    Within t where
  journal r hr := (h.journal r (hv ▸ hr)).trans hj
  logs r hr := (h.logs r (hv ▸ hr)).trans hl
  sorted := hv ▸ h.sorted

theorem Within.append (h : Within s) (hmove : Extends s t) : Within t := by
  obtain ⟨es, hj, -⟩ := hmove.entries
  refine h.grow hmove.validRevisions ?_ hmove.logs.length_le
  rw [hj, List.length_append]
  exact Nat.le_add_right _ _

theorem Within.markSelfDestructed (h : Within s) (a : Address) :
    Within (markSelfDestructed a s) := by
  unfold StateDB.markSelfDestructed
  split
  next =>
    refine h.grow rfl ?_ le_rfl
    rw [List.length_append]
    exact Nat.le_add_right _ _
  next => exact h

theorem Within.snapshot (h : Within s) : Within (snapshot s) where
  journal r hr := by
    rcases List.mem_append.mp hr with hr | hr
    · exact h.journal r hr
    · rw [List.mem_singleton.mp hr]
      exact le_rfl
  logs r hr := by
    rcases List.mem_append.mp hr with hr | hr
    · exact h.logs r hr
    · rw [List.mem_singleton.mp hr]
      exact le_rfl
  sorted := by
    refine List.pairwise_append.mpr ⟨h.sorted, List.pairwise_singleton _ _, fun r hr r' hr' => ?_⟩
    rw [List.mem_singleton.mp hr']
    exact ⟨h.journal r hr, h.logs r hr⟩

theorem Within.cutBack (h : Within s) {idx : Nat} {rev : Revision}
    (hrev : s.validRevisions[idx]? = some rev) : Within (cutBack idx rev s) := by
  have hmem := List.mem_of_getElem? hrev
  -- what is left was taken before the snapshot the cut goes back to
  have hle : ∀ r ∈ s.validRevisions.take idx,
      r.journalIndex ≤ rev.journalIndex ∧ r.logIndex ≤ rev.logIndex := by
    intro r hr
    obtain ⟨hlt, hget⟩ := List.getElem?_eq_some_iff.mp hrev
    have hsorted := h.sorted
    rw [← List.take_append_drop idx s.validRevisions] at hsorted
    refine (List.pairwise_append.mp hsorted).2.2 r hr rev ?_
    rw [List.drop_eq_getElem_cons hlt, hget]
    exact List.mem_cons_self
  refine ⟨fun r hr => ?_, fun r hr => ?_, h.sorted.sublist (List.take_sublist _ _)⟩
  · change r.journalIndex ≤ (s.journal.take rev.journalIndex).length
    rw [List.length_take, Nat.min_eq_left (h.journal rev hmem)]
    exact (hle r hr).1
  · change r.logIndex ≤ (s.logs.take rev.logIndex).length
    rw [List.length_take, Nat.min_eq_left (h.logs rev hmem)]
    exact (hle r hr).2

theorem Within.revertToSnapshot (h : Within s) (revid : Nat) : Within (revertToSnapshot revid s) := by
  rcases revertToSnapshot_cases revid s with ⟨_, hrev⟩ | ⟨idx, rev, _, hget, _, hrev⟩
  · rw [hrev]
    exact h
  · rw [hrev]
    exact h.cutBack hget

theorem Within.exec {op : Op} {r : Ret} (h : Within s) (hop : op.exec env s = .ok (r, t)) :
    Within t := by
  cases Op.exec_moves hop with
  | append _ hmove => exact h.append hmove
  | selfDestruct hmove => exact (h.append hmove).markSelfDestructed _
  | prepare => exact h.grow rfl le_rfl le_rfl
  | snapshot => exact h.snapshot
  | revert => exact h.revertToSnapshot _

/-- A revert only ever shortens the journal and the logs. -/
theorem Reached.within (h : Reached s) : Within s :=
  h.of_moves .new Within.exec Within.append

end StateDB

end Execution

import FabricXEvm.Execution.Operations
import FabricXEvm.Lib.UndoLog

/-!
# What an operation does to the journal

The write index agrees with a backward scan of the journal, and the journal is an undo log
for the side state: refund, self-destructed and new contracts, transient storage and access
list, as far as they can be observed.

Every primitive change of a `StateDB` outside `Snapshot`, `RevertToSnapshot`, `Prepare` and
`SelfDestruct` is a move of one kind, `Extends`: it appends entries that undo it, leaves the
snapshots alone and keeps the write index right.
-/

namespace Execution

open Blocks

namespace StateDB

/-! ## The write index -/

/-- The latest write of a key, by a backward scan of the journal. -/
def lastWrite (journal : List JournalEntry) (key : Bytes) : Option KVWrite :=
  journal.reverse.findSome? fun
    | .write w => if w.key = key then some w else none
    | _ => none

theorem lastWrite_append_write (j : List JournalEntry) (w : KVWrite) (key : Bytes) :
    lastWrite (j ++ [.write w]) key = if w.key = key then some w else lastWrite j key := by
  simp only [lastWrite, List.reverse_append, List.reverse_cons, List.reverse_nil, List.nil_append,
    List.singleton_append, List.findSome?_cons]
  by_cases hk : w.key = key
  · simp [hk]
  · simp [hk]

/-- An entry that is not a write does not matter to the scan. -/
theorem lastWrite_append_other (j : List JournalEntry) {e : JournalEntry} (key : Bytes)
    (h : ∀ w, e ≠ .write w) : lastWrite (j ++ [e]) key = lastWrite j key := by
  simp only [lastWrite, List.reverse_append, List.reverse_cons, List.reverse_nil, List.nil_append,
    List.singleton_append, List.findSome?_cons]

theorem mem_of_lastWrite {j : List JournalEntry} {key : Bytes} {w : KVWrite}
    (h : lastWrite j key = some w) : .write w ∈ j ∧ w.key = key := by
  obtain ⟨e, he, hw⟩ := List.exists_of_findSome?_eq_some h
  cases e with
  | write w' =>
      dsimp only at hw
      split at hw
      next hk =>
        cases hw
        exact ⟨List.mem_reverse.mp he, hk⟩
      next => cases hw
  | _ => cases hw

theorem lastWrite_append_others (j : List JournalEntry) {es : List JournalEntry} (key : Bytes)
    (h : ∀ w, .write w ∉ es) : lastWrite (j ++ es) key = lastWrite j key := by
  induction es using List.reverseRecOn with
  | nil => rw [List.append_nil]
  | append_singleton es e ih =>
      rw [← List.append_assoc, lastWrite_append_other, ih]
      · exact fun w hw => h w (List.mem_append_left _ hw)
      · rintro w rfl
        exact h w (List.mem_append_right _ (List.mem_singleton_self _))

theorem buildIndex_append (j : List JournalEntry) (e : JournalEntry) :
    buildIndex (j ++ [e]) =
      match e with
      | .write w => Function.update (buildIndex j) w.key (some j.length)
      | _ => buildIndex j := by
  simp only [buildIndex, List.zipIdx_append, List.foldl_append]
  cases e <;> simp

/-- Entries that are not writes leave the index as it is. -/
theorem buildIndex_append_others (j : List JournalEntry) {es : List JournalEntry}
    (h : ∀ w, .write w ∉ es) : buildIndex (j ++ es) = buildIndex j := by
  induction es using List.reverseRecOn with
  | nil => rw [List.append_nil]
  | append_singleton es e ih =>
      rw [← List.append_assoc, buildIndex_append, ih fun w hw => h w (List.mem_append_left _ hw)]
      cases e with
      | write w => exact absurd (List.mem_append_right es (List.mem_singleton_self _)) (h w)
      | _ => rfl

/-- The index finds exactly the scan's write, at its position. -/
theorem buildIndex_spec (j : List JournalEntry) (key : Bytes) :
    match buildIndex j key with
    | none => lastWrite j key = none
    | some i => ∃ w, j[i]? = some (.write w) ∧ lastWrite j key = some w := by
  induction j using List.reverseRecOn with
  | nil => rfl
  | append_singleton j e ih =>
      -- a write of the key is found at the end, anything else where it was
      have keep : ∀ (i : Nat) (w : KVWrite), j[i]? = some (JournalEntry.write w) →
          (j ++ [e])[i]? = some (.write w) := by
        intro i w hi
        rw [List.getElem?_append_left]
        · exact hi
        · exact (List.getElem?_eq_some_iff.mp hi).1
      by_cases hw : ∃ w, e = .write w
      · obtain ⟨w, rfl⟩ := hw
        rw [buildIndex_append, lastWrite_append_write]
        by_cases hk : w.key = key
        · subst hk
          simp
        · have hk' : key ≠ w.key := fun h => hk h.symm
          simp only [Function.update_of_ne hk', if_neg hk]
          cases hb : buildIndex j key with
          | none => simpa [hb] using ih
          | some i =>
              rw [hb] at ih
              obtain ⟨w', hi, hl⟩ := ih
              exact ⟨w', keep i w' hi, hl⟩
      · have hne : ∀ w, e ≠ .write w := fun w h => hw ⟨w, h⟩
        have hbuild : buildIndex (j ++ [e]) = buildIndex j :=
          buildIndex_append_others j fun w h => hne w (List.mem_singleton.mp h).symm
        rw [hbuild, lastWrite_append_other j key hne]
        cases hb : buildIndex j key with
        | none => simpa [hb] using ih
        | some i =>
            rw [hb] at ih
            obtain ⟨w', hi, hl⟩ := ih
            exact ⟨w', keep i w' hi, hl⟩

/-- The write index, when there is one, is that of the journal. -/
def IndexOk (s : StateDB) : Prop := ∀ idx, s.writeIdx = some idx → idx = buildIndex s.journal

theorem indexOk_new : IndexOk .new := by
  intro idx h
  cases h

/-- What a write leaves to be read: nothing after a delete. -/
def visible (w : KVWrite) : Option Bytes := if w.isDelete then none else w.value

/-- Looking a key up gives the latest write, whichever way the index was made. -/
theorem getStateFromJournal_run {env : Backing} {s : StateDB} (h : IndexOk s) (key : Bytes) :
    getStateFromJournal key env s =
      .ok ((lastWrite s.journal key).map visible,
        { s with writeIdx := some (buildIndex s.journal) }) := by
  have hidx : s.writeIdx.getD (buildIndex s.journal) = buildIndex s.journal := by
    cases hw : s.writeIdx with
    | none => rfl
    | some idx => exact h idx hw
  have hspec := buildIndex_spec s.journal key
  unfold getStateFromJournal
  rw [Comp.bind_run_ok rfl, Comp.bind_run_ok rfl]
  simp only [hidx, Option.bind_some]
  cases hb : buildIndex s.journal key with
  | none =>
      rw [hb] at hspec
      simp only [hspec]
      rfl
  | some i =>
      rw [hb] at hspec
      obtain ⟨w, hi, hl⟩ := hspec
      simp only [hi, hl, Option.map_some, visible]
      split <;> rfl

/-! ## The undo log -/

/-- Two states look the same in everything the journal undoes. -/
structure SideEquiv (s t : StateDB) : Prop where
  refund : s.refund = t.refund
  selfDestructed : s.selfDestructed = t.selfDestructed
  newContracts : s.newContracts = t.newContracts
  transient : ∀ a k, s.getTransientState a k = t.getTransientState a k
  accessList : ∀ a slot, s.accessList.contains a slot = t.accessList.contains a slot

theorem SideEquiv.equivalence : Equivalence SideEquiv where
  refl _ := ⟨rfl, rfl, rfl, fun _ _ => rfl, fun _ _ => rfl⟩
  symm h :=
    { refund := h.refund.symm
      selfDestructed := h.selfDestructed.symm
      newContracts := h.newContracts.symm
      transient := fun a k => (h.transient a k).symm
      accessList := fun a slot => (h.accessList a slot).symm }
  trans h h' :=
    { refund := h.refund.trans h'.refund
      selfDestructed := h.selfDestructed.trans h'.selfDestructed
      newContracts := h.newContracts.trans h'.newContracts
      transient := fun a k => (h.transient a k).trans (h'.transient a k)
      accessList := fun a slot => (h.accessList a slot).trans (h'.accessList a slot) }

/-- States with the same side fields. -/
theorem SideEquiv.of_fields {s t : StateDB} (hr : s.refund = t.refund)
    (hd : s.selfDestructed = t.selfDestructed) (hc : s.newContracts = t.newContracts)
    (ht : s.transientStorage = t.transientStorage) (ha : s.accessList = t.accessList) :
    SideEquiv s t where
  refund := hr
  selfDestructed := hd
  newContracts := hc
  transient a k := by simp only [getTransientState, ht]
  accessList a slot := by rw [ha]

theorem getTransientState_putTransient (s : StateDB) (a b : Address) (k l v : Hash) :
    (putTransient s a k v).getTransientState b l =
      if b = a ∧ l = k then v else s.getTransientState b l := by
  unfold putTransient getTransientState
  by_cases hb : b = a
  · subst hb
    by_cases hl : l = k
    · subst hl
      simp
    · cases h : s.transientStorage b <;> simp [hl]
  · simp [hb]

theorem undo_congr (e : JournalEntry) {s t : StateDB} (h : SideEquiv s t) :
    SideEquiv (undo e s) (undo e t) := by
  cases e with
  | read r => exact h
  | write w => exact h
  | refund g => exact { h with refund := rfl }
  | selfDestruct a =>
      exact { h with selfDestructed := congrArg (·.erase a) h.selfDestructed }
  | newContract a => exact { h with newContracts := congrArg (·.erase a) h.newContracts }
  | transientStorage a k v =>
      refine { h with transient := fun b l => ?_ }
      simp only [undo, getTransientState_putTransient, h.transient b l]
  | accessListAddAddress a =>
      refine { h with accessList := fun b slot => ?_ }
      simp only [undo, AccessList.contains_deleteAddress, h.accessList b slot]
  | accessListAddSlot a t' =>
      refine { h with accessList := fun b slot => ?_ }
      simp only [undo, AccessList.contains_deleteSlot, h.accessList]

/-- The journal as an undo log of the side state. -/
def undoLog : UndoLog StateDB JournalEntry where
  undo := undo
  equiv := SideEquiv
  equivalence := SideEquiv.equivalence
  undo_congr := undo_congr

/-- Undoing touches the side state only. -/
theorem undo_frame (e : JournalEntry) (s : StateDB) :
    (undo e s).journal = s.journal ∧ (undo e s).logs = s.logs ∧
      (undo e s).validRevisions = s.validRevisions ∧
      (undo e s).nextRevisionId = s.nextRevisionId := by
  cases e <;> exact ⟨rfl, rfl, rfl, rfl⟩

theorem undoAll_frame (es : List JournalEntry) (s : StateDB) :
    (undoLog.undoAll es s).journal = s.journal ∧ (undoLog.undoAll es s).logs = s.logs ∧
      (undoLog.undoAll es s).validRevisions = s.validRevisions ∧
      (undoLog.undoAll es s).nextRevisionId = s.nextRevisionId := by
  induction es with
  | nil => exact ⟨rfl, rfl, rfl, rfl⟩
  | cons e es ih =>
      obtain ⟨hj, hl, hv, hn⟩ := undo_frame e (undoLog.undoAll es s)
      exact ⟨hj.trans ih.1, hl.trans ih.2.1, hv.trans ih.2.2.1, hn.trans ih.2.2.2⟩

/-- Undoing unmarks exactly the contracts whose entries are undone. -/
theorem mem_newContracts_undoAll (es : List JournalEntry) (s : StateDB) (a : Address) :
    a ∈ (undoLog.undoAll es s).newContracts ↔ a ∈ s.newContracts ∧ .newContract a ∉ es := by
  induction es with
  | nil => simp [UndoLog.undoAll]
  | cons e es ih =>
      change a ∈ (undo e (undoLog.undoAll es s)).newContracts ↔ _
      rw [List.mem_cons, not_or]
      cases e with
      | newContract b =>
          simp only [undo, Finset.mem_erase, ih, ne_eq, JournalEntry.newContract.injEq]
          tauto
      | _ => simpa [undo, putTransient] using ih

theorem mem_selfDestructed_undoAll (es : List JournalEntry) (s : StateDB) (a : Address) :
    a ∈ (undoLog.undoAll es s).selfDestructed ↔ a ∈ s.selfDestructed ∧ .selfDestruct a ∉ es := by
  induction es with
  | nil => simp [UndoLog.undoAll]
  | cons e es ih =>
      change a ∈ (undo e (undoLog.undoAll es s)).selfDestructed ↔ _
      rw [List.mem_cons, not_or]
      cases e with
      | selfDestruct b =>
          simp only [undo, Finset.mem_erase, ih, ne_eq, JournalEntry.selfDestruct.injEq]
          tauto
      | _ => simpa [undo, putTransient] using ih

/-- The state after reverting to the revision at position `idx`. -/
def cutBack (idx : Nat) (rev : Revision) (s : StateDB) : StateDB :=
  { undoLog.undoAll (s.journal.drop rev.journalIndex) s with
    journal := s.journal.take rev.journalIndex
    writeIdx := none
    logs := s.logs.take rev.logIndex
    validRevisions := s.validRevisions.take idx }

/-- Reverting does nothing, or goes back to the first revision of that id. -/
theorem revertToSnapshot_cases (revid : Nat) (s : StateDB) :
    (s.validRevisions.findIdx? (·.id == revid) = none ∧ revertToSnapshot revid s = s) ∨
      ∃ idx rev, s.validRevisions.findIdx? (·.id == revid) = some idx ∧
        s.validRevisions[idx]? = some rev ∧ rev.id = revid ∧
        revertToSnapshot revid s = cutBack idx rev s := by
  cases hidx : s.validRevisions.findIdx? (·.id == revid) with
  | none => exact .inl ⟨rfl, by simp only [revertToSnapshot, hidx]⟩
  | some idx =>
      obtain ⟨hlt, hid, _⟩ := List.findIdx?_eq_some_iff_getElem.mp hidx
      have hget : s.validRevisions[idx]? = some s.validRevisions[idx] :=
        List.getElem?_eq_getElem hlt
      refine .inr ⟨idx, _, rfl, hget, by simpa using hid, ?_⟩
      obtain ⟨hj, hl, hv, _⟩ :=
        undoAll_frame (s.journal.drop s.validRevisions[idx].journalIndex) s
      simp only [revertToSnapshot, hidx, hget, cutBack]
      congr 1
      · exact congrArg (List.take _) hl
      · exact congrArg (List.take _) hj
      · exact congrArg (List.take _) hv

/-! ## The contract marks -/

/-- The journal accounts for the marks on contracts: a new contract has one entry, and a
self-destructed one has an entry after that of its creation. -/
structure MarksOk (s : StateDB) : Prop where
  newContracts : ∀ a, a ∈ s.newContracts ↔ .newContract a ∈ s.journal
  once : ∀ a, s.journal.count (.newContract a) ≤ 1
  selfDestructed : ∀ a ∈ s.selfDestructed, .selfDestruct a ∈ s.journal
  created : ∀ n a, s.journal[n]? = some (.selfDestruct a) → .newContract a ∈ s.journal.take n

namespace MarksOk

theorem new : MarksOk .new where
  newContracts a := by simp [StateDB.new]
  once a := by simp [StateDB.new]
  selfDestructed a h := by simp [StateDB.new] at h
  created n a h := by simp [StateDB.new] at h

/-- Only contracts created in this transaction are marked as self-destructed. -/
theorem subset {s : StateDB} (h : MarksOk s) : s.selfDestructed ⊆ s.newContracts := by
  intro a ha
  obtain ⟨n, hn⟩ := List.mem_iff_getElem?.mp (h.selfDestructed a ha)
  exact (h.newContracts a).mpr (List.mem_of_mem_take (h.created n a hn))

/-- The entry of a mark is preceded by that of the creation, also after an append. -/
theorem created_append {j es : List JournalEntry}
    (h : ∀ n a, j[n]? = some (.selfDestruct a) → .newContract a ∈ j.take n)
    (hes : ∀ a, .selfDestruct a ∈ es → .newContract a ∈ j) (n : Nat) (a : Address)
    (hn : (j ++ es)[n]? = some (.selfDestruct a)) : .newContract a ∈ (j ++ es).take n := by
  rcases Nat.lt_or_ge n j.length with hlt | hge
  · rw [List.getElem?_append_left hlt] at hn
    rw [List.take_append_of_le_length hlt.le]
    exact h n a hn
  · rw [List.getElem?_append_right hge] at hn
    rw [List.take_append, List.take_of_length_le hge]
    exact List.mem_append_left _ (hes a (List.mem_of_getElem? hn))

/-- Entries that mark nothing. -/
theorem append_others {s t : StateDB} (h : MarksOk s) {es : List JournalEntry}
    (hj : t.journal = s.journal ++ es) (hd : t.selfDestructed = s.selfDestructed)
    (hc : t.newContracts = s.newContracts) (hsd : ∀ a, .selfDestruct a ∉ es)
    (hnc : ∀ a, .newContract a ∉ es) : MarksOk t where
  newContracts a := by
    rw [hc, hj, List.mem_append, h.newContracts a]
    exact ⟨.inl, fun hm => hm.resolve_right (hnc a)⟩
  once a := by
    rw [hj, List.count_append, List.count_eq_zero_of_not_mem (hnc a)]
    exact h.once a
  selfDestructed a ha := by
    rw [hd] at ha
    exact hj ▸ List.mem_append_left es (h.selfDestructed a ha)
  created := by
    rw [hj]
    exact created_append h.created fun a ha => absurd ha (hsd a)

end MarksOk

/-! ## The moves of the primitives -/

/-- A move that only appends to the journal, and appends what undoes it. -/
structure Extends (s t : StateDB) : Prop where
  entries : ∃ es, t.journal = s.journal ++ es ∧ undoLog.Undoes s es t
  logs : s.logs <+: t.logs
  validRevisions : t.validRevisions = s.validRevisions
  nextRevisionId : t.nextRevisionId = s.nextRevisionId
  index : IndexOk s → IndexOk t
  marks : MarksOk s → MarksOk t

namespace Extends

theorem refl (s : StateDB) : Extends s s where
  entries := ⟨[], by simp, .refl s⟩
  logs := List.prefix_rfl
  validRevisions := rfl
  nextRevisionId := rfl
  index := id
  marks := id

theorem trans {s t u : StateDB} (h : Extends s t) (h' : Extends t u) : Extends s u where
  entries := by
    obtain ⟨es, hj, hu⟩ := h.entries
    obtain ⟨fs, hj', hu'⟩ := h'.entries
    exact ⟨es ++ fs, by rw [hj', hj, List.append_assoc], hu.append hu'⟩
  logs := h.logs.trans h'.logs
  validRevisions := h'.validRevisions.trans h.validRevisions
  nextRevisionId := h'.nextRevisionId.trans h.nextRevisionId
  index := h'.index ∘ h.index
  marks := h'.marks ∘ h.marks

/-- A move that appends entries other than writes and marks. -/
theorem of_entries {s t : StateDB} (es : List JournalEntry) (hj : t.journal = s.journal ++ es)
    (hu : undoLog.Undoes s es t)
    (hes : ∀ e ∈ es, (∀ w, e ≠ .write w) ∧ (∀ a, e ≠ .selfDestruct a) ∧ ∀ a, e ≠ .newContract a)
    (hidx : t.writeIdx = s.writeIdx) (hd : t.selfDestructed = s.selfDestructed)
    (hc : t.newContracts = s.newContracts) (hl : t.logs = s.logs)
    (hv : t.validRevisions = s.validRevisions) (hn : t.nextRevisionId = s.nextRevisionId) :
    Extends s t where
  entries := ⟨es, hj, hu⟩
  logs := by rw [hl]
  validRevisions := hv
  nextRevisionId := hn
  index h idx hi := by
    rw [hidx] at hi
    rw [h idx hi, hj, buildIndex_append_others s.journal fun w hw => (hes _ hw).1 w rfl]
  marks h :=
    h.append_others hj hd hc (fun a ha => (hes _ ha).2.1 a rfl) fun a ha => (hes _ ha).2.2 a rfl

end Extends

theorem extends_reindex (s : StateDB) :
    Extends s { s with writeIdx := some (s.writeIdx.getD (buildIndex s.journal)) } where
  entries := ⟨[], by simp, SideEquiv.of_fields rfl rfl rfl rfl rfl⟩
  logs := List.prefix_rfl
  validRevisions := rfl
  nextRevisionId := rfl
  index h idx hi := by
    cases hi
    cases hw : s.writeIdx with
    | none => rfl
    | some idx => exact h idx hw
  marks h := { h with }

theorem extends_read (r : KVRead) (s : StateDB) : Extends s (s.push (.read r)) :=
  .of_entries [_] rfl (SideEquiv.of_fields rfl rfl rfl rfl rfl) (by simp) rfl rfl rfl rfl rfl rfl

theorem writeOf_key (key value : Bytes) : (writeOf key value).key = key := by
  unfold writeOf
  split <;> rfl

theorem extends_putState (key value : Bytes) (s : StateDB) : Extends s (putState key value s) where
  entries := ⟨_, rfl, SideEquiv.of_fields rfl rfl rfl rfl rfl⟩
  logs := List.prefix_rfl
  validRevisions := rfl
  nextRevisionId := rfl
  index h idx hi := by
    obtain ⟨idx', hi', rfl⟩ := Option.map_eq_some_iff.mp hi
    simp only [putState, buildIndex_append, h idx' hi', writeOf_key]
  marks h := h.append_others rfl rfl rfl (by simp) (by simp)

/-- A contract marked as new for the first time. -/
theorem marks_newContract {s : StateDB} (h : MarksOk s) {a : Address} (ha : a ∉ s.newContracts) :
    MarksOk { s with
      journal := s.journal ++ [.newContract a]
      newContracts := insert a s.newContracts } where
  newContracts b := by
    rw [Finset.mem_insert, List.mem_append, List.mem_singleton, h.newContracts b,
      JournalEntry.newContract.injEq, or_comm]
  once b := by
    rw [List.count_append]
    by_cases hb : b = a
    · subst hb
      rw [List.count_eq_zero_of_not_mem (mt (h.newContracts b).mpr ha)]
      simp
    · rw [List.count_eq_zero_of_not_mem (l := [JournalEntry.newContract a]) (by simpa using hb)]
      exact h.once b
  selfDestructed b hb := List.mem_append_left _ (h.selfDestructed b hb)
  created := MarksOk.created_append h.created (by simp)

theorem extends_markNewContract (a : Address) (s : StateDB) : Extends s (markNewContract a s) := by
  unfold markNewContract
  split
  next => exact .refl s
  next ha =>
    exact
      { entries := ⟨[_], rfl, { SideEquiv.equivalence.refl s with
          newContracts := Finset.erase_insert ha }⟩
        logs := List.prefix_rfl
        validRevisions := rfl
        nextRevisionId := rfl
        index := fun h idx hi => by
          rw [h idx hi]
          exact (buildIndex_append_others s.journal (by simp)).symm
        marks := fun h => marks_newContract h ha }

theorem extends_setRefund (gas : UInt64) (s : StateDB) :
    Extends s { s with journal := s.journal ++ [.refund s.refund], refund := gas } :=
  .of_entries [_] rfl (SideEquiv.of_fields rfl rfl rfl rfl rfl) (by simp) rfl rfl rfl rfl rfl rfl

theorem extends_addLog (a : Address) (topics : List Hash) (data : Bytes) (s : StateDB) :
    Extends s (addLog a topics data s) where
  entries := ⟨[], by simp [addLog], SideEquiv.of_fields rfl rfl rfl rfl rfl⟩
  logs := List.prefix_append _ _
  validRevisions := rfl
  nextRevisionId := rfl
  index := id
  marks h := { h with }

theorem extends_setTransientState (a : Address) (k v : Hash) (s : StateDB) :
    Extends s (setTransientState a k v s) := by
  refine .of_entries [_] rfl ?_ (by simp) rfl rfl rfl rfl rfl rfl
  refine { SideEquiv.equivalence.refl s with transient := fun b l => ?_ }
  change (putTransient (setTransientState a k v s) a k (s.getTransientState a k)).getTransientState
    b l = _
  rw [setTransientState, getTransientState_putTransient, getTransientState_putTransient]
  split
  next h => rw [h.1, h.2]
  next => rfl

/-- An address that was not there is taken out again with nothing else changed. -/
theorem contains_deleteAddress_addAddress {al : AccessList} {a : Address}
    (ha : al.containsAddress a = false) (b : Address) (slot : Hash) :
    ((al.addAddress a).deleteAddress a).contains b slot = al.contains b slot := by
  rw [AccessList.contains_deleteAddress, AccessList.contains_addAddress]
  by_cases hb : b = a
  · subst hb
    have hnone : al.addresses b = none := by simpa [AccessList.containsAddress] using ha
    simp [AccessList.contains, hnone]
  · simp [hb]

theorem extends_addAddressToAccessList (a : Address) (s : StateDB) :
    Extends s (addAddressToAccessList a s) := by
  unfold addAddressToAccessList
  split
  next => exact .refl s
  next ha =>
    refine .of_entries [_] rfl ?_ (by simp) rfl rfl rfl rfl rfl rfl
    exact { SideEquiv.equivalence.refl s with
      accessList := contains_deleteAddress_addAddress (by simpa using ha) }

/-- A slot that was not there, under an address that was, is taken out again. -/
theorem contains_deleteSlot_addSlot {al : AccessList} {a : Address} {t : Hash}
    (ht : al.contains a t = (true, false)) (b : Address) (slot : Hash) :
    ((al.addSlot a t).deleteSlot a t).contains b slot = al.contains b slot := by
  simp only [AccessList.contains_deleteSlot, AccessList.contains_addSlot]
  by_cases hb : b = a
  · subst hb
    have hfst : (al.contains b slot).1 = true := by
      rw [← AccessList.containsAddress_eq, AccessList.containsAddress_eq al b t, ht]
    by_cases hs : slot = t
    · subst hs
      simp [ht]
    · ext <;> simp [hs, hfst]
  · simp [hb]

/-- A slot added together with its address is taken out with it. -/
theorem contains_deleteAddress_addSlot {al : AccessList} {a : Address} {t : Hash}
    (ha : (al.contains a t).1 = false) (b : Address) (slot : Hash) :
    (((al.addSlot a t).deleteSlot a t).deleteAddress a).contains b slot = al.contains b slot := by
  simp only [AccessList.contains_deleteAddress, AccessList.contains_deleteSlot,
    AccessList.contains_addSlot]
  by_cases hb : b = a
  · subst hb
    have hnone : al.addresses b = none := by
      rw [← AccessList.containsAddress_eq] at ha
      simpa [AccessList.containsAddress] using ha
    simp [AccessList.contains, hnone]
  · simp [hb]

theorem extends_addSlotToAccessList (a : Address) (t : Hash) (s : StateDB) :
    Extends s (addSlotToAccessList a t s) := by
  unfold addSlotToAccessList
  -- the three branches: both present, only the address, neither
  cases haddr : (s.accessList.contains a t).1 with
  | false =>
      simp only [haddr, Bool.false_and, Bool.false_eq_true, if_false]
      refine .of_entries [_, _] rfl ?_ (by simp) rfl rfl rfl rfl rfl rfl
      exact { SideEquiv.equivalence.refl s with
        accessList := contains_deleteAddress_addSlot haddr }
  | true =>
      cases hslot : (s.accessList.contains a t).2 with
      | true =>
          simp only [haddr, hslot, Bool.and_self, if_true]
          exact .refl s
      | false =>
          simp only [haddr, hslot, Bool.and_false, Bool.false_eq_true, if_false, if_true]
          refine .of_entries [_] rfl ?_ (by simp) rfl rfl rfl rfl rfl rfl
          exact { SideEquiv.equivalence.refl s with
            accessList := contains_deleteSlot_addSlot (Prod.ext haddr hslot) }

end StateDB

end Execution

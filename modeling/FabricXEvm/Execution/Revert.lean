import FabricXEvm.Execution.Invariant
import FabricXEvm.Execution.Observe

/-!
# Rolling back to a snapshot

`RevertToSnapshot` is to leave every observation as it was when the snapshot was taken.
The journal leads back to that state entry by entry (`Since`), through nested snapshots and
reverts, with one exception.  `SelfDestruct` appends its entry also for a contract that is
already marked, and the undo of that entry clears the mark the snapshot had.  So a contract
that was marked before the snapshot and is self-destructed again after it loses its mark
(`revert_clears_mark`), and nothing else is ever lost (`revert_restores_iff`).
-/

namespace Execution

open Blocks

namespace StateDB

/-! ## Forgetting marks -/

/-- The state without the self-destruct marks of `D`. -/
def unmark (D : Finset Address) (s : StateDB) : StateDB :=
  { s with selfDestructed := s.selfDestructed \ D }

theorem undo_unmark (e : JournalEntry) (D : Finset Address) (s : StateDB) :
    undo e (unmark D s) = unmark D (undo e s) := by
  cases e with
  | selfDestruct a =>
      simp only [undo, unmark, Finset.erase_sdiff_comm]
  | _ => rfl

theorem undoAll_unmark (es : List JournalEntry) (D : Finset Address) (s : StateDB) :
    undoLog.undoAll es (unmark D s) = unmark D (undoLog.undoAll es s) := by
  induction es with
  | nil => rfl
  | cons e es ih =>
      change undo e (undoLog.undoAll es (unmark D s)) = unmark D (undo e (undoLog.undoAll es s))
      rw [ih, undo_unmark]

theorem SideEquiv.unmark {s t : StateDB} (h : SideEquiv s t) (D : Finset Address) :
    SideEquiv (unmark D s) (unmark D t) :=
  { h with selfDestructed := congrArg (· \ D) h.selfDestructed }

/-- A log that leads back still does so when marks are forgotten at both ends. -/
theorem undoes_unmark {x y : StateDB} {es : List JournalEntry} (h : undoLog.Undoes x es y)
    (D : Finset Address) : undoLog.Undoes (unmark D x) es (unmark D y) := by
  unfold UndoLog.Undoes
  rw [undoAll_unmark]
  exact SideEquiv.unmark h D

/-! ## Since a snapshot -/

/-- `t` was reached from `s` by operations that went back to later snapshots only, and that
called `SelfDestruct` on the contracts of `D`. -/
structure Since (s : StateDB) (D : Finset Address) (t : StateDB) : Prop where
  entries : ∃ es, t.journal = s.journal ++ es ∧ undoLog.Undoes (unmark D s) es t
  logs : s.logs <+: t.logs
  revisions : ∃ later, t.validRevisions = s.validRevisions ++ later ∧
    ∀ r ∈ later, s.journal.length ≤ r.journalIndex ∧ s.logs.length ≤ r.logIndex

namespace Since

variable {s t u : StateDB} {D : Finset Address}

theorem refl (s : StateDB) : Since s ∅ s where
  entries := ⟨[], by simp, SideEquiv.of_fields rfl (by simp [unmark, undoLog, UndoLog.undoAll])
    rfl rfl rfl⟩
  logs := List.prefix_rfl
  revisions := ⟨[], by simp, by simp⟩

theorem append (h : Since s D t) (hmove : Extends t u) : Since s D u where
  entries := by
    obtain ⟨es, hj, hu⟩ := h.entries
    obtain ⟨fs, hj', hu'⟩ := hmove.entries
    exact ⟨es ++ fs, by rw [hj', hj, List.append_assoc], hu.append hu'⟩
  logs := h.logs.trans hmove.logs
  revisions := by
    rw [hmove.validRevisions]
    exact h.revisions

theorem newContracts_subset (h : Since s D t) : s.newContracts ⊆ t.newContracts := by
  obtain ⟨es, _, hu⟩ := h.entries
  have hside : SideEquiv (undoLog.undoAll es t) (unmark D s) := hu
  have hnc : (undoLog.undoAll es t).newContracts = s.newContracts := hside.newContracts
  intro a ha
  rw [← hnc] at ha
  exact ((mem_newContracts_undoAll es t a).mp ha).1

/-- `SelfDestruct` adds to what is forgotten. -/
theorem mark (h : Since s D t) (hs : s.selfDestructed ⊆ s.newContracts) (a : Address) :
    Since s (insert a D) (markSelfDestructed a t) := by
  obtain ⟨es, hj, hu⟩ := h.entries
  unfold markSelfDestructed
  split
  next ha =>
    refine ⟨⟨es ++ [.selfDestruct a], ?_, ?_⟩, h.logs, h.revisions⟩
    · simp only [hj, List.append_assoc]
    · -- the new entry leads back to `t` without the mark, and the rest from there
      have hback : undoLog.Undoes (unmark {a} t) [.selfDestruct a]
          { t with
            journal := t.journal ++ [.selfDestruct a]
            selfDestructed := insert a t.selfDestructed } :=
        SideEquiv.of_fields rfl (by
          change (insert a t.selfDestructed).erase a = t.selfDestructed \ {a}
          rw [Finset.erase_eq, Finset.insert_sdiff_of_mem _ (Finset.mem_singleton_self a)])
          rfl rfl rfl
      have hall : unmark {a} (unmark D s) = unmark (insert a D) s := by
        have hsets : (s.selfDestructed \ D) \ {a} = s.selfDestructed \ insert a D := by
          rw [Finset.sdiff_insert, Finset.sdiff_singleton_eq_erase]
        simp only [unmark, hsets]
      rw [← hall]
      exact (undoes_unmark hu {a}).append hback
  next ha =>
    have hns : a ∉ s.selfDestructed := fun hmem => ha (h.newContracts_subset (hs hmem))
    have hsame : unmark (insert a D) s = unmark D s := by
      simp only [unmark, Finset.sdiff_insert_of_notMem hns]
    exact ⟨⟨es, hj, hsame ▸ hu⟩, h.logs, h.revisions⟩

/-- A new snapshot is later than everything before it. -/
theorem snapshot (h : Since s D t) : Since s D (snapshot t) := by
  obtain ⟨es, hj, hu⟩ := h.entries
  obtain ⟨later, hv, hlater⟩ := h.revisions
  have hsame : SideEquiv (StateDB.snapshot t) t := .of_fields rfl rfl rfl rfl rfl
  refine ⟨⟨es, hj, hu.of_equiv hsame⟩, h.logs,
    ⟨later ++ [⟨t.nextRevisionId, t.journal.length, t.logs.length⟩], ?_, ?_⟩⟩
  · simp only [StateDB.snapshot, hv, List.append_assoc]
  · intro r hr
    rcases List.mem_append.mp hr with hr | hr
    · exact hlater r hr
    · rw [List.mem_singleton.mp hr]
      refine ⟨?_, h.logs.length_le⟩
      simp [hj]

/-- Going back to a later snapshot keeps the rest of the journal leading back. -/
theorem cutBack (h : Since s D t) {idx : Nat} {rev : Revision}
    (hrev : t.validRevisions[idx]? = some rev) (hidx : s.validRevisions.length ≤ idx) :
    Since s D (cutBack idx rev t) := by
  obtain ⟨es, hj, hu⟩ := h.entries
  obtain ⟨later, hv, hlater⟩ := h.revisions
  have hmem : rev ∈ later := by
    rw [hv, List.getElem?_append_right hidx] at hrev
    exact List.mem_of_getElem? hrev
  obtain ⟨hjlen, hllen⟩ := hlater rev hmem
  -- the journal is cut inside `es`
  have hdrop : t.journal.drop rev.journalIndex = es.drop (rev.journalIndex - s.journal.length) := by
    rw [hj, List.drop_append, List.drop_of_length_le hjlen, List.nil_append]
  have htake : t.journal.take rev.journalIndex =
      s.journal ++ es.take (rev.journalIndex - s.journal.length) := by
    rw [hj, List.take_append, List.take_of_length_le hjlen]
  refine ⟨⟨_, htake, ?_⟩, ?_, ⟨later.take (idx - s.validRevisions.length), ?_, ?_⟩⟩
  · have hsplit : undoLog.Undoes (unmark D s)
        (es.take (rev.journalIndex - s.journal.length) ++
          es.drop (rev.journalIndex - s.journal.length)) t := by
      rwa [List.take_append_drop]
    have hside : SideEquiv (StateDB.cutBack idx rev t)
        (undoLog.undoAll (es.drop (rev.journalIndex - s.journal.length)) t) := by
      rw [← hdrop]
      exact .of_fields rfl rfl rfl rfl rfl
    exact hsplit.truncate.of_equiv hside
  · exact List.prefix_take_iff.mpr ⟨h.logs, hllen⟩
  · change t.validRevisions.take idx = _
    rw [hv, List.take_append, List.take_of_length_le hidx]
  · exact fun r hr => hlater r (List.mem_of_mem_take hr)

end Since

end StateDB

open StateDB

/-! ## Runs after a snapshot -/

/-- The operations that may follow the snapshot `id`: reverts only to later ids, and no
`Prepare`. -/
def Op.After (id : Nat) : Op → Prop
  | .prepare _ => False
  | .revertToSnapshot revid => id < revid
  | _ => True

instance (id : Nat) (op : Op) : Decidable (op.After id) := by
  cases op <;> unfold Op.After <;> infer_instance

/-- The addresses that some operation self-destructs. -/
def destructed : List Op → Finset Address
  | [] => ∅
  | .selfDestruct a :: ops => insert a (destructed ops)
  | _ :: ops => destructed ops

theorem mem_destructed {ops : List Op} {a : Address} :
    a ∈ destructed ops ↔ .selfDestruct a ∈ ops := by
  induction ops with
  | nil => simp [destructed]
  | cons op ops ih => cases op <;> simp [destructed, ih]

/-- One operation after the snapshot `s`, whose id is the last one used. -/
theorem StateDB.Since.exec {s t u : StateDB} {D : Finset Address} {op : Op} {env : Backing}
    {r : Ret} {id : Nat} (h : Since s D t) (hs : Inv s) (hid : s.nextRevisionId = id + 1)
    (hop : op.exec env t = .ok (r, u)) (hafter : op.After id) :
    Since s (D ∪ destructed [op]) u := by
  cases Op.exec_moves hop with
  | append hne hmove =>
      have hnone : destructed [op] = ∅ := by
        cases op with
        | selfDestruct a => exact absurd rfl (hne a)
        | _ => rfl
      rw [hnone, Finset.union_empty]
      exact h.append hmove
  | @selfDestruct a _ t' hmove =>
      rw [show D ∪ destructed [.selfDestruct a] = insert a D by simp [destructed]]
      exact (h.append hmove).mark hs.marks.subset a
  | prepare => exact hafter.elim
  | snapshot =>
      rw [show D ∪ destructed [.snapshot] = D from Finset.union_empty D]
      exact h.snapshot
  | @revert revid =>
      rw [show D ∪ destructed [.revertToSnapshot revid] = D from Finset.union_empty D]
      rcases revertToSnapshot_cases revid t with ⟨_, hrev⟩ | ⟨idx, rev, _, hget, hrevid, hrev⟩
      · rw [hrev]
        exact h
      · rw [hrev]
        refine h.cutBack hget ?_
        -- an earlier position holds a revision of `s`, whose id is not later
        by_contra hlt
        obtain ⟨later, hv, _⟩ := h.revisions
        rw [hv, List.getElem?_append_left (Nat.lt_of_not_le hlt)] at hget
        have hold := hs.ids rev (List.mem_of_getElem? hget)
        have hnew : id < revid := hafter
        omega

theorem StateDB.Since.runOps {s t u : StateDB} {D : Finset Address} {ops : List Op}
    {env : Backing} {id : Nat} (h : Since s D t) (hs : Inv s) (hid : s.nextRevisionId = id + 1)
    (hrun : runOps env ops t = .ok u) (hafter : ∀ op ∈ ops, op.After id) :
    Since s (D ∪ destructed ops) u := by
  induction ops generalizing D t with
  | nil =>
      cases hrun
      rwa [destructed, Finset.union_empty]
  | cons op ops ih =>
      simp only [Execution.runOps] at hrun
      split at hrun
      next r t' hop =>
        have hstep := h.exec hs hid hop (hafter op List.mem_cons_self)
        have hall := ih hstep hrun fun op' hop' => hafter op' (List.mem_cons_of_mem op hop')
        have hset : D ∪ destructed [op] ∪ destructed ops = D ∪ destructed (op :: ops) := by
          ext a
          simp [mem_destructed]
        rwa [hset] at hall
      next => cases hrun

/-- The revision of a snapshot is the first with its id. -/
theorem StateDB.Inv.findIdx?_snapshot {s : StateDB} (h : Inv s) (rev : Revision)
    (hrev : rev.id = s.nextRevisionId) (later : List Revision) :
    (s.validRevisions ++ rev :: later).findIdx? (·.id == s.nextRevisionId) =
      some s.validRevisions.length := by
  have hold : s.validRevisions.findIdx? (·.id == s.nextRevisionId) = none := by
    rw [List.findIdx?_eq_none_iff]
    intro r hr
    simpa using (h.ids r hr).ne
  rw [List.findIdx?_append, hold]
  simp [List.findIdx?_cons, hrev]

/-- Reverting to a snapshot: everything the journal restores is as in the snapshot, but for
the marks of the contracts self-destructed since. -/
theorem StateDB.revertToSnapshot_spec {env : Backing} {s t : StateDB} {ops : List Op}
    (hs : Inv s) (hrun : Execution.runOps env ops s.snapshot = .ok t)
    (hafter : ∀ op ∈ ops, op.After s.nextRevisionId) :
    let u := t.revertToSnapshot s.nextRevisionId
    u.journal = s.journal ∧ u.logs = s.logs ∧ IndexOk u ∧
      SideEquiv u (unmark (destructed ops) s) := by
  have hsince := (Since.refl s.snapshot).runOps hs.snapshot rfl hrun hafter
  rw [Finset.empty_union] at hsince
  obtain ⟨es, hj, hu⟩ := hsince.entries
  obtain ⟨later, hv, _⟩ := hsince.revisions
  have hv : t.validRevisions = s.validRevisions ++
      ⟨s.nextRevisionId, s.journal.length, s.logs.length⟩ :: later :=
    hv.trans (List.append_assoc _ _ _)
  have hfind := hs.findIdx?_snapshot ⟨s.nextRevisionId, s.journal.length, s.logs.length⟩ rfl later
  rw [← hv] at hfind
  rcases revertToSnapshot_cases s.nextRevisionId t with ⟨hnone, _⟩ | ⟨idx, rev, hidx, hget, _, hrev⟩
  · rw [hnone] at hfind
    cases hfind
  cases hidx.symm.trans hfind
  rw [hv, List.getElem?_append_right le_rfl, Nat.sub_self] at hget
  cases hget
  have hj : t.journal = s.journal ++ es := hj
  have hdrop : t.journal.drop s.journal.length = es := by rw [hj, List.drop_left]
  refine ⟨?_, ?_, ?_, ?_⟩
  · rw [hrev]
    change t.journal.take s.journal.length = _
    rw [hj, List.take_left]
  · rw [hrev]
    exact (List.prefix_iff_eq_take.mp hsince.logs).symm
  · rw [hrev]
    intro i hi
    cases hi
  · have hside : SideEquiv (t.revertToSnapshot s.nextRevisionId) (undoLog.undoAll es t) := by
      rw [hrev, ← hdrop]
      exact .of_fields rfl rfl rfl rfl rfl
    exact SideEquiv.equivalence.trans hside
      (SideEquiv.equivalence.trans hu (.of_fields rfl rfl rfl rfl rfl))

/-! ## Observations -/

/-- Everything a caller can observe is the same in two states. -/
structure SameObservations (env : Backing) (s t : StateDB) : Prop where
  getBalance : ∀ a, ret (StateDB.getBalance a) env t = ret (StateDB.getBalance a) env s
  getNonce : ∀ a, ret (StateDB.getNonce a) env t = ret (StateDB.getNonce a) env s
  getCode : ∀ a, ret (StateDB.getCode a) env t = ret (StateDB.getCode a) env s
  getState : ∀ a slot, ret (getStateSlot a slot) env t = ret (getStateSlot a slot) env s
  getTransientState : ∀ a k, t.getTransientState a k = s.getTransientState a k
  addressInAccessList : ∀ a, t.addressInAccessList a = s.addressInAccessList a
  slotInAccessList : ∀ a slot, t.slotInAccessList a slot = s.slotInAccessList a slot
  getRefund : t.refund = s.refund
  logs : t.logs = s.logs
  hasSelfDestructed : ∀ a, t.hasSelfDestructed a = s.hasSelfDestructed a
  isNewContract : ∀ a, t.isNewContract a = s.isNewContract a
  result : t.result = s.result

/-- States with the same journal, logs and side state are observed to be the same. -/
theorem SameObservations.of_journal {env : Backing} {s t : StateDB} (hs : IndexOk s)
    (ht : IndexOk t) (hj : t.journal = s.journal) (hl : t.logs = s.logs) (hside : SideEquiv t s) :
    SameObservations env s t := by
  have hvalue : value env t = value env s := by
    funext key
    simp only [value, hj]
  exact
    { getBalance := fun a => by rw [ret_getBalance ht, ret_getBalance hs, hvalue]
      getNonce := fun a => by rw [ret_getNonce ht, ret_getNonce hs, hvalue]
      getCode := fun a => by rw [ret_getCode ht, ret_getCode hs, hvalue]
      getState := fun a slot => by rw [ret_getStateSlot ht, ret_getStateSlot hs, hvalue]
      getTransientState := hside.transient
      addressInAccessList := fun a => by
        rw [StateDB.addressInAccessList, AccessList.containsAddress_eq _ a 0, hside.accessList,
          ← AccessList.containsAddress_eq, StateDB.addressInAccessList]
      slotInAccessList := hside.accessList
      getRefund := hside.refund
      logs := hl
      hasSelfDestructed := fun a => by
        rw [StateDB.hasSelfDestructed, hside.selfDestructed, StateDB.hasSelfDestructed]
      isNewContract := fun a => by
        rw [StateDB.isNewContract, hside.newContracts, StateDB.isNewContract]
      result := by rw [StateDB.result, hj, StateDB.result] }

/-- Reverting restores every observation exactly when no contract that was marked at the
snapshot is self-destructed again after it. -/
theorem revert_restores_iff {env : Backing} {s s₀ t : StateDB} {id : Nat} (ops : List Op)
    (hs : Reachable env s) (hsnap : Op.snapshot.exec env s = .ok (.int id, s₀))
    (hrun : runOps env ops s₀ = .ok t) (hafter : ∀ op ∈ ops, op.After id) :
    SameObservations env s (t.revertToSnapshot id) ↔
      ∀ a ∈ s.selfDestructed, .selfDestruct a ∉ ops := by
  cases hsnap
  obtain ⟨hj, hl, hidx, hside⟩ := revertToSnapshot_spec hs.inv hrun hafter
  constructor
  · intro hobs a ha hop
    have hmark := hobs.hasSelfDestructed a
    rw [hasSelfDestructed, hasSelfDestructed, decide_eq_decide, hside.selfDestructed] at hmark
    exact (Finset.mem_sdiff.mp (hmark.mpr ha)).2 (mem_destructed.mpr hop)
  · intro hnone
    have hsame : unmark (destructed ops) s = s := by
      have hdisj : s.selfDestructed \ destructed ops = s.selfDestructed := by
        refine Finset.sdiff_eq_self_of_disjoint (Finset.disjoint_left.mpr fun a ha hmem => ?_)
        exact hnone a ha (mem_destructed.mp hmem)
      simp only [unmark, hdisj]
    rw [hsame] at hside
    exact .of_journal hs.inv.index hidx hj hl hside

/-- A contract that is marked before a snapshot, and another one after it. -/
theorem revert_restores_iff_other :
    ∃ s s₀ t, runOps emptyLedger [.createContract 1, .selfDestruct 1] .new = .ok s ∧
      Op.snapshot.exec emptyLedger s = .ok (.int 0, s₀) ∧
      runOps emptyLedger [.createContract 2, .snapshot, .selfDestruct 2, .revertToSnapshot 1]
        s₀ = .ok t ∧
      SameObservations emptyLedger s (t.revertToSnapshot 0) := by
  refine ⟨_, _, _, rfl, rfl, rfl, ?_⟩
  refine (revert_restores_iff
    [.createContract 2, .snapshot, .selfDestruct 2, .revertToSnapshot 1]
    ⟨[.createContract 1, .selfDestruct 1], rfl⟩ rfl rfl ?_).mpr ?_
  · decide
  · change ∀ a ∈ (insert 1 ∅ : Finset Address), _
    simp

/-- A contract marked before a snapshot and self-destructed again after it loses its mark. -/
theorem revert_clears_mark :
    ∃ s s₀ t, runOps emptyLedger [.createContract 1, .selfDestruct 1] .new = .ok s ∧
      Op.snapshot.exec emptyLedger s = .ok (.int 0, s₀) ∧
      runOps emptyLedger [.selfDestruct 1] s₀ = .ok t ∧
      s.hasSelfDestructed 1 = true ∧ (t.revertToSnapshot 0).hasSelfDestructed 1 = false :=
  ⟨_, _, _, rfl, rfl, rfl, rfl, rfl⟩

end Execution

import FabricXEvm.Execution.Footprint

/-!
# Invariants of every run

What holds of a `StateDB` after any operations: the write index is that of the journal, the
journal accounts for the contract marks, and snapshot ids are fresh.
-/

namespace Execution

open Blocks

namespace StateDB

/-- The invariant of a `StateDB`. -/
structure Inv (s : StateDB) : Prop where
  index : IndexOk s
  marks : MarksOk s
  ids : ∀ r ∈ s.validRevisions, r.id < s.nextRevisionId

theorem Inv.new : Inv .new where
  index := indexOk_new
  marks := .new
  ids r hr := by simp [StateDB.new] at hr

theorem Inv.append {s t : StateDB} (h : Inv s) (hmove : Extends s t) : Inv t where
  index := hmove.index h.index
  marks := hmove.marks h.marks
  ids := by
    rw [hmove.validRevisions, hmove.nextRevisionId]
    exact h.ids

/-- The entry of a self-destruction comes after that of the creation. -/
theorem marks_selfDestruct {s : StateDB} (h : MarksOk s) {a : Address} (ha : a ∈ s.newContracts) :
    MarksOk { s with
      journal := s.journal ++ [.selfDestruct a]
      selfDestructed := insert a s.selfDestructed } where
  newContracts b := by simpa using h.newContracts b
  once b := by simpa [List.count_append] using h.once b
  selfDestructed b hb := by
    rcases Finset.mem_insert.mp hb with rfl | hb
    · exact List.mem_append_right _ (List.mem_singleton_self _)
    · exact List.mem_append_left _ (h.selfDestructed b hb)
  created := by
    refine MarksOk.created_append h.created fun b hb => ?_
    cases List.mem_singleton.mp hb
    exact (h.newContracts a).mp ha

theorem Inv.markSelfDestructed {s : StateDB} (h : Inv s) (a : Address) :
    Inv (markSelfDestructed a s) := by
  unfold StateDB.markSelfDestructed
  split
  next ha =>
    refine ⟨fun idx hi => ?_, marks_selfDestruct h.marks ha, h.ids⟩
    rw [h.index idx hi]
    exact (buildIndex_append_others s.journal (by simp)).symm
  next => exact h

theorem Inv.snapshot {s : StateDB} (h : Inv s) : Inv (snapshot s) where
  index := h.index
  marks := { h.marks with }
  ids r hr := by
    change r.id < s.nextRevisionId + 1
    rcases List.mem_append.mp hr with hr | hr
    · exact Nat.lt_succ_of_lt (h.ids r hr)
    · rw [List.mem_singleton.mp hr]
      exact Nat.lt_succ_self _

/-- What is left of the journal accounts for the marks that are left. -/
theorem marks_cutBack {s : StateDB} (h : MarksOk s) (idx : Nat) (rev : Revision) :
    MarksOk (cutBack idx rev s) where
  newContracts a := by
    change a ∈ (undoLog.undoAll _ s).newContracts ↔ .newContract a ∈ s.journal.take rev.journalIndex
    -- the entry is unique, so it is in the part kept or in the part undone
    have hsplit := h.once a
    rw [← List.take_append_drop rev.journalIndex s.journal, List.count_append] at hsplit
    have hmem := h.newContracts a
    rw [← List.take_append_drop rev.journalIndex s.journal, List.mem_append] at hmem
    rw [mem_newContracts_undoAll, hmem]
    constructor
    · rintro ⟨hin, hout⟩
      exact hin.resolve_right hout
    · intro hin
      refine ⟨.inl hin, fun hout => ?_⟩
      have h₁ := List.count_pos_iff.mpr hin
      have h₂ := List.count_pos_iff.mpr hout
      omega
  once a := (List.take_sublist _ _).count_le _ |>.trans (h.once a)
  selfDestructed a ha := by
    obtain ⟨hin, hout⟩ := (mem_selfDestructed_undoAll _ s a).mp ha
    have hmem := h.selfDestructed a hin
    rw [← List.take_append_drop rev.journalIndex s.journal, List.mem_append] at hmem
    exact hmem.resolve_right hout
  created n a hn := by
    change (s.journal.take rev.journalIndex)[n]? = _ at hn
    change _ ∈ (s.journal.take rev.journalIndex).take n
    rw [List.getElem?_take] at hn
    split at hn
    next hlt =>
      rw [List.take_take, Nat.min_eq_left hlt.le]
      exact h.created n a hn
    next => cases hn

theorem Inv.revertToSnapshot {s : StateDB} (h : Inv s) (revid : Nat) :
    Inv (revertToSnapshot revid s) := by
  rcases revertToSnapshot_cases revid s with ⟨_, hrev⟩ | ⟨idx, rev, _, _, _, hrev⟩
  · rw [hrev]
    exact h
  · rw [hrev]
    refine ⟨fun i hi => ?_, marks_cutBack h.marks idx rev, fun r hr => ?_⟩
    · cases hi
    · rw [show (cutBack idx rev s).nextRevisionId = s.nextRevisionId from (undoAll_frame _ s).2.2.2]
      exact h.ids r (List.mem_of_mem_take hr)

/-- Every operation keeps the invariant. -/
theorem Inv.exec {op : Op} {env : Backing} {s t : StateDB} {r : Ret} (h : Inv s)
    (hop : op.exec env s = .ok (r, t)) : Inv t := by
  cases Op.exec_moves hop with
  | append _ hmove => exact h.append hmove
  | selfDestruct hmove => exact (h.append hmove).markSelfDestructed _
  | prepare => exact ⟨h.index, { h.marks with }, h.ids⟩
  | snapshot => exact h.snapshot
  | revert => exact h.revertToSnapshot _

theorem Inv.runOps {env : Backing} {ops : List Op} {s t : StateDB} (h : Inv s)
    (hrun : runOps env ops s = .ok t) : Inv t := by
  induction ops generalizing s with
  | nil =>
      cases hrun
      exact h
  | cons op ops ih =>
      simp only [Execution.runOps] at hrun
      split at hrun
      next r s' hop => exact ih (h.exec hop) hrun
      next => cases hrun

end StateDB

theorem Reachable.inv {env : Backing} {s : StateDB} (h : Reachable env s) : s.Inv := by
  obtain ⟨ops, hrun⟩ := h
  exact StateDB.Inv.new.runOps hrun

end Execution

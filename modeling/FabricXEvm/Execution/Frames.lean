import FabricXEvm.Execution.Invariant

/-!
# Call frames

A call frame is a snapshot that is still valid.  `Later s t` says how the snapshots of a
state relate to those of a state reached from it.  As long as every snapshot of `s` is
still valid in `t`, the journal of `s` is still a part of that of `t`: whatever was reverted
in between was journaled after `s`.
-/

namespace Execution

open Blocks

namespace StateDB

/-- `t` was reached from `s`.  Its snapshots are some of the oldest of `s`, and later ones;
when they are all of `s`, the journal of `s` is there too. -/
structure Later (s t : StateDB) : Prop where
  nextRevisionId : s.nextRevisionId ≤ t.nextRevisionId
  frames : ∃ idx later, idx ≤ s.validRevisions.length ∧
    t.validRevisions = s.validRevisions.take idx ++ later ∧
    (∀ r ∈ later, s.nextRevisionId ≤ r.id) ∧
    (idx = s.validRevisions.length →
      s.journal <+: t.journal ∧ ∀ r ∈ later, s.journal.length ≤ r.journalIndex)

namespace Later

variable {s t u : StateDB}

theorem refl (s : StateDB) : Later s s where
  nextRevisionId := le_rfl
  frames := ⟨s.validRevisions.length, [], le_rfl, by simp, by simp,
    fun _ => ⟨List.prefix_rfl, by simp⟩⟩

/-- A move that leaves the snapshots alone and appends to the journal. -/
theorem grow (h : Later s t) (hj : t.journal <+: u.journal)
    (hv : u.validRevisions = t.validRevisions) (hn : u.nextRevisionId = t.nextRevisionId) :
    Later s u where
  nextRevisionId := hn ▸ h.nextRevisionId
  frames := by
    obtain ⟨idx, later, hidx, hlater, hids, hall⟩ := h.frames
    exact ⟨idx, later, hidx, hv.trans hlater, hids,
      fun heq => ⟨(hall heq).1.trans hj, (hall heq).2⟩⟩

theorem snapshot (h : Later s t) : Later s (snapshot t) where
  nextRevisionId := Nat.le_succ_of_le h.nextRevisionId
  frames := by
    obtain ⟨idx, later, hidx, hlater, hids, hall⟩ := h.frames
    refine ⟨idx, later ++ [⟨t.nextRevisionId, t.journal.length, t.logs.length⟩], hidx, ?_, ?_, ?_⟩
    · simp only [StateDB.snapshot, hlater, List.append_assoc]
    · intro r hr
      rcases List.mem_append.mp hr with hr | hr
      · exact hids r hr
      · rw [List.mem_singleton.mp hr]
        exact h.nextRevisionId
    · intro heq
      refine ⟨(hall heq).1, fun r hr => ?_⟩
      rcases List.mem_append.mp hr with hr | hr
      · exact (hall heq).2 r hr
      · rw [List.mem_singleton.mp hr]
        exact (hall heq).1.length_le

theorem cutBack (h : Later s t) {pos : Nat} {rev : Revision}
    (hrev : t.validRevisions[pos]? = some rev) : Later s (cutBack pos rev t) where
  nextRevisionId := by
    rw [show (StateDB.cutBack pos rev t).nextRevisionId = t.nextRevisionId from
      (undoAll_frame _ t).2.2.2]
    exact h.nextRevisionId
  frames := by
    obtain ⟨idx, later, hidx, hlater, hids, hall⟩ := h.frames
    have hlen : (s.validRevisions.take idx).length = idx := by
      rw [List.length_take, Nat.min_eq_left hidx]
    change ∃ idx' later', _ ∧ t.validRevisions.take pos = _ ∧ _
    rcases Nat.lt_or_ge pos idx with hlt | hge
    · -- a snapshot of `s` itself is gone
      refine ⟨pos, [], (hlt.trans_le hidx).le, ?_, by simp, fun heq => ?_⟩
      · rw [hlater, List.take_append_of_le_length (by omega), List.take_take,
          Nat.min_eq_left hlt.le, List.append_nil]
      · omega
    · refine ⟨idx, later.take (pos - idx), hidx, ?_, ?_, fun heq => ?_⟩
      · rw [hlater, List.take_append, hlen, List.take_of_length_le (by omega)]
      · exact fun r hr => hids r (List.mem_of_mem_take hr)
      · have hmem : rev ∈ later := by
          rw [hlater, List.getElem?_append_right (by omega)] at hrev
          exact List.mem_of_getElem? hrev
        refine ⟨?_, fun r hr => (hall heq).2 r (List.mem_of_mem_take hr)⟩
        exact List.prefix_take_iff.mpr ⟨(hall heq).1, (hall heq).2 rev hmem⟩

theorem exec (h : Later s t) {op : Op} {env : Backing} {r : Ret}
    (hop : op.exec env t = .ok (r, u)) : Later s u := by
  cases Op.exec_moves hop with
  | append _ hmove => exact h.grow hmove.journal hmove.validRevisions hmove.nextRevisionId
  | @selfDestruct a _ t' hmove =>
      have h' := h.grow hmove.journal hmove.validRevisions hmove.nextRevisionId
      unfold markSelfDestructed
      split
      next => exact h'.grow (List.prefix_append _ _) rfl rfl
      next => exact h'
  | prepare => exact h.grow List.prefix_rfl rfl rfl
  | snapshot => exact h.snapshot
  | @revert revid =>
      rcases revertToSnapshot_cases revid t with ⟨_, hrev⟩ | ⟨idx, rev, _, hget, _, hrev⟩
      · rw [hrev]
        exact h
      · rw [hrev]
        exact h.cutBack hget

/-- While every snapshot of `s` is valid, its journal is kept. -/
theorem journal (h : Later s t) (hs : Inv s) (hv : s.validRevisions <+: t.validRevisions) :
    s.journal <+: t.journal := by
  obtain ⟨idx, later, hidx, hlater, hids, hall⟩ := h.frames
  rcases Nat.lt_or_ge idx s.validRevisions.length with hlt | hge
  · -- position `idx` would hold a snapshot that is both old and new
    exfalso
    have hold : t.validRevisions[idx]? = some s.validRevisions[idx] := by
      obtain ⟨rest, hrest⟩ := hv
      rw [← hrest, List.getElem?_append_left hlt, List.getElem?_eq_getElem hlt]
    have hlen : (s.validRevisions.take idx).length = idx := by
      rw [List.length_take, Nat.min_eq_left hidx]
    rw [hlater, List.getElem?_append_right (by omega)] at hold
    have hnew := hids _ (List.mem_of_getElem? hold)
    have hid := hs.ids _ (List.getElem_mem hlt)
    omega
  · exact (hall (Nat.le_antisymm hidx hge)).1

end Later

end StateDB

end Execution

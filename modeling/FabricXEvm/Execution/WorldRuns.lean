import FabricXEvm.Execution.Revert
import FabricXEvm.Execution.WorldSteps

/-!
# A StateDB refines the machine of worlds

The journal with its snapshots stands for a stack of copies of the world (`Refines`): for each
copy there is the state in which the snapshot was taken, and the operations since.  Reverting
leads back to that state in everything it shows, so the copy is what is shown again.

Every caller that the machine defines runs on the `StateDB` to the same result and ends in a
state that shows the machine's world (`Caller.run_refines`).
-/

namespace Execution

open Blocks StateDB

/-! ## `Prepare` -/

section Prepare

namespace AccessList

theorem contains_addAddress_or (al : AccessList) (a b : Address) (s : Hash) :
    (al.addAddress a).contains b s = ((al.contains b s).1 || b = a, (al.contains b s).2) := by
  rw [contains_addAddress]
  by_cases hb : b = a
  · subst hb
    simp
  · simp [hb]

theorem contains_addAddresses (addrs : List Address) (al : AccessList) (b : Address) (s : Hash) :
    (addrs.foldl addAddress al).contains b s =
      ((al.contains b s).1 || addrs.contains b, (al.contains b s).2) := by
  induction addrs generalizing al with
  | nil => simp
  | cons a addrs ih =>
      rw [List.foldl_cons, ih, contains_addAddress_or]
      simp [Bool.or_assoc]

/-- An address with some of its slots. -/
theorem contains_addSlots (keys : List Hash) (al : AccessList) (a b : Address) (s : Hash) :
    (keys.foldl (fun al key => al.addSlot a key) (al.addAddress a)).contains b s =
      ((al.contains b s).1 || b = a, (al.contains b s).2 || (b = a && keys.contains s)) := by
  induction keys using List.reverseRecOn with
  | nil => simp [contains_addAddress_or]
  | append_singleton keys key ih =>
      rw [List.foldl_append, List.foldl_cons, List.foldl_nil, contains_addSlot]
      by_cases hb : b = a
      · subst hb
        rw [ih]
        simp [Bool.or_assoc]
      · rw [if_neg hb, ih]
        simp [hb]

theorem contains_addTuples (els : List (Address × List Hash)) (al : AccessList) (b : Address)
    (s : Hash) :
    (els.foldl (fun al el => el.2.foldl (fun al key => al.addSlot el.1 key) (al.addAddress el.1))
        al).contains b s =
      ((al.contains b s).1 || els.any (fun el => el.1 = b),
        (al.contains b s).2 || els.any fun el => el.1 = b && el.2.contains s) := by
  induction els generalizing al with
  | nil => simp
  | cons el els ih =>
      rw [List.foldl_cons, ih, contains_addSlots]
      simp [Bool.or_assoc, eq_comm]

end AccessList

theorem Shows.prepare {env : Backing} {s : StateDB} {w : World} (h : Shows env s w)
    (args : PrepareArgs) : Shows env (StateDB.prepare args s) (w.prepare args) := by
  refine { h with accessList := fun a slot => ?_ }
  obtain ⟨isShanghai, sender, coinbase, dest, precompiles, txAccesses⟩ := args
  have hnew : AccessList.new.contains a slot = (false, false) := rfl
  cases isShanghai <;> cases dest <;>
    simp [StateDB.prepare, World.prepare, AccessList.contains_addAddress_or,
      AccessList.contains_addTuples, AccessList.contains_addAddresses, hnew, eq_comm, Bool.or_assoc]

end Prepare

/-! ## Snapshots -/

/-- A snapshot of the machine: the state it was taken in shows the copy, and the operations
since then did not revert to it or an older one. -/
def Frame (env : Backing) (s : StateDB) (p : Nat × World) : Prop :=
  ∃ s₀ ops, s₀.Inv ∧ Shows env s₀ p.2 ∧ s₀.nextRevisionId = p.1 ∧
    runOps env ops s₀.snapshot = .ok s ∧ ∀ op ∈ ops, op.After p.1

/-- The state stands for the machine. -/
structure Refines (env : Backing) (s : StateDB) (m : Machine) : Prop where
  inv : s.Inv
  shows : Shows env s m.world
  next : s.nextRevisionId = m.next
  ids : ∃ old, s.validRevisions.map Revision.id = old ++ m.snapshots.map Prod.fst ∧
    ∀ id ∈ old, id < m.floor
  frames : ∀ p ∈ m.snapshots, Frame env s p

theorem runOps_append {env : Backing} {ops : List Op} {op : Op} {s t u : StateDB} {r : Ret}
    (h : runOps env ops s = .ok t) (hop : op.exec env t = .ok (r, u)) :
    runOps env (ops ++ [op]) s = .ok u := by
  induction ops generalizing s with
  | nil =>
      cases h
      simp only [List.nil_append, runOps, hop]
  | cons op' ops ih =>
      simp only [runOps] at h
      simp only [List.cons_append, runOps]
      split at h
      next r' s' hop' => exact ih h
      next => cases h

theorem Frame.exec {env : Backing} {s t : StateDB} {p : Nat × World} (h : Frame env s p) {op : Op}
    {r : Ret} (hop : op.exec env s = .ok (r, t)) (hafter : op.After p.1) : Frame env t p := by
  obtain ⟨s₀, ops, hinv, hshows, hid, hrun, hall⟩ := h
  refine ⟨s₀, ops ++ [op], hinv, hshows, hid, runOps_append hrun hop, fun op' hmem => ?_⟩
  rcases List.mem_append.mp hmem with hmem | hmem
  · exact hall op' hmem
  · rw [List.mem_singleton.mp hmem]
    exact hafter

/-- Reverting to a snapshot shows its copy again. -/
theorem Frame.revert {env : Backing} {s : StateDB} {p : Nat × World} (h : Frame env s p) :
    Shows env (s.revertToSnapshot p.1) p.2 := by
  obtain ⟨s₀, ops, hinv, hshows, hid, hrun, hall⟩ := h
  rw [← hid] at hall ⊢
  obtain ⟨hj, hl, hidx, hside⟩ := revertToSnapshot_spec hinv hrun hall
  refine ⟨hidx, fun f => ?_, fun a k => ?_, fun a slot => ?_, ?_, ?_, ?_⟩
  · obtain ⟨val, hval, hread⟩ := hshows.fields f
    refine ⟨val, ?_, hread⟩
    rw [← hval]
    unfold value
    rw [hj]
  · exact (hside.transient a k).trans (hshows.transient a k)
  · exact (hside.accessList a slot).trans (hshows.accessList a slot)
  · exact hside.refund.trans hshows.refund
  · exact hl.trans hshows.logs
  · exact hside.newContracts.trans hshows.created

/-- The elements before one of an ascending list are the smaller ones. -/
theorem filter_of_ascending {before after : List (Nat × World)} {p : Nat × World}
    (h : (before ++ p :: after).Pairwise (·.1 < ·.1)) :
    (before ++ p :: after).filter (·.1 < p.1) = before := by
  obtain ⟨_, hright, hcross⟩ := List.pairwise_append.mp h
  have hbefore : before.filter (·.1 < p.1) = before :=
    List.filter_eq_self.mpr fun q hq => by simpa using hcross q hq p List.mem_cons_self
  have hafter : (p :: after).filter (·.1 < p.1) = [] := by
    refine List.filter_eq_nil_iff.mpr fun q hq => ?_
    rcases List.mem_cons.mp hq with rfl | hq
    · simp
    · simpa using (List.rel_of_pairwise_cons hright hq).le
  rw [List.filter_append, hbefore, hafter, List.append_nil]

section Steps

variable {env : Backing} {base : Accounts} {s t : StateDB} {m m' : Machine} {op : Op} {r : Ret}

/-- An operation that is no snapshot and may follow every one leaves the snapshots alone. -/
theorem revisions_of_exec (hop : op.exec env s = .ok (r, t)) (hafter : ∀ id, op.After id)
    (hsnap : op ≠ .snapshot) :
    t.validRevisions = s.validRevisions ∧ t.nextRevisionId = s.nextRevisionId := by
  cases Op.exec_moves hop with
  | append _ hmove => exact ⟨hmove.validRevisions, hmove.nextRevisionId⟩
  | @selfDestruct a _ t' hmove =>
      have hmark : (markSelfDestructed a t').validRevisions = t'.validRevisions ∧
          (markSelfDestructed a t').nextRevisionId = t'.nextRevisionId := by
        unfold markSelfDestructed
        split <;> exact ⟨rfl, rfl⟩
      exact ⟨hmark.1.trans hmove.validRevisions, hmark.2.trans hmove.nextRevisionId⟩
  | prepare => exact (hafter 0).elim
  | snapshot => exact absurd rfl hsnap
  | @revert revid => exact absurd (hafter revid) (Nat.lt_irrefl revid)

/-- An operation of the world. -/
theorem Refines.world (hbase : Holds env base) (h : Refines env s m) {w : World}
    (hop : m.world.exec env.keccak base op = some (r, w)) :
    ∃ t, op.exec env s = .ok (r, t) ∧ Refines env t { m with world := w } := by
  obtain ⟨t, hrun, hshows⟩ := World.sim_exec hbase hop h.shows
  have hafter : ∀ id, op.After id := by
    intro id
    cases op with
    | prepare args | revertToSnapshot revid => cases hop
    | _ => trivial
  have hsnap : op ≠ .snapshot := by
    rintro rfl
    cases hop
  obtain ⟨hrev, hnext⟩ := revisions_of_exec hrun hafter hsnap
  refine ⟨t, hrun, h.inv.exec hrun, hshows, hnext.trans h.next, ?_, fun p hp => ?_⟩
  · rw [hrev]
    exact h.ids
  · exact (h.frames p hp).exec hrun (hafter p.1)

theorem Refines.prepare (h : Refines env s m) (args : PrepareArgs) :
    Refines env (StateDB.prepare args s) (m.prepare args) where
  inv := h.inv.exec (rfl : (Op.prepare args).exec env s = .ok (.unit, StateDB.prepare args s))
  shows := h.shows.prepare args
  next := h.next
  ids := by
    refine ⟨s.validRevisions.map Revision.id, by simp [StateDB.prepare, Machine.prepare], fun id hid => ?_⟩
    obtain ⟨rev, hrev, rfl⟩ := List.mem_map.mp hid
    exact (h.inv.ids rev hrev).trans_eq h.next
  frames p hp := by cases hp

theorem Refines.snapshot (h : Refines env s m) : Refines env s.snapshot m.snapshot where
  inv := h.inv.snapshot
  shows := { h.shows with }
  next := congrArg (· + 1) h.next
  ids := by
    obtain ⟨old, hids, hold⟩ := h.ids
    refine ⟨old, ?_, hold⟩
    simp only [StateDB.snapshot, Machine.snapshot, List.map_append, hids, List.append_assoc,
      List.map_cons, List.map_nil, h.next]
  frames p hp := by
    rcases List.mem_append.mp hp with hp | hp
    · have hop : Op.snapshot.exec env s = .ok (.int s.nextRevisionId, s.snapshot) := rfl
      exact (h.frames p hp).exec hop trivial
    · rw [List.mem_singleton.mp hp]
      exact ⟨s, [], h.inv, h.shows, h.next, rfl, fun op hmem => by cases hmem⟩

/-- What is left of the snapshots after a revert to one of them. -/
theorem ids_of_revert {old before after : List Nat} {revid : Nat}
    (hids : s.validRevisions.map Revision.id = old ++ (before ++ revid :: after))
    (hold : ∀ id ∈ old, id ≠ revid) (hbefore : ∀ id ∈ before, id ≠ revid) :
    (s.revertToSnapshot revid).validRevisions.map Revision.id = old ++ before := by
  have hnone : ∀ {ids : List Nat}, (∀ id ∈ ids, id ≠ revid) → ids.findIdx? (· == revid) = none := by
    intro ids h
    rw [List.findIdx?_eq_none_iff]
    exact fun id hid => beq_eq_false_iff_ne.mpr (h id hid)
  have hfind : s.validRevisions.findIdx? (·.id == revid) = some (before.length + old.length) := by
    have hmap : (s.validRevisions.map Revision.id).findIdx? (· == revid) =
        s.validRevisions.findIdx? (·.id == revid) := List.findIdx?_map ..
    rw [← hmap, hids, List.findIdx?_append, hnone hold, List.findIdx?_append, hnone hbefore]
    simp [List.findIdx?_cons]
  rcases revertToSnapshot_cases revid s with ⟨hmiss, _⟩ | ⟨idx, rev, hidx, _, _, hrev⟩
  · rw [hfind] at hmiss
    cases hmiss
  · cases hidx.symm.trans hfind
    rw [hrev]
    change (s.validRevisions.take _).map _ = _
    rw [List.map_take, hids, ← List.append_assoc]
    exact List.take_left' (by rw [List.length_append, Nat.add_comm])

theorem nextRevisionId_revertToSnapshot (revid : Nat) (s : StateDB) :
    (s.revertToSnapshot revid).nextRevisionId = s.nextRevisionId := by
  rcases revertToSnapshot_cases revid s with ⟨_, hrev⟩ | ⟨idx, rev, _, _, _, hrev⟩
  · rw [hrev]
  · rw [hrev]
    exact (undoAll_frame _ s).2.2.2

/-- A revert to a snapshot that is not there does nothing. -/
theorem Refines.revert_unknown (h : Refines env s m) {revid : Nat} (hfloor : ¬ revid < m.floor)
    (hfind : m.snapshots.find? (·.1 == revid) = none) : s.revertToSnapshot revid = s := by
  rcases revertToSnapshot_cases revid s with ⟨_, hrev⟩ | ⟨idx, rev, _, hget, hid, _⟩
  · exact hrev
  · obtain ⟨old, hids, hold⟩ := h.ids
    have hmem : rev.id ∈ s.validRevisions.map Revision.id :=
      List.mem_map_of_mem (List.mem_of_getElem? hget)
    rw [hids, hid] at hmem
    rcases List.mem_append.mp hmem with hmem | hmem
    · exact absurd (hold revid hmem) hfloor
    · obtain ⟨p, hp, hpid⟩ := List.mem_map.mp hmem
      exact absurd hpid (by simpa using List.find?_eq_none.mp hfind p hp)

/-- A revert to a snapshot from after the last `Prepare`. -/
theorem Refines.revert (h : Refines env s m) {revid : Nat} (hfloor : ¬ revid < m.floor)
    {p : Nat × World} (hfind : m.snapshots.find? (·.1 == revid) = some p) :
    Refines env (s.revertToSnapshot revid) (m.goBack revid p.2) := by
  have hp : p ∈ m.snapshots := List.mem_of_find?_eq_some hfind
  obtain rfl : p.1 = revid := by simpa using List.find?_some hfind
  have hop : (Op.revertToSnapshot p.1).exec env s = .ok (.unit, s.revertToSnapshot p.1) := rfl
  refine ⟨h.inv.revertToSnapshot p.1, (h.frames p hp).revert, ?_, ?_, fun q hq => ?_⟩
  · exact (nextRevisionId_revertToSnapshot p.1 s).trans h.next
  · obtain ⟨old, hids, hold⟩ := h.ids
    obtain ⟨before, after, hsplit⟩ := List.append_of_mem hp
    have hordered := m.ordered
    rw [hsplit] at hordered
    refine ⟨old, ?_, hold⟩
    change _ = old ++ (m.snapshots.filter (·.1 < p.1)).map Prod.fst
    rw [hsplit, filter_of_ascending hordered]
    rw [hsplit, List.map_append, List.map_cons] at hids
    refine ids_of_revert hids (fun id hid => ?_) fun id hid => ?_
    · have hlt := hold id hid
      omega
    · obtain ⟨q, hq, rfl⟩ := List.mem_map.mp hid
      exact ((List.pairwise_append.mp hordered).2.2 q hq p List.mem_cons_self).ne
  · obtain ⟨hmem, hlt⟩ := List.mem_filter.mp hq
    exact (h.frames q hmem).exec hop (of_decide_eq_true hlt : q.1 < p.1)

/-- One operation of the machine. -/
theorem Refines.exec (hbase : Holds env base) (h : Refines env s m)
    (hop : m.exec env.keccak base op = some (r, m')) :
    ∃ t, op.exec env s = .ok (r, t) ∧ Refines env t m' := by
  unfold Machine.exec at hop
  split at hop
  next args =>
    cases hop
    exact ⟨_, rfl, h.prepare args⟩
  next =>
    cases hop
    refine ⟨_, ?_, h.snapshot⟩
    rw [← h.next]
    rfl
  next revid =>
    split at hop
    next => cases hop
    next hfloor =>
      split at hop
      next hfind =>
        cases hop
        refine ⟨s, ?_, h⟩
        exact congrArg (fun t => Except.ok (Ret.unit, t)) (h.revert_unknown hfloor hfind)
      next p hfind =>
        cases hop
        exact ⟨_, rfl, h.revert hfloor hfind⟩
  next =>
    obtain ⟨p, hw, heq⟩ := Option.map_eq_some_iff.mp hop
    cases heq
    exact h.world hbase hw

end Steps

/-! ## Runs -/

/-- From a state that stands for the machine, a caller that the machine defines runs to the
same result and to a state that stands for the machine's last one. -/
theorem Caller.run_refines_from {α : Type} {env : Backing} {base : Accounts} (hbase : Holds env base)
    {c : Caller α} {s : StateDB} {m m' : Machine} {a : α} (h : Refines env s m)
    (hrun : c.onWorld env.keccak base m = some (a, m')) :
    ∃ steps t, c.run env s = .ok (a, steps, t) ∧ Refines env t m' := by
  induction c generalizing s m with
  | done b =>
      cases hrun
      exact ⟨[], s, rfl, h⟩
  | call op next ih =>
      simp only [onWorld] at hrun
      split at hrun
      next => cases hrun
      next r m₁ hop =>
        obtain ⟨s', hexec, h'⟩ := h.exec hbase hop
        obtain ⟨steps, t, hrest, ht⟩ := ih r h' hrun
        refine ⟨⟨op, r, s, s'⟩ :: steps, t, ?_, ht⟩
        simp only [run, hexec, hrest]

theorem Holds.refines_new {env : Backing} {base : Accounts} (hbase : Holds env base) :
    Refines env .new (.start base) where
  inv := .new
  shows := hbase.shows_new
  next := rfl
  ids := ⟨[], rfl, by simp⟩
  frames p hp := by cases hp

/-- On a ledger that holds the accounts, every caller that the machine defines runs on a fresh
`StateDB` without a panic, returns the same result, and leaves a state that shows the machine's
world. -/
theorem Caller.run_refines {α : Type} {env : Backing} {base : Accounts} (hbase : Holds env base)
    {c : Caller α} {m : Machine} {a : α}
    (hrun : c.onWorld env.keccak base (.start base) = some (a, m)) :
    ∃ steps t, c.run env .new = .ok (a, steps, t) ∧ Shows env t m.world := by
  obtain ⟨steps, t, hdb, ht⟩ := run_refines_from hbase hbase.refines_new hrun
  exact ⟨steps, t, hdb, ht.shows⟩

/-- A message that pays an account, and a frame in it that is reverted. -/
def payAndRevert : Caller Ret :=
  .call (.prepare ⟨true, 1, 9, some 2, [], []⟩) fun _ =>
  .call (.addBalance 2 5) fun _ =>
  .call .snapshot fun _ =>
  .call (.setState 2 3 4) fun _ =>
  .call (.subBalance 2 5) fun _ =>
  .call (.revertToSnapshot 0) fun _ =>
  .call (.getBalance 2) fun bal => .done bal

theorem Caller.run_refines_payAndRevert :
    ∃ (steps : List Step) (t : StateDB) (m : Machine),
      payAndRevert.run emptyLedger .new = .ok (.word 5, steps, t) ∧
      Shows emptyLedger t m.world ∧ m.world.storage 2 3 = 0 := by
  have hbase : Holds emptyLedger noAccounts := holds_noAccounts fun _ => rfl
  obtain ⟨steps, t, hrun, hshows⟩ := run_refines hbase (c := payAndRevert) rfl
  exact ⟨steps, t, _, hrun, hshows, rfl⟩

/-! ## Where the machine is defined -/

/-- Every operation the caller may use satisfies `P`. -/
inductive Caller.Only (P : Op → Prop) {α : Type} : Caller α → Prop where
  | done (a : α) : Only P (.done a)
  | call {op : Op} {next : Ret → Caller α} (hop : P op) (h : ∀ r, Only P (next r)) :
      Only P (.call op next)

theorem Caller.Only.bind {P : Op → Prop} {α β : Type} {c : Caller α} (hc : c.Only P)
    {f : α → Caller β} (hf : ∀ a, (f a).Only P) : (c.bind f).Only P := by
  induction hc with
  | done a => exact hf a
  | call hop _ ih => exact .call hop ih

/-- The operations that the machine defines wherever there was no `Prepare`. -/
def Op.Unconditional : Op → Prop
  | .hasSelfDestructed _ | .subRefund _ | .prepare _ => False
  | _ => True

theorem Machine.exec_defined (keccak : Bytes → Hash) (base : Accounts) {m : Machine} {op : Op}
    (hop : op.Unconditional) (hm : m.floor = 0) :
    ∃ r m', m.exec keccak base op = some (r, m') ∧ m'.floor = 0 := by
  cases op with
  | hasSelfDestructed _ | subRefund _ | prepare _ => exact hop.elim
  | snapshot => exact ⟨_, _, rfl, hm⟩
  | revertToSnapshot revid =>
      simp only [Machine.exec, hm, Nat.not_lt_zero, if_false]
      split
      next => exact ⟨_, _, rfl, hm⟩
      next => exact ⟨_, _, rfl, hm⟩
  | addBalance a amount | subBalance a amount =>
      simp only [Machine.exec, World.exec]
      split
      next => exact ⟨_, _, rfl, hm⟩
      next => exact ⟨_, _, rfl, hm⟩
  | _ => exact ⟨_, _, rfl, hm⟩

theorem Caller.onWorld_defined {α : Type} {keccak : Bytes → Hash} {base : Accounts} {c : Caller α}
    (hc : c.Only Op.Unconditional) {m : Machine} (hm : m.floor = 0) :
    ∃ out, c.onWorld keccak base m = some out := by
  induction hc generalizing m with
  | done a => exact ⟨_, rfl⟩
  | call hop _ ih =>
      obtain ⟨r, m', hexec, hm'⟩ := Machine.exec_defined keccak base hop hm
      simp only [onWorld, hexec]
      exact ih r hm'

end Execution

import FabricXEvm.Execution.Footprint
import FabricXEvm.Execution.Result

/-!
# Soundness of the read set

The ledger validates an endorsement by the versions in its read set.  So two stores that
agree on the read set of a run should not be told apart by it: the caller is told the same
values, and the run ends with the same logs and the same read-write set.

This holds for a run that takes nothing back.  `RevertToSnapshot` also discards the reads
made since the snapshot, and a caller may go on to use what it learned from them.  The
read set is sound once the discarded reads are added to it.
-/

namespace Execution

open Blocks

namespace StateDB

/-- Moves that append to the journal, and read what they journal. -/
def recorded : Comp.Footprint Backing StateDB Bytes where
  le s t := s.journal <+: t.journal
  refl _ := List.prefix_rfl
  trans := List.IsPrefix.trans
  touched := Touched
  touched_left := Touched.left
  touched_right := Touched.right
  base := SameConfig
  agree := Agree

theorem local_recorded {α : Type} {m : DB α} (h : Comp.Local journaled m) :
    Comp.Local recorded m :=
  h.mono Extends.journal id id id

theorem journal_markSelfDestructed (a : Address) (s : StateDB) :
    s.journal <+: (markSelfDestructed a s).journal := by
  unfold markSelfDestructed
  split
  next => exact List.prefix_append _ _
  next => exact List.prefix_rfl

theorem local_selfDestruct (a : Address) : Comp.Local recorded (selfDestruct a) := by
  refine .bind (local_recorded (local_getBalance a)) fun prev => ?_
  refine .ask_bind (fun env => ?_) fun _ _ hb => ?_
  · dsimp only
    split
    next =>
      exact .bind (.modify fun s => (extends_putState _ _ s).journal) fun _ => .modify (journal_markSelfDestructed a)
    next => exact .modify (journal_markSelfDestructed a)
  · rw [balKey_congr hb]

/-- A probe of the store that does not fail on one store does not fail on the other. -/
theorem previousState_transfer {key : Bytes} {e₁ e₂ : Backing} {s t : StateDB} {prev : Hash}
    (h : previousState key e₁ s = .ok (prev, t)) (hb : SameConfig e₁ e₂) :
    ∃ prev', previousState key e₂ s = .ok (prev', t) := by
  obtain ⟨val, hval⟩ := previousState_moves h
  rw [previousState_run hval] at h
  rw [getStateFromJournal_env key e₁ e₂] at hval
  rw [previousState_run hval]
  cases val with
  | some prevVal => exact ⟨_, rfl⟩
  | none =>
      have hok := hb.isOk key
      cases h₁ : e₁.store e₁.ns key with
      | error err =>
          simp only [h₁] at h
          cases h
      | ok record =>
          cases h₂ : e₂.store e₂.ns key with
          | error err =>
              rw [h₁, h₂] at hok
              cases hok
          | ok record' => exact ⟨_, rfl⟩

theorem setState_transfer {a : Address} {slot value prev : Hash} {e₁ e₂ : Backing}
    {s t : StateDB} (h : setState a slot value e₁ s = .ok (prev, t)) (hb : SameConfig e₁ e₂) :
    ∃ prev', setState a slot value e₂ s = .ok (prev', t) := by
  unfold setState at h ⊢
  rw [Comp.bind_run_ok rfl] at h ⊢
  obtain ⟨prev₁, s', hprev, h⟩ := Comp.of_bind_ok h
  rw [← hb.keccak]
  obtain ⟨prev₂, hprev₂⟩ := previousState_transfer hprev hb
  cases h
  exact ⟨prev₂, Comp.bind_run_ok hprev₂⟩

end StateDB

open StateDB

/-! ## Two runs of a caller -/

/-- What a blind caller looks at: everything but the previous value of `SetState`. -/
def Op.told : Op → Ret → Ret
  | .setState _ _ _, _ => .unit
  | _, r => r

/-- What a blind caller sees of a step. -/
def Step.seen (st : Step) : Op × Ret := (st.op, st.op.told st.ret)

/-- A blind caller goes on in the same way after answers that look the same to it. -/
theorem Caller.Blind.next_eq {α : Type} {op : Op} {next : Ret → Caller α}
    (h : (Caller.call op next).Blind) {r r' : Ret} (hr : op.told r = op.told r') :
    next r = next r' := by
  cases h with
  | call _ hset =>
      cases op with
      | setState a slot v => exact hset a slot v rfl r r'
      | _ => exact congrArg next hr

theorem Caller.Blind.next {α : Type} {op : Op} {next : Ret → Caller α}
    (h : (Caller.call op next).Blind) (r : Ret) : (next r).Blind := by
  cases h with
  | call h _ => exact h r

/-- An operation has the same effect on two stores that agree on what it reads. -/
theorem Op.exec_transfer {op : Op} {e₁ e₂ : Backing} {s s' : StateDB} {r : Ret}
    (h : op.exec e₁ s = .ok (r, s')) (hb : SameConfig e₁ e₂)
    (hk : ∀ k, Touched s s' k → Agree e₁ e₂ k) :
    ∃ r', op.exec e₂ s = .ok (r', s') ∧ op.told r' = op.told r := by
  by_cases hop : op.IsLocal
  · exact ⟨r, (local_exec hop).transfer h hb hk, rfl⟩
  · cases op with
    | setState a slot v =>
        obtain ⟨prev, t, hset, h⟩ := Comp.of_bind_ok h
        obtain ⟨prev', hset'⟩ := setState_transfer hset hb
        cases h
        exact ⟨_, Comp.bind_run_ok hset', rfl⟩
    | selfDestruct a =>
        have hl : Comp.Local recorded (Op.selfDestruct a).exec :=
          .bind (local_selfDestruct a) fun _ => .pure _
        exact ⟨r, hl.transfer h hb hk, rfl⟩
    | prepare args | snapshot | revertToSnapshot revid => exact ⟨r, h, rfl⟩
    | _ => exact absurd trivial hop

/-- An operation appends to the journal, or cuts it back. -/
theorem Op.journal_exec {op : Op} {env : Backing} {s s' : StateDB} {r : Ret}
    (h : op.exec env s = .ok (r, s')) : s.journal <+: s'.journal ∨ s'.journal <+: s.journal := by
  cases exec_moves h with
  | append _ hmove => exact .inl hmove.journal
  | selfDestruct hmove => exact .inl (hmove.journal.trans (journal_markSelfDestructed _ _))
  | prepare => exact .inl List.prefix_rfl
  | snapshot => exact .inl List.prefix_rfl
  | revert =>
      rcases revertToSnapshot_cases _ s with ⟨_, hrev⟩ | ⟨idx, rev, _, _, _, hrev⟩
      · exact .inl (by rw [hrev])
      · exact .inr (by rw [hrev]; exact List.take_prefix _ _)

/-- The reads among journal entries. -/
def readEntries (es : List JournalEntry) : List KVRead :=
  es.filterMap fun
    | .read r => some r
    | _ => none

theorem mem_readEntries {es : List JournalEntry} {r : KVRead} :
    r ∈ readEntries es ↔ .read r ∈ es := by
  simp only [readEntries, List.mem_filterMap]
  constructor
  · rintro ⟨e, he, hr⟩
    cases e with
    | read r' =>
        cases hr
        exact he
    | _ => cases hr
  · intro h
    exact ⟨.read r, h, rfl⟩

/-- The reads a run journaled and later took back.  Only `RevertToSnapshot` shortens the
journal. -/
def discardedReads (steps : List Step) : List KVRead :=
  steps.flatMap fun st => readEntries (st.before.journal.drop st.after.journal.length)

namespace Caller

variable {α : Type}

/-- A read in the journal is still there at the end of a run, or was discarded. -/
theorem run_keeps_reads {c : Caller α} {env : Backing} {s t : StateDB} {a : α}
    {steps : List Step} (h : c.run env s = .ok (a, steps, t)) {r : KVRead}
    (hr : .read r ∈ s.journal) : .read r ∈ t.journal ∨ r ∈ discardedReads steps := by
  induction c generalizing s steps with
  | done b =>
      cases h
      exact .inl hr
  | call op next ih =>
      obtain ⟨r₀, s', steps', hop, rfl, hrest⟩ := run_call_ok h
      -- the first step keeps the read or cuts it off
      have hstep : .read r ∈ s'.journal ∨ .read r ∈ s.journal.drop s'.journal.length := by
        rcases Op.journal_exec hop with ⟨es, hes⟩ | ⟨es, hes⟩
        · exact .inl (hes ▸ List.mem_append_left es hr)
        · rw [← hes] at hr ⊢
          simpa using hr
      simp only [discardedReads, List.flatMap_cons, List.mem_append]
      rcases hstep with hkept | hcut
      · exact (ih _ hrest hkept).imp_right .inr
      · exact .inr (.inl (mem_readEntries.mpr hcut))

/-- Every key a run read from the store is in the read set at its end, or was discarded. -/
theorem run_touched {c : Caller α} {env : Backing} {s t : StateDB} {a : α} {steps : List Step}
    (h : c.run env s = .ok (a, steps, t)) {st : Step} (hst : st ∈ steps) {key : Bytes}
    (hk : Touched st.before st.after key) :
    key ∈ (t.result.reads ++ discardedReads steps).map KVRead.key := by
  induction c generalizing s steps with
  | done b =>
      cases h
      cases hst
  | call op next ih =>
      obtain ⟨r₀, s', steps', hop, rfl, hrest⟩ := run_call_ok h
      simp only [discardedReads, List.flatMap_cons, List.map_append, List.mem_append]
      rcases List.mem_cons.mp hst with rfl | hst
      · obtain ⟨r, hr, rfl⟩ := hk
        rcases run_keeps_reads hrest (List.mem_of_mem_drop hr) with hend | hdisc
        · exact .inl (mem_keys_reads hend)
        · exact .inr (.inr (List.mem_map_of_mem hdisc))
      · have := ih _ hrest hst
        rw [List.map_append, List.mem_append] at this
        exact this.imp_right .inr

/-- Two stores that agree on everything a run read give the same run. -/
theorem run_transfer {c : Caller α} {e₁ e₂ : Backing} {s t : StateDB} {a : α}
    {steps : List Step} (hc : c.Blind) (h : c.run e₁ s = .ok (a, steps, t))
    (hb : SameConfig e₁ e₂)
    (hk : ∀ st ∈ steps, ∀ k, Touched st.before st.after k → Agree e₁ e₂ k) :
    ∃ steps', c.run e₂ s = .ok (a, steps', t) ∧ steps'.map Step.seen = steps.map Step.seen := by
  induction c generalizing s steps with
  | done b =>
      cases h
      exact ⟨[], rfl, rfl⟩
  | call op next ih =>
      obtain ⟨r, s', steps₁, hop, rfl, hrest⟩ := run_call_ok h
      obtain ⟨r', hop', htold⟩ := Op.exec_transfer hop hb (hk _ List.mem_cons_self)
      obtain ⟨steps₂, hrest₂, hseen⟩ :=
        ih r (hc.next r) hrest fun st hst => hk st (List.mem_cons_of_mem _ hst)
      rw [← hc.next_eq htold] at hrest₂
      refine ⟨⟨op, r', s, s'⟩ :: steps₂, ?_, ?_⟩
      · simp only [run, hop', hrest₂]
      · simp only [List.map_cons, hseen, Step.seen, htold]

/-- The read set, together with the reads discarded by reverts, is sound: a store that
fails on the same keys and has the same records there gives a run that tells the caller
the same and ends with the same logs and read-write set. -/
theorem result_eq_of_agree {c : Caller α} (hc : c.Blind) (env : Backing) (store : ReadStore)
    {a : α} {steps : List Step} {t : StateDB} (h : c.run env .new = .ok (a, steps, t))
    (hfail : ∀ key, (env.store env.ns key).isOk = (store env.ns key).isOk)
    (hagree : ∀ r ∈ t.result.reads ++ discardedReads steps,
      env.store env.ns r.key = store env.ns r.key) :
    ∃ steps' t', c.run { env with store } .new = .ok (a, steps', t') ∧
      steps'.map Step.seen = steps.map Step.seen ∧ t'.logs = t.logs ∧ t'.result = t.result := by
  have hb : SameConfig env { env with store } := ⟨rfl, rfl, rfl, hfail⟩
  have hk : ∀ st ∈ steps, ∀ k, Touched st.before st.after k → Agree env { env with store } k := by
    intro st hst k ht
    obtain ⟨r, hr, rfl⟩ := List.mem_map.mp (run_touched h hst ht)
    exact hagree r hr
  obtain ⟨steps', hrun, hseen⟩ := run_transfer hc h hb hk
  exact ⟨steps', t, hrun, hseen, rfl, rfl⟩

/-- A ledger on which only the account `1` has a balance. -/
def fundedStore : ReadStore := fun ns key =>
  .ok (if key = balKey emptyLedger 1 then
    some ⟨ns, key, 3, 0, 0, some [7], false, []⟩ else none)

/-- A caller that pays account `2` when account `3` is empty, and never looks at `1`. -/
def payIfEmpty : Caller Unit :=
  .call (.empty 3) fun
    | .bool true => .call (.addBalance 2 5) fun _ => .done ()
    | _ => .done ()

theorem blind_payIfEmpty : payIfEmpty.Blind := by
  refine .call (fun r => ?_) (by simp)
  split
  next => exact .call (fun _ => .done ()) (by simp)
  next => exact .done ()

theorem result_eq_of_agree_payIfEmpty :
    ∃ a steps t, payIfEmpty.run emptyLedger .new = .ok (a, steps, t) ∧
      ∃ steps' t', payIfEmpty.run { emptyLedger with store := fundedStore } .new =
          .ok (a, steps', t') ∧
        steps'.map Step.seen = steps.map Step.seen ∧ t'.logs = t.logs ∧ t'.result = t.result := by
  refine ⟨_, _, _, rfl, result_eq_of_agree blind_payIfEmpty emptyLedger fundedStore rfl ?_ ?_⟩
  · intro key
    rfl
  · decide

/-- A caller that looks at a balance in a frame it reverts, and then acts on it. -/
def peek : Caller Unit :=
  .call .snapshot fun _ =>
  .call (.getBalance 1) fun bal =>
  .call (.revertToSnapshot 0) fun _ =>
  if bal = .word 0 then .done () else .call (.setNonce 2 1) fun _ => .done ()

/-- Without the discarded reads the read set is not sound: the read set of `peek` is empty,
but what it writes depends on a balance. -/
theorem reads_miss_reverted_frame :
    peek.Blind ∧ ∃ a₁ steps₁ t₁ a₂ steps₂ t₂,
      peek.run emptyLedger .new = .ok (a₁, steps₁, t₁) ∧
      peek.run { emptyLedger with store := fundedStore } .new = .ok (a₂, steps₂, t₂) ∧
      (∀ ns key, (emptyLedger.store ns key).isOk ∧ (fundedStore ns key).isOk) ∧
      (∀ r ∈ t₁.result.reads, emptyLedger.store emptyLedger.ns r.key =
        fundedStore emptyLedger.ns r.key) ∧
      t₁.result ≠ t₂.result := by
  refine ⟨?_, _, _, _, _, _, _, rfl, rfl, fun _ _ => ⟨rfl, rfl⟩, ?_, ?_⟩
  · refine .call (fun _ => .call (fun bal => .call (fun _ => ?_) (by simp)) (by simp)) (by simp)
    split
    next => exact .done ()
    next => exact .call (fun _ => .done ()) (by simp)
  · decide
  · decide

end Caller

end Execution

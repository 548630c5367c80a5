import FabricXEvm.Execution.Footprint

/-!
# What an operation journals

Which reads and writes an operation can journal.  A read carries the version of the
store's record.  A `Field` is one account field or storage slot; every write is to the key
of a field, and different fields have different keys.
-/

namespace Execution

open Blocks

/-- An account field or a storage slot. -/
inductive Field where
  | balance (addr : Address)
  | nonce (addr : Address)
  | code (addr : Address)
  | slot (addr : Address) (slot : Hash)
deriving DecidableEq, Repr

/-- The ledger key of a field. -/
def Field.key (env : Backing) : Field → Bytes
  | .balance a => StateDB.balKey env a
  | .nonce a => StateDB.nonceKey env a
  | .code a => StateDB.codeKey env a
  | .slot a s => storeKey env.keccak a s

/-- No two fields share a key. -/
theorem Field.key_inj {env : Backing} {f g : Field} (h : f.key env = g.key env) : f = g := by
  have hacc : ∀ {a b : Address} {t u : Bytes}, accKey env.keccak a t = accKey env.keccak b u →
      t ≠ u → False := fun h hne => hne (accKey_inj h).2
  cases f with
  | balance a =>
      cases g with
      | balance b => rw [(accKey_inj h).1]
      | nonce b => exact (hacc h (by decide)).elim
      | code b => exact (hacc h (by decide)).elim
      | slot b s => exact (accKey_ne_storeKey h).elim
  | nonce a =>
      cases g with
      | balance b => exact (hacc h (by decide)).elim
      | nonce b => rw [(accKey_inj h).1]
      | code b => exact (hacc h (by decide)).elim
      | slot b s => exact (accKey_ne_storeKey h).elim
  | code a =>
      cases g with
      | balance b => exact (hacc h (by decide)).elim
      | nonce b => exact (hacc h (by decide)).elim
      | code b => rw [(accKey_inj h).1]
      | slot b s => exact (accKey_ne_storeKey h).elim
  | slot a r =>
      cases g with
      | slot b s => rw [(storeKey_inj h).1, (storeKey_inj h).2]
      | _ => exact (accKey_ne_storeKey h.symm).elim

namespace Op

open StateDB

/-- The writes an operation may journal. -/
def MayWrite (env : Backing) : Op → KVWrite → Prop
  | .createAccount a, w =>
      w = writeOf (balKey env a) (uint256ToBytes 0) ∨ w = writeOf (nonceKey env a) (uint64ToBytes 0)
  | .createContract a, w => w = writeOf (codeKey env a) []
  | .addBalance a _, w | .subBalance a _, w | .selfDestruct a, w =>
      ∃ balance, w = writeOf (balKey env a) (uint256ToBytes balance)
  | .setNonce a nonce, w => w = writeOf (nonceKey env a) (uint64ToBytes nonce)
  | .setCode a code, w => w = writeOf (codeKey env a) code
  | .setState a slot value, w =>
      w = writeOf (storeKey env.keccak a slot) (if value = 0 then [] else value.bytes)
  | _, _ => False

/-- The fields an operation may write. -/
def fields : Op → List Field
  | .createAccount a => [.balance a, .nonce a]
  | .createContract a => [.code a]
  | .addBalance a _ | .subBalance a _ | .selfDestruct a => [.balance a]
  | .setNonce a _ => [.nonce a]
  | .setCode a _ => [.code a]
  | .setState a slot _ => [.slot a slot]
  | _ => []

/-- A write is to the key of one of the operation's fields. -/
theorem MayWrite.field {env : Backing} {op : Op} {w : KVWrite} (h : op.MayWrite env w) :
    ∃ f ∈ op.fields, w.key = f.key env := by
  cases op with
  | createAccount a =>
      rcases h with rfl | rfl
      · exact ⟨.balance a, by simp [fields], writeOf_key _ _⟩
      · exact ⟨.nonce a, by simp [fields], writeOf_key _ _⟩
  | createContract a =>
      cases h
      exact ⟨.code a, by simp [fields], writeOf_key _ _⟩
  | addBalance a v | subBalance a v | selfDestruct a =>
      obtain ⟨balance, rfl⟩ := h
      exact ⟨.balance a, by simp [fields], writeOf_key _ _⟩
  | setNonce a n =>
      cases h
      exact ⟨.nonce a, by simp [fields], writeOf_key _ _⟩
  | setCode a code =>
      cases h
      exact ⟨.code a, by simp [fields], writeOf_key _ _⟩
  | setState a slot v =>
      cases h
      exact ⟨.slot a slot, by simp [fields], writeOf_key _ _⟩
  | _ => exact h.elim

theorem MayWrite.eq_writeOf {env : Backing} {op : Op} {w : KVWrite} (h : op.MayWrite env w) :
    ∃ value, w = writeOf w.key value := by
  cases op with
  | createAccount a =>
      rcases h with rfl | rfl
      · exact ⟨_, by rw [writeOf_key]⟩
      · exact ⟨_, by rw [writeOf_key]⟩
  | addBalance a v | subBalance a v | selfDestruct a =>
      obtain ⟨balance, rfl⟩ := h
      exact ⟨_, by rw [writeOf_key]⟩
  | createContract a | setNonce a n | setCode a code | setState a slot v =>
      cases h
      exact ⟨_, by rw [writeOf_key]⟩
  | _ => exact h.elim

end Op

namespace StateDB

/-- A journal entry with a write of `W`, or a read of what the store has. -/
def EntryOk (env : Backing) (W : KVWrite → Prop) : JournalEntry → Prop
  | .write w => W w
  | .read r => ∃ record, env.store env.ns r.key = .ok record ∧
      r = readOf env.monotonicVersions r.key record
  | _ => True

/-- Moves that append to the journal, with writes of `W` only and reads of the store. -/
def appending (env : Backing) (W : KVWrite → Prop) : Comp.Motion StateDB where
  rel s t := ∃ es, t.journal = s.journal ++ es ∧ ∀ e ∈ es, EntryOk env W e
  refl s := ⟨[], by simp, by simp⟩
  trans h h' := by
    obtain ⟨es, hj, hw⟩ := h
    obtain ⟨fs, hj', hw'⟩ := h'
    refine ⟨es ++ fs, by rw [hj', hj, List.append_assoc], fun e hmem => ?_⟩
    rcases List.mem_append.mp hmem with hmem | hmem
    · exact hw e hmem
    · exact hw' e hmem

section Getters

variable {W : KVWrite → Prop} {env : Backing}

theorem appending_same {s t : StateDB} (h : t.journal = s.journal) : (appending env W).rel s t :=
  ⟨[], by simp [h], by simp⟩

theorem appending_push {s t : StateDB} {e : JournalEntry} (h : t.journal = s.journal ++ [e])
    (he : EntryOk env W e) : (appending env W).rel s t :=
  ⟨[e], h, fun _ he' => List.mem_singleton.mp he' ▸ he⟩

theorem moves_putState {key value : Bytes} (h : W (writeOf key value)) :
    Comp.Moves (appending env W) env (Comp.modify (putState key value) : DB Unit) := by
  exact .modify fun s => appending_push rfl h

theorem moves_markNewContract (a : Address) :
    Comp.Moves (appending env W) env (Comp.modify (markNewContract a) : DB Unit) := by
  refine .modify fun s => ?_
  unfold markNewContract
  split
  next => exact appending_same rfl
  next => exact appending_push rfl trivial

theorem moves_getStateFromJournal (key : Bytes) :
    Comp.Moves (appending env W) env (getStateFromJournal key) := by
  refine .bind (.modify fun s => appending_same rfl) fun _ => .bind .get fun s => ?_
  split
  next => exact .pure _
  next i =>
    split
    next w _ =>
      split
      next => exact .pure _
      next => exact .pure _
    next => exact .throw _

theorem moves_getStateFromStore (key : Bytes) :
    Comp.Moves (appending env W) env (getStateFromStore key) := by
  refine .ask_bind ?_
  cases hstore : env.store env.ns key with
  | error err => exact .pure _
  | ok record =>
      refine .bind (.modify fun s => appending_push rfl ⟨record, ?_, ?_⟩) fun _ => .pure _
      · rw [readOf_key, hstore]
      · rw [readOf_key]

theorem moves_getState (key : Bytes) : Comp.Moves (appending env W) env (getState key) := by
  refine .bind (moves_getStateFromJournal key) fun val => ?_
  cases val with
  | some val => exact .pure _
  | none => exact moves_getStateFromStore key

theorem moves_getBalance (a : Address) : Comp.Moves (appending env W) env (getBalance a) := by
  refine .ask_bind (.bind (moves_getState _) fun r => ?_)
  cases r with
  | error err => exact .throw _
  | ok val => exact .pure _

theorem moves_getNonce (a : Address) : Comp.Moves (appending env W) env (getNonce a) := by
  refine .ask_bind (.bind (moves_getState _) fun r => ?_)
  cases r with
  | error err => exact .throw _
  | ok val =>
      dsimp only
      cases bytesToUint64 (val.getD []) with
      | some n => exact .pure n
      | none => exact .throw _

theorem moves_getCode (a : Address) : Comp.Moves (appending env W) env (getCode a) := by
  refine .ask_bind (.bind (moves_getState _) fun r => ?_)
  cases r with
  | error err => exact .throw _
  | ok val => exact .pure _

theorem moves_getCodeSize (a : Address) : Comp.Moves (appending env W) env (getCodeSize a) :=
  .bind (moves_getCode a) fun _ => .pure _

theorem moves_exist (a : Address) : Comp.Moves (appending env W) env (exist a) := by
  refine .ask_bind (.bind (moves_getState _) fun bal => ?_)
  split
  next => exact .pure _
  next =>
    refine .bind (moves_getState _) fun nonce => ?_
    split
    next => exact .pure _
    next => exact .bind (moves_getState _) fun _ => .pure _

theorem moves_empty (a : Address) : Comp.Moves (appending env W) env (empty a) := by
  refine .bind (moves_getBalance a) fun balance => ?_
  split
  next => exact .pure _
  next =>
    refine .bind (moves_getNonce a) fun nonce => ?_
    split
    next => exact .pure _
    next => exact .bind (moves_getCodeSize a) fun _ => .pure _

theorem moves_getCodeHash (a : Address) : Comp.Moves (appending env W) env (getCodeHash a) := by
  refine .bind (moves_exist a) fun found => ?_
  split
  next => exact .bind (moves_getCode a) fun code => .ask_bind (.pure _)
  next => exact .pure _

theorem moves_getStateSlot (a : Address) (slot : Hash) :
    Comp.Moves (appending env W) env (getStateSlot a slot) := by
  refine .ask_bind (.bind (moves_getState _) fun r => ?_)
  cases r with
  | error err => exact .throw _
  | ok val => exact .pure _

theorem moves_getStateAndCommittedState (a : Address) (slot : Hash) :
    Comp.Moves (appending env W) env (getStateAndCommittedState a slot) := by
  refine .ask_bind (.bind (moves_getStateFromJournal _) fun currentVal => ?_)
  refine .bind (moves_getStateFromStore _) fun r => ?_
  cases r with
  | error err => exact .throw _
  | ok committedVal =>
      cases currentVal with
      | some val => exact .pure _
      | none => exact .pure _

theorem moves_previousState (key : Bytes) : Comp.Moves (appending env W) env (previousState key) := by
  intro s prev t h
  obtain ⟨val, hval⟩ := previousState_moves h
  exact moves_getStateFromJournal key hval

end Getters

end StateDB

open StateDB

/-- Every operation but `RevertToSnapshot` appends to the journal: reads of the store and
its own writes. -/
theorem Op.exec_appending {op : Op} {env : Backing}
    (hop : ∀ revid, op ≠ .revertToSnapshot revid) :
    Comp.Moves (appending env (op.MayWrite env)) env op.exec := by
  cases op with
  | createAccount a =>
      refine .bind (.ask_bind ?_) fun _ => .pure _
      refine .bind (moves_putState (.inl rfl)) fun _ => .bind (moves_putState (.inr rfl)) fun _ => ?_
      exact moves_markNewContract a
  | createContract a =>
      refine .bind (.ask_bind ?_) fun _ => .pure _
      exact .bind (moves_putState rfl) fun _ => moves_markNewContract a
  | getBalance a => exact .bind (moves_getBalance a) fun _ => .pure _
  | addBalance a amount =>
      refine .bind ?_ fun _ => .pure _
      unfold StateDB.addBalance
      split
      next => exact .pure _
      next =>
        refine .bind (moves_getBalance a) fun prev => .ask_bind ?_
        exact .bind (moves_putState ⟨_, rfl⟩) fun _ => .pure _
  | subBalance a amount =>
      refine .bind ?_ fun _ => .pure _
      unfold StateDB.subBalance
      split
      next => exact .pure _
      next =>
        refine .bind (moves_getBalance a) fun prev => .ask_bind ?_
        exact .bind (moves_putState ⟨_, rfl⟩) fun _ => .pure _
  | getNonce a => exact .bind (moves_getNonce a) fun _ => .pure _
  | setNonce a nonce => exact .bind (.ask_bind (moves_putState rfl)) fun _ => .pure _
  | getCode a => exact .bind (moves_getCode a) fun _ => .pure _
  | getCodeHash a => exact .bind (moves_getCodeHash a) fun _ => .pure _
  | getCodeSize a => exact .bind (moves_getCodeSize a) fun _ => .pure _
  | setCode a code =>
      refine .bind ?_ fun _ => .pure _
      refine .bind (moves_getCode a) fun prev => .ask_bind ?_
      exact .bind (moves_putState rfl) fun _ => .pure _
  | getState a slot => exact .bind (moves_getStateSlot a slot) fun _ => .pure _
  | getStateAndCommittedState a slot =>
      exact .bind (moves_getStateAndCommittedState a slot) fun _ => .pure _
  | setState a slot value =>
      refine .bind (.ask_bind ?_) fun _ => .pure _
      refine .bind (moves_previousState _) fun prev => ?_
      exact .bind (moves_putState rfl) fun _ => .pure _
  | getStorageRoot a => exact .pure _
  | selfDestruct a =>
      have hmark : Comp.Moves (appending env ((Op.selfDestruct a).MayWrite env)) env
          (Comp.modify (markSelfDestructed a) : DB Unit) := by
        refine .modify fun s => ?_
        unfold markSelfDestructed
        split
        next => exact appending_push rfl trivial
        next => exact appending_same rfl
      refine .bind (.bind (moves_getBalance a) fun prev => .ask_bind ?_) fun _ => .pure _
      dsimp only
      split
      next => exact .bind (moves_putState ⟨_, rfl⟩) fun _ => hmark
      next => exact hmark
  | exist a => exact .bind (moves_exist a) fun _ => .pure _
  | empty a => exact .bind (moves_empty a) fun _ => .pure _
  | addRefund gas =>
      exact .bind (.modify fun s => appending_push rfl trivial) fun _ => .pure _
  | subRefund gas =>
      refine .bind (.bind .get fun s => ?_) fun _ => .pure _
      split
      next => exact .throw _
      next => exact .modify fun t => appending_push rfl trivial
  | addLog a topics data => exact .bind (.modify fun s => appending_same rfl) fun _ => .pure _
  | setTransientState a k v =>
      exact .bind (.modify fun s => appending_push rfl trivial) fun _ => .pure _
  | addAddressToAccessList a =>
      refine .bind (.modify fun s => ?_) fun _ => .pure _
      unfold StateDB.addAddressToAccessList
      split
      next => exact appending_same rfl
      next => exact appending_push rfl trivial
  | addSlotToAccessList a slot =>
      refine .bind (.modify fun s => ?_) fun _ => .pure _
      unfold StateDB.addSlotToAccessList
      dsimp only
      split
      next => exact appending_same rfl
      next =>
        refine ⟨_, rfl, fun e he => ?_⟩
        split at he
        next =>
          rw [List.mem_singleton.mp he]
          trivial
        next =>
          rcases List.mem_cons.mp he with rfl | he
          · trivial
          · rw [List.mem_singleton.mp he]
            trivial
  | prepare args => exact .bind (.modify fun s => appending_same rfl) fun _ => .pure _
  | snapshot =>
      exact .bind .get fun _ => .bind (.modify fun s => appending_same rfl) fun _ => .pure _
  | revertToSnapshot revid => exact absurd rfl (hop revid)
  | hasSelfDestructed a | isNewContract a | getRefund | getTransientState a k
  | addressInAccessList a | slotInAccessList a slot => exact .bind .get fun _ => .pure _

/-- An entry in the journal after an operation was there before, or is the operation's. -/
theorem Op.exec_entry {op : Op} {env : Backing} {s t : StateDB} {r : Ret}
    (h : op.exec env s = .ok (r, t)) {e : JournalEntry} (he : e ∈ t.journal) :
    e ∈ s.journal ∨ EntryOk env (op.MayWrite env) e := by
  by_cases hrev : ∃ revid, op = .revertToSnapshot revid
  · obtain ⟨revid, rfl⟩ := hrev
    cases h
    rcases revertToSnapshot_cases revid s with ⟨_, heq⟩ | ⟨idx, rev, _, _, _, heq⟩
    · rw [heq] at he
      exact .inl he
    · rw [heq] at he
      exact .inl (List.mem_of_mem_take he)
  · obtain ⟨es, hj, hes⟩ := Op.exec_appending (fun revid h => hrev ⟨revid, h⟩) h
    rw [hj] at he
    exact (List.mem_append.mp he).imp_right (hes e)

/-- A write in the journal after a run was there before, or is one of its operations'. -/
theorem runOps_writes {env : Backing} {ops : List Op} {s t : StateDB}
    (h : runOps env ops s = .ok t) {w : KVWrite} (hw : .write w ∈ t.journal) :
    .write w ∈ s.journal ∨ ∃ op ∈ ops, op.MayWrite env w := by
  induction ops generalizing s with
  | nil =>
      cases h
      exact .inl hw
  | cons op ops ih =>
      simp only [runOps] at h
      split at h
      next r s' hop =>
        rcases ih h with hin | ⟨op', hmem, hop'⟩
        · exact (Op.exec_entry hop hin).imp_right fun hok => ⟨op, List.mem_cons_self, hok⟩
        · exact .inr ⟨op', List.mem_cons_of_mem _ hmem, hop'⟩
      next => cases h

end Execution

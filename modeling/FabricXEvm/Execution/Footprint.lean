import FabricXEvm.Execution.Journal

/-!
# What an operation reads

An operation depends on the store only through the keys whose reads it journals.  This is
`Comp.Local` for the footprint `journaled`, whose moves are those of `Extends` and whose
touched keys are the reads appended to the journal.  It is proved once for each operation,
along the operation's text.

The operations that are not local in this sense are `SetState`, which probes the store
without journaling a read, `SelfDestruct`, whose entry does not undo it, and `Prepare`,
`Snapshot` and `RevertToSnapshot`, which do not only append.
-/

namespace Execution

open Blocks

/-- Two backings that differ only in the records of their stores: what fails on one
fails on the other. -/
structure SameConfig (e₁ e₂ : Backing) : Prop where
  keccak : e₁.keccak = e₂.keccak
  ns : e₁.ns = e₂.ns
  monotonicVersions : e₁.monotonicVersions = e₂.monotonicVersions
  isOk : ∀ key, (e₁.store e₁.ns key).isOk = (e₂.store e₂.ns key).isOk

/-- Two backings whose stores return the same for a key. -/
def Agree (e₁ e₂ : Backing) (key : Bytes) : Prop :=
  e₁.store e₁.ns key = e₂.store e₂.ns key

namespace StateDB

/-- The journal reads a key between two states. -/
def Touched (s t : StateDB) (key : Bytes) : Prop :=
  ∃ r, .read r ∈ t.journal.drop s.journal.length ∧ r.key = key

theorem Touched.left {s t u : StateDB} {key : Bytes} (hst : s.journal <+: t.journal)
    (htu : t.journal <+: u.journal) (h : Touched s t key) : Touched s u key := by
  obtain ⟨es, hes⟩ := hst
  obtain ⟨fs, hfs⟩ := htu
  obtain ⟨r, hr, hk⟩ := h
  rw [← hes, List.drop_left] at hr
  refine ⟨r, ?_, hk⟩
  rw [← hfs, ← hes, List.append_assoc, List.drop_left]
  exact List.mem_append_left fs hr

theorem Touched.right {s t u : StateDB} {key : Bytes} (hst : s.journal <+: t.journal)
    (htu : t.journal <+: u.journal) (h : Touched t u key) : Touched s u key := by
  obtain ⟨es, hes⟩ := hst
  obtain ⟨fs, hfs⟩ := htu
  obtain ⟨r, hr, hk⟩ := h
  rw [← hfs, List.drop_left] at hr
  refine ⟨r, ?_, hk⟩
  rw [← hfs, ← hes, List.append_assoc, List.drop_left]
  exact List.mem_append_right es hr

theorem Extends.journal {s t : StateDB} (h : Extends s t) : s.journal <+: t.journal := by
  obtain ⟨es, hj, _⟩ := h.entries
  exact ⟨es, hj.symm⟩

/-- Moves that undo what they do, and read what they journal. -/
def journaled : Comp.Footprint Backing StateDB Bytes where
  le := Extends
  refl := Extends.refl
  trans := Extends.trans
  touched := Touched
  touched_left h h' := Touched.left h.journal h'.journal
  touched_right h h' := Touched.right h.journal h'.journal
  base := SameConfig
  agree := Agree

/-! ## Reading one key -/

theorem local_getStateFromJournal (key : Bytes) :
    Comp.Local journaled (getStateFromJournal key) := by
  refine .bind (.modify extends_reindex) fun _ => .bind .get fun s => ?_
  split
  next => exact .pure _
  next i =>
    split
    next w _ =>
      split
      next => exact .pure _
      next => exact .pure _
    next => exact .throw _

/-- The journal is looked up without the store. -/
theorem getStateFromJournal_env (key : Bytes) (e₁ e₂ : Backing) (s : StateDB) :
    getStateFromJournal key e₁ s = getStateFromJournal key e₂ s := by
  unfold getStateFromJournal
  rw [Comp.bind_run_ok rfl, Comp.bind_run_ok rfl, Comp.bind_run_ok rfl, Comp.bind_run_ok rfl]
  dsimp only
  cases (some (s.writeIdx.getD (buildIndex s.journal))).bind (· key) with
  | none => rfl
  | some i =>
      dsimp only
      cases s.journal[i]? with
      | none => rfl
      | some e =>
          cases e with
          | write w =>
              obtain ⟨k, isDelete, value⟩ := w
              cases isDelete <;> rfl
          | _ => rfl

theorem getStateFromStore_ok {env : Backing} {s : StateDB} {key : Bytes}
    {record : Option WriteRecord} (h : env.store env.ns key = .ok record) :
    getStateFromStore key env s =
      .ok (.ok (record.bind (·.value)), s.push (.read (readOf env.monotonicVersions key record))) := by
  unfold getStateFromStore
  rw [Comp.bind_run_ok rfl]
  simp only [h]
  rfl

theorem getStateFromStore_error {env : Backing} {s : StateDB} {key : Bytes} {err : StoreError}
    (h : env.store env.ns key = .error err) :
    getStateFromStore key env s = .ok (.error err, s) := by
  unfold getStateFromStore
  rw [Comp.bind_run_ok rfl]
  simp only [h]
  rfl

theorem touched_push_read (s : StateDB) (r : KVRead) : Touched s (s.push (.read r)) r.key :=
  ⟨r, by simp [push], rfl⟩

theorem readOf_key (monotonicVersions : Bool) (key : Bytes) (record : Option WriteRecord) :
    (readOf monotonicVersions key record).key = key := by
  unfold readOf
  split
  next => rfl
  next =>
    split
    next => rfl
    next => split <;> rfl

/-- The store may be read where the continuation does not depend on the text of an error:
every caller panics on an error, or, in `Exist`, takes it for an absent key. -/
theorem local_getStateFromStore_bind {α : Type} (key : Bytes)
    {f : Except StoreError (Option Bytes) → DB α} (hf : ∀ r, Comp.Local journaled (f r))
    (herr : ∀ err err' e s r, f (.error err) e s = .ok r → f (.error err') e s = .ok r) :
    Comp.Local journaled (getStateFromStore key >>= f) where
  moves {e s a s'} h := by
    cases hstore : e.store e.ns key with
    | error err =>
        rw [Comp.bind_run_ok (getStateFromStore_error hstore)] at h
        exact (hf _).moves h
    | ok record =>
        rw [Comp.bind_run_ok (getStateFromStore_ok hstore)] at h
        exact (extends_read _ s).trans ((hf _).moves h)
  transfer {e₁ e₂ s a s'} h hb hk := by
    have hok := hb.isOk key
    cases hstore : e₁.store e₁.ns key with
    | error err =>
        rw [hstore] at hok
        obtain ⟨err', hstore'⟩ : ∃ err', e₂.store e₂.ns key = .error err' := by
          cases h₂ : e₂.store e₂.ns key with
          | error err' => exact ⟨err', rfl⟩
          | ok record =>
              rw [h₂] at hok
              cases hok
        rw [Comp.bind_run_ok (getStateFromStore_error hstore)] at h
        rw [Comp.bind_run_ok (getStateFromStore_error hstore')]
        exact (hf _).transfer (herr err err' _ _ _ h) hb hk
    | ok record =>
        rw [Comp.bind_run_ok (getStateFromStore_ok hstore)] at h
        have hread := extends_read (readOf e₁.monotonicVersions key record) s
        have hrest := (hf _).moves h
        -- the key was read, so the second store has the same record
        have hagree : Agree e₁ e₂ key := by
          refine hk key (Touched.left hread.journal hrest.journal ?_)
          have := touched_push_read s (readOf e₁.monotonicVersions key record)
          rwa [readOf_key] at this
        rw [Comp.bind_run_ok (getStateFromStore_ok (hagree.symm.trans hstore)),
          ← hb.monotonicVersions]
        exact (hf _).transfer h hb fun k ht => hk k (Touched.right hread.journal hrest.journal ht)

theorem getState_bind {α : Type} (key : Bytes) (f : Except StoreError (Option Bytes) → DB α) :
    (getState key >>= f) = getStateFromJournal key >>= fun
      | some val => f (.ok val)
      | none => getStateFromStore key >>= f := by
  unfold getState
  rw [Comp.bind_assoc]
  congr 1
  funext val
  cases val <;> rfl

theorem local_getState_bind {α : Type} (key : Bytes)
    {f : Except StoreError (Option Bytes) → DB α} (hf : ∀ r, Comp.Local journaled (f r))
    (herr : ∀ err err' e s r, f (.error err) e s = .ok r → f (.error err') e s = .ok r) :
    Comp.Local journaled (getState key >>= f) := by
  rw [getState_bind]
  refine .bind (local_getStateFromJournal key) fun val => ?_
  cases val with
  | some val => exact hf _
  | none => exact local_getStateFromStore_bind key hf herr

/-! ## The operations -/

theorem balKey_congr {e₁ e₂ : Backing} (hb : SameConfig e₁ e₂) (a : Address) :
    balKey e₁ a = balKey e₂ a := by rw [balKey, hb.keccak, balKey]

theorem nonceKey_congr {e₁ e₂ : Backing} (hb : SameConfig e₁ e₂) (a : Address) :
    nonceKey e₁ a = nonceKey e₂ a := by rw [nonceKey, hb.keccak, nonceKey]

theorem codeKey_congr {e₁ e₂ : Backing} (hb : SameConfig e₁ e₂) (a : Address) :
    codeKey e₁ a = codeKey e₂ a := by rw [codeKey, hb.keccak, codeKey]

/-- Reading a key under a panic on errors. -/
theorem local_getState_or_panic {α : Type} (key : Bytes) (p : StoreError → Panic)
    {f : Option Bytes → DB α} (hf : ∀ val, Comp.Local journaled (f val)) :
    Comp.Local journaled (getState key >>= fun
      | .error err => Comp.throw (p err)
      | .ok val => f val) := by
  refine local_getState_bind key (fun r => ?_) fun err err' e s r h => ?_
  · cases r with
    | error err => exact .throw _
    | ok val => exact hf val
  · cases h

theorem local_createAccount (a : Address) : Comp.Local journaled (createAccount a) :=
  .ask_bind
    (fun _ => .bind (.modify (extends_putState _ _)) fun _ =>
      .bind (.modify (extends_putState _ _)) fun _ => .modify (extends_markNewContract a))
    fun _ _ hb => by rw [balKey_congr hb, nonceKey_congr hb]

theorem local_createContract (a : Address) : Comp.Local journaled (createContract a) :=
  .ask_bind
    (fun _ => .bind (.modify (extends_putState _ _)) fun _ => .modify (extends_markNewContract a))
    fun _ _ hb => by rw [codeKey_congr hb]

theorem local_getBalance (a : Address) : Comp.Local journaled (getBalance a) :=
  .ask_bind (fun _ => local_getState_or_panic _ _ fun _ => .pure _)
    fun _ _ hb => by rw [balKey_congr hb]

theorem local_addBalance (a : Address) (amount : BitVec 256) :
    Comp.Local journaled (addBalance a amount) := by
  unfold addBalance
  split
  next => exact .pure _
  next =>
    refine .bind (local_getBalance a) fun prev => .ask_bind (fun _ => ?_) fun _ _ hb => ?_
    · exact .bind (.modify (extends_putState _ _)) fun _ => .pure _
    · rw [balKey_congr hb]

theorem local_subBalance (a : Address) (amount : BitVec 256) :
    Comp.Local journaled (subBalance a amount) := by
  unfold subBalance
  split
  next => exact .pure _
  next =>
    refine .bind (local_getBalance a) fun prev => .ask_bind (fun _ => ?_) fun _ _ hb => ?_
    · exact .bind (.modify (extends_putState _ _)) fun _ => .pure _
    · rw [balKey_congr hb]

theorem local_getNonce (a : Address) : Comp.Local journaled (getNonce a) := by
  refine .ask_bind (fun _ => local_getState_or_panic _ _ fun val => ?_) fun _ _ hb => ?_
  · cases bytesToUint64 (val.getD []) with
    | some n => exact .pure n
    | none => exact .throw _
  · rw [nonceKey_congr hb]

theorem local_setNonce (a : Address) (nonce : UInt64) : Comp.Local journaled (setNonce a nonce) :=
  .ask_bind (fun _ => .modify (extends_putState _ _)) fun _ _ hb => by rw [nonceKey_congr hb]

theorem local_getCode (a : Address) : Comp.Local journaled (getCode a) :=
  .ask_bind (fun _ => local_getState_or_panic _ _ fun _ => .pure _)
    fun _ _ hb => by rw [codeKey_congr hb]

theorem local_getCodeSize (a : Address) : Comp.Local journaled (getCodeSize a) :=
  .bind (local_getCode a) fun _ => .pure _

theorem local_setCode (a : Address) (code : Bytes) : Comp.Local journaled (setCode a code) := by
  refine .bind (local_getCode a) fun prev => .ask_bind (fun _ => ?_) fun _ _ hb => ?_
  · exact .bind (.modify (extends_putState _ _)) fun _ => .pure _
  · rw [codeKey_congr hb]

theorem local_exist (a : Address) : Comp.Local journaled (exist a) := by
  refine .ask_bind (fun env => ?_) fun _ _ hb => ?_
  · refine local_getState_bind _ (fun bal => ?_) fun _ _ _ _ _ h => h
    split
    next => exact .pure _
    next =>
      refine local_getState_bind _ (fun nonce => ?_) fun _ _ _ _ _ h => h
      split
      next => exact .pure _
      next => exact local_getState_bind _ (fun _ => .pure _) fun _ _ _ _ _ h => h
  · rw [balKey_congr hb, nonceKey_congr hb, codeKey_congr hb]

theorem local_empty (a : Address) : Comp.Local journaled (empty a) := by
  refine .bind (local_getBalance a) fun balance => ?_
  split
  next => exact .pure _
  next =>
    refine .bind (local_getNonce a) fun nonce => ?_
    split
    next => exact .pure _
    next => exact .bind (local_getCodeSize a) fun _ => .pure _

theorem local_getCodeHash (a : Address) : Comp.Local journaled (getCodeHash a) := by
  refine .bind (local_exist a) fun found => ?_
  split
  next =>
    refine .bind (local_getCode a) fun code => .ask_bind (fun _ => .pure _) fun _ _ hb => ?_
    rw [hb.keccak]
  next => exact .pure _

theorem local_getStateSlot (a : Address) (slot : Hash) :
    Comp.Local journaled (getStateSlot a slot) :=
  .ask_bind (fun _ => local_getState_or_panic _ _ fun _ => .pure _)
    fun _ _ hb => by rw [hb.keccak]

theorem local_getStateAndCommittedState (a : Address) (slot : Hash) :
    Comp.Local journaled (getStateAndCommittedState a slot) := by
  refine .ask_bind (fun env => ?_) fun _ _ hb => ?_
  · refine .bind (local_getStateFromJournal _) fun currentVal => ?_
    refine local_getStateFromStore_bind _ (fun r => ?_) fun _ _ _ _ _ h => ?_
    · cases r with
      | error err => exact .throw _
      | ok committedVal =>
          cases currentVal with
          | some val => exact .pure _
          | none => exact .pure _
    · cases h
  · rw [hb.keccak]

theorem local_subRefund (gas : UInt64) : Comp.Local journaled (subRefund gas) := by
  refine .bind .get fun s => ?_
  split
  next => exact .throw _
  next => exact .modify fun t => extends_setRefund (t.refund - gas) t

/-! ## `SetState` -/

/-- The value the store gives for a key that the journal has no write of. -/
def probed (record : Option WriteRecord) : Hash :=
  match record with
  | none => 0
  | some record => if record.isDelete then 0 else wordOf record.value

/-- `previousState` looks at the store only when the journal has no write, and journals
nothing. -/
theorem previousState_run {key : Bytes} {env : Backing} {s t : StateDB}
    {val : Option (Option Bytes)} (h : getStateFromJournal key env s = .ok (val, t)) :
    previousState key env s =
      match val with
      | some prevVal => .ok (wordOf prevVal, t)
      | none =>
          match env.store env.ns key with
          | .error err => .error (.setStateFailed err)
          | .ok record => .ok (probed record, t) := by
  unfold previousState
  rw [Comp.bind_run_ok h]
  cases val with
  | some prevVal => rfl
  | none =>
      dsimp only
      rw [Comp.bind_run_ok rfl]
      cases env.store env.ns key with
      | error err => rfl
      | ok record =>
          cases record with
          | none => rfl
          | some record =>
              simp only [probed]
              split <;> rfl

theorem previousState_moves {key : Bytes} {env : Backing} {s t : StateDB} {prev : Hash}
    (h : previousState key env s = .ok (prev, t)) :
    ∃ val, getStateFromJournal key env s = .ok (val, t) := by
  obtain ⟨val, s', hval, _⟩ := Comp.of_bind_ok h
  refine ⟨val, hval.trans ?_⟩
  rw [previousState_run hval] at h
  split at h
  next =>
    cases h
    rfl
  next =>
    split at h
    next => cases h
    next =>
      cases h
      rfl

theorem setState_moves {a : Address} {slot value : Hash} {env : Backing} {s t : StateDB}
    {prev : Hash} (h : setState a slot value env s = .ok (prev, t)) : Extends s t := by
  unfold setState at h
  rw [Comp.bind_run_ok rfl] at h
  obtain ⟨prev', s', hprev, h⟩ := Comp.of_bind_ok h
  obtain ⟨val, hval⟩ := previousState_moves hprev
  cases h
  exact ((local_getStateFromJournal _).moves hval).trans (extends_putState _ _ s')

end StateDB

/-- The operations whose runs are moves of `journaled`. -/
def Op.IsLocal : Op → Prop
  | .setState _ _ _ | .selfDestruct _ | .prepare _ | .snapshot | .revertToSnapshot _ => False
  | _ => True

open StateDB in
theorem Op.local_exec {op : Op} (h : op.IsLocal) : Comp.Local journaled op.exec := by
  cases op with
  | createAccount a => exact .bind (local_createAccount a) fun _ => .pure _
  | createContract a => exact .bind (local_createContract a) fun _ => .pure _
  | getBalance a => exact .bind (local_getBalance a) fun _ => .pure _
  | addBalance a amount => exact .bind (local_addBalance a amount) fun _ => .pure _
  | subBalance a amount => exact .bind (local_subBalance a amount) fun _ => .pure _
  | getNonce a => exact .bind (local_getNonce a) fun _ => .pure _
  | setNonce a nonce => exact .bind (local_setNonce a nonce) fun _ => .pure _
  | getCode a => exact .bind (local_getCode a) fun _ => .pure _
  | getCodeHash a => exact .bind (local_getCodeHash a) fun _ => .pure _
  | getCodeSize a => exact .bind (local_getCodeSize a) fun _ => .pure _
  | setCode a code => exact .bind (local_setCode a code) fun _ => .pure _
  | getState a slot => exact .bind (local_getStateSlot a slot) fun _ => .pure _
  | getStateAndCommittedState a slot =>
      exact .bind (local_getStateAndCommittedState a slot) fun _ => .pure _
  | exist a => exact .bind (local_exist a) fun _ => .pure _
  | empty a => exact .bind (local_empty a) fun _ => .pure _
  | addRefund gas =>
      exact .bind (.modify fun s => extends_setRefund (s.refund + gas) s) fun _ => .pure _
  | subRefund gas => exact .bind (local_subRefund gas) fun _ => .pure _
  | addLog a topics data => exact .bind (.modify (extends_addLog a topics data)) fun _ => .pure _
  | setTransientState a k v =>
      exact .bind (.modify (extends_setTransientState a k v)) fun _ => .pure _
  | addAddressToAccessList a =>
      exact .bind (.modify (extends_addAddressToAccessList a)) fun _ => .pure _
  | addSlotToAccessList a slot =>
      exact .bind (.modify (extends_addSlotToAccessList a slot)) fun _ => .pure _
  | getStorageRoot a => exact .pure _
  | hasSelfDestructed a | isNewContract a | getRefund | getTransientState a k
  | addressInAccessList a | slotInAccessList a slot => exact .bind .get fun _ => .pure _
  | setState a slot v | selfDestruct a | prepare args | snapshot | revertToSnapshot revid =>
      exact h.elim

/-- What an operation can do to the state. -/
inductive Op.Moves : Op → StateDB → StateDB → Prop where
  | append {op : Op} {s t : StateDB} (hop : ∀ a, op ≠ .selfDestruct a) (h : s.Extends t) :
      Moves op s t
  | selfDestruct {a : Address} {s t : StateDB} (h : s.Extends t) :
      Moves (.selfDestruct a) s (t.markSelfDestructed a)
  | prepare {args : StateDB.PrepareArgs} {s : StateDB} : Moves (.prepare args) s (s.prepare args)
  | snapshot {s : StateDB} : Moves .snapshot s s.snapshot
  | revert {revid : Nat} {s : StateDB} :
      Moves (.revertToSnapshot revid) s (s.revertToSnapshot revid)

open StateDB in
theorem StateDB.selfDestruct_moves {a : Address} {env : Backing} {s t : StateDB}
    (h : selfDestruct a env s = .ok ((), t)) :
    ∃ s₁, Extends s s₁ ∧ t = markSelfDestructed a s₁ := by
  obtain ⟨prev, s', hbal, h⟩ := Comp.of_bind_ok h
  have hmove := (local_getBalance a).moves hbal
  rw [Comp.bind_run_ok rfl] at h
  dsimp only at h
  split at h
  next =>
    rw [Comp.bind_run_ok rfl] at h
    cases h
    exact ⟨_, hmove.trans (extends_putState _ _ s'), rfl⟩
  next =>
    cases h
    exact ⟨s', hmove, rfl⟩

open StateDB in
theorem Op.exec_moves {op : Op} {env : Backing} {s t : StateDB} {r : Ret}
    (h : op.exec env s = .ok (r, t)) : op.Moves s t := by
  by_cases hop : op.IsLocal
  · refine .append (fun a ha => ?_) ((local_exec hop).moves h)
    rw [ha] at hop
    exact hop
  · cases op with
    | setState a slot v =>
        obtain ⟨prev, t', hset, h⟩ := Comp.of_bind_ok h
        cases h
        exact .append (by simp) (setState_moves hset)
    | selfDestruct a =>
        obtain ⟨_, t', hsd, h⟩ := Comp.of_bind_ok h
        cases h
        obtain ⟨s₁, hs₁, rfl⟩ := selfDestruct_moves hsd
        exact .selfDestruct hs₁
    | prepare args =>
        cases h
        exact .prepare
    | snapshot =>
        cases h
        exact .snapshot
    | revertToSnapshot revid =>
        cases h
        exact .revert
    | _ => exact absurd trivial hop

end Execution

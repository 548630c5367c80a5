import FabricXEvm.Execution.Observe
import FabricXEvm.Execution.World

/-!
# What a StateDB shows of the world

A `StateDB` shows a world (`Shows`) when the values under its ledger keys, seen through the
journal, are the fields of the world's accounts, and when the rest of its state is the
world's.  Each operation on accounts, storage, logs and lists then returns what it returns on
the world and shows what the world has become.

Fields have different keys, so a write of one field is not seen at another.
-/

namespace Execution

open Blocks StateDB

/-! ## Fields -/

/-- The value under the key of a field encodes it. -/
def Accounts.Reads (accounts : Accounts) : Field → Option Bytes → Prop
  | .balance addr, val => val.map bytesToUint256 = accounts.balance addr
  | .nonce addr, val => val.map bytesToUint64 = (accounts.nonce addr).map some
  | .code addr, val => val = accounts.code addr
  | .slot addr slot, val => wordOf val = accounts.storage addr slot

/-- The ledger holds the accounts, and its deleted records carry no value. -/
structure Holds (env : Backing) (accounts : Accounts) : Prop where
  fields : ∀ f : Field, ∃ record, env.store env.ns (f.key env) = .ok record ∧
    accounts.Reads f (record.bind (·.value))
  tombstones : ∀ {key record}, env.store env.ns key = .ok (some record) →
    record.isDelete = true → record.value = none

theorem holds_noAccounts {env : Backing} (h : ∀ key, env.store env.ns key = .ok none) :
    Holds env noAccounts where
  fields f := by
    refine ⟨none, h _, ?_⟩
    cases f <;> rfl
  tombstones hrec := by
    cases (h _).symm.trans hrec

/-- The state shows the world. -/
structure Shows (env : Backing) (s : StateDB) (w : World) : Prop where
  index : IndexOk s
  fields : ∀ f : Field, ∃ val, value env s (f.key env) = .ok val ∧ w.Reads f val
  transient : ∀ a k, s.getTransientState a k = w.transient a k
  accessList : ∀ a slot, s.accessList.contains a slot = (w.warm a, w.warmSlot a slot)
  refund : s.refund = w.refund
  logs : s.logs = w.logs
  created : s.newContracts = w.created

theorem Holds.shows_new {env : Backing} {accounts : Accounts} (h : Holds env accounts) :
    Shows env .new (.start accounts) where
  index := indexOk_new
  fields f := by
    obtain ⟨record, hrec, hread⟩ := h.fields f
    refine ⟨_, ?_, hread⟩
    change (env.store env.ns (f.key env)).map _ = _
    rw [hrec]
    rfl
  transient _ _ := rfl
  accessList _ _ := rfl
  refund := rfl
  logs := rfl
  created := rfl

/-! ## Reading and writing one field -/

/-- Moves that touch the journal and its index only. -/
def quiet : Comp.Motion StateDB where
  rel s t := ∃ writeIdx journal, t = { s with writeIdx, journal }
  refl s := ⟨s.writeIdx, s.journal, rfl⟩
  trans h h' := by
    obtain ⟨i, j, rfl⟩ := h
    obtain ⟨i', j', rfl⟩ := h'
    exact ⟨i', j', rfl⟩

section Moves

variable {env : Backing}

theorem quiet_getStateFromJournal (key : Bytes) :
    Comp.Moves quiet env (getStateFromJournal key) := by
  refine .bind (.modify fun s => ⟨_, _, rfl⟩) fun _ => .bind .get fun s => ?_
  split
  next => exact .pure _
  next i =>
    split
    next w _ =>
      split
      next => exact .pure _
      next => exact .pure _
    next => exact .throw _

theorem quiet_getStateFromStore (key : Bytes) : Comp.Moves quiet env (getStateFromStore key) := by
  refine .ask_bind ?_
  cases env.store env.ns key with
  | error err => exact .pure _
  | ok record => exact .bind (.modify fun s => ⟨_, _, rfl⟩) fun _ => .pure _

theorem quiet_getState (key : Bytes) : Comp.Moves quiet env (getState key) := by
  refine .bind (quiet_getStateFromJournal key) fun val => ?_
  cases val with
  | some val => exact .pure _
  | none => exact quiet_getStateFromStore key

end Moves

section Fields

variable {env : Backing} {s t : StateDB} {w : World}

/-- A quiet move changes at most the accounts. -/
theorem Shows.of_quiet (h : Shows env s w) (hq : quiet.rel s t) (hidx : IndexOk t)
    {accounts : Accounts}
    (hf : ∀ f : Field, ∃ val, value env t (f.key env) = .ok val ∧ accounts.Reads f val) :
    Shows env t { w with toAccounts := accounts } := by
  obtain ⟨i, j, rfl⟩ := hq
  exact ⟨hidx, hf, h.transient, h.accessList, h.refund, h.logs, h.created⟩

/-- A quiet move without writes changes nothing. -/
theorem Shows.of_sameWrites (h : Shows env s w) (hq : quiet.rel s t) (hw : SameWrites s t) :
    Shows env t w := by
  refine h.of_quiet hq hw.index fun f => ?_
  rw [hw.value_eq]
  exact h.fields f

/-- Entries that are not writes. -/
theorem Shows.fields_append (h : Shows env s w) {es : List JournalEntry}
    (he : ∀ w, .write w ∉ es) (hj : t.journal = s.journal ++ es) (f : Field) :
    ∃ val, value env t (f.key env) = .ok val ∧ w.Reads f val := by
  obtain ⟨val, hval, hread⟩ := h.fields f
  refine ⟨val, ?_, hread⟩
  rw [← hval]
  unfold value
  rw [hj, lastWrite_append_others _ _ he]

theorem visible_writeOf (key val : Bytes) :
    visible (writeOf key val) = if val = [] then none else some val := by
  unfold writeOf
  split <;> rfl

theorem value_putState (key val k : Bytes) :
    value env (putState key val s) k =
      if k = key then .ok (if val = [] then none else some val) else value env s k := by
  unfold value
  rw [show (putState key val s).journal = s.journal ++ [.write (writeOf key val)] from rfl,
    lastWrite_append_write, writeOf_key]
  by_cases hk : k = key
  · rw [if_pos hk.symm, if_pos hk]
    exact congrArg Except.ok (visible_writeOf key val)
  · rw [if_neg (Ne.symm hk), if_neg hk]

/-- A write of one field. -/
theorem Shows.put (h : Shows env s w) (f : Field) {val : Bytes} {accounts : Accounts}
    (hf : accounts.Reads f (if val = [] then none else some val))
    (hg : ∀ g, g ≠ f → ∀ old, w.Reads g old → accounts.Reads g old) :
    Shows env (putState (f.key env) val s) { w with toAccounts := accounts } := by
  have hq : quiet.rel s (putState (f.key env) val s) := ⟨_, _, rfl⟩
  refine h.of_quiet hq ((extends_putState _ _ s).index h.index) fun g => ?_
  rw [value_putState]
  by_cases hgf : g = f
  · rw [if_pos (congrArg (Field.key env) hgf)]
    exact ⟨_, rfl, hgf ▸ hf⟩
  · rw [if_neg fun hk => hgf (Field.key_inj hk)]
    obtain ⟨old, hold, hread⟩ := h.fields g
    exact ⟨old, hold, hg g hgf old hread⟩

/-- A computation that starts by reading a field. -/
theorem sim_getState_bind {α : Type} (f : Field) {g : Except StoreError (Option Bytes) → DB α}
    {a : α} {w' : World}
    (hg : ∀ val, w.Reads f val → Comp.Sim (Shows env) env (g (.ok val)) w a w') :
    Comp.Sim (Shows env) env (getState (f.key env) >>= g) w a w' := by
  intro s hs
  obtain ⟨val, hval, hread⟩ := hs.fields f
  obtain ⟨t, hrun, hw⟩ := getState_run hs.index env (f.key env)
  rw [hval] at hrun
  rw [Comp.bind_run_ok hrun]
  exact hg val hread (hs.of_sameWrites (quiet_getState _ hrun) hw)

end Fields

/-! ## Accounts -/

section Accounts

variable {env : Backing} {w : World}

theorem uint256ToBytes_eq_nil {v : BitVec 256} : uint256ToBytes v = [] ↔ v = 0 := by
  constructor
  · intro h
    rw [← bytesToUint256_uint256ToBytes v, h]
    rfl
  · rintro rfl
    rfl

theorem sim_putBalance (a : Address) (v : BitVec 256) :
    Comp.Sim (Shows env) env (Comp.modify (putState (balKey env a) (uint256ToBytes v)) : DB Unit)
      w () (w.setBalance a v) := by
  refine .modify fun s hs => hs.put (.balance a) ?_ fun g hg old hold => ?_
  · simp only [Accounts.Reads, uint256ToBytes_eq_nil, Function.update_self]
    split <;> simp
  · cases g with
    | balance b => simpa [Accounts.Reads, Function.update_of_ne (fun h => hg (h ▸ rfl) : b ≠ a)] using hold
    | _ => exact hold

theorem sim_putNonce (a : Address) (nonce : UInt64) :
    Comp.Sim (Shows env) env (Comp.modify (putState (nonceKey env a) (uint64ToBytes nonce)) : DB Unit)
      w () (w.setNonce a nonce) := by
  refine .modify fun s hs => hs.put (.nonce a) ?_ fun g hg old hold => ?_
  · simp [Accounts.Reads, uint64ToBytes_ne_nil]
  · cases g with
    | nonce b => simpa [Accounts.Reads, Function.update_of_ne (fun h => hg (h ▸ rfl) : b ≠ a)] using hold
    | _ => exact hold

theorem sim_putCode (a : Address) (code : Bytes) :
    Comp.Sim (Shows env) env (Comp.modify (putState (codeKey env a) code) : DB Unit)
      w () (w.setCode a code) := by
  refine .modify fun s hs => hs.put (.code a) ?_ fun g hg old hold => ?_
  · simp [Accounts.Reads]
  · cases g with
    | code b => simpa [Accounts.Reads, Function.update_of_ne (fun h => hg (h ▸ rfl) : b ≠ a)] using hold
    | _ => exact hold

theorem sim_markNewContract (a : Address) :
    Comp.Sim (Shows env) env (Comp.modify (markNewContract a) : DB Unit) w () (w.create a) := by
  refine .modify fun s hs => ?_
  have hidx := (extends_markNewContract a s).index hs.index
  unfold markNewContract at hidx ⊢
  split
  next ha =>
    refine { hs with created := ?_ }
    rw [hs.created] at ha ⊢
    exact (Finset.insert_eq_of_mem ha).symm
  next ha =>
    rw [if_neg ha] at hidx
    exact { hs with
      index := hidx
      fields := hs.fields_append (by simp) rfl
      created := congrArg (insert a) hs.created }

theorem sim_createAccount (a : Address) : Comp.Sim (Shows env) env (createAccount a) w ()
    (((w.setBalance a 0).setNonce a 0).create a) :=
  .ask_bind (.bind (sim_putBalance a 0) (.bind (sim_putNonce a 0) (sim_markNewContract a)))

theorem sim_createContract (a : Address) :
    Comp.Sim (Shows env) env (createContract a) w () ((w.setCode a []).create a) :=
  .ask_bind (.bind (sim_putCode a []) (sim_markNewContract a))

theorem sim_getBalance (a : Address) :
    Comp.Sim (Shows env) env (getBalance a) w (w.balanceOf a) w := by
  refine .ask_bind (sim_getState_bind (.balance a) fun val hval => ?_)
  have hbal : bytesToUint256 (val.getD []) = w.balanceOf a := by
    rw [World.balanceOf, ← hval]
    cases val <;> rfl
  rw [← hbal]
  exact .pure _

theorem sim_addBalance (a : Address) {amount : BitVec 256} (h : amount ≠ 0) :
    Comp.Sim (Shows env) env (addBalance a amount) w (w.balanceOf a)
      (w.setBalance a (w.balanceOf a + amount)) := by
  unfold addBalance
  rw [if_neg h]
  exact .bind (sim_getBalance a) (.ask_bind (.bind (sim_putBalance a _) (.pure _)))

theorem sim_subBalance (a : Address) {amount : BitVec 256} (h : amount ≠ 0) :
    Comp.Sim (Shows env) env (subBalance a amount) w (w.balanceOf a)
      (w.setBalance a (w.balanceOf a - amount)) := by
  unfold subBalance
  rw [if_neg h]
  exact .bind (sim_getBalance a) (.ask_bind (.bind (sim_putBalance a _) (.pure _)))

theorem sim_getNonce (a : Address) : Comp.Sim (Shows env) env (getNonce a) w (w.nonceOf a) w := by
  refine .ask_bind (sim_getState_bind (.nonce a) fun val hval => ?_)
  have hnonce : bytesToUint64 (val.getD []) = some (w.nonceOf a) := by
    rw [World.nonceOf]
    cases hn : w.nonce a with
    | none =>
        rw [Accounts.Reads, hn, Option.map_none, Option.map_eq_none_iff] at hval
        rw [hval]
        rfl
    | some n =>
        rw [Accounts.Reads, hn, Option.map_some, Option.map_eq_some_iff] at hval
        obtain ⟨b, rfl, hb⟩ := hval
        exact hb
  dsimp only
  rw [hnonce]
  exact .pure _

theorem sim_setNonce (a : Address) (nonce : UInt64) :
    Comp.Sim (Shows env) env (setNonce a nonce) w () (w.setNonce a nonce) :=
  .ask_bind (sim_putNonce a nonce)

theorem sim_getCode (a : Address) : Comp.Sim (Shows env) env (getCode a) w (w.code a) w := by
  refine .ask_bind (sim_getState_bind (.code a) fun val hval => ?_)
  have hcode : val = w.code a := hval
  rw [hcode]
  exact .pure _

theorem sim_getCodeSize (a : Address) :
    Comp.Sim (Shows env) env (getCodeSize a) w (w.codeOf a).length w :=
  .bind (sim_getCode a) (.pure _)

theorem sim_setCode (a : Address) (code : Bytes) :
    Comp.Sim (Shows env) env (setCode a code) w (w.code a) (w.setCode a code) :=
  .bind (sim_getCode a) (.ask_bind (.bind (sim_putCode a code) (.pure _)))

/-- A field is present in the state when it is in the world. -/
theorem present_of_reads {val : Option Bytes} (a : Address) :
    (w.Reads (.balance a) val → present (.ok val) = (w.balance a).isSome) ∧
      (w.Reads (.nonce a) val → present (.ok val) = (w.nonce a).isSome) ∧
      (w.Reads (.code a) val → present (.ok val) = (w.code a).isSome) := by
  have hsome : present (.ok val) = val.isSome := by cases val <;> rfl
  rw [hsome]
  refine ⟨fun h => ?_, fun h => ?_, fun h => ?_⟩
  · rw [← h, Option.isSome_map]
  · rw [← Option.isSome_map (f := bytesToUint64), h, Option.isSome_map]
  · rw [show val = w.code a from h]

theorem sim_exist (a : Address) : Comp.Sim (Shows env) env (exist a) w (w.present a) w := by
  refine .ask_bind (sim_getState_bind (.balance a) fun bal hbal => ?_)
  rw [World.present, (present_of_reads a).1 hbal]
  cases (w.balance a).isSome with
  | true => exact .pure _
  | false =>
      refine sim_getState_bind (.nonce a) fun nonce hnonce => ?_
      rw [(present_of_reads a).2.1 hnonce]
      cases (w.nonce a).isSome with
      | true => exact .pure _
      | false =>
          refine sim_getState_bind (.code a) fun code hcode => ?_
          rw [(present_of_reads a).2.2 hcode]
          exact .pure _

theorem sim_empty (a : Address) : Comp.Sim (Shows env) env (empty a) w (w.isEmpty a) w := by
  refine .bind (sim_getBalance a) ?_
  unfold World.isEmpty
  by_cases hbal : w.balanceOf a = 0
  · rw [if_neg (not_not.mpr hbal), beq_iff_eq.mpr hbal]
    refine .bind (sim_getNonce a) ?_
    by_cases hnonce : w.nonceOf a = 0
    · rw [if_neg (by simp [hnonce]), beq_iff_eq.mpr hnonce]
      exact .bind (sim_getCodeSize a) (.pure _)
    · rw [if_pos (UInt64.pos_iff_ne_zero.mpr hnonce), beq_eq_false_iff_ne.mpr hnonce]
      exact .pure _
  · rw [if_pos hbal, beq_eq_false_iff_ne.mpr hbal]
    exact .pure _

theorem sim_getCodeHash (a : Address) : Comp.Sim (Shows env) env (getCodeHash a) w
    (if w.present a then env.keccak (w.codeOf a) else 0) w := by
  refine .bind (sim_exist a) ?_
  split
  next => exact .bind (sim_getCode a) (.ask_bind (.pure _))
  next => exact .pure _

theorem sim_selfDestruct (a : Address) : Comp.Sim (Shows env) env (selfDestruct a) w ()
    (if w.balanceOf a = 0 then w else w.setBalance a 0) := by
  -- the mark is not part of the world
  have hmark : ∀ v : World, Comp.Sim (Shows env) env
      (Comp.modify (markSelfDestructed a) : DB Unit) v () v := by
    intro v
    refine .modify fun s hs => ?_
    unfold markSelfDestructed
    split
    next =>
      refine { hs with index := fun idx hi => ?_, fields := hs.fields_append (by simp) rfl }
      rw [hs.index idx hi]
      exact (buildIndex_append_others s.journal (by simp)).symm
    next => exact hs
  refine .bind (sim_getBalance a) (.ask_bind ?_)
  by_cases hbal : w.balanceOf a = 0
  · rw [if_neg (not_not.mpr hbal), if_pos hbal]
    exact hmark w
  · rw [if_pos hbal, if_neg hbal]
    exact .bind (sim_putBalance a 0) (hmark _)

end Accounts

/-! ## Storage -/

section Storage

variable {env : Backing} {base : Accounts} {w : World}

theorem sim_getStateSlot (a : Address) (slot : Hash) :
    Comp.Sim (Shows env) env (getStateSlot a slot) w (w.storage a slot) w := by
  refine .ask_bind (sim_getState_bind (.slot a slot) fun val hval => ?_)
  rw [← show wordOf val = w.storage a slot from hval]
  exact .pure _

/-- The journal's value of a field, and the store's where the journal has none. -/
theorem Shows.journal_cases {s : StateDB} (h : Shows env s w) (f : Field) :
    ∃ t, Shows env t w ∧
      ((∃ val, getStateFromJournal (f.key env) env s = .ok (some val, t) ∧ w.Reads f val) ∨
        ∃ record, getStateFromJournal (f.key env) env s = .ok (none, t) ∧
          env.store env.ns (f.key env) = .ok record ∧ w.Reads f (record.bind (·.value))) := by
  obtain ⟨val, hval, hread⟩ := h.fields f
  have hj : getStateFromJournal (f.key env) env s = _ := getStateFromJournal_run h.index _
  have hw : SameWrites s { s with writeIdx := some (buildIndex s.journal) } :=
    ⟨fun idx hi => by cases hi; rfl, rfl⟩
  refine ⟨_, h.of_sameWrites (quiet_getStateFromJournal _ hj) hw, ?_⟩
  rw [hj]
  unfold value at hval
  cases hlast : lastWrite s.journal (f.key env) with
  | some write =>
      rw [hlast] at hval
      cases hval
      exact .inl ⟨_, rfl, hread⟩
  | none =>
      rw [hlast] at hval
      cases hstore : env.store env.ns (f.key env) with
      | error err =>
          rw [hstore] at hval
          cases hval
      | ok record =>
          rw [hstore] at hval
          cases hval
          exact .inr ⟨record, rfl, rfl, hread⟩

theorem sim_getStateAndCommittedState (hbase : Holds env base) (a : Address) (slot : Hash) :
    Comp.Sim (Shows env) env (getStateAndCommittedState a slot) w
      (w.storage a slot, base.storage a slot) w := by
  refine .ask_bind fun s hs => ?_
  obtain ⟨committed, hstore, hcommitted⟩ := hbase.fields (.slot a slot)
  obtain ⟨t, ht, hcases⟩ := hs.journal_cases (.slot a slot)
  have hread := getStateFromStore_ok (s := t) hstore
  have hw : ∀ r, SameWrites t (t.push (.read r)) := fun r =>
    ⟨(extends_read r t).index ht.index, funext fun k => lastWrite_append_other _ k (by simp)⟩
  refine ⟨_, ?_, ht.of_sameWrites (quiet_getStateFromStore _ hread) (hw _)⟩
  have hword : wordOf (committed.bind (·.value)) = base.storage a slot := hcommitted
  rcases hcases with ⟨val, hj, hval⟩ | ⟨record, hj, hrec, hval⟩
  · refine (Comp.bind_run_ok hj).trans ((Comp.bind_run_ok hread).trans ?_)
    rw [← hword, ← show wordOf val = w.storage a slot from hval]
    rfl
  · cases hstore.symm.trans hrec
    refine (Comp.bind_run_ok hj).trans ((Comp.bind_run_ok hread).trans ?_)
    rw [← hword, ← show wordOf (committed.bind (·.value)) = w.storage a slot from hval]
    rfl

/-- A deleted record is one without a value. -/
theorem Holds.probed_eq (hbase : Holds env base) {key : Bytes} {record : Option WriteRecord}
    (h : env.store env.ns key = .ok record) : probed record = wordOf (record.bind (·.value)) := by
  cases record with
  | none => rfl
  | some record =>
      unfold probed
      dsimp only [Option.bind_some]
      split
      next hdel =>
        rw [hbase.tombstones h hdel]
        rfl
      next => rfl

theorem sim_previousState (hbase : Holds env base) (a : Address) (slot : Hash) :
    Comp.Sim (Shows env) env (previousState (storeKey env.keccak a slot)) w (w.storage a slot) w := by
  intro s hs
  obtain ⟨t, ht, ⟨val, hj, hval⟩ | ⟨record, hj, hrec, hval⟩⟩ := hs.journal_cases (.slot a slot)
  · refine ⟨t, (previousState_run hj).trans ?_, ht⟩
    exact congrArg (fun v => Except.ok (v, t)) hval
  · refine ⟨t, (previousState_run hj).trans ?_, ht⟩
    dsimp only
    rw [hrec]
    dsimp only
    rw [hbase.probed_eq hrec]
    exact congrArg (fun v => Except.ok (v, t)) hval

theorem sim_setState (hbase : Holds env base) (a : Address) (slot value : Hash) :
    Comp.Sim (Shows env) env (setState a slot value) w (w.storage a slot)
      (w.setStorage a slot value) := by
  refine .ask_bind (.bind (sim_previousState hbase a slot) (.bind (.modify fun s hs => ?_) (.pure _)))
  refine hs.put (.slot a slot) ?_ fun g hg old hold => ?_
  · simp only [Accounts.Reads, Function.update_self]
    by_cases hv : value = 0
    · rw [if_pos hv, hv]
      rfl
    · have hbytes : value.bytes ≠ [] := List.ne_nil_of_length_pos (by rw [Hash.length_bytes]; omega)
      rw [if_neg hv, if_neg hbytes, wordOf]
      simp [hbytes]
  · cases g with
    | slot b r =>
        by_cases hb : b = a
        · subst hb
          have hr : r ≠ slot := fun h => hg (h ▸ rfl)
          simpa [Accounts.Reads, Function.update_of_ne hr] using hold
        · simpa [Accounts.Reads, Function.update_of_ne hb] using hold
    | _ => exact hold

end Storage

/-! ## What belongs to the transaction alone -/

section Transaction

variable {env : Backing} {base : Accounts} {w : World}

theorem Shows.setRefund {s : StateDB} (h : Shows env s w) (gas : UInt64) :
    Shows env { s with journal := s.journal ++ [.refund s.refund], refund := gas }
      { w with refund := gas } :=
  { h with
    index := (extends_setRefund gas s).index h.index
    fields := h.fields_append (by simp) rfl
    refund := rfl }

theorem sim_subRefund {gas : UInt64} (h : ¬ w.refund < gas) :
    Comp.Sim (Shows env) env (subRefund gas) w () { w with refund := w.refund - gas } := by
  refine .get_bind fun s hs => ?_
  rw [hs.refund, if_neg h, ← hs.refund]
  exact ⟨_, rfl, hs.setRefund (s.refund - gas)⟩

theorem sim_addLog (address : Address) (topics : List Hash) (data : Bytes) :
    Comp.Sim (Shows env) env (Comp.modify (addLog address topics data) : DB Unit) w ()
      { w with logs := w.logs ++ [⟨address.bytes, topics.map Hash.bytes, data⟩] } :=
  .modify fun _ hs => { hs with logs := congrArg (· ++ _) hs.logs }

theorem Shows.setTransientState {s : StateDB} (h : Shows env s w) (a : Address) (k v : Hash) :
    Shows env (setTransientState a k v s) (w.setTransient a k v) :=
  { h with
    index := (extends_setTransientState a k v s).index h.index
    fields := h.fields_append (by simp) rfl
    transient := fun b l => by
      rw [StateDB.setTransientState, getTransientState_putTransient]
      change (if b = a ∧ l = k then v else s.getTransientState b l) = _
      rw [h.transient, World.setTransient]
      by_cases hb : b = a
      · subst hb
        by_cases hl : l = k
        · subst hl
          simp
        · simp [hl]
      · simp [hb] }

theorem Shows.addAddressToAccessList {s : StateDB} (h : Shows env s w) (a : Address) :
    Shows env (addAddressToAccessList a s) (w.warmUp a) := by
  have hidx := (extends_addAddressToAccessList a s).index h.index
  unfold StateDB.addAddressToAccessList at hidx ⊢
  split
  next ha =>
    refine { h with accessList := fun b slot => ?_ }
    rw [h.accessList, World.warmUp]
    rw [AccessList.containsAddress_eq _ a slot, h.accessList] at ha
    by_cases hb : b = a
    · subst hb
      simpa using ha
    · simp [hb]
  next ha =>
    rw [if_neg ha] at hidx
    refine { h with index := hidx, fields := h.fields_append (by simp) rfl, accessList := fun b slot => ?_ }
    rw [AccessList.contains_addAddress, h.accessList, h.accessList, World.warmUp]
    by_cases hb : b = a
    · subst hb
      simp
    · simp [hb]

theorem Shows.addSlotToAccessList {s : StateDB} (h : Shows env s w) (a : Address) (r : Hash) :
    Shows env (StateDB.addSlotToAccessList a r s) (w.warmUpSlot a r) := by
  have hidx := (extends_addSlotToAccessList a r s).index h.index
  have hseen := h.accessList a r
  unfold StateDB.addSlotToAccessList at hidx ⊢
  dsimp only at hidx ⊢
  split
  next hboth =>
    -- both were there already
    rw [hseen, Bool.and_eq_true] at hboth
    refine { h with accessList := fun b slot => ?_ }
    rw [h.accessList, World.warmUpSlot, World.warmUp]
    by_cases hb : b = a
    · subst hb
      by_cases hs : slot = r
      · subst hs
        simpa using hboth
      · simpa [hs] using hboth.1
    · simp [hb]
  next hboth =>
    rw [if_neg hboth] at hidx
    have hother : ∀ w, .write w ∉ (if (s.accessList.contains a r).1 = true then
        [JournalEntry.accessListAddSlot a r]
        else [.accessListAddAddress a, .accessListAddSlot a r]) := by
      intro w
      split <;> simp
    refine { h with index := hidx, fields := h.fields_append hother rfl, accessList := fun b slot => ?_ }
    rw [AccessList.contains_addSlot, h.accessList, h.accessList, World.warmUpSlot, World.warmUp]
    by_cases hb : b = a
    · subst hb
      by_cases hs : slot = r
      · subst hs
        simp
      · simp [hs]
    · simp [hb]

end Transaction

/-! ## Every operation -/

/-- An operation that the world defines returns the same on every state that shows it, and
leaves a state that shows what the world becomes. -/
theorem World.sim_exec {env : Backing} {base : Accounts} (hbase : Holds env base) {w w' : World}
    {op : Op} {r : Ret} (h : w.exec env.keccak base op = some (r, w')) :
    Comp.Sim (Shows env) env op.exec w r w' := by
  cases op with
  | createAccount a =>
      cases h
      exact .bind (sim_createAccount a) (.pure _)
  | createContract a =>
      cases h
      exact .bind (sim_createContract a) (.pure _)
  | getBalance a =>
      cases h
      exact .bind (sim_getBalance a) (.pure _)
  | addBalance a amount =>
      simp only [World.exec] at h
      split at h
      next h0 =>
        cases h
        rw [h0]
        exact .pure _
      next h0 =>
        cases h
        exact .bind (sim_addBalance a h0) (.pure _)
  | subBalance a amount =>
      simp only [World.exec] at h
      split at h
      next h0 =>
        cases h
        rw [h0]
        exact .pure _
      next h0 =>
        cases h
        exact .bind (sim_subBalance a h0) (.pure _)
  | getNonce a =>
      cases h
      exact .bind (sim_getNonce a) (.pure _)
  | setNonce a nonce =>
      cases h
      exact .bind (sim_setNonce a nonce) (.pure _)
  | getCode a =>
      cases h
      exact .bind (sim_getCode a) (.pure _)
  | getCodeHash a =>
      cases h
      exact .bind (sim_getCodeHash a) (.pure _)
  | getCodeSize a =>
      cases h
      exact .bind (sim_getCodeSize a) (.pure _)
  | setCode a code =>
      cases h
      exact .bind (sim_setCode a code) (.pure _)
  | getState a slot =>
      cases h
      exact .bind (sim_getStateSlot a slot) (.pure _)
  | getStateAndCommittedState a slot =>
      cases h
      exact .bind (sim_getStateAndCommittedState hbase a slot) (.pure _)
  | setState a slot value =>
      cases h
      exact .bind (sim_setState hbase a slot value) (.pure _)
  | getStorageRoot a =>
      cases h
      exact .pure _
  | selfDestruct a =>
      cases h
      exact .bind (sim_selfDestruct a) (.pure _)
  | isNewContract a =>
      cases h
      refine .get_bind fun s hs => ⟨s, ?_, hs⟩
      rw [StateDB.isNewContract, hs.created]
      rfl
  | exist a =>
      cases h
      exact .bind (sim_exist a) (.pure _)
  | empty a =>
      cases h
      exact .bind (sim_empty a) (.pure _)
  | getRefund =>
      cases h
      refine .get_bind fun s hs => ⟨s, ?_, hs⟩
      rw [hs.refund]
      rfl
  | addRefund gas =>
      cases h
      refine .bind (.modify fun s hs => ?_) (.pure _)
      rw [← hs.refund]
      exact hs.setRefund _
  | subRefund gas =>
      simp only [World.exec] at h
      split at h
      next => cases h
      next hle =>
        cases h
        exact .bind (sim_subRefund hle) (.pure _)
  | addLog address topics data =>
      cases h
      exact .bind (sim_addLog address topics data) (.pure _)
  | getTransientState a k =>
      cases h
      refine .get_bind fun s hs => ⟨s, ?_, hs⟩
      rw [hs.transient]
      rfl
  | setTransientState a k v =>
      cases h
      exact .bind (.modify fun s hs => hs.setTransientState a k v) (.pure _)
  | addressInAccessList a =>
      cases h
      refine .get_bind fun s hs => ⟨s, ?_, hs⟩
      rw [StateDB.addressInAccessList, AccessList.containsAddress_eq _ a 0, hs.accessList]
      rfl
  | slotInAccessList a slot =>
      cases h
      refine .get_bind fun s hs => ⟨s, ?_, hs⟩
      rw [StateDB.slotInAccessList, hs.accessList]
      rfl
  | addAddressToAccessList a =>
      cases h
      exact .bind (.modify fun s hs => hs.addAddressToAccessList a) (.pure _)
  | addSlotToAccessList a slot =>
      cases h
      exact .bind (.modify fun s hs => hs.addSlotToAccessList a slot) (.pure _)
  | hasSelfDestructed a | prepare args | snapshot | revertToSnapshot revid => cases h

end Execution

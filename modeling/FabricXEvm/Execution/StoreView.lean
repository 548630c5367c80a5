import FabricXEvm.Execution.ReadSet

/-!
# What a StateDB sees of its store

A `StateDB` sees three things of a record: its value, the version that a read of it journals,
and the previous value that `SetState` returns for it.  Two stores that show the same for
every key are not told apart by any operation, nor by any caller: their runs are equal, step
by step and in what they end with.

Stores that keep different records can show the same.  A key that was deleted looks like one
that was never written, and with monotonic versions the block of a write is not looked at.  And
no operation asks for a key longer than that of a slot (`longestKey`).
-/

namespace Execution

open Blocks

/-- What a `StateDB` sees of the record of a key. -/
@[ext]
structure View where
  value : Option Bytes
  version : Option Version
  previous : Hash

def View.of (monotonicVersions : Bool) (record : Option WriteRecord) : View where
  value := record.bind (·.value)
  version := (StateDB.readOf monotonicVersions [] record).version
  previous := StateDB.probed record

/-- The length of the key of a slot. -/
def longestKey : Nat := 113

/-- Two backings whose stores show the same for every key that a `StateDB` asks for, also where
they fail. -/
structure SameView (e₁ e₂ : Backing) : Prop where
  keccak : e₁.keccak = e₂.keccak
  ns : e₁.ns = e₂.ns
  monotonicVersions : e₁.monotonicVersions = e₂.monotonicVersions
  store : ∀ key, key.length ≤ longestKey →
    (e₁.store e₁.ns key).map (View.of e₁.monotonicVersions) =
      (e₂.store e₂.ns key).map (View.of e₂.monotonicVersions)

variable {e₁ e₂ : Backing}

/-- Both stores fail alike, or have records that look the same. -/
theorem SameView.cases (h : SameView e₁ e₂) {key : Bytes} (hkey : key.length ≤ longestKey) :
    (∃ err, e₁.store e₁.ns key = .error err ∧ e₂.store e₂.ns key = .error err) ∨
      ∃ r₁ r₂, e₁.store e₁.ns key = .ok r₁ ∧ e₂.store e₂.ns key = .ok r₂ ∧
        View.of e₁.monotonicVersions r₁ = View.of e₂.monotonicVersions r₂ := by
  have hview := h.store key hkey
  cases h₁ : e₁.store e₁.ns key with
  | error err =>
      cases h₂ : e₂.store e₂.ns key with
      | error err' =>
          rw [h₁, h₂] at hview
          cases hview
          exact .inl ⟨err, rfl, rfl⟩
      | ok r₂ =>
          rw [h₁, h₂] at hview
          cases hview
  | ok r₁ =>
      cases h₂ : e₂.store e₂.ns key with
      | error err =>
          rw [h₁, h₂] at hview
          cases hview
      | ok r₂ =>
          rw [h₁, h₂] at hview
          exact .inr ⟨r₁, r₂, rfl, rfl, Except.ok.inj hview⟩

namespace StateDB

/-- The read of a key carries the version that the store shows. -/
theorem readOf_eq (monotonicVersions : Bool) (key : Bytes) (record : Option WriteRecord) :
    readOf monotonicVersions key record =
      { key, version := (View.of monotonicVersions record).version } := by
  unfold View.of readOf
  cases record with
  | none => rfl
  | some record =>
      dsimp only
      split
      next => rfl
      next => split <;> rfl

/-! ## Reading one key -/

theorem same_getStateFromJournal (key : Bytes) : Comp.Same e₁ e₂ (getStateFromJournal key) :=
  getStateFromJournal_env key e₁ e₂

theorem same_getStateFromStore (h : SameView e₁ e₂) {key : Bytes}
    (hkey : key.length ≤ longestKey) : Comp.Same e₁ e₂ (getStateFromStore key) := by
  intro s
  rcases h.cases hkey with ⟨err, h₁, h₂⟩ | ⟨r₁, r₂, h₁, h₂, hview⟩
  · rw [getStateFromStore_error h₁, getStateFromStore_error h₂]
  · have hvalue : r₁.bind (·.value) = r₂.bind (·.value) := congrArg View.value hview
    rw [getStateFromStore_ok h₁, getStateFromStore_ok h₂, readOf_eq, readOf_eq, hview, hvalue]

theorem same_getState (h : SameView e₁ e₂) {key : Bytes} (hkey : key.length ≤ longestKey) :
    Comp.Same e₁ e₂ (getState key) := by
  refine .bind (same_getStateFromJournal key) fun val => ?_
  cases val with
  | some val => exact .pure _
  | none => exact same_getStateFromStore h hkey

theorem same_previousState (h : SameView e₁ e₂) {key : Bytes} (hkey : key.length ≤ longestKey) :
    Comp.Same e₁ e₂ (previousState key) := by
  intro s
  have henv := getStateFromJournal_env key e₁ e₂ s
  cases hval : getStateFromJournal key e₁ s with
  | error p =>
      rw [hval] at henv
      simp only [previousState, bind, hval, ← henv]
  | ok r =>
      obtain ⟨val, t⟩ := r
      rw [hval] at henv
      rw [previousState_run hval, previousState_run henv.symm]
      cases val with
      | some prevVal => rfl
      | none =>
          rcases h.cases hkey with ⟨err, h₁, h₂⟩ | ⟨r₁, r₂, h₁, h₂, hview⟩
          · simp only [h₁, h₂]
          · have hprev : probed r₁ = probed r₂ := congrArg View.previous hview
            simp only [h₁, h₂, hprev]

/-! ## The operations -/

theorem balKey_same (h : SameView e₁ e₂) (a : Address) : balKey e₁ a = balKey e₂ a := by
  rw [balKey, h.keccak, balKey]

theorem nonceKey_same (h : SameView e₁ e₂) (a : Address) : nonceKey e₁ a = nonceKey e₂ a := by
  rw [nonceKey, h.keccak, nonceKey]

theorem codeKey_same (h : SameView e₁ e₂) (a : Address) : codeKey e₁ a = codeKey e₂ a := by
  rw [codeKey, h.keccak, codeKey]

theorem length_accKey (keccak : Bytes → Hash) (a : Address) (typ : Bytes) :
    (accKey keccak a typ).length = 47 + typ.length := by
  simp only [accKey, List.length_append, Address.length_hex, ascii]
  rfl

theorem length_balKey (a : Address) : (balKey e₁ a).length ≤ longestKey := by
  rw [balKey, length_accKey]
  decide

theorem length_nonceKey (a : Address) : (nonceKey e₁ a).length ≤ longestKey := by
  rw [nonceKey, length_accKey]
  decide

theorem length_codeKey (a : Address) : (codeKey e₁ a).length ≤ longestKey := by
  rw [codeKey, length_accKey]
  decide

theorem length_storeKey (keccak : Bytes → Hash) (a : Address) (slot : Hash) :
    (storeKey keccak a slot).length ≤ longestKey := by
  simp [storeKey, Hash.hex, Address.length_hex, ascii, longestKey]

/-- Reading a key under a panic on errors. -/
theorem same_getState_or_panic {α : Type} (h : SameView e₁ e₂) {key : Bytes}
    (hkey : key.length ≤ longestKey) (p : StoreError → Panic) {f : Option Bytes → DB α}
    (hf : ∀ val, Comp.Same e₁ e₂ (f val)) :
    Comp.Same e₁ e₂ (getState key >>= fun
      | .error err => Comp.throw (p err)
      | .ok val => f val) := by
  refine .bind (same_getState h hkey) fun r => ?_
  cases r with
  | error err => exact .throw _
  | ok val => exact hf val

theorem same_getBalance (h : SameView e₁ e₂) (a : Address) : Comp.Same e₁ e₂ (getBalance a) :=
  .ask_bind (same_getState_or_panic h (length_balKey a) _ fun _ => .pure _) (by rw [balKey_same h])

theorem same_addBalance (h : SameView e₁ e₂) (a : Address) (amount : BitVec 256) :
    Comp.Same e₁ e₂ (addBalance a amount) := by
  unfold addBalance
  split
  next => exact .pure _
  next =>
    exact .bind (same_getBalance h a) fun prev =>
      .ask_bind (.bind (.modify _) fun _ => .pure _) (by rw [balKey_same h])

theorem same_subBalance (h : SameView e₁ e₂) (a : Address) (amount : BitVec 256) :
    Comp.Same e₁ e₂ (subBalance a amount) := by
  unfold subBalance
  split
  next => exact .pure _
  next =>
    exact .bind (same_getBalance h a) fun prev =>
      .ask_bind (.bind (.modify _) fun _ => .pure _) (by rw [balKey_same h])

theorem same_getNonce (h : SameView e₁ e₂) (a : Address) : Comp.Same e₁ e₂ (getNonce a) := by
  refine .ask_bind (same_getState_or_panic h (length_nonceKey a) _ fun val => ?_)
    (by rw [nonceKey_same h])
  cases bytesToUint64 (val.getD []) with
  | some n => exact .pure n
  | none => exact .throw _

theorem same_getCode (h : SameView e₁ e₂) (a : Address) : Comp.Same e₁ e₂ (getCode a) :=
  .ask_bind (same_getState_or_panic h (length_codeKey a) _ fun _ => .pure _)
    (by rw [codeKey_same h])

theorem same_getCodeSize (h : SameView e₁ e₂) (a : Address) : Comp.Same e₁ e₂ (getCodeSize a) :=
  .bind (same_getCode h a) fun _ => .pure _

theorem same_setCode (h : SameView e₁ e₂) (a : Address) (code : Bytes) :
    Comp.Same e₁ e₂ (setCode a code) :=
  .bind (same_getCode h a) fun _ =>
    .ask_bind (.bind (.modify _) fun _ => .pure _) (by rw [codeKey_same h])

theorem same_exist (h : SameView e₁ e₂) (a : Address) : Comp.Same e₁ e₂ (exist a) := by
  refine .ask_bind (.bind (same_getState h (length_balKey a)) fun bal => ?_)
    (by rw [balKey_same h, nonceKey_same h, codeKey_same h])
  split
  next => exact .pure _
  next =>
    refine .bind (same_getState h (length_nonceKey a)) fun nonce => ?_
    split
    next => exact .pure _
    next => exact .bind (same_getState h (length_codeKey a)) fun _ => .pure _

theorem same_empty (h : SameView e₁ e₂) (a : Address) : Comp.Same e₁ e₂ (empty a) := by
  refine .bind (same_getBalance h a) fun balance => ?_
  split
  next => exact .pure _
  next =>
    refine .bind (same_getNonce h a) fun nonce => ?_
    split
    next => exact .pure _
    next => exact .bind (same_getCodeSize h a) fun _ => .pure _

theorem same_getCodeHash (h : SameView e₁ e₂) (a : Address) : Comp.Same e₁ e₂ (getCodeHash a) := by
  refine .bind (same_exist h a) fun found => ?_
  split
  next => exact .bind (same_getCode h a) fun _ => .ask_bind (.pure _) (by rw [h.keccak])
  next => exact .pure _

theorem same_getStateSlot (h : SameView e₁ e₂) (a : Address) (slot : Hash) :
    Comp.Same e₁ e₂ (getStateSlot a slot) :=
  .ask_bind (same_getState_or_panic h (length_storeKey _ a slot) _ fun _ => .pure _)
    (by rw [h.keccak])

theorem same_getStateAndCommittedState (h : SameView e₁ e₂) (a : Address) (slot : Hash) :
    Comp.Same e₁ e₂ (getStateAndCommittedState a slot) := by
  refine .ask_bind (.bind (same_getStateFromJournal _) fun currentVal => ?_) (by rw [h.keccak])
  refine .bind (same_getStateFromStore h (length_storeKey _ a slot)) fun r => ?_
  cases r with
  | error err => exact .throw _
  | ok committedVal =>
      cases currentVal with
      | some val => exact .pure _
      | none => exact .pure _

theorem same_setState (h : SameView e₁ e₂) (a : Address) (slot value : Hash) :
    Comp.Same e₁ e₂ (setState a slot value) :=
  .ask_bind (.bind (same_previousState h (length_storeKey _ a slot)) fun _ =>
    .bind (.modify _) fun _ => .pure _) (by rw [h.keccak])

theorem same_selfDestruct (h : SameView e₁ e₂) (a : Address) :
    Comp.Same e₁ e₂ (selfDestruct a) := by
  refine .bind (same_getBalance h a) fun prev => .ask_bind ?_ (by rw [balKey_same h])
  dsimp only
  split
  next => exact .bind (.modify _) fun _ => .modify _
  next => exact .modify _

theorem same_subRefund (gas : UInt64) : Comp.Same e₁ e₂ (subRefund gas) := by
  refine .bind .get fun s => ?_
  split
  next => exact .throw _
  next => exact .modify _

end StateDB

open StateDB

/-- No operation tells the two stores apart. -/
theorem Op.same_exec (h : SameView e₁ e₂) (op : Op) : Comp.Same e₁ e₂ op.exec := by
  cases op with
  | createAccount a =>
      refine .bind (.ask_bind ?_ (by rw [balKey_same h, nonceKey_same h])) fun _ => .pure _
      exact .bind (.modify _) fun _ => .bind (.modify _) fun _ => .modify _
  | createContract a =>
      refine .bind (.ask_bind ?_ (by rw [codeKey_same h])) fun _ => .pure _
      exact .bind (.modify _) fun _ => .modify _
  | getBalance a => exact .bind (same_getBalance h a) fun _ => .pure _
  | addBalance a amount => exact .bind (same_addBalance h a amount) fun _ => .pure _
  | subBalance a amount => exact .bind (same_subBalance h a amount) fun _ => .pure _
  | getNonce a => exact .bind (same_getNonce h a) fun _ => .pure _
  | setNonce a nonce =>
      exact .bind (.ask_bind (.modify _) (by rw [nonceKey_same h])) fun _ => .pure _
  | getCode a => exact .bind (same_getCode h a) fun _ => .pure _
  | getCodeHash a => exact .bind (same_getCodeHash h a) fun _ => .pure _
  | getCodeSize a => exact .bind (same_getCodeSize h a) fun _ => .pure _
  | setCode a code => exact .bind (same_setCode h a code) fun _ => .pure _
  | getState a slot => exact .bind (same_getStateSlot h a slot) fun _ => .pure _
  | getStateAndCommittedState a slot =>
      exact .bind (same_getStateAndCommittedState h a slot) fun _ => .pure _
  | setState a slot v => exact .bind (same_setState h a slot v) fun _ => .pure _
  | selfDestruct a => exact .bind (same_selfDestruct h a) fun _ => .pure _
  | exist a => exact .bind (same_exist h a) fun _ => .pure _
  | empty a => exact .bind (same_empty h a) fun _ => .pure _
  | subRefund gas => exact .bind (same_subRefund gas) fun _ => .pure _
  | snapshot => exact .bind .get fun _ => .bind (.modify _) fun _ => .pure _
  | getStorageRoot a => exact .pure _
  | addRefund gas | addLog a topics data | setTransientState a k v | addAddressToAccessList a
  | addSlotToAccessList a slot | prepare args | revertToSnapshot revid =>
      exact .bind (.modify _) fun _ => .pure _
  | hasSelfDestructed a | isNewContract a | getRefund | getTransientState a k
  | addressInAccessList a | slotInAccessList a slot => exact .bind .get fun _ => .pure _

/-- No caller tells the two stores apart. -/
theorem Caller.run_same {α : Type} (h : SameView e₁ e₂) (c : Caller α) (s : StateDB) :
    c.run e₁ s = c.run e₂ s := by
  induction c generalizing s with
  | done a => rfl
  | call op next ih =>
      simp only [run, Op.same_exec h op s]
      cases op.exec e₂ s with
      | error p => rfl
      | ok r => simp only [ih r.1 r.2]

/-- The first store where a run reads it, and the second one everywhere else. -/
def spliced (e₁ e₂ : Backing) (keys : List Bytes) : Backing :=
  { e₂ with store := fun ns key => if key ∈ keys then e₁.store ns key else e₂.store ns key }

/-- Read soundness up to views: a blind caller gives the same result and ends in the same
state on a second store, if the second store shows the same as the first for every key that
the caller read, also for those whose reads it took back. -/
theorem Caller.run_of_views {α : Type} {c : Caller α} (hc : c.Blind) {a : α} {steps : List Step}
    {t : StateDB} (h : c.run e₁ .new = .ok (a, steps, t)) (hb : SameConfig e₁ e₂)
    (hview : ∀ r ∈ t.result.reads ++ discardedReads steps,
      (e₁.store e₁.ns r.key).map (View.of e₁.monotonicVersions) =
        (e₂.store e₂.ns r.key).map (View.of e₂.monotonicVersions)) :
    ∃ steps', c.run e₂ .new = .ok (a, steps', t) := by
  let keys := (t.result.reads ++ discardedReads steps).map KVRead.key
  have hconfig : SameConfig e₁ (spliced e₁ e₂ keys) := by
    refine ⟨hb.keccak, hb.ns, hb.monotonicVersions, fun key => ?_⟩
    show _ = (if key ∈ keys then e₁.store e₂.ns key else e₂.store e₂.ns key).isOk
    split
    next => rw [hb.ns]
    next => exact hb.isOk key
  have hagree : ∀ st ∈ steps, ∀ k, Touched st.before st.after k →
      Agree e₁ (spliced e₁ e₂ keys) k := by
    intro st hst k ht
    show _ = if k ∈ keys then e₁.store e₂.ns k else e₂.store e₂.ns k
    rw [if_pos (run_touched h hst ht), hb.ns]
  have hsame : SameView (spliced e₁ e₂ keys) e₂ := by
    refine ⟨rfl, rfl, rfl, fun key _ => ?_⟩
    show (if key ∈ keys then e₁.store e₂.ns key else e₂.store e₂.ns key).map
      (View.of e₂.monotonicVersions) = _
    split
    next hmem =>
      obtain ⟨r, hr, rfl⟩ := List.mem_map.mp hmem
      rw [← hb.ns, ← hb.monotonicVersions, hview r hr, hb.ns, hb.monotonicVersions]
    next => rfl
  obtain ⟨steps', hrun, -⟩ := run_transfer hc h hconfig hagree
  exact ⟨steps', (run_same hsame c .new).symm.trans hrun⟩

end Execution

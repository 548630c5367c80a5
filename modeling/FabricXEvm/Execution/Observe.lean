import FabricXEvm.Execution.Writes

/-!
# What the getters return

A getter returns what `value` says of its keys: the journal's latest write, and the store's
record where the journal has none.  Getters journal reads only, so one getter never changes
what the next one returns.
-/

namespace Execution

open Blocks

namespace StateDB

/-- What a computation returns, without the state it ends in. -/
def ret {α : Type} (m : DB α) (env : Backing) (s : StateDB) : Except Panic α :=
  (m env s).map Prod.fst

/-- The value of a key, as seen through the journal. -/
def value (env : Backing) (s : StateDB) (key : Bytes) : Except StoreError (Option Bytes) :=
  match lastWrite s.journal key with
  | some w => .ok (visible w)
  | none => (env.store env.ns key).map (·.bind (·.value))

/-- A move that writes nothing. -/
structure SameWrites (s t : StateDB) : Prop where
  index : IndexOk t
  lastWrite : lastWrite t.journal = lastWrite s.journal

theorem SameWrites.value_eq {s t : StateDB} (h : SameWrites s t) (env : Backing) :
    value env t = value env s := by
  funext key
  simp only [value, h.lastWrite]

theorem ret_bind {α β : Type} {m : DB α} {f : α → DB β} {env : Backing} {s t : StateDB} {a : α}
    (h : m env s = .ok (a, t)) : ret (m >>= f) env s = ret (f a) env t := by
  rw [ret, Comp.bind_run_ok h, ret]

theorem getState_run {s : StateDB} (h : IndexOk s) (env : Backing) (key : Bytes) :
    ∃ t, getState key env s = .ok (value env s key, t) ∧ SameWrites s t := by
  have hj : getStateFromJournal key env s = _ := getStateFromJournal_run h key
  have hreindex : SameWrites s { s with writeIdx := some (buildIndex s.journal) } :=
    ⟨fun idx hi => by cases hi; rfl, rfl⟩
  unfold getState value
  rw [Comp.bind_run_ok hj]
  cases hw : lastWrite s.journal key with
  | some w => exact ⟨_, rfl, hreindex⟩
  | none =>
      simp only [Option.map_none]
      cases hstore : env.store env.ns key with
      | error err => exact ⟨_, getStateFromStore_error hstore, hreindex⟩
      | ok record =>
          refine ⟨_, getStateFromStore_ok hstore, (extends_read _ _).index hreindex.index, ?_⟩
          funext k
          exact lastWrite_append_other _ k (by simp)

section Getters

variable {env : Backing} {s : StateDB}

theorem ret_getBalance (h : IndexOk s) (a : Address) :
    ret (getBalance a) env s =
      match value env s (balKey env a) with
      | .error err => .error (.getBalanceFailed err)
      | .ok val => .ok (bytesToUint256 (val.getD [])) := by
  obtain ⟨t, hrun, _⟩ := getState_run h env (balKey env a)
  unfold getBalance
  rw [ret_bind rfl, ret_bind hrun]
  cases value env s (balKey env a) <;> rfl

theorem ret_getNonce (h : IndexOk s) (a : Address) :
    ret (getNonce a) env s =
      match value env s (nonceKey env a) with
      | .error err => .error (.getNonceFailed err)
      | .ok val =>
          match bytesToUint64 (val.getD []) with
          | some n => .ok n
          | none => .error .indexOutOfRange := by
  obtain ⟨t, hrun, _⟩ := getState_run h env (nonceKey env a)
  unfold getNonce
  rw [ret_bind rfl, ret_bind hrun]
  cases value env s (nonceKey env a) with
  | error err => rfl
  | ok val =>
      dsimp only
      cases bytesToUint64 (val.getD []) <;> rfl

theorem ret_getCode (h : IndexOk s) (a : Address) :
    ret (getCode a) env s =
      match value env s (codeKey env a) with
      | .error err => .error (.getCodeFailed err)
      | .ok val => .ok val := by
  obtain ⟨t, hrun, _⟩ := getState_run h env (codeKey env a)
  unfold getCode
  rw [ret_bind rfl, ret_bind hrun]
  cases value env s (codeKey env a) <;> rfl

theorem ret_getStateSlot (h : IndexOk s) (a : Address) (slot : Hash) :
    ret (getStateSlot a slot) env s =
      match value env s (storeKey env.keccak a slot) with
      | .error err => .error (.getStateFailed err)
      | .ok val => .ok (wordOf val) := by
  obtain ⟨t, hrun, _⟩ := getState_run h env (storeKey env.keccak a slot)
  unfold getStateSlot
  rw [ret_bind rfl, ret_bind hrun]
  cases value env s (storeKey env.keccak a slot) <;> rfl

/-- A run that writes nothing. -/
theorem SameWrites.of_moves {α : Type} {m : DB α} (hl : Comp.Local journaled m)
    (hw : Comp.Moves (appending env fun _ => False) env m) (h : IndexOk s) {a : α} {t : StateDB}
    (hm : m env s = .ok (a, t)) : SameWrites s t := by
  obtain ⟨es, hj, hes⟩ := hw hm
  refine ⟨(hl.moves hm).index h, funext fun key => ?_⟩
  rw [hj]
  exact lastWrite_append_others s.journal key fun w hmem => hes _ hmem

/-- A computation that starts with a getter. -/
theorem ret_bind_getter {α β : Type} {m : DB α} {f : α → DB β} {g : α → Except Panic β}
    (hm : ∀ {a t}, m env s = .ok (a, t) → SameWrites s t)
    (hf : ∀ a t, SameWrites s t → ret (f a) env t = g a) :
    ret (m >>= f) env s = ret m env s >>= g := by
  cases hrun : m env s with
  | error p =>
      simp only [ret, bind, hrun]
      rfl
  | ok r =>
      rw [ret_bind hrun, hf r.1 r.2 (hm hrun)]
      simp only [ret, hrun]
      rfl

theorem ret_exist (h : IndexOk s) (a : Address) :
    ret (exist a) env s = .ok (present (value env s (balKey env a)) ||
      present (value env s (nonceKey env a)) || present (value env s (codeKey env a))) := by
  obtain ⟨t₁, hbal, h₁⟩ := getState_run h env (balKey env a)
  obtain ⟨t₂, hnonce, h₂⟩ := getState_run h₁.index env (nonceKey env a)
  obtain ⟨t₃, hcode, _⟩ := getState_run h₂.index env (codeKey env a)
  rw [h₁.value_eq] at hnonce
  rw [h₂.value_eq, h₁.value_eq] at hcode
  unfold exist
  rw [ret_bind rfl, ret_bind hbal]
  cases hb : present (value env s (balKey env a)) with
  | true => rfl
  | false =>
      simp only [Bool.false_eq_true, if_false]
      rw [ret_bind hnonce]
      cases hn : present (value env s (nonceKey env a)) with
      | true => rfl
      | false =>
          simp only [Bool.false_eq_true, if_false]
          rw [ret_bind hcode]
          rfl

/-- `Empty` asks for the balance, the nonce and the code, in this order. -/
theorem ret_empty (h : IndexOk s) (a : Address) :
    ret (empty a) env s = (do
      let balance ← ret (getBalance a) env s
      if balance ≠ 0 then return false
      else
        let nonce ← ret (getNonce a) env s
        if 0 < nonce then return false
        else
          let code ← ret (getCode a) env s
          return (code.getD []).length == 0) := by
  refine ret_bind_getter (.of_moves (local_getBalance a) (moves_getBalance a) h) ?_
  intro balance t ht
  split
  next => rfl
  next =>
    have hnonce : ret (getNonce a) env t = ret (getNonce a) env s := by
      rw [ret_getNonce ht.index, ret_getNonce h, ht.value_eq]
    rw [← hnonce]
    refine ret_bind_getter (.of_moves (local_getNonce a) (moves_getNonce a) ht.index) ?_
    intro nonce u hu
    split
    next => rfl
    next =>
      have hcode : ret (getCode a) env u = ret (getCode a) env s := by
        rw [ret_getCode hu.index, ret_getCode h, hu.value_eq, ht.value_eq]
      rw [← hcode]
      unfold getCodeSize
      rw [Comp.bind_assoc]
      exact ret_bind_getter (.of_moves (local_getCode a) (moves_getCode a) hu.index)
        fun code v _ => rfl

end Getters

end StateDB

end Execution

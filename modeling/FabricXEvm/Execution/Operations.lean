import FabricXEvm.Execution.StateDB

/-!
# Operations and callers

`Op` lists the operations a caller can invoke on a `StateDB` and `Op.exec` runs one.
`Caller` is a deterministic adaptive caller: a finite tree that picks its next operation
from everything returned to it so far.  `Caller.run` plays a caller against a `StateDB` and
keeps the trace of what happened.

`SetState` returns the slot's previous value without reading it into the read set.  A
caller is `Blind` when it never looks at that value.
-/

namespace Execution

open Blocks

/-- An operation of the `vm.StateDB` interface. -/
inductive Op where
  | createAccount (addr : Address)
  | createContract (addr : Address)
  | getBalance (addr : Address)
  | addBalance (addr : Address) (amount : BitVec 256)
  | subBalance (addr : Address) (amount : BitVec 256)
  | getNonce (addr : Address)
  | setNonce (addr : Address) (nonce : UInt64)
  | getCode (addr : Address)
  | getCodeHash (addr : Address)
  | getCodeSize (addr : Address)
  | setCode (addr : Address) (code : Bytes)
  | getState (addr : Address) (slot : Hash)
  | getStateAndCommittedState (addr : Address) (slot : Hash)
  | setState (addr : Address) (slot value : Hash)
  | getStorageRoot (addr : Address)
  | selfDestruct (addr : Address)
  | hasSelfDestructed (addr : Address)
  | isNewContract (addr : Address)
  | exist (addr : Address)
  | empty (addr : Address)
  | getRefund
  | addRefund (gas : UInt64)
  | subRefund (gas : UInt64)
  | addLog (address : Address) (topics : List Hash) (data : Bytes)
  | getTransientState (addr : Address) (key : Hash)
  | setTransientState (addr : Address) (key value : Hash)
  | addressInAccessList (addr : Address)
  | slotInAccessList (addr : Address) (slot : Hash)
  | addAddressToAccessList (addr : Address)
  | addSlotToAccessList (addr : Address) (slot : Hash)
  | prepare (args : StateDB.PrepareArgs)
  | snapshot
  | revertToSnapshot (revid : Nat)
deriving DecidableEq, Repr

/-- What an operation returns. -/
inductive Ret where
  | unit
  | word (w : BitVec 256)
  | words (current committed : Hash)
  | uint64 (n : UInt64)
  | int (n : Nat)
  | bytes (b : Option Bytes)
  | bool (b : Bool)
  | bools (b c : Bool)
deriving DecidableEq, Repr

namespace Op

open StateDB

/-- Run one operation. -/
def exec : Op → DB Ret
  | .createAccount addr => do StateDB.createAccount addr; return .unit
  | .createContract addr => do StateDB.createContract addr; return .unit
  | .getBalance addr => do return .word (← StateDB.getBalance addr)
  | .addBalance addr amount => do return .word (← StateDB.addBalance addr amount)
  | .subBalance addr amount => do return .word (← StateDB.subBalance addr amount)
  | .getNonce addr => do return .uint64 (← StateDB.getNonce addr)
  | .setNonce addr nonce => do StateDB.setNonce addr nonce; return .unit
  | .getCode addr => do return .bytes (← StateDB.getCode addr)
  | .getCodeHash addr => do return .word (← StateDB.getCodeHash addr)
  | .getCodeSize addr => do return .int (← StateDB.getCodeSize addr)
  | .setCode addr code => do return .bytes (← StateDB.setCode addr code)
  | .getState addr slot => do return .word (← StateDB.getStateSlot addr slot)
  | .getStateAndCommittedState addr slot => do
      let r ← StateDB.getStateAndCommittedState addr slot
      return .words r.1 r.2
  | .setState addr slot value => do return .word (← StateDB.setState addr slot value)
  | .getStorageRoot addr => return .word (StateDB.getStorageRoot addr)
  | .selfDestruct addr => do StateDB.selfDestruct addr; return .unit
  | .hasSelfDestructed addr => do return .bool ((← Comp.get).hasSelfDestructed addr)
  | .isNewContract addr => do return .bool ((← Comp.get).isNewContract addr)
  | .exist addr => do return .bool (← StateDB.exist addr)
  | .empty addr => do return .bool (← StateDB.empty addr)
  | .getRefund => do return .uint64 (← Comp.get).refund
  | .addRefund gas => do Comp.modify (StateDB.addRefund gas); return .unit
  | .subRefund gas => do StateDB.subRefund gas; return .unit
  | .addLog address topics data => do
      Comp.modify (StateDB.addLog address topics data)
      return .unit
  | .getTransientState addr key => do return .word ((← Comp.get).getTransientState addr key)
  | .setTransientState addr key value => do
      Comp.modify (StateDB.setTransientState addr key value)
      return .unit
  | .addressInAccessList addr => do return .bool ((← Comp.get).addressInAccessList addr)
  | .slotInAccessList addr slot => do
      let r := (← Comp.get).slotInAccessList addr slot
      return .bools r.1 r.2
  | .addAddressToAccessList addr => do
      Comp.modify (StateDB.addAddressToAccessList addr)
      return .unit
  | .addSlotToAccessList addr slot => do
      Comp.modify (StateDB.addSlotToAccessList addr slot)
      return .unit
  | .prepare args => do Comp.modify (StateDB.prepare args); return .unit
  | .snapshot => do
      let s ← Comp.get
      Comp.modify StateDB.snapshot
      return .int s.nextRevisionId
  | .revertToSnapshot revid => do Comp.modify (StateDB.revertToSnapshot revid); return .unit

end Op

/-- Run a list of operations, dropping what they return. -/
def runOps (env : Backing) : List Op → StateDB → Except Panic StateDB
  | [], s => .ok s
  | op :: ops, s =>
      match op.exec env s with
      | .ok (_, s') => runOps env ops s'
      | .error p => .error p

/-- The states a `StateDB` can be in after some operations. -/
def Reachable (env : Backing) (s : StateDB) : Prop := ∃ ops, runOps env ops .new = .ok s

/-- An empty ledger. -/
def emptyLedger : Backing where
  keccak _ := 0
  ns := ascii "evm"
  store _ _ := .ok none
  monotonicVersions := false

/-! ## Adaptive callers -/

/-- A deterministic caller that ends with a result `α`. -/
inductive Caller (α : Type) where
  | done (a : α)
  | call (op : Op) (next : Ret → Caller α)

/-- One operation of a run. -/
structure Step where
  op : Op
  ret : Ret
  before : StateDB
  after : StateDB

/-- The operations of a run, one after the other. -/
inductive Trace (env : Backing) : StateDB → List Step → StateDB → Prop where
  | nil {s : StateDB} : Trace env s [] s
  | cons {op : Op} {r : Ret} {s s' t : StateDB} {steps : List Step}
      (hop : op.exec env s = .ok (r, s')) (hrest : Trace env s' steps t) :
      Trace env s (⟨op, r, s, s'⟩ :: steps) t

namespace Caller

variable {α β : Type}

/-- The caller's choices never depend on the previous value `SetState` returns. -/
inductive Blind : Caller α → Prop where
  | done (a : α) : Blind (.done a)
  | call {op : Op} {next : Ret → Caller α} (h : ∀ r, Blind (next r))
      (hset : ∀ addr slot value, op = .setState addr slot value → ∀ r r', next r = next r') :
      Blind (.call op next)

/-- Go on with another caller. -/
def bind : Caller α → (α → Caller β) → Caller β
  | .done a, f => f a
  | .call op next, f => .call op fun r => bind (next r) f

/-- Play a caller: its result, the operations in order, and the state they end in. -/
def run (env : Backing) : Caller α → StateDB → Except Panic (α × List Step × StateDB)
  | .done a, s => .ok (a, [], s)
  | .call op next, s =>
      match op.exec env s with
      | .error p => .error p
      | .ok (r, s') =>
          match run env (next r) s' with
          | .error p => .error p
          | .ok (a, steps, t) => .ok (a, ⟨op, r, s, s'⟩ :: steps, t)

/-- A successful run of a call is the operation followed by the run of the rest. -/
theorem run_call_ok {env : Backing} {op : Op} {next : Ret → Caller α} {s t : StateDB} {a : α}
    {steps : List Step} (h : (Caller.call op next).run env s = .ok (a, steps, t)) :
    ∃ r s' steps', op.exec env s = .ok (r, s') ∧ steps = ⟨op, r, s, s'⟩ :: steps' ∧
      (next r).run env s' = .ok (a, steps', t) := by
  simp only [run] at h
  split at h
  next => cases h
  next r s' hop =>
    split at h
    next => cases h
    next b steps' u hrest =>
      cases h
      exact ⟨r, s', steps', hop, rfl, hrest⟩

theorem run_trace {env : Backing} {c : Caller α} {s t : StateDB} {a : α} {steps : List Step}
    (h : c.run env s = .ok (a, steps, t)) : Trace env s steps t := by
  induction c generalizing s steps with
  | done b =>
      cases h
      exact .nil
  | call op next ih =>
      obtain ⟨r, s', steps', hop, rfl, hrest⟩ := run_call_ok h
      exact .cons hop (ih r hrest)

/-- A successful run of two callers in turn. -/
theorem run_bind_ok {env : Backing} {c : Caller α} {f : α → Caller β} {s t : StateDB} {b : β}
    {steps : List Step} (h : (c.bind f).run env s = .ok (b, steps, t)) :
    ∃ a u steps₁ steps₂, c.run env s = .ok (a, steps₁, u) ∧
      (f a).run env u = .ok (b, steps₂, t) ∧ steps = steps₁ ++ steps₂ := by
  induction c generalizing s steps with
  | done a => exact ⟨a, s, [], steps, rfl, h, rfl⟩
  | call op next ih =>
      obtain ⟨r, s', steps', hop, rfl, hrest⟩ := run_call_ok h
      obtain ⟨a, u, steps₁, steps₂, h₁, h₂, rfl⟩ := ih r hrest
      refine ⟨a, u, ⟨op, r, s, s'⟩ :: steps₁, steps₂, ?_, h₂, rfl⟩
      simp only [run, hop, h₁]

end Caller

end Execution

import FabricXEvm.Execution.Operations

/-!
# The world of a transaction

What a `StateDB` is for, without a journal, a read set or a ledger under it.  There are
accounts with a balance, a nonce, code and storage, and there is what belongs to the
transaction alone: transient storage, the access list, the refund, the logs and the contracts
it created.  A snapshot is a copy of the world, and reverting puts the copy back.

The machine is undefined where a refund would go below zero, for a question after a
self-destruct mark, which a revert can lose, and for a revert across a `Prepare`, which
replaces the access list without a journal entry.
-/

namespace Execution

open Blocks

/-- The accounts, with the fields that are present. -/
@[ext]
structure Accounts where
  balance : Address → Option (BitVec 256)
  nonce : Address → Option UInt64
  code : Address → Option Bytes
  storage : Address → Hash → Hash

/-- No account has anything. -/
def noAccounts : Accounts where
  balance _ := none
  nonce _ := none
  code _ := none
  storage _ _ := 0

/-- The accounts, and what belongs to the transaction alone. -/
structure World extends Accounts where
  transient : Address → Hash → Hash
  warm : Address → Bool
  warmSlot : Address → Hash → Bool
  refund : UInt64
  logs : List Log
  created : Finset Address

namespace World

/-- The world at the start of a transaction. -/
def start (accounts : Accounts) : World where
  toAccounts := accounts
  transient _ _ := 0
  warm _ := false
  warmSlot _ _ := false
  refund := 0
  logs := []
  created := ∅

def balanceOf (w : World) (addr : Address) : BitVec 256 := (w.balance addr).getD 0
def nonceOf (w : World) (addr : Address) : UInt64 := (w.nonce addr).getD 0
def codeOf (w : World) (addr : Address) : Bytes := (w.code addr).getD []

/-- Whether an account has a field at all. -/
def present (w : World) (addr : Address) : Bool :=
  (w.balance addr).isSome || (w.nonce addr).isSome || (w.code addr).isSome

/-- An account with nothing in it (EIP-161). -/
def isEmpty (w : World) (addr : Address) : Bool :=
  w.balanceOf addr == 0 && w.nonceOf addr == 0 && (w.codeOf addr).length == 0

/-- A zero balance is an absent one. -/
def setBalance (w : World) (addr : Address) (v : BitVec 256) : World :=
  { w with balance := Function.update w.balance addr (if v = 0 then none else some v) }

def setNonce (w : World) (addr : Address) (nonce : UInt64) : World :=
  { w with nonce := Function.update w.nonce addr (some nonce) }

/-- Empty code is absent code. -/
def setCode (w : World) (addr : Address) (code : Bytes) : World :=
  { w with code := Function.update w.code addr (if code = [] then none else some code) }

def setStorage (w : World) (addr : Address) (slot value : Hash) : World :=
  { w with storage := Function.update w.storage addr (Function.update (w.storage addr) slot value) }

def setTransient (w : World) (addr : Address) (key value : Hash) : World :=
  { w with
    transient := Function.update w.transient addr (Function.update (w.transient addr) key value) }

def create (w : World) (addr : Address) : World := { w with created := insert addr w.created }

def warmUp (w : World) (addr : Address) : World :=
  { w with warm := Function.update w.warm addr true }

def warmUpSlot (w : World) (addr : Address) (slot : Hash) : World :=
  { w.warmUp addr with
    warmSlot := Function.update w.warmSlot addr (Function.update (w.warmSlot addr) slot true) }

/-- What is warm at the start of a message, and nothing else. -/
def prepare (w : World) (args : StateDB.PrepareArgs) : World :=
  { w with
    warm := fun a => a = args.sender || args.dest = some a || args.precompiles.contains a ||
      args.txAccesses.any (fun el => el.1 = a) || (args.isShanghai && a = args.coinbase)
    warmSlot := fun a slot => args.txAccesses.any fun el => el.1 = a && el.2.contains slot }

/-- What an operation returns and makes of the world.  `base` are the accounts at the start of
the transaction. -/
def exec (keccak : Bytes → Hash) (base : Accounts) (w : World) : Op → Option (Ret × World)
  | .createAccount addr => some (.unit, ((w.setBalance addr 0).setNonce addr 0).create addr)
  | .createContract addr => some (.unit, (w.setCode addr []).create addr)
  | .getBalance addr => some (.word (w.balanceOf addr), w)
  | .addBalance addr amount =>
      if amount = 0 then some (.word 0, w)
      else some (.word (w.balanceOf addr), w.setBalance addr (w.balanceOf addr + amount))
  | .subBalance addr amount =>
      if amount = 0 then some (.word 0, w)
      else some (.word (w.balanceOf addr), w.setBalance addr (w.balanceOf addr - amount))
  | .getNonce addr => some (.uint64 (w.nonceOf addr), w)
  | .setNonce addr nonce => some (.unit, w.setNonce addr nonce)
  | .getCode addr => some (.bytes (w.code addr), w)
  | .getCodeHash addr => some (.word (if w.present addr then keccak (w.codeOf addr) else 0), w)
  | .getCodeSize addr => some (.int (w.codeOf addr).length, w)
  | .setCode addr code => some (.bytes (w.code addr), w.setCode addr code)
  | .getState addr slot => some (.word (w.storage addr slot), w)
  | .getStateAndCommittedState addr slot =>
      some (.words (w.storage addr slot) (base.storage addr slot), w)
  | .setState addr slot value => some (.word (w.storage addr slot), w.setStorage addr slot value)
  | .getStorageRoot _ => some (.word 0, w)
  | .selfDestruct addr => some (.unit, if w.balanceOf addr = 0 then w else w.setBalance addr 0)
  | .isNewContract addr => some (.bool (addr ∈ w.created), w)
  | .exist addr => some (.bool (w.present addr), w)
  | .empty addr => some (.bool (w.isEmpty addr), w)
  | .getRefund => some (.uint64 w.refund, w)
  | .addRefund gas => some (.unit, { w with refund := w.refund + gas })
  | .subRefund gas =>
      if w.refund < gas then none else some (.unit, { w with refund := w.refund - gas })
  | .addLog address topics data =>
      some (.unit, { w with logs := w.logs ++ [⟨address.bytes, topics.map Hash.bytes, data⟩] })
  | .getTransientState addr key => some (.word (w.transient addr key), w)
  | .setTransientState addr key value => some (.unit, w.setTransient addr key value)
  | .addressInAccessList addr => some (.bool (w.warm addr), w)
  | .slotInAccessList addr slot => some (.bools (w.warm addr) (w.warmSlot addr slot), w)
  | .addAddressToAccessList addr => some (.unit, w.warmUp addr)
  | .addSlotToAccessList addr slot => some (.unit, w.warmUpSlot addr slot)
  | .hasSelfDestructed _ => none
  -- these are the machine's
  | .prepare _ | .snapshot | .revertToSnapshot _ => none

end World

/-- A world with its snapshots, oldest first. -/
structure Machine where
  world : World
  snapshots : List (Nat × World)
  /-- The id of the next snapshot. -/
  next : Nat
  /-- The snapshots of smaller ids are from before the last `Prepare`. -/
  floor : Nat
  ordered : snapshots.Pairwise (·.1 < ·.1)
  fresh : ∀ p ∈ snapshots, floor ≤ p.1 ∧ p.1 < next
  floor_le : floor ≤ next

namespace Machine

def start (accounts : Accounts) : Machine where
  world := .start accounts
  snapshots := []
  next := 0
  floor := 0
  ordered := .nil
  fresh := by simp
  floor_le := Nat.le_refl 0

def snapshot (m : Machine) : Machine where
  world := m.world
  snapshots := m.snapshots ++ [(m.next, m.world)]
  next := m.next + 1
  floor := m.floor
  ordered := by
    refine List.pairwise_append.mpr ⟨m.ordered, List.pairwise_singleton _ _, fun p hp q hq => ?_⟩
    rw [List.mem_singleton.mp hq]
    exact (m.fresh p hp).2
  fresh p hp := by
    rcases List.mem_append.mp hp with hp | hp
    · exact ⟨(m.fresh p hp).1, Nat.lt_succ_of_lt (m.fresh p hp).2⟩
    · rw [List.mem_singleton.mp hp]
      exact ⟨m.floor_le, Nat.lt_succ_self _⟩
  floor_le := Nat.le_succ_of_le m.floor_le

/-- Put a copy back, and keep the snapshots from before it. -/
def goBack (m : Machine) (id : Nat) (world : World) : Machine where
  world := world
  snapshots := m.snapshots.filter (·.1 < id)
  next := m.next
  floor := m.floor
  ordered := m.ordered.filter _
  fresh p hp := m.fresh p (List.mem_of_mem_filter hp)
  floor_le := m.floor_le

/-- The snapshots there are now can no longer be reverted to. -/
def prepare (m : Machine) (args : StateDB.PrepareArgs) : Machine where
  world := m.world.prepare args
  snapshots := []
  next := m.next
  floor := m.next
  ordered := .nil
  fresh := by simp
  floor_le := Nat.le_refl _

/-- One operation.  A revert to a snapshot that is not there does nothing. -/
def exec (keccak : Bytes → Hash) (base : Accounts) (m : Machine) : Op → Option (Ret × Machine)
  | .prepare args => some (.unit, m.prepare args)
  | .snapshot => some (.int m.next, m.snapshot)
  | .revertToSnapshot revid =>
      if revid < m.floor then none
      else
        match m.snapshots.find? (·.1 == revid) with
        | none => some (.unit, m)
        | some p => some (.unit, m.goBack revid p.2)
  | op => (m.world.exec keccak base op).map fun p => (p.1, { m with world := p.2 })

end Machine

/-- Play a caller on the machine. -/
def Caller.onWorld {α : Type} (keccak : Bytes → Hash) (base : Accounts) :
    Caller α → Machine → Option (α × Machine)
  | .done a, m => some (a, m)
  | .call op next, m =>
      match m.exec keccak base op with
      | none => none
      | some (r, m') => onWorld keccak base (next r) m'

end Execution

import FabricXEvm.Execution.Keys

/-!
# Calls to an endorser

The read-only side of `api.Service`: `eth_call` and the reads of accounts.  `Endorser` is the
local service, over an engine that may be any machine.  What it returns for a failed call is
a `CallError` with a status by the kind of error (`classify`).
-/

namespace Endorser

open Execution

/-- The fields of `ethereum.CallMsg` that a request may set. -/
structure CallMsg where
  sender : Address := 0
  recipient : Option Address := none
  gas : UInt64 := 0
  gasPrice : Option Int := none
  gasFeeCap : Option Int := none
  gasTipCap : Option Int := none
  value : Option Int := none
  data : Bytes := []
deriving DecidableEq, Repr

def statusOK : Int := 200
def statusEVMRevert : Int := 201
def statusExecFailure : Int := 202
def statusTxRejected : Int := 400
def statusServerError : Int := 500

/-- `common.CallError`. -/
structure CallError where
  status : Int
  message : Bytes
  data : Bytes
deriving DecidableEq, Repr

def CallError.reverted (e : CallError) : Bool := e.status = statusEVMRevert

/-- The errors of a service. -/
inductive ServiceError where
  | call (err : CallError)
  /-- Any other error, with its text. -/
  | other (message : Bytes)
deriving DecidableEq, Repr

/-- What a call returns, with the values beside an error. -/
structure Reply (ε : Type) where
  data : Bytes
  maxUsedGas : UInt64
  err : Option ε
deriving DecidableEq, Repr

/-- An error of an engine: its text, and what `errors.Is` and `errors.AsType` find in it. -/
structure EngineError where
  message : Bytes
  executionReverted : Bool := false
  execFailure : Bool := false
  txRejected : Bool := false
deriving DecidableEq, Repr

def classify (err : EngineError) : Int :=
  if err.executionReverted then statusEVMRevert
  else if err.execFailure then statusExecFailure
  else if err.txRejected then statusTxRejected
  else statusServerError

theorem classify_ne_ok (err : EngineError) : classify err ≠ statusOK := by
  unfold classify
  split
  · decide
  · split
    · decide
    · split <;> decide

/-- `Call` of a service.  It may answer differently with every call. -/
abbrev CallService (σ : Type) := σ → CallMsg → Option Int → Reply ServiceError × σ

/-- The read-only methods of `EVMEngineInterface`, of an engine with the states `σ`.  No block
number is the latest block. -/
structure Engine (σ : Type) where
  call : σ → CallMsg → Option Int → Reply EngineError × σ
  balanceAt : σ → Address → Option Int → Except Bytes Nat × σ
  storageAt : σ → Address → Hash → Option Int → Except Bytes Bytes × σ
  codeAt : σ → Address → Option Int → Except Bytes Bytes × σ
  nonceAt : σ → Address → Option Int → Except Bytes UInt64 × σ

/-- What `Endorser.Call` makes of the reply of the engine. -/
def endorserReply (r : Reply EngineError) : Reply ServiceError where
  data := r.data
  maxUsedGas := r.maxUsedGas
  err := r.err.map fun err =>
    .call { status := classify err, message := err.message, data := r.data }

/-- `Endorser.Call`. -/
def Engine.endorserCall {σ : Type} (e : Engine σ) : CallService σ := fun s msg blockNumber =>
  let (r, s) := e.call s msg blockNumber
  (endorserReply r, s)

end Endorser

import FabricXEvm.Execution.Operations

/-!
# The executor

`Executor.Send` gates a signed transaction on its sender's nonce and runs it on the EVM.
The EVM is go-ethereum's and is a parameter, `Geth`: how a sender is recovered, how a
transaction becomes a message, and what `core.ApplyMessage` does, which is a `Caller` of
the `StateDB`.

`send` is a caller too.  `endorse` plays it on a fresh `StateDB` over a reader and gives the
read-write set `EVMEngine.Execute` endorses: one for every outcome but a rejection.
-/

namespace Execution

open Blocks

/-- The fields of `core.Message` the executor looks at; `μ` is the rest. -/
structure Message (μ : Type) where
  sender : Address
  nonce : UInt64
  gasLimit : UInt64
  gasPrice : BitVec 256
  gasFeeCap : BitVec 256
  gasTipCap : BitVec 256
  rest : μ

/-- `ExecutionResult.Err`: a revert, or another fault. -/
inductive VMError where
  | executionReverted
  | fault (err : String)
deriving DecidableEq, Repr

/-- `core.ExecutionResult`. -/
structure ExecutionResult where
  returnData : Bytes
  usedGas : UInt64
  maxUsedGas : UInt64
  err : Option VMError := none
deriving DecidableEq, Repr

/-- What the executor uses of go-ethereum, for transactions `τ`. -/
structure Geth (τ μ : Type) where
  /-- `types.Sender`. -/
  sender : τ → Except String Address
  /-- `Transaction.Nonce`. -/
  nonce : τ → UInt64
  /-- `core.TransactionToMessage`. -/
  transactionToMessage : τ → Except String (Message μ)
  /-- `core.ApplyMessage`; an error is a rejection before execution. -/
  applyMessage : Message μ → Caller (Except String ExecutionResult)
  /-- `abi.UnpackRevert`. -/
  unpackRevert : Bytes → Option String

/-- The errors of `Send`. -/
inductive SendError where
  /-- `TxRejected`: never included in a block. -/
  | txRejected (err : String)
  /-- `vm.ErrExecutionReverted`, with the reason if it can be unpacked. -/
  | executionReverted (reason : Option String)
  /-- `ExecFailure`. -/
  | execFailure (err : String)
deriving DecidableEq, Repr

/-- What `ApplyMessage` returns. -/
structure Applied where
  ret : Bytes := []
  usedGas : UInt64 := 0
  maxUsedGas : UInt64 := 0
  err : Option SendError := none
deriving DecidableEq, Repr

/-- `Executor`, as far as `Send` uses it. -/
structure Executor (τ μ : Type) where
  geth : Geth τ μ
  maxTxGas : UInt64

namespace Executor

variable {τ μ : Type}

def errNonceTooLow : String := "nonce too low"
def errNonceTooHigh : String := "nonce too high"

/-- `PrepareMessage`: the sender, its nonce on the ledger, and the message. -/
def prepareMessage (h : Executor τ μ) (tx : τ) : Caller (Except String (Message μ)) :=
  match h.geth.sender tx with
  | .error err => .done (.error err)
  | .ok sender =>
      .call (.getNonce sender) fun
        | .uint64 ledgerNonce =>
            if h.geth.nonce tx < ledgerNonce then .done (.error errNonceTooLow)
            else if ledgerNonce < h.geth.nonce tx then .done (.error errNonceTooHigh)
            else .done (h.geth.transactionToMessage tx)
        -- not returned by `GetNonce`
        | _ => .done (.error "")

/-- The result of an applied message. -/
def appliedOf (h : Executor τ μ) (result : ExecutionResult) : Applied where
  ret := result.returnData
  usedGas := result.usedGas
  maxUsedGas := result.maxUsedGas
  err := result.err.map fun
    | .executionReverted => .executionReverted (h.geth.unpackRevert result.returnData)
    | .fault err => .execFailure err

/-- `Executor.ApplyMessage`: under a snapshot that a rejection goes back to. -/
def applyMessage (h : Executor τ μ) (msg : Message μ) : Caller Applied :=
  .call .snapshot fun snapshot =>
    (h.geth.applyMessage msg).bind fun
      | .error err =>
          let revid := match snapshot with
            | .int id => id
            | _ => 0
          .call (.revertToSnapshot revid) fun _ => .done { err := some (.txRejected err) }
      | .ok result => .done (h.appliedOf result)

/-- `execute`: a default gas limit, free gas, and the gas cap. -/
def execute (h : Executor τ μ) (msg : Message μ) : Caller Applied :=
  let gasLimit := if msg.gasLimit = 0 then 5000000 else msg.gasLimit
  let gasLimit := if 0 < h.maxTxGas ∧ h.maxTxGas < gasLimit then h.maxTxGas else gasLimit
  h.applyMessage { msg with gasLimit, gasPrice := 0, gasFeeCap := 0, gasTipCap := 0 }

/-- `Send`. -/
def send (h : Executor τ μ) (tx : τ) : Caller Applied :=
  (h.prepareMessage tx).bind fun
    | .error err => .done { err := some (.txRejected err) }
    | .ok msg => h.execute msg

/-- `EVMEngine.Execute` on a fresh `StateDB`: the read-write set it endorses, if any. -/
def endorse (h : Executor τ μ) (env : Backing) (tx : τ) : Except Panic (Option ReadWriteSet) :=
  match (h.send tx).run env .new with
  | .error p => .error p
  | .ok (applied, _, t) =>
      match applied.err with
      | some (.txRejected _) => .ok none
      | _ => .ok (some t.result)

end Executor

end Execution

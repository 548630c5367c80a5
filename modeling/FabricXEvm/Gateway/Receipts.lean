import FabricXEvm.Gateway.Logs

/-!
# Receipts

`eth_getTransactionReceipt` looks a transaction up by its hash and reads the logs of that
hash.  `eth_getBlockReceipts` reads the transactions and the logs of a block and puts them
together by hash.
-/

open Blocks Common

namespace Gateway

/-! ## Values of the API -/

/-- `types.Log`. -/
structure TypesLog where
  address : Bytes
  topics : List Bytes
  data : Option Bytes
  blockNumber : Nat
  blockHash : Bytes
  blockTimestamp : Nat := 0
  txHash : Bytes
  txIndex : Nat
  index : Nat
deriving DecidableEq, Repr

/-- `DomainLogToTypes`. -/
def domainLogToTypes (l : Domain.Log) : TypesLog where
  address := bytesToAddress l.address
  topics := l.topics.map fun t => bytesToHash (t.getD [])
  data := l.data
  blockNumber := l.blockNumber
  blockHash := bytesToHash l.blockHash
  blockTimestamp := uint64OfInt l.timestamp
  txHash := bytesToHash l.txHash
  txIndex := uint64OfInt l.txIndex
  index := uint64OfInt l.logIndex

/-- `rpcReceipt`. -/
structure RpcReceipt where
  status : UInt8
  cumulativeGasUsed : UInt64
  logs : List TypesLog
  txHash : Bytes
  contractAddress : Bytes
  gasUsed : UInt64
  txType : UInt8
  postState : Option Bytes := none
  effectiveGasPrice : Nat := 0
  blobGasUsed : Nat := 0
  blobGasPrice : Nat := 0
  blockHash : Bytes
  blockNumber : Nat
  transactionIndex : Nat
  fromAddress : Bytes
  toAddress : Option Bytes
deriving DecidableEq, Repr

/-- `TxType`: the first byte of a typed transaction, 0 for a legacy one. -/
def Domain.Transaction.txType (t : Domain.Transaction) : UInt8 :=
  match t.rawTx with
  | [] => 0
  | b :: _ => if b < 0xc0 then b else 0

/-- `receipt`.  A pending transaction has no block hash and no receipt. -/
def receipt (r : Option Domain.Transaction) : Option RpcReceipt :=
  match r with
  | none => none
  | some r =>
    if r.blockHash = [] then none
    else some {
      status := r.status
      cumulativeGasUsed := r.cumulativeGasUsed
      logs := r.logs.map domainLogToTypes
      txHash := bytesToHash r.txHash
      contractAddress :=
        match r.contractAddress with
        | some a => if a.length = 20 then bytesToAddress a else List.replicate 20 0
        | none => List.replicate 20 0
      gasUsed := r.gasUsed
      txType := r.txType
      blockHash := r.blockHash
      blockNumber := r.blockNumber
      transactionIndex := uint64OfInt r.txIndex
      fromAddress := bytesToAddress r.fromAddress
      toAddress := r.toAddress.bind fun a => if a.length = 20 then some (bytesToAddress a) else none }

/-! ## The receipt of a transaction -/

/-- What the gateway holds of transactions that are not committed. -/
structure Pool where
  queue : Bytes → Option EthTx
  nonceGate : Bytes → Option EthTx
  /-- `types.Transaction.MarshalBinary`. -/
  marshalBinary : EthTx → Option Bytes
  signer : Signer

/-- Waiting, being processed, or parked for an earlier nonce. -/
def Pool.isPending (pool : Pool) (hash : Bytes) : Option EthTx :=
  match pool.queue hash with
  | some tx => some tx
  | none => pool.nonceGate hash

/-- Why a transaction or a receipt is not returned. -/
inductive LookupError where
  | marshal
  | sender
  | query (e : QueryError)
  | noBlockHash (txHash : Bytes) (blockNumber : Nat)
deriving DecidableEq, Repr

namespace Store

variable (d : Decoders) (pool : Pool) (s : Store)

/-- `TransactionByHash`. -/
def transactionByHash (hash : Bytes) : Except LookupError (Option Domain.Transaction) :=
  match pool.isPending hash with
  | some tx =>
    match pool.marshalBinary tx with
    | none => .error .marshal
    | some rawTx =>
      match d.sender pool.signer tx with
      | none => .error .sender
      | some sender =>
        .ok (some { txHash := hash, blockHash := [], blockNumber := 0, txIndex := 0, rawTx := rawTx,
                    fromAddress := sender, toAddress := tx.toAddress, contractAddress := none,
                    status := 0, fabricTxID := [], fabricTxStatus := .unknown })
  | none => .ok ((s.getTransactionByHash hash).map fun tx =>
      { tx with logs := s.getLogsByTxHash hash })

/-- `eth_getTransactionReceipt`. -/
def getTransactionReceipt (hash : Bytes) : Except LookupError (Option RpcReceipt) :=
  (s.transactionByHash d pool hash).map receipt

/-! ## The receipts of a block -/

/-- `rpc.BlockNumberOrHash`.  The numbers -1 to -5 are tags. -/
inductive BlockNumberOrHash where
  | hash (blockHash : Bytes)
  | number (num : Int)

/-- `blockNumberToUint64`. -/
def blockNumberToUint64 (num : Int) : Nat :=
  if num = -5 then 0 else if num < 0 then 2 ^ 64 - 1 else num.toNat

/-- `LatestBlock`, with its transactions. -/
def getLatestBlock : Option Domain.Block :=
  s.latestBlock.map fun b =>
    { toDomainBlock b with
      transactions := (s.getTransactionsByBlockNumber b.blockNumber).map toDomainTransaction }

def getBlock : BlockNumberOrHash → Option Domain.Block
  | .hash blockHash => s.getBlockByHash blockHash
  | .number num =>
      let n := blockNumberToUint64 num
      if n = 2 ^ 64 - 1 then s.getLatestBlock else s.getBlockByNumber n

/-- The receipt of a transaction of a block, with its logs among those of the block. -/
def receiptIn (blockNumber : Nat) (logs : List Domain.Log) (tx : Domain.Transaction) :
    Except LookupError RpcReceipt :=
  let hash := bytesToHash tx.txHash
  match receipt (some { tx with logs := logs.filter fun l => bytesToHash l.txHash = hash }) with
  | none => .error (.noBlockHash hash blockNumber)
  | some r => .ok r

/-- `eth_getBlockReceipts`. -/
def getBlockReceipts (block : BlockNumberOrHash) : Except LookupError (Option (List RpcReceipt)) :=
  match s.getBlock block with
  | none => .ok none
  | some b =>
    if b.transactions = [] then .ok (some [])
    else
      match s.getLogs { fromBlock := some b.blockNumber, toBlock := some b.blockNumber } with
      | .error e => .error (.query e)
      | .ok logs => (b.transactions.mapM (receiptIn b.blockNumber logs)).map some

end Store

end Gateway

import Mathlib.Data.List.Sort
import FabricXEvm.Blocks
import FabricXEvm.Lib.Table

/-!
# The gateway's block store

The three SQL tables of the gateway (`blocks`, `transactions`, `logs`), the inserts
`Store.InsertBlock` makes in one SQL transaction, and the queries that read blocks and
transactions back.

A table is a list of rows with the constraints of `schema.sql`.  A column that may be
NULL is an `Option`.  A nil `[]byte` of a `NOT NULL` column with a length check fails
either way, so such columns are plain bytes.  `blocks.Status` is an integer type whose
values the conversions to and from SQL keep, so the column holds the status itself.
`extra_data` is never set and left out.
-/

open Blocks

namespace Gateway

/-! ## The gateway's domain model -/

namespace Domain

structure Log where
  blockNumber : Nat
  blockHash : Bytes
  txHash : Bytes
  txIndex : Int
  logIndex : Int
  address : Bytes
  topics : List (Option Bytes)
  data : Option Bytes
  timestamp : Int := 0
deriving DecidableEq, Repr

structure Transaction where
  txHash : Bytes
  blockHash : Bytes
  blockNumber : Nat
  txIndex : Int
  rawTx : Bytes
  fromAddress : Bytes
  toAddress : Option Bytes
  contractAddress : Option Bytes
  /-- The EVM receipt status: 1 is success, 0 is a revert or an invalid transaction. -/
  status : UInt8
  fabricTxID : Bytes
  fabricTxStatus : Status
  gasUsed : UInt64 := 0
  cumulativeGasUsed : UInt64 := 0
  logs : List Log := []
deriving DecidableEq, Repr

structure Block where
  blockNumber : Nat
  blockHash : Bytes
  parentHash : Bytes
  stateRoot : Bytes := []
  timestamp : Int
  transactions : List Transaction := []
deriving DecidableEq, Repr

end Domain

/-! ## Rows and constraints -/

structure BlockRow where
  blockNumber : Int
  blockHash : Bytes
  parentHash : Bytes
  stateRoot : Bytes
  timestamp : Int
deriving DecidableEq, Repr

structure TransactionRow where
  txHash : Bytes
  blockHash : Bytes
  blockNumber : Int
  txIndex : Int
  rawTx : Bytes
  fromAddress : Bytes
  toAddress : Option Bytes
  contractAddress : Option Bytes
  status : Int
  fabricTxID : Bytes
  fabricTxStatus : Status
  gasUsed : Int
  cumulativeGasUsed : Int
deriving DecidableEq, Repr

structure LogRow where
  blockNumber : Int
  blockHash : Bytes
  txHash : Bytes
  txIndex : Int
  logIndex : Int
  address : Bytes
  topic0 : Option Bytes
  topic1 : Option Bytes
  topic2 : Option Bytes
  topic3 : Option Bytes
  data : Bytes
deriving DecidableEq, Repr

/-- `CHECK (c IS NULL OR length (c) = n)`. -/
def nullOrLength (n : Nat) : Option Bytes → Bool
  | none => true
  | some c => c.length = n

def blocksSchema : Schema BlockRow Int where
  check r := 0 ≤ r.blockNumber && r.blockHash.length = 32 && r.parentHash.length = 32 &&
    r.stateRoot.length = 32 && 0 ≤ r.timestamp
  target r := r.blockNumber
  clash r new := r.blockHash = new.blockHash || r.parentHash = new.parentHash

def transactionsSchema : Schema TransactionRow Bytes where
  check r := r.txHash.length = 32 && r.blockHash.length = 32 && 0 ≤ r.txIndex &&
    r.fromAddress.length = 20 && nullOrLength 20 r.toAddress &&
    nullOrLength 20 r.contractAddress && (r.status = 0 || r.status = 1) && 0 ≤ r.gasUsed &&
    0 ≤ r.cumulativeGasUsed
  target r := r.txHash
  clash r new := r.fabricTxID = new.fabricTxID ||
    r.blockNumber = new.blockNumber && r.txIndex = new.txIndex ||
    r.blockHash = new.blockHash && r.txIndex = new.txIndex

def logsSchema : Schema LogRow (Bytes × Int) where
  check r := r.blockHash.length = 32 && r.txHash.length = 32 && 0 ≤ r.txIndex &&
    0 ≤ r.logIndex && r.address.length = 20 && nullOrLength 32 r.topic0 &&
    nullOrLength 32 r.topic1 && nullOrLength 32 r.topic2 && nullOrLength 32 r.topic3
  target r := (r.txHash, r.logIndex)
  clash _ _ := false

/-- The database. -/
structure Tables where
  blocks : List BlockRow := []
  transactions : List TransactionRow := []
  logs : List LogRow := []
deriving DecidableEq, Repr

/-! ## Conversion functions between storage and domain types -/

def toStorageBlock (b : Domain.Block) : BlockRow where
  blockNumber := int64 b.blockNumber
  blockHash := b.blockHash
  parentHash := b.parentHash
  stateRoot := b.stateRoot
  timestamp := b.timestamp

def toDomainBlock (b : BlockRow) : Domain.Block where
  blockNumber := uint64OfInt b.blockNumber
  blockHash := b.blockHash
  parentHash := b.parentHash
  stateRoot := b.stateRoot
  timestamp := b.timestamp

/-- The `i`-th topic; a nil topic is stored as NULL. -/
def topic (topics : List (Option Bytes)) (i : Nat) : Option Bytes := (topics[i]?).join

def toStorageLog (l : Domain.Log) : LogRow where
  blockNumber := int64 l.blockNumber
  blockHash := l.blockHash
  txHash := l.txHash
  txIndex := l.txIndex
  logIndex := l.logIndex
  address := l.address
  topic0 := topic l.topics 0
  topic1 := topic l.topics 1
  topic2 := topic l.topics 2
  topic3 := topic l.topics 3
  data := l.data.getD []

def toStorageTransaction (t : Domain.Transaction) : TransactionRow × List LogRow :=
  ({ txHash := t.txHash
     blockHash := t.blockHash
     blockNumber := int64 t.blockNumber
     txIndex := t.txIndex
     rawTx := t.rawTx
     fromAddress := t.fromAddress
     toAddress := t.toAddress
     contractAddress := t.contractAddress
     status := t.status.toNat
     fabricTxID := t.fabricTxID
     fabricTxStatus := t.fabricTxStatus
     gasUsed := int64 t.gasUsed.toNat
     cumulativeGasUsed := int64 t.cumulativeGasUsed.toNat },
   t.logs.map toStorageLog)

def toDomainTransaction (t : TransactionRow) : Domain.Transaction where
  txHash := t.txHash
  blockHash := t.blockHash
  blockNumber := uint64OfInt t.blockNumber
  txIndex := t.txIndex
  rawTx := t.rawTx
  fromAddress := t.fromAddress
  toAddress := t.toAddress
  contractAddress := t.contractAddress
  fabricTxID := t.fabricTxID
  fabricTxStatus := t.fabricTxStatus
  status := UInt8.ofNat (t.status % 256).toNat
  gasUsed := UInt64.ofNat (uint64OfInt t.gasUsed)
  cumulativeGasUsed := UInt64.ofNat (uint64OfInt t.cumulativeGasUsed)

/-- A stored transaction is read back as it was, without its logs. -/
theorem toDomainTransaction_toStorageTransaction {t : Domain.Transaction}
    (hn : t.blockNumber < 2 ^ 64) :
    toDomainTransaction (toStorageTransaction t).1 = { t with logs := [] } := by
  have hgas (g : UInt64) : UInt64.ofNat (uint64OfInt (int64 g.toNat)) = g := by
    rw [uint64OfInt_int64 g.toNat_lt, UInt64.ofNat_toNat]
  have hstatus : UInt8.ofNat ((t.status.toNat : Int) % 256).toNat = t.status := by
    have hlt := t.status.toNat_lt
    rw [show ((t.status.toNat : Int) % 256).toNat = t.status.toNat by omega, UInt8.ofNat_toNat]
  simp only [toDomainTransaction, toStorageTransaction, hgas, hstatus, uint64OfInt_int64 hn]

/-! ## Inserts -/

namespace Tables

/-- There is a block row with the number. -/
def hasBlock (db : Tables) (blockNumber : Int) : Bool :=
  db.blocks.any fun b => b.blockNumber = blockNumber

/-- There is a transaction row with the hash. -/
def hasTransaction (db : Tables) (txHash : Bytes) : Bool :=
  db.transactions.any fun t => t.txHash = txHash

def insertBlock (db : Tables) (row : BlockRow) : Except Violation Tables := do
  let blocks ← blocksSchema.insert true row db.blocks
  return { db with blocks := blocks }

-- The connection runs with `foreign_keys=ON`.
def insertTransaction (db : Tables) (row : TransactionRow) : Except Violation Tables := do
  let transactions ←
    transactionsSchema.insert (db.hasBlock row.blockNumber) row db.transactions
  return { db with transactions := transactions }

def insertLog (db : Tables) (row : LogRow) : Except Violation Tables := do
  let logs ←
    logsSchema.insert (db.hasTransaction row.txHash && db.hasBlock row.blockNumber) row db.logs
  return { db with logs := logs }

/-- A transaction and its logs. -/
def insertFull (db : Tables) (t : Domain.Transaction) : Except Violation Tables := do
  let (tx, logs) := toStorageTransaction t
  let db ← db.insertTransaction tx
  logs.foldlM insertLog db

end Tables

/-- The store: its database and the cached block number for fast reads. -/
structure Store where
  db : Tables := {}
  cachedBlockNumber : Nat := 0
deriving DecidableEq, Repr

namespace Store

/-- `InsertBlock`: one SQL transaction, so an error leaves the database as it was. -/
def insertBlock (s : Store) (block : Domain.Block) : Except Violation Store := do
  let db ← s.db.insertBlock (toStorageBlock block)
  let db ← block.transactions.foldlM Tables.insertFull db
  return { db := db, cachedBlockNumber := max s.cachedBlockNumber block.blockNumber }

/-! ## Queries -/

def getTransactionByHash (s : Store) (txHash : Bytes) : Option Domain.Transaction :=
  (s.db.transactions.find? fun t => t.txHash = txHash).map toDomainTransaction

/-- The rows of a block, `ORDER BY tx_index`. -/
def getTransactionsByBlockNumber (s : Store) (blockNumber : Int) : List TransactionRow :=
  (s.db.transactions.filter fun t => t.blockNumber = blockNumber).insertionSort
    fun t t' => t.txIndex ≤ t'.txIndex

def getBlockByNumber (s : Store) (blockNumber : Nat) : Option Domain.Block :=
  (s.db.blocks.find? fun b => b.blockNumber = int64 blockNumber).map fun b =>
    { toDomainBlock b with
      transactions := (s.getTransactionsByBlockNumber (int64 blockNumber)).map
        toDomainTransaction }

/-- The block row with the highest number. -/
def latestBlock (s : Store) : Option BlockRow :=
  (s.db.blocks.insertionSort fun b b' => b'.blockNumber ≤ b.blockNumber).head?

/-- `Init` on an existing database. -/
def init (db : Tables) : Store where
  db := db
  cachedBlockNumber := ((latestBlock { db := db }).map fun b => uint64OfInt b.blockNumber).getD 0

end Store

end Gateway

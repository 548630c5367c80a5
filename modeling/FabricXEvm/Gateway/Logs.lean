import FabricXEvm.Gateway.Inserts

/-!
# Stored logs

The queries that read logs back: `GetLogs`, whose condition is put together from a filter,
and `GetLogsByTxHash`.  Both join the logs with their blocks for the timestamp and say how
the result is ordered.

A condition on a column that is NULL is not true.  An unsigned argument with the high bit set
is refused before the query is run.
-/

open Blocks

namespace Gateway

/-- `domain.LogFilter`. -/
structure Domain.LogFilter where
  blockHash : Option Bytes := none
  fromBlock : Option Nat := none
  toBlock : Option Nat := none
  addresses : List Bytes := []
  topics : List (List Bytes) := []
deriving DecidableEq, Repr

/-- Why a query is refused. -/
inductive QueryError where
  | highBit (arg : Nat)
deriving DecidableEq, Repr

/-- An unsigned query argument. -/
def bindUint64 (n : Nat) : Except QueryError Int :=
  if n < 2 ^ 63 then .ok n else .error (.highBit n)

/-- The topic columns of a row. -/
def LogRow.topicColumns (l : LogRow) : List (Option Bytes) :=
  [l.topic0, l.topic1, l.topic2, l.topic3]

/-- `toDomainLog`: the topics are the columns up to the first NULL. -/
def toDomainLog (l : LogRow) (timestamp : Int) : Domain.Log where
  blockNumber := uint64OfInt l.blockNumber
  blockHash := l.blockHash
  txHash := l.txHash
  txIndex := l.txIndex
  logIndex := l.logIndex
  address := l.address
  topics := l.topicColumns.takeWhile Option.isSome
  data := some l.data
  timestamp := timestamp

/-- The condition on the topic columns: one of the alternatives at each position that has
some. -/
def topicsMatch : List (Option Bytes) → List (List Bytes) → Bool
  | column :: columns, alternatives :: topics =>
      (alternatives.isEmpty || column.any alternatives.contains) && topicsMatch columns topics
  | _, _ => true

/-- `ORDER BY l.block_number, l.tx_index, l.log_index`. -/
def LogRow.Before (l l' : LogRow) : Prop :=
  l.blockNumber < l'.blockNumber ∨ l.blockNumber = l'.blockNumber ∧
    (l.txIndex < l'.txIndex ∨ l.txIndex = l'.txIndex ∧ l.logIndex ≤ l'.logIndex)

instance : DecidableRel LogRow.Before := fun _ _ => inferInstanceAs (Decidable (_ ∨ _))

namespace Store

/-- The log rows, each with its block. -/
def logsWithBlock (s : Store) : List (LogRow × BlockRow) :=
  Table.join s.db.logs s.db.blocks fun l b => l.blockNumber = b.blockNumber

/-- `SELECT block_number FROM blocks WHERE block_hash = ?`. -/
def blockNumberByHash (s : Store) (blockHash : Bytes) : Option Int :=
  (s.db.blocks.find? fun b => b.blockHash = blockHash).map BlockRow.blockNumber

/-- The condition on the block, by hash or by range. -/
def blockCondition (s : Store) (filter : Domain.LogFilter) :
    Except QueryError (LogRow → Bool) :=
  match filter.blockHash with
  | some blockHash => .ok fun l => s.blockNumberByHash blockHash = some l.blockNumber
  | none => do
      let low ← filter.fromBlock.mapM bindUint64
      let high ← filter.toBlock.mapM bindUint64
      return fun l => low.all (· ≤ l.blockNumber) && high.all (l.blockNumber ≤ ·)

def getLogs (s : Store) (filter : Domain.LogFilter) : Except QueryError (List Domain.Log) := do
  let inBlocks ← s.blockCondition filter
  let rows := s.logsWithBlock.filter fun r =>
    inBlocks r.1 && (filter.addresses.isEmpty || filter.addresses.contains r.1.address) &&
      topicsMatch r.1.topicColumns filter.topics
  return (rows.insertionSort fun r r' => r.1.Before r'.1).map fun r => toDomainLog r.1 r.2.timestamp

def getLogsByTxHash (s : Store) (txHash : Bytes) : List Domain.Log :=
  let rows := s.logsWithBlock.filter fun r => r.1.txHash = txHash
  (rows.insertionSort fun r r' => r.1.logIndex ≤ r'.1.logIndex).map fun r =>
    toDomainLog r.1 r.2.timestamp

/-- The rows of a block, `ORDER BY t.tx_index`. -/
def getTransactionsByBlockHash (s : Store) (blockHash : Bytes) : List TransactionRow :=
  let rows := (Table.join s.db.transactions s.db.blocks fun t b =>
    t.blockNumber = b.blockNumber).filter fun r => r.2.blockHash = blockHash
  (rows.map Prod.fst).insertionSort fun t t' => t.txIndex ≤ t'.txIndex

def getBlockByHash (s : Store) (blockHash : Bytes) : Option Domain.Block :=
  (s.db.blocks.find? fun b => b.blockHash = blockHash).map fun b =>
    { toDomainBlock b with
      transactions := (s.getTransactionsByBlockHash blockHash).map toDomainTransaction }

end Store

/-! ## What the queries return -/

theorem LogRow.Before.total (l l' : LogRow) : l.Before l' ∨ l'.Before l := by
  unfold LogRow.Before
  omega

theorem LogRow.Before.trans {l l' l'' : LogRow} (h : l.Before l') (h' : l'.Before l'') :
    l.Before l'' := by
  unfold LogRow.Before at *
  omega

namespace Store

variable {s : Store}

theorem mem_logsWithBlock {r : LogRow × BlockRow} :
    r ∈ s.logsWithBlock ↔
      r.1 ∈ s.db.logs ∧ r.2 ∈ s.db.blocks ∧ r.1.blockNumber = r.2.blockNumber := by
  obtain ⟨l, b⟩ := r
  simp [logsWithBlock, Table.join]

theorem logsWithBlock_inj (hs : s.db.Valid) {r r' : LogRow × BlockRow} (hr : r ∈ s.logsWithBlock)
    (hr' : r' ∈ s.logsWithBlock) (hhash : r.1.txHash = r'.1.txHash)
    (hidx : r.1.logIndex = r'.1.logIndex) : r = r' := by
  obtain ⟨hl, hb, hnum⟩ := mem_logsWithBlock.mp hr
  obtain ⟨hl', hb', hnum'⟩ := mem_logsWithBlock.mp hr'
  have hlog : r.1 = r'.1 := hs.logs.eq_of_target hl hl' (Prod.ext hhash hidx)
  refine Prod.ext hlog (hs.blocks.eq_of_target hb hb' ?_)
  exact hnum.symm.trans ((congrArg LogRow.blockNumber hlog).trans hnum')

end Store

end Gateway

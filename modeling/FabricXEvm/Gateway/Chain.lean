import FabricXEvm.Events
import FabricXEvm.Gateway.Store

/-!
# The chain

`Chain` takes committed blocks into the gateway: it converts a block to the domain
model (`convertToDomain`), commits its writes to the state trie, and inserts the block,
its Ethereum transactions and their logs into the store.

The trie is a parameter: a state and a commit that returns the new state and its root
(`TrieStore`).  A `Chain` without a trie stores the empty root.

`Run` is every history of a chain: it is opened on an empty database, handles blocks,
some of which may fail, and may be reopened on the database at any time.
-/

open Blocks Common

namespace Gateway

/-! ## Conversion -/

/-- Why a committed transaction is not converted. -/
inductive TxError where
  | invalidTx
  | invalidSender
deriving DecidableEq, Repr

structure ConvertError where
  txID : Bytes
  blockNumber : Nat
  err : TxError
deriving DecidableEq, Repr

/-- The logs of a transaction, numbered from `logIndex` on. -/
def domainLogs (b : Block) (hash : Bytes) (txIndex : Int) : Int → List EventLog →
    List Domain.Log
  | _, [] => []
  | logIndex, l :: logs =>
      { blockNumber := b.number, blockHash := b.hash, txHash := hash, txIndex := txIndex,
        logIndex := logIndex, address := l.address, topics := l.topics, data := l.data } ::
      domainLogs b hash txIndex (logIndex + 1) logs

/-- `convertTransaction`, with the index of the next log of the block. -/
def convertTransaction (d : Decoders) (b : Block) (tx : Transaction) (ethTxBytes : Bytes)
    (ethStatus : UInt8) (logIndex : Int) : Except TxError (Domain.Transaction × Int) :=
  match d.unmarshalBinary ethTxBytes with
  | none => .error .invalidTx
  | some ethTx =>
    let signer :=
      if 0 < ethTx.chainId then Signer.latestForChainID ethTx.chainId else Signer.homestead
    match d.sender signer ethTx with
    | none => .error .invalidSender
    | some sender =>
      let contractAddr :=
        match ethTx.toAddress with
        | some _ => none
        | none => some (d.createAddress sender ethTx.nonce)
      -- Transactions with status 0 never emit logs; an event that does not decode
      -- counts as no logs.
      let rawLogs :=
        if ethStatus = 1 ∧ 0 < tx.event.length then (unmarshalLogs d tx.event).getD [] else []
      .ok ({ txHash := ethTx.hash
             blockHash := b.hash
             blockNumber := b.number
             txIndex := tx.number
             rawTx := ethTxBytes
             fromAddress := sender
             toAddress := ethTx.toAddress
             contractAddress := contractAddr
             status := ethStatus
             fabricTxID := tx.id
             fabricTxStatus := tx.status
             logs := domainLogs b ethTx.hash tx.number logIndex rawLogs },
           logIndex + rawLogs.length)

/-- The loop of `ConvertToDomain`, with its log index and cumulative gas. -/
def convertTransactions (d : Decoders) (b : Block) :
    Int → UInt64 → List Transaction → Except ConvertError (List Domain.Transaction)
  | _, _, [] => .ok []
  | logIndex, cumulativeGas, tx :: txs =>
    match evmTx tx with
    | none => convertTransactions d b logIndex cumulativeGas txs
    | some ethTxBytes =>
      let outcome := executionOutcome d tx
      let status : UInt8 := if outcome.1 then 1 else 0
      let cumulativeGas := cumulativeGas + outcome.2
      match convertTransaction d b tx ethTxBytes status logIndex with
      | .error e => .error { txID := tx.id, blockNumber := b.number, err := e }
      | .ok (etx, logIndex) =>
        match convertTransactions d b logIndex cumulativeGas txs with
        | .error e => .error e
        | .ok etxs =>
          .ok ({ etx with gasUsed := outcome.2, cumulativeGasUsed := cumulativeGas } :: etxs)

def convertToDomain (d : Decoders) (b : Block) : Except ConvertError Domain.Block :=
  match convertTransactions d b 0 0 b.transactions with
  | .error e => .error e
  | .ok etxs =>
    .ok { blockNumber := b.number
          blockHash := b.hash
          parentHash := b.parentHash
          timestamp := b.timestamp
          transactions := etxs }

/-! The first block of a ledger, with one committed transfer. -/

def minedTx (t : Signed) : Domain.Transaction where
  txHash := t.tx.hash
  blockHash := List.replicate 32 1
  blockNumber := 1
  txIndex := 0
  rawTx := t.raw
  fromAddress := t.sender
  toAddress := t.tx.toAddress
  contractAddress := none
  status := 1
  fabricTxID := [1]
  fabricTxStatus := .committed
  gasUsed := 21000
  cumulativeGasUsed := 21000

def minedBlock (t : Signed) : Domain.Block where
  blockNumber := 1
  blockHash := List.replicate 32 1
  parentHash := List.replicate 32 0
  timestamp := 0
  transactions := [minedTx t]

/-! ## Handling blocks -/

/-- `common.BytesToHash`: the last 32 bytes, padded on the left. -/
def bytesToHash (b : Bytes) : Bytes :=
  let b := b.drop (b.length - 32)
  List.replicate (32 - b.length) 0 ++ b

theorem bytesToHash_of_length {h : Bytes} (hlen : h.length = 32) : bytesToHash h = h := by
  simp [bytesToHash, hlen]

theorem length_bytesToHash (h : Bytes) : (bytesToHash h).length = 32 := by
  simp only [bytesToHash, List.length_append, List.length_replicate, List.length_drop]
  omega

/-- `common.BytesToAddress`. -/
def bytesToAddress (b : Bytes) : Bytes :=
  List.replicate (20 - b.length) 0 ++ b.drop (b.length - 20)

/-- `types.EmptyRootHash`. -/
def emptyRootHash : Bytes :=
  BigEndian.encode 32 0x56e81f171bcc55a6ff8345e692c0f86e5b48e01b996cadc001622fb5e363b421

/-- The state trie: `New` at a root, and `Commit`. -/
structure TrieStore (τ ε : Type) where
  new : Bytes → Except ε τ
  commit : τ → Block → Except ε (τ × Bytes)

structure Chain (τ : Type) where
  store : Store
  ts : Option τ
  /-- The hash of the last committed block. -/
  prevHash : Bytes

inductive HandleError (ε : Type) where
  | convert (e : ConvertError)
  | trie (e : ε)
  | insert (v : Violation)

namespace Chain

variable {τ ε : Type}

/-- `NewChain` on an existing database. -/
def new (trie : TrieStore τ ε) (withTrie : Bool) (db : Tables) : Except ε (Chain τ) := do
  let store := Store.init db
  let zero := bytesToHash []
  let initialRoot := (store.latestBlock.map fun b => bytesToHash b.stateRoot).getD zero
  let prevHash := (store.latestBlock.map fun b => bytesToHash b.blockHash).getD zero
  if withTrie then
    let ts ← trie.new initialRoot
    return { store := store, ts := some ts, prevHash := prevHash }
  else return { store := store, ts := none, prevHash := prevHash }

/-- The trie after the block and the root to store. -/
def commitTrie (trie : TrieStore τ ε) (c : Chain τ) (b : Block) :
    Except ε (Option τ × Bytes) :=
  match c.ts with
  | none => .ok (none, emptyRootHash)
  | some ts => (trie.commit ts b).map fun (ts, root) => (some ts, root)

/-- `Handle`: the chain afterwards and the error, if any.  The trie commits before the
insert, so a refused insert leaves it ahead of the store. -/
def handle (d : Decoders) (trie : TrieStore τ ε) (c : Chain τ) (b : Block) :
    Chain τ × Option (HandleError ε) :=
  match convertToDomain d b with
  | .error e => (c, some (.convert e))
  | .ok ebl =>
    match c.commitTrie trie b with
    | .error e => (c, some (.trie e))
    | .ok (ts, stateRoot) =>
      match c.store.insertBlock { ebl with parentHash := c.prevHash, stateRoot := stateRoot } with
      | .error v => ({ c with ts := ts }, some (.insert v))
      | .ok store => ({ store := store, ts := ts, prevHash := bytesToHash ebl.blockHash }, none)

/-- The histories of a chain, with the blocks it handled without an error. -/
inductive Run (d : Decoders) (trie : TrieStore τ ε) : List Block → Chain τ → Prop where
  | new {withTrie c} (h : new trie withTrie {} = .ok c) : Run d trie [] c
  | handle {bs c c' b} (hrun : Run d trie bs c) (h : c.handle d trie b = (c', none)) :
      Run d trie (bs ++ [b]) c'
  | failed {bs c c' b e} (hrun : Run d trie bs c) (h : c.handle d trie b = (c', some e)) :
      Run d trie bs c'
  | reopen {bs c c' withTrie} (hrun : Run d trie bs c)
      (h : Chain.new trie withTrie c.store.db = .ok c') : Run d trie bs c'

end Chain

end Gateway

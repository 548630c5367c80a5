import Mathlib.Data.List.Nodup
import FabricXEvm.Lib.Loops
import FabricXEvm.Gateway.Chain

/-!
# The record of an Ethereum transaction

An Ethereum transaction may reach the chain several times: a Fabric transaction that
carries it fails validation, and it is submitted again in another one.  At most one of
the occurrences is Fabric-valid.

The store keeps the first occurrence it is given and skips the others
(`Recorded.first`).  So the record of a hash is its committed occurrence exactly when
that is the first one (`committedRecord_iff`); a transaction that was resubmitted after
a conflict keeps its invalid record forever (`resubmitted_keeps_invalid_record`).
-/

open Blocks Common

namespace Gateway

/-! ## What an insert of a block changes -/

/-- The row of a transaction. -/
def rowOf (t : Domain.Transaction) : TransactionRow := (toStorageTransaction t).1

namespace Tables

variable {db db' : Tables}

theorem insertBlock_eq {row : BlockRow} (h : db.insertBlock row = .ok db') :
    ∃ blocks, blocksSchema.insert true row db.blocks = .ok blocks ∧ db' = { db with blocks } := by
  unfold insertBlock at h
  obtain ⟨blocks, hblocks, h⟩ := Except.of_bind_ok h
  exact ⟨blocks, hblocks, (Except.ok.inj h).symm⟩

theorem insertTransaction_eq {row : TransactionRow} (h : db.insertTransaction row = .ok db') :
    ∃ txs, transactionsSchema.insert (db.hasBlock row.blockNumber) row db.transactions = .ok txs ∧
      db' = { db with transactions := txs } := by
  unfold insertTransaction at h
  obtain ⟨txs, htxs, h⟩ := Except.of_bind_ok h
  exact ⟨txs, htxs, (Except.ok.inj h).symm⟩

theorem insertLog_eq {l : LogRow} (h : db.insertLog l = .ok db') :
    ∃ logs, logsSchema.insert (db.hasTransaction l.txHash && db.hasBlock l.blockNumber) l db.logs =
        .ok logs ∧ db' = { db with logs } := by
  unfold insertLog at h
  obtain ⟨logs, hlogs, h⟩ := Except.of_bind_ok h
  exact ⟨logs, hlogs, (Except.ok.inj h).symm⟩

/-- The row of a transaction goes in, and then its logs. -/
theorem insertFull_eq {t : Domain.Transaction} (h : db.insertFull t = .ok db') :
    ∃ txs, transactionsSchema.insert (db.hasBlock (rowOf t).blockNumber) (rowOf t)
        db.transactions = .ok txs ∧
      (t.logs.map toStorageLog).foldlM insertLog { db with transactions := txs } = .ok db' := by
  obtain ⟨db₁, h₁, h⟩ := Except.of_bind_ok h
  obtain ⟨txs, htxs, rfl⟩ := insertTransaction_eq h₁
  exact ⟨txs, htxs, h⟩

/-- Of the tables of blocks and transactions, inserting a transaction with its logs
changes only the second, by its row. -/
theorem insertFull_ok {t : Domain.Transaction} (h : db.insertFull t = .ok db') :
    transactionsSchema.insert (db.hasBlock (rowOf t).blockNumber) (rowOf t) db.transactions =
        .ok db'.transactions ∧
      db'.blocks = db.blocks := by
  obtain ⟨txs, htxs, h⟩ := insertFull_eq h
  have hlogs := Except.foldlM_ok
    (fun _ db' => db'.transactions = txs ∧ db'.blocks = db.blocks) h ⟨rfl, rfl⟩
    fun hP hstep => by
      obtain ⟨logs, -, rfl⟩ := insertLog_eq hstep
      exact hP
  exact ⟨by rw [hlogs.1]; exact htxs, hlogs.2⟩

theorem hasBlock_mono {n : Int} (hsub : db.blocks ⊆ db'.blocks) (h : db.hasBlock n = true) :
    db'.hasBlock n = true := by
  obtain ⟨b, hb, hn⟩ := List.any_eq_true.mp h
  exact List.any_eq_true.mpr ⟨b, hsub hb, hn⟩

/-- The stored transactions are the first ones of their hash among `txs`, and each is of
a stored block. -/
structure Recorded (txs : List Domain.Transaction) (db : Tables) : Prop where
  first : ∀ k, (db.transactions.find? fun r => r.txHash = k) =
    (txs.find? fun t => t.txHash = k).map rowOf
  stored : ∀ r ∈ db.transactions, db.hasBlock r.blockNumber

theorem Recorded.empty : Recorded [] {} where
  first _ := rfl
  stored _ hr := nomatch hr

theorem Recorded.insertBlock {txs : List Domain.Transaction} {row : BlockRow}
    (hdb : Recorded txs db) (h : db.insertBlock row = .ok db') : Recorded txs db' := by
  obtain ⟨blocks, hblocks, rfl⟩ := insertBlock_eq h
  exact ⟨hdb.first, fun r hr =>
    hasBlock_mono (fun _ => Schema.mem_of_insert hblocks) (hdb.stored r hr)⟩

theorem Recorded.insertFull {txs : List Domain.Transaction} {t : Domain.Transaction}
    (hdb : Recorded txs db) (hblock : db.hasBlock (rowOf t).blockNumber)
    (h : db.insertFull t = .ok db') : Recorded (txs ++ [t]) db' := by
  obtain ⟨hrows, hblocks⟩ := insertFull_ok h
  refine ⟨fun k => ?_, fun r hr => ?_⟩
  · have hfind := Schema.find?_insert hrows k
    rw [show (fun r => decide (transactionsSchema.target r = k)) =
      fun r : TransactionRow => decide (r.txHash = k) from rfl] at hfind
    rw [hfind, hdb.first, List.find?_append, Option.map_or]
    by_cases hk : t.txHash = k <;> simp [rowOf, toStorageTransaction, hk]
  · show db'.blocks.any _ = true
    rw [hblocks]
    rcases Schema.eq_or_mem_of_insert hrows hr with hr | rfl
    · exact hdb.stored r hr
    · exact hblock

end Tables

open Tables (Recorded)

/-- The row of a block goes in, and then its transactions. -/
theorem Store.insertBlock_eq {s s' : Store} {block : Domain.Block}
    (h : s.insertBlock block = .ok s') :
    ∃ db₁ db₂, s.db.insertBlock (toStorageBlock block) = .ok db₁ ∧
      block.transactions.foldlM Tables.insertFull db₁ = .ok db₂ ∧
      s' = { db := db₂, cachedBlockNumber := max s.cachedBlockNumber block.blockNumber } := by
  obtain ⟨db₁, h₁, h⟩ := Except.of_bind_ok h
  obtain ⟨db₂, h₂, h⟩ := Except.of_bind_ok h
  exact ⟨db₁, db₂, h₁, h₂, (Except.ok.inj h).symm⟩

theorem Store.insertBlock_recorded {s s' : Store} {block : Domain.Block}
    {txs : List Domain.Transaction} (hdb : Recorded txs s.db) (h : s.insertBlock block = .ok s')
    (hblock : ∀ t ∈ block.transactions, t.blockNumber = block.blockNumber) :
    Recorded (txs ++ block.transactions) s'.db := by
  obtain ⟨db₁, db₂, h₁, h₂, rfl⟩ := Store.insertBlock_eq h
  have hnum : db₁.hasBlock (int64 block.blockNumber) := by
    obtain ⟨blocks, hblocks, rfl⟩ := Tables.insertBlock_eq h₁
    obtain ⟨r, hr, hrn⟩ := Schema.exists_target_of_insert hblocks
    exact List.any_eq_true.mpr ⟨r, hr, decide_eq_true hrn⟩
  -- Every transaction of the block refers to the block row inserted first.
  have hloop := Except.foldlM_ok
    (fun done db => (∀ t ∈ done, t ∈ block.transactions) →
      Recorded (txs ++ done) db ∧ db.blocks = db₁.blocks) h₂
    (fun _ => ⟨by simpa using hdb.insertBlock h₁, rfl⟩)
    (fun {done s t s'} hP hstep hin => by
      obtain ⟨hrec, hblocks⟩ := hP fun t ht => hin t (by simp [ht])
      have ht : t.blockNumber = block.blockNumber := hblock t (hin t (by simp))
      refine ⟨?_, (Tables.insertFull_ok hstep).2.trans hblocks⟩
      rw [← List.append_assoc]
      refine hrec.insertFull ?_ hstep
      have hrow : (rowOf t).blockNumber = int64 block.blockNumber := congrArg int64 ht
      rw [hrow, Tables.hasBlock, hblocks]
      exact hnum)
  exact (hloop fun t ht => ht).1

/-! ## Conversion keeps the order of the transactions -/

/-- The hash of the Ethereum transaction that a Fabric transaction carries. -/
def ethHash (d : Decoders) (tx : Transaction) : Option Bytes :=
  (evmTx tx).bind fun raw => (d.unmarshalBinary raw).map EthTx.hash

/-- The receipt status of a Fabric transaction. -/
def receiptStatus (d : Decoders) (tx : Transaction) : UInt8 :=
  if (executionOutcome d tx).1 then 1 else 0

/-- The domain transaction of a Fabric transaction. -/
structure Converted (d : Decoders) (b : Block) (tx : Transaction) (t : Domain.Transaction) :
    Prop where
  hash : ethHash d tx = some t.txHash
  blockNumber : t.blockNumber = b.number
  txIndex : t.txIndex = tx.number
  status : t.status = receiptStatus d tx
  gasUsed : t.gasUsed = (executionOutcome d tx).2
  fabricTxID : t.fabricTxID = tx.id

/-- The logs an event holds, if the transaction succeeded. -/
def rawLogs (d : Decoders) (tx : Transaction) : List EventLog :=
  if receiptStatus d tx = 1 ∧ 0 < tx.event.length then (unmarshalLogs d tx.event).getD [] else []

/-- What `convertTransaction` makes of a transaction whose logs are numbered from `i` on. -/
structure Conversion (d : Decoders) (b : Block) (tx : Transaction) (ethTx : EthTx) (i : Int)
    (t : Domain.Transaction) (next : Int) : Prop where
  txHash : t.txHash = ethTx.hash
  blockHash : t.blockHash = b.hash
  blockNumber : t.blockNumber = b.number
  txIndex : t.txIndex = tx.number
  status : t.status = receiptStatus d tx
  fabricTxID : t.fabricTxID = tx.id
  logs : t.logs = domainLogs b ethTx.hash tx.number i (rawLogs d tx)
  next : next = i + (rawLogs d tx).length

theorem convertTransaction_ok {d : Decoders} {b : Block} {tx : Transaction} {raw : Bytes}
    {i next : Int} {t : Domain.Transaction}
    (h : convertTransaction d b tx raw (receiptStatus d tx) i = .ok (t, next)) :
    ∃ ethTx, d.unmarshalBinary raw = some ethTx ∧ Conversion d b tx ethTx i t next := by
  unfold convertTransaction at h
  split at h
  · cases h
  next ethTx heth =>
    dsimp only at h
    split at h
    · cases h
    · obtain ⟨rfl, rfl⟩ := Prod.mk.inj (Except.ok.inj h)
      exact ⟨ethTx, heth, rfl, rfl, rfl, rfl, rfl, rfl, rfl, rfl⟩

/-- What `convertTransaction` gave for the transaction, with its gas. -/
def ConvertedFrom (d : Decoders) (b : Block) (tx : Transaction) (t : Domain.Transaction) : Prop :=
  ∃ raw logIndex t₀ next gas, evmTx tx = some raw ∧
    convertTransaction d b tx raw (receiptStatus d tx) logIndex = .ok (t₀, next) ∧
    t = { t₀ with gasUsed := (executionOutcome d tx).2, cumulativeGasUsed := gas }

/-- The loop converts the EVM transactions one by one, in order. -/
theorem convertTransactions_from {d : Decoders} {b : Block} {txs : List Transaction}
    {logIndex : Int} {cumulativeGas : UInt64} {ts : List Domain.Transaction}
    (h : convertTransactions d b logIndex cumulativeGas txs = .ok ts) :
    List.Forall₂ (ConvertedFrom d b) (txs.filter fun tx => (evmTx tx).isSome) ts := by
  induction txs generalizing logIndex cumulativeGas ts with
  | nil =>
      obtain rfl := Except.ok.inj h
      exact .nil
  | cons tx txs ih =>
      rw [convertTransactions] at h
      split at h
      next hraw => simpa [List.filter_cons, hraw] using ih h
      next raw hraw =>
        dsimp only at h
        split at h
        · cases h
        next t next hconv =>
          split at h
          · cases h
          next ts' hrest =>
            obtain rfl := Except.ok.inj h
            rw [List.filter_cons_of_pos (by simp [hraw])]
            exact .cons ⟨raw, logIndex, t, next, _, hraw, hconv, rfl⟩ (ih hrest)

theorem ConvertedFrom.converted {d : Decoders} {b : Block} {tx : Transaction}
    {t : Domain.Transaction} (h : ConvertedFrom d b tx t) : Converted d b tx t := by
  obtain ⟨raw, logIndex, t₀, next, gas, hraw, hconv, rfl⟩ := h
  obtain ⟨ethTx, heth, hc⟩ := convertTransaction_ok hconv
  exact { hash := by simp [ethHash, hraw, heth, hc.txHash]
          blockNumber := hc.blockNumber
          txIndex := hc.txIndex
          status := hc.status
          gasUsed := rfl
          fabricTxID := hc.fabricTxID }

theorem ConvertedFrom.blockHash {d : Decoders} {b : Block} {tx : Transaction}
    {t : Domain.Transaction} (h : ConvertedFrom d b tx t) : t.blockHash = b.hash := by
  obtain ⟨raw, logIndex, t₀, next, gas, hraw, hconv, rfl⟩ := h
  obtain ⟨ethTx, heth, hc⟩ := convertTransaction_ok hconv
  exact hc.blockHash

/-- The logs of a transaction say where it is. -/
structure Domain.Log.At (l : Domain.Log) (b : Blocks.Block) (hash : Bytes) (txIndex : Int) : Prop where
  blockNumber : l.blockNumber = b.number
  blockHash : l.blockHash = b.hash
  txHash : l.txHash = hash
  txIndex : l.txIndex = txIndex
  timestamp : l.timestamp = 0

theorem at_of_mem_domainLogs {b : Block} {hash : Bytes} {txIndex i : Int} {raw : List EventLog}
    {l : Domain.Log} (h : l ∈ domainLogs b hash txIndex i raw) :
    l.At b hash txIndex ∧ i ≤ l.logIndex ∧ l.logIndex < i + raw.length := by
  induction raw generalizing i with
  | nil => cases h
  | cons e raw ih =>
      rw [List.length_cons]
      rcases List.mem_cons.mp h with rfl | h
      · exact ⟨⟨rfl, rfl, rfl, rfl, rfl⟩, Int.le_refl i, by dsimp only; omega⟩
      · obtain ⟨hat, hidx⟩ := ih h
        exact ⟨hat, by omega⟩

theorem ConvertedFrom.mem_logs {d : Decoders} {b : Block} {tx : Transaction}
    {t : Domain.Transaction} (h : ConvertedFrom d b tx t) {l : Domain.Log} (hl : l ∈ t.logs) :
    l.At b t.txHash tx.number := by
  obtain ⟨raw, i, t₀, next, gas, _, hconv, rfl⟩ := h
  obtain ⟨ethTx, _, hc⟩ := convertTransaction_ok hconv
  have hl : l ∈ t₀.logs := hl
  rw [hc.logs, ← hc.txHash] at hl
  exact (at_of_mem_domainLogs hl).1

/-- Of two lists in step, an element of the second has a counterpart in the first. -/
theorem exists_of_mem_right {α β : Type} {R : α → β → Prop} {as : List α} {bs : List β}
    (h : List.Forall₂ R as bs) {b : β} (hb : b ∈ bs) : ∃ a ∈ as, R a b := by
  induction h with
  | nil => cases hb
  | cons hab _ ih =>
      rcases List.mem_cons.mp hb with rfl | hb
      · exact ⟨_, List.mem_cons_self, hab⟩
      · obtain ⟨a, ha, hR⟩ := ih hb
        exact ⟨a, List.mem_cons_of_mem _ ha, hR⟩

theorem convertToDomain_ok {d : Decoders} {b : Block} {ebl : Domain.Block}
    (h : convertToDomain d b = .ok ebl) :
    ebl.blockNumber = b.number ∧ ebl.blockHash = b.hash ∧
      List.Forall₂ (Converted d b) (b.transactions.filter fun tx => (evmTx tx).isSome)
        ebl.transactions := by
  unfold convertToDomain at h
  split at h
  · cases h
  next ts hts =>
    obtain rfl := Except.ok.inj h
    exact ⟨rfl, rfl, (convertTransactions_from hts).imp fun _ _ h => h.converted⟩

theorem convertedFrom_of_mem {d : Decoders} {b : Block} {ebl : Domain.Block}
    {t : Domain.Transaction} (h : convertToDomain d b = .ok ebl) (ht : t ∈ ebl.transactions) :
    ∃ tx ∈ b.transactions, ConvertedFrom d b tx t := by
  unfold convertToDomain at h
  split at h
  · cases h
  next ts hts =>
    obtain rfl := Except.ok.inj h
    obtain ⟨tx, htx, hfrom⟩ := exists_of_mem_right (convertTransactions_from hts) ht
    exact ⟨tx, (List.mem_filter.mp htx).1, hfrom⟩

theorem blockNumber_of_mem {d : Decoders} {b : Block} {ebl : Domain.Block}
    (h : convertToDomain d b = .ok ebl) :
    ∀ t ∈ ebl.transactions, t.blockNumber = ebl.blockNumber := by
  intro t ht
  obtain ⟨tx, _, hfrom⟩ := convertedFrom_of_mem h ht
  rw [hfrom.converted.blockNumber, (convertToDomain_ok h).1]

/-! ## Occurrences of a hash -/

/-- The Fabric transactions of the blocks that carry the Ethereum transaction, in order. -/
def occurrences (d : Decoders) (bs : List Block) (hash : Bytes) : List (Block × Transaction) :=
  bs.flatMap fun b => (b.transactions.filter fun tx => ethHash d tx = some hash).map (b, ·)

theorem occurrences_append (d : Decoders) (bs bs' : List Block) (hash : Bytes) :
    occurrences d (bs ++ bs') hash = occurrences d bs hash ++ occurrences d bs' hash :=
  List.flatMap_append

theorem mem_occurrences {d : Decoders} {bs : List Block} {hash : Bytes} {b : Block}
    {tx : Transaction} :
    (b, tx) ∈ occurrences d bs hash ↔ b ∈ bs ∧ tx ∈ b.transactions ∧ ethHash d tx = some hash := by
  simp [occurrences]

/-- Of two lists in step, the first elements that satisfy corresponding conditions
correspond. -/
theorem head?_filter_rel {α β : Type} {R : α → β → Prop} {p : α → Bool} {q : β → Bool}
    {as : List α} {bs : List β} (h : List.Forall₂ R as bs) (hpq : ∀ {a b}, R a b → p a = q b) :
    Option.Rel R (as.filter p).head? (bs.find? q) := by
  induction h with
  | nil => exact .none
  | @cons a b as bs hab _ ih =>
      cases hq : q b with
      | false =>
          rw [List.filter_cons_of_neg (by simp [hpq hab, hq]), List.find?_cons, hq]
          exact ih
      | true =>
          rw [List.filter_cons_of_pos (by rw [hpq hab, hq]), List.find?_cons, hq]
          exact .some hab

/-- The first transaction of a block that is converted for a hash is its first
occurrence there. -/
theorem first_of_block {d : Decoders} {b : Block} {ebl : Domain.Block}
    (h : convertToDomain d b = .ok ebl) (hash : Bytes) :
    Option.Rel (fun o t => Converted d o.1 o.2 t) (occurrences d [b] hash).head?
      (ebl.transactions.find? fun t => t.txHash = hash) := by
  have hrel := head?_filter_rel (convertToDomain_ok h).2.2
    (p := fun tx => ethHash d tx = some hash) (q := fun t => t.txHash = hash)
    fun hconv => by simp [hconv.hash]
  -- A transaction with an Ethereum hash is an EVM transaction.
  have hevm : ((b.transactions.filter fun tx => (evmTx tx).isSome).filter
      fun tx => ethHash d tx = some hash) =
      b.transactions.filter fun tx => ethHash d tx = some hash := by
    rw [List.filter_filter]
    refine List.filter_congr fun tx _ => ?_
    cases hraw : evmTx tx <;> simp [ethHash, hraw]
  rw [hevm] at hrel
  simp only [occurrences, List.flatMap_cons, List.flatMap_nil, List.append_nil, List.head?_map]
  generalize (b.transactions.filter _).head? = o at hrel ⊢
  generalize ebl.transactions.find? _ = t at hrel ⊢
  cases hrel with
  | none => exact .none
  | some hconv => exact .some hconv

theorem optionRel_or {α β : Type} {R : α → β → Prop} {a a' : Option α} {b b' : Option β}
    (h : Option.Rel R a b) (h' : Option.Rel R a' b') : Option.Rel R (a.or a') (b.or b') := by
  cases h with
  | none => simpa using h'
  | some hab => exact .some hab

namespace Chain

variable {τ ε : Type} {d : Decoders} {trie : TrieStore τ ε} {bs : List Block} {c c' : Chain τ}
  {b : Block}

/-! ## Runs -/

/-- Everything a `Handle` without an error does. -/
theorem handle_ok_iff :
    c.handle d trie b = (c', none) ↔
      ∃ ebl ts root store, convertToDomain d b = .ok ebl ∧
        c.commitTrie trie b = .ok (ts, root) ∧
        c.store.insertBlock { ebl with parentHash := c.prevHash, stateRoot := root } = .ok store ∧
        c' = { store := store, ts := ts, prevHash := bytesToHash ebl.blockHash } := by
  unfold handle
  constructor
  · intro h
    split at h
    · cases h
    next ebl hebl =>
      split at h
      · cases h
      next ts root hts =>
        split at h
        · cases h
        next store hstore => exact ⟨ebl, ts, root, store, hebl, hts, hstore, (Prod.mk.inj h).1.symm⟩
  · rintro ⟨ebl, ts, root, store, hebl, hts, hstore, rfl⟩
    rw [hebl]
    dsimp only
    rw [hts]
    dsimp only
    rw [hstore]

/-- A `Handle` without an error converted the block and inserted it. -/
theorem of_handle_ok (h : c.handle d trie b = (c', none)) :
    ∃ ebl root, convertToDomain d b = .ok ebl ∧
      c.store.insertBlock { ebl with parentHash := c.prevHash, stateRoot := root } =
        .ok c'.store := by
  obtain ⟨ebl, ts, root, store, hebl, _, hstore, rfl⟩ := handle_ok_iff.mp h
  exact ⟨ebl, root, hebl, hstore⟩

/-- A `Handle` with an error changes the trie at most. -/
theorem of_handle_error {e : HandleError ε} (h : c.handle d trie b = (c', some e)) :
    ∃ ts, c' = { c with ts } := by
  unfold handle at h
  split at h
  next =>
    obtain ⟨rfl, -⟩ := Prod.mk.inj h
    exact ⟨c.ts, rfl⟩
  next =>
    split at h
    next =>
      obtain ⟨rfl, -⟩ := Prod.mk.inj h
      exact ⟨c.ts, rfl⟩
    next ts _ _ =>
      split at h
      next =>
        obtain ⟨rfl, -⟩ := Prod.mk.inj h
        exact ⟨ts, rfl⟩
      next => cases h

theorem store_of_handle_error {e : HandleError ε} (h : c.handle d trie b = (c', some e)) :
    c'.store = c.store := by
  obtain ⟨ts, rfl⟩ := of_handle_error h
  rfl

theorem db_of_new {withTrie : Bool} {db : Tables} (h : Chain.new trie withTrie db = .ok c) :
    c.store.db = db := by
  unfold Chain.new at h
  split at h
  · obtain ⟨ts, _, h⟩ := Except.of_bind_ok h
    obtain rfl := Except.ok.inj h
    rfl
  · obtain rfl := Except.ok.inj h
    rfl

/-- The store holds the first occurrence of each hash among the handled blocks. -/
structure Inv (d : Decoders) (bs : List Block) (db : Tables) : Prop where
  recorded : ∃ txs, Recorded txs db ∧ ∀ hash,
    Option.Rel (fun o t => Converted d o.1 o.2 t) (occurrences d bs hash).head?
      (txs.find? fun t => t.txHash = hash)

theorem Run.inv (hrun : Run d trie bs c) : Inv d bs c.store.db := by
  induction hrun with
  | new h => rw [db_of_new h]; exact ⟨[], .empty, fun _ => .none⟩
  | @handle bs c c' b _ h ih =>
      obtain ⟨ebl, root, hebl, hins⟩ := of_handle_ok h
      obtain ⟨txs, hrec, hfirst⟩ := ih
      have hrec' := Store.insertBlock_recorded hrec hins
        fun t ht => blockNumber_of_mem hebl t ht
      refine ⟨txs ++ ebl.transactions, hrec', fun hash => ?_⟩
      rw [occurrences_append, List.head?_append, List.find?_append]
      exact optionRel_or (hfirst hash) (first_of_block hebl hash)
  | failed _ h ih => rw [store_of_handle_error h]; exact ih
  | reopen _ h ih => rw [db_of_new h]; exact ih

/-! ## The committed occurrence -/

/-- The stored transaction of a hash is the occurrence `tx` in `b`, and the block lists
it. -/
def CommittedRecord (d : Decoders) (s : Store) (hash : Bytes) (b : Block) (tx : Transaction) :
    Prop :=
  ∃ t block, s.getTransactionByHash hash = some t ∧ t.blockNumber = b.number ∧
    t.txIndex = tx.number ∧ t.status = receiptStatus d tx ∧
    t.gasUsed = (executionOutcome d tx).2 ∧ t.fabricTxID = tx.id ∧
    s.getBlockByNumber b.number = some block ∧ t ∈ block.transactions

/-- The blocks are of one ledger: numbers are unsigned 64-bit ones, and a block number
and an index in the block name one transaction.  Blocks may be handled again. -/
structure Ledger (bs : List Block) : Prop where
  number_lt : ∀ b ∈ bs, b.number < 2 ^ 64
  position : ∀ b ∈ bs, ∀ b' ∈ bs, ∀ tx ∈ b.transactions, ∀ tx' ∈ b'.transactions,
    b.number = b'.number → tx.number = tx'.number → tx = tx'

/-- The record of a hash is its first occurrence. -/
theorem Run.record_eq_first (hrun : Run d trie bs c) (hledger : Ledger bs) {hash : Bytes}
    {first : Block × Transaction} (hfirst : (occurrences d bs hash).head? = some first) :
    ∃ t, Converted d first.1 first.2 t ∧
      (c.store.db.transactions.find? fun r => r.txHash = hash) = some (rowOf t) ∧
      c.store.getTransactionByHash hash = some { t with logs := [] } := by
  obtain ⟨txs, hrec, hrel⟩ := hrun.inv
  have hrel := hrel hash
  rw [hfirst] at hrel
  generalize hfind : (txs.find? fun t => t.txHash = hash) = found at hrel
  cases hrel with
  | @some _ t hconv =>
      have hrow := hrec.first hash
      rw [hfind] at hrow
      have hmem := mem_occurrences.mp (List.mem_of_head? hfirst)
      have hlt : t.blockNumber < 2 ^ 64 := by
        rw [hconv.blockNumber]
        exact hledger.number_lt _ hmem.1
      refine ⟨t, hconv, hrow, ?_⟩
      rw [Store.getTransactionByHash, hrow]
      exact congrArg some (toDomainTransaction_toStorageTransaction hlt)

/-- A recorded transaction is listed in its block. -/
theorem Run.listed (hrun : Run d trie bs c) {r : TransactionRow} {n : Nat}
    (hr : r ∈ c.store.db.transactions) (hn : r.blockNumber = int64 n) :
    ∃ block, c.store.getBlockByNumber n = some block ∧
      toDomainTransaction r ∈ block.transactions := by
  obtain ⟨txs, hrec, _⟩ := hrun.inv
  have hblock := hrec.stored r hr
  rw [hn, Tables.hasBlock, List.any_eq_true] at hblock
  obtain ⟨row, hrow⟩ := Option.isSome_iff_exists.mp (List.find?_isSome.mpr hblock)
  refine ⟨_, by rw [Store.getBlockByNumber, hrow]; rfl, ?_⟩
  refine List.mem_map_of_mem ?_
  rw [Store.getTransactionsByBlockNumber, List.mem_insertionSort]
  exact List.mem_filter.mpr ⟨hr, decide_eq_true hn⟩

/-- After any run, the record of a hash with a Fabric-valid occurrence is that occurrence
exactly when the first occurrence of the hash is a valid one. -/
theorem committedRecord_iff (hrun : Run d trie bs c) (hledger : Ledger bs) {hash : Bytes}
    {tx : Transaction} (hocc : (b, tx) ∈ occurrences d bs hash) (hvalid : tx.valid = true)
    (honce : ∀ o ∈ occurrences d bs hash, o.2.valid = true → o.1.number = b.number ∧ o.2 = tx) :
    CommittedRecord d c.store hash b tx ↔
      ∀ first, (occurrences d bs hash).head? = some first → first.2.valid = true := by
  constructor
  · rintro ⟨t, block, hget, hnum, hidx, -, -, -, -, -⟩ first hfirst
    obtain ⟨t', hconv, -, hget'⟩ := hrun.record_eq_first hledger hfirst
    obtain rfl := Option.some.inj (hget.symm.trans hget')
    -- The record has the position of the first occurrence and that of the valid one.
    have hmem := mem_occurrences.mp hocc
    have hmem' := mem_occurrences.mp (List.mem_of_head? hfirst)
    have htx : first.2 = tx := hledger.position _ hmem'.1 _ hmem.1 _ hmem'.2.1 _ hmem.2.1
      (hconv.blockNumber.symm.trans hnum) (hconv.txIndex.symm.trans hidx)
    rw [htx]
    exact hvalid
  · intro hall
    obtain ⟨first, hfirst⟩ : ∃ first, (occurrences d bs hash).head? = some first :=
      Option.isSome_iff_exists.mp (List.isSome_head?.mpr (List.ne_nil_of_mem hocc))
    obtain ⟨t, hconv, hrow, hget⟩ := hrun.record_eq_first hledger hfirst
    obtain ⟨hnum, rfl⟩ := honce first (List.mem_of_head? hfirst) (hall first hfirst)
    have hblock : (rowOf t).blockNumber = int64 b.number := by
      rw [← hnum, ← hconv.blockNumber]; rfl
    obtain ⟨block, hlist, hin⟩ := hrun.listed (List.mem_of_find?_eq_some hrow) hblock
    refine ⟨_, block, hget, hconv.blockNumber.trans hnum, hconv.txIndex, hconv.status,
      hconv.gasUsed, hconv.fabricTxID, hlist, ?_⟩
    rw [Store.getTransactionByHash, hrow] at hget
    rw [← Option.some.inj hget]
    exact hin

/-! ## A transaction resubmitted after a conflict -/

def noTrie : TrieStore Unit Unit where
  new _ := .ok ()
  commit _ _ := .ok ((), emptyRootHash)

/-- A Fabric transaction that carries `transfer₀`. -/
def carrier (id : UInt8) (status : Status) : Transaction where
  id := [id]
  status := status
  payload := successPayload
  eventName := proposalTypeEVMTx
  inputArgs := [transfer₀.raw]

def blockOf (n : Nat) (tx : Transaction) : Block where
  number := n
  hash := List.replicate 32 (UInt8.ofNat n)
  transactions := [tx]

def opened : Chain Unit := { store := {}, ts := none, prevHash := bytesToHash [] }

theorem run_opened : Run sampleDecoders noTrie [] opened := @Run.new _ _ _ _ false _ rfl

/-- Another attempt meets a conflict after the first one was committed. -/
theorem committedRecord_of_first_attempt :
    let bs := [blockOf 1 (carrier 1 .committed), blockOf 2 (carrier 2 .mvccConflict)]
    (occurrences sampleDecoders bs transfer₀.tx.hash).length = 2 ∧
      ∃ c, Run sampleDecoders noTrie bs c ∧
        CommittedRecord sampleDecoders c.store transfer₀.tx.hash (blockOf 1 (carrier 1 .committed))
          (carrier 1 .committed) := by
  have hrun : Run sampleDecoders noTrie
      [blockOf 1 (carrier 1 .committed), blockOf 2 (carrier 2 .mvccConflict)] _ :=
    .handle (b := blockOf 2 _) (.handle (b := blockOf 1 _) run_opened rfl) rfl
  refine ⟨rfl, _, hrun,
    (committedRecord_iff hrun ⟨by decide, by decide⟩ (by decide) rfl (by decide)).mpr ?_⟩
  intro first hfirst
  obtain rfl := Option.some.inj hfirst
  rfl

def conflicted : Block := blockOf 1 (carrier 1 .mvccConflict)
def committed : Block := blockOf 2 (carrier 2 .committed)

/-- The chain after a transaction met a conflict in block 1 and was committed in block 2. -/
def resubmitted : Chain Unit :=
  ((opened.handle sampleDecoders noTrie conflicted).1.handle sampleDecoders noTrie committed).1

/-- The record of a resubmitted transaction is not its committed occurrence. -/
theorem resubmitted_keeps_invalid_record :
    Run sampleDecoders noTrie [conflicted, committed] resubmitted ∧
      Ledger [conflicted, committed] ∧
      (committed, carrier 2 .committed) ∈
        occurrences sampleDecoders [conflicted, committed] transfer₀.tx.hash ∧
      (carrier 2 .committed).valid = true ∧
      (∀ o ∈ occurrences sampleDecoders [conflicted, committed] transfer₀.tx.hash,
        o.2.valid = true → o.1.number = committed.number ∧ o.2 = carrier 2 .committed) ∧
      ¬ CommittedRecord sampleDecoders resubmitted.store transfer₀.tx.hash committed
        (carrier 2 .committed) := by
  refine ⟨.handle (b := committed) (.handle (b := conflicted) run_opened rfl) rfl,
    ⟨by decide, by decide⟩, by decide, rfl, by decide, ?_⟩
  rintro ⟨t, _, hget, hnum, -⟩
  have hrecord : (resubmitted.store.getTransactionByHash transfer₀.tx.hash).map
      Domain.Transaction.blockNumber = some 1 := rfl
  rw [hget] at hrecord
  exact absurd (hnum.symm.trans (Option.some.inj hrecord)) (by decide)

end Chain

end Gateway

import Mathlib.Data.List.Forall2
import FabricXEvm.Gateway.Records
import FabricXEvm.Hybridx.Paths

/-!
# The chain store up to block hashes

The two paths give the chain blocks that differ in their hash, their timestamp and the
transactions that are not EVM ones.  None of these reaches a transaction or a log, except
for the block hash in their rows.  `anon` forgets it.

`insertBlock_sim` is the step: a store that has the rows of another up to block hashes
takes in whatever the other takes in, provided its own block row can be inserted, and
the two still agree.
-/

open Blocks Common Gateway

namespace Hybridx

/-! ## Conversion up to the block hash -/

def anonLog (l : Domain.Log) : Domain.Log := { l with blockHash := [] }

def anonTx (t : Domain.Transaction) : Domain.Transaction :=
  { t with blockHash := [], logs := t.logs.map anonLog }

theorem domainLogs_anon {b b' : Block} (hnum : b'.number = b.number) (hash : Bytes)
    (txIndex logIndex : Int) (logs : List EventLog) :
    (domainLogs b' hash txIndex logIndex logs).map anonLog =
      (domainLogs b hash txIndex logIndex logs).map anonLog := by
  induction logs generalizing logIndex with
  | nil => rfl
  | cons l logs ih => simp [domainLogs, anonLog, hnum, ih]

theorem convertTransaction_anon {b b' : Block} (hnum : b'.number = b.number) (d : Decoders)
    (tx : Transaction) (raw : Bytes) (status : UInt8) (logIndex : Int) :
    (convertTransaction d b' tx raw status logIndex).map (fun p => (anonTx p.1, p.2)) =
      (convertTransaction d b tx raw status logIndex).map fun p => (anonTx p.1, p.2) := by
  unfold convertTransaction
  cases d.unmarshalBinary raw with
  | none => rfl
  | some ethTx =>
      dsimp only
      generalize d.sender _ ethTx = sender
      cases sender with
      | none => rfl
      | some sender => simp [Except.map, anonTx, hnum, domainLogs_anon hnum]

/-- What is not an EVM transaction is skipped, so the dispatcher's filter changes
nothing. -/
theorem convertTransactions_anon {b b' : Block} (hnum : b'.number = b.number) (d : Decoders)
    (txs : List Transaction) {logIndex : Int} {cumulativeGas : UInt64}
    {ts : List Domain.Transaction}
    (h : convertTransactions d b logIndex cumulativeGas txs = .ok ts) :
    ∃ ts', convertTransactions d b' logIndex cumulativeGas (txs.filter isEVM) = .ok ts' ∧
      ts'.map anonTx = ts.map anonTx := by
  induction txs generalizing logIndex cumulativeGas ts with
  | nil => exact ⟨ts, h, rfl⟩
  | cons tx txs ih =>
      rw [convertTransactions] at h
      cases hraw : evmTx tx with
      | none =>
          rw [hraw] at h
          rw [List.filter_cons_of_neg (by simp [isEVM, hraw])]
          exact ih h
      | some raw =>
          rw [hraw] at h
          dsimp only at h
          rw [List.filter_cons_of_pos (by simp [isEVM, hraw]), convertTransactions, hraw]
          dsimp only
          have hanon := convertTransaction_anon hnum d tx raw
            (if (executionOutcome d tx).1 then 1 else 0) logIndex
          generalize convertTransaction d b tx raw _ logIndex = r at h hanon
          generalize convertTransaction d b' tx raw _ logIndex = r' at hanon ⊢
          cases r with
          | error e => cases h
          | ok p =>
              cases r' with
              | error e => cases hanon
              | ok p' =>
                  obtain ⟨hp, hnext⟩ := Prod.mk.inj (Except.ok.inj hanon)
                  dsimp only at h ⊢
                  cases hrest : convertTransactions d b p.2 (cumulativeGas +
                      (executionOutcome d tx).2) txs with
                  | error e => rw [hrest] at h; cases h
                  | ok rest =>
                      rw [hrest] at h
                      obtain rfl := Except.ok.inj h
                      obtain ⟨rest', hrest', heq⟩ := ih hrest
                      rw [hnext, hrest']
                      refine ⟨_, rfl, ?_⟩
                      rw [List.map_cons, List.map_cons, heq]
                      congr 1
                      obtain ⟨t, _⟩ := p
                      obtain ⟨t', _⟩ := p'
                      simp only [anonTx, Domain.Transaction.mk.injEq] at hp ⊢
                      tauto

/-- The rows of a converted transaction are of its block. -/
def OfBlock (b : Block) (t : Domain.Transaction) : Prop :=
  t.blockHash = b.hash ∧ t.blockNumber = b.number ∧ ∀ l ∈ t.logs, l.blockHash = b.hash ∧
    l.blockNumber = b.number ∧ l.txHash = t.txHash

theorem ofBlock_convertTransactions {b : Block} {d : Decoders} {txs : List Transaction}
    {logIndex : Int} {cumulativeGas : UInt64} {ts : List Domain.Transaction}
    (h : convertTransactions d b logIndex cumulativeGas txs = .ok ts) : ∀ t ∈ ts, OfBlock b t := by
  intro t ht
  obtain ⟨tx, _, hfrom⟩ := exists_of_mem_right (convertTransactions_from h) ht
  refine ⟨hfrom.blockHash, hfrom.converted.blockNumber, fun l hl => ?_⟩
  have hat := hfrom.mem_logs hl
  exact ⟨hat.blockHash, hat.blockNumber, hat.txHash⟩

/-- The block the handlers get converts whenever the delivered one does, to the same
transactions up to the hash. -/
theorem convertToDomain_sim {d : Decoders} {b b' : Block} {ebl : Domain.Block}
    (hnum : b'.number = b.number)
    (htxs : b' = b ∨ b'.transactions = b.transactions.filter isEVM)
    (h : convertToDomain d b = .ok ebl) :
    ∃ ts', convertToDomain d b' =
        .ok { blockNumber := b'.number, blockHash := b'.hash, parentHash := b'.parentHash
              timestamp := b'.timestamp, transactions := ts' } ∧
      ts'.map anonTx = ebl.transactions.map anonTx ∧ ∀ t ∈ ts', OfBlock b' t := by
  unfold convertToDomain at h
  split at h
  · cases h
  next ts hts =>
    obtain rfl := Except.ok.inj h
    rcases htxs with rfl | htxs
    · exact ⟨ts, by rw [convertToDomain, hts], rfl, ofBlock_convertTransactions hts⟩
    · obtain ⟨ts', hts', heq⟩ := convertTransactions_anon hnum d b.transactions hts
      rw [← htxs] at hts'
      exact ⟨ts', by rw [convertToDomain, hts'], heq, ofBlock_convertTransactions hts'⟩

/-- A block without EVM transactions converts to an empty one. -/
theorem convertTransactions_none {d : Decoders} {b : Block} {txs : List Transaction}
    {logIndex : Int} {cumulativeGas : UInt64} (h : ∀ tx ∈ txs, isEVM tx = false) :
    convertTransactions d b logIndex cumulativeGas txs = .ok [] := by
  induction txs with
  | nil => rfl
  | cons tx txs ih =>
      have hraw : evmTx tx = none := by simpa [isEVM] using h tx (List.mem_cons_self ..)
      rw [convertTransactions, hraw]
      exact ih fun tx htx => h tx (List.mem_cons_of_mem _ htx)

/-! ## Rows up to the block hash -/

def anonRow (r : TransactionRow) : TransactionRow := { r with blockHash := [] }

def anonLogRow (r : LogRow) : LogRow := { r with blockHash := [] }

/-- Two databases with the same transactions and logs, in the same order. -/
structure SameRows (db db' : Tables) : Prop where
  transactions : db'.transactions.map anonRow = db.transactions.map anonRow
  logs : db'.logs.map anonLogRow = db.logs.map anonLogRow

theorem anonRow_toStorage {t t' : Domain.Transaction} (h : anonTx t' = anonTx t) :
    anonRow (toStorageTransaction t').1 = anonRow (toStorageTransaction t).1 := by
  simp only [anonTx, Domain.Transaction.mk.injEq] at h
  simp only [anonRow, toStorageTransaction, TransactionRow.mk.injEq]
  grind

theorem anonLogRow_toStorage {l l' : Domain.Log} (h : anonLog l' = anonLog l) :
    anonLogRow (toStorageLog l') = anonLogRow (toStorageLog l) := by
  simp only [anonLog, Domain.Log.mk.injEq] at h
  simp only [anonLogRow, toStorageLog, LogRow.mk.injEq]
  grind

theorem forall₂_of_map_eq {α β : Type} {f : α → β} {as bs : List α} (h : bs.map f = as.map f) :
    List.Forall₂ (fun a b => f b = f a) as bs := by
  induction as generalizing bs with
  | nil =>
      obtain rfl := List.map_eq_nil_iff.mp h
      exact .nil
  | cons a as ih =>
      cases bs with
      | nil => cases h
      | cons b bs =>
          obtain ⟨hab, hrest⟩ := List.cons.inj h
          exact .cons hab (ih hrest)

/-- A transaction row that passes the checks with one block hash passes them with any
other. -/
theorem check_anonRow {r r' : TransactionRow} (h : anonRow r' = anonRow r)
    (hlen : r'.blockHash.length = 32) (hr : transactionsSchema.check r = true) :
    transactionsSchema.check r' = true := by
  simp only [anonRow, TransactionRow.mk.injEq] at h
  simp only [transactionsSchema, Bool.and_eq_true, decide_eq_true_eq] at hr ⊢
  grind

theorem check_anonLogRow {r r' : LogRow} (h : anonLogRow r' = anonLogRow r)
    (hlen : r'.blockHash.length = 32) (hr : logsSchema.check r = true) :
    logsSchema.check r' = true := by
  simp only [anonLogRow, LogRow.mk.injEq] at h
  simp only [logsSchema, Bool.and_eq_true, decide_eq_true_eq] at hr ⊢
  grind

theorem insertLog_sim {db db' db₁ : Tables} {l l' : LogRow} (hdb : SameRows db db')
    (hl : anonLogRow l' = anonLogRow l) (hlen : l'.blockHash.length = 32)
    (htx : db'.hasTransaction l'.txHash = true) (hblock : db'.hasBlock l'.blockNumber = true)
    (h : db.insertLog l = .ok db₁) :
    ∃ db₁', db'.insertLog l' = .ok db₁' ∧ SameRows db₁ db₁' ∧
      db₁'.transactions = db'.transactions ∧ db₁'.blocks = db'.blocks := by
  obtain ⟨logs, hlogs, rfl⟩ := Tables.insertLog_eq h
  obtain ⟨logs', hlogs', heq⟩ := Schema.insert_sim hdb.logs
    (fun hab hcd => by
      simp only [anonLogRow, LogRow.mk.injEq] at hab hcd
      simp only [logsSchema, Prod.mk.injEq]
      grind)
    hl (check_anonLogRow hl hlen) (fun _ _ _ _ _ _ => rfl) hlogs
  refine ⟨{ db' with logs := logs' }, ?_, ⟨hdb.transactions, heq⟩, rfl, rfl⟩
  rw [Tables.insertLog, htx, hblock, Bool.and_true, hlogs']
  rfl

/-- The rows with this block hash are of one block. -/
def HashOf (db : Tables) (hash : Bytes) (number : Int) : Prop :=
  ∀ r ∈ db.transactions, r.blockHash = hash → r.blockNumber = number

theorem clash_anonRow {r r' row row' : TransactionRow} (hr : anonRow r' = anonRow r)
    (hrow : anonRow row' = anonRow row)
    (hhash : r'.blockHash = row'.blockHash → r'.blockNumber = row'.blockNumber)
    (h : transactionsSchema.clash r row = false) : transactionsSchema.clash r' row' = false := by
  simp only [anonRow, TransactionRow.mk.injEq] at hr hrow
  simp only [transactionsSchema, Bool.or_eq_false_iff, Bool.and_eq_false_iff,
    decide_eq_false_iff_not] at h ⊢
  grind

/-- The log rows of two transactions that agree up to the hash: those of the second refer
to its transaction row and its block. -/
theorem forall₂_logRows {b' : Block} {t t' : Domain.Transaction} (ht : anonTx t' = anonTx t)
    (hof : OfBlock b' t') (hlen : b'.hash.length = 32) :
    List.Forall₂ (fun l l' => anonLogRow l' = anonLogRow l ∧ l'.blockHash.length = 32 ∧
        l'.txHash = (rowOf t').txHash ∧ l'.blockNumber = int64 b'.number)
      (t.logs.map toStorageLog) (t'.logs.map toStorageLog) := by
  have hmap : t'.logs.map anonLog = t.logs.map anonLog := congrArg Domain.Transaction.logs ht
  have hpairs := forall₂_of_map_eq hmap
  have hmem := hof.2.2
  rw [List.forall₂_map_left_iff, List.forall₂_map_right_iff]
  generalize t.logs = ls, t'.logs = ls' at hpairs hmem
  induction hpairs with
  | nil => exact .nil
  | cons hll _ ih =>
      obtain ⟨hh, hn, hx⟩ := hmem _ (List.mem_cons_self ..)
      refine .cons ⟨anonLogRow_toStorage hll, ?_, hx, congrArg int64 hn⟩
        (ih fun l hl => hmem l (List.mem_cons_of_mem _ hl))
      rw [show (toStorageLog _).blockHash = b'.hash from hh]
      exact hlen

theorem insertFull_sim {db db' db₁ : Tables} {b' : Block} {t t' : Domain.Transaction}
    (hdb : SameRows db db') (ht : anonTx t' = anonTx t) (hof : OfBlock b' t')
    (hlen : b'.hash.length = 32) (hblock : db'.hasBlock (int64 b'.number) = true)
    (hhash : HashOf db' b'.hash (int64 b'.number)) (h : db.insertFull t = .ok db₁) :
    ∃ db₁', db'.insertFull t' = .ok db₁' ∧ SameRows db₁ db₁' ∧ db₁'.blocks = db'.blocks ∧
      ∀ r ∈ db₁'.transactions, r ∈ db'.transactions ∨ r = rowOf t' := by
  obtain ⟨txs, htxs, h⟩ := Tables.insertFull_eq h
  have hofhash : (rowOf t').blockHash = b'.hash := hof.1
  have hrow : anonRow (rowOf t') = anonRow (rowOf t) := anonRow_toStorage ht
  have hrownum : (rowOf t').blockNumber = int64 b'.number := congrArg int64 hof.2.1
  obtain ⟨txs', htxs', heq⟩ := Schema.insert_sim hdb.transactions
    (fun hab hcd => by
      simp only [anonRow, TransactionRow.mk.injEq] at hab hcd
      simp only [transactionsSchema]
      grind)
    hrow (check_anonRow hrow (hofhash.symm ▸ hlen))
    (fun r _ r' hr' hrr hclash => clash_anonRow hrr hrow
      (fun hsame => (hhash r' hr' (hsame.trans hofhash)).trans hrownum.symm) hclash) htxs
  have htx' : db'.insertTransaction (rowOf t') = .ok { db' with transactions := txs' } := by
    rw [Tables.insertTransaction, hrownum, hblock, htxs']
    rfl
  have htaken : txs'.any (fun r => r.txHash = (rowOf t').txHash) = true := by
    obtain ⟨r, hr, hrt⟩ := Schema.exists_target_of_insert htxs'
    exact List.any_eq_true.mpr ⟨r, hr, decide_eq_true hrt⟩
  have hstart : SameRows { db with transactions := txs } { db' with transactions := txs' } :=
    ⟨heq, hdb.logs⟩
  obtain ⟨db₁', h₁', ⟨hsame, htxs₁, hblocks₁⟩⟩ := Except.foldlM_sim
    (R := fun d d' => SameRows d d' ∧ d'.transactions = txs' ∧ d'.blocks = db'.blocks)
    (fun ⟨hsame, htxs₁, hblocks₁⟩ ⟨hl, hllen, hltx, hlnum⟩ hstep => by
      obtain ⟨d₁', hd₁', hs, ht₁, hb₁⟩ := insertLog_sim hsame hl hllen
        (by rw [Tables.hasTransaction, htxs₁, hltx]; exact htaken)
        (by rw [Tables.hasBlock, hblocks₁, hlnum]; exact hblock) hstep
      exact ⟨d₁', hd₁', hs, ht₁.trans htxs₁, hb₁.trans hblocks₁⟩)
    (forall₂_logRows ht hof hlen) ⟨hstart, rfl, rfl⟩ h
  refine ⟨db₁', ?_, hsame, hblocks₁, fun r hr => ?_⟩
  · refine Eq.trans ?_ h₁'
    show (db'.insertTransaction (rowOf t') >>= fun db => _) = _
    rw [htx']
    rfl
  · rw [htxs₁] at hr
    exact Schema.eq_or_mem_of_insert htxs' hr

theorem forall₂_transactions {b' : Block} {ts ts' : List Domain.Transaction}
    (hts : ts'.map anonTx = ts.map anonTx) (hof : ∀ t ∈ ts', OfBlock b' t) :
    List.Forall₂ (fun t t' => anonTx t' = anonTx t ∧ OfBlock b' t') ts ts' := by
  have hpairs := forall₂_of_map_eq hts
  clear hts
  induction hpairs with
  | nil => exact .nil
  | cons ht _ ih =>
      exact .cons ⟨ht, hof _ (List.mem_cons_self ..)⟩
        (ih fun t ht => hof t (List.mem_cons_of_mem _ ht))

theorem insertBlock_sim {s s' s₁ : Store} {b' : Block} {block block' : Domain.Block}
    (hs : SameRows s.db s'.db) (h : s.insertBlock block = .ok s₁)
    (hts : block'.transactions.map anonTx = block.transactions.map anonTx)
    (hof : ∀ t ∈ block'.transactions, OfBlock b' t) (hnum : block'.blockNumber = b'.number)
    (hlen : b'.hash.length = 32) (hhash : HashOf s'.db b'.hash (int64 b'.number))
    (hrow : blocksSchema.insert true (toStorageBlock block') s'.db.blocks =
      .ok (s'.db.blocks ++ [toStorageBlock block'])) :
    ∃ s₁', s'.insertBlock block' = .ok s₁' ∧ SameRows s₁.db s₁'.db ∧
      s₁'.db.blocks = s'.db.blocks ++ [toStorageBlock block'] ∧
      ∀ r ∈ s₁'.db.transactions, r ∈ s'.db.transactions ∨
        r.blockHash = b'.hash ∧ r.blockNumber = int64 b'.number := by
  obtain ⟨db₂, db₁, h₂, h₁, rfl⟩ := Store.insertBlock_eq h
  obtain ⟨blocks, _, rfl⟩ := Tables.insertBlock_eq h₂
  let db₂' : Tables := { s'.db with blocks := s'.db.blocks ++ [toStorageBlock block'] }
  have hblock : db₂'.hasBlock (int64 b'.number) = true := by
    refine List.any_eq_true.mpr ⟨toStorageBlock block', by simp [db₂'], decide_eq_true ?_⟩
    exact congrArg int64 hnum
  have hstart : SameRows { s.db with blocks := blocks } db₂' := ⟨hs.transactions, hs.logs⟩
  -- Along the loop the new rows are those of this block.
  obtain ⟨db₁', h₁', hsame, hblocks, hrows⟩ := Except.foldlM_sim
    (R := fun d d' => SameRows d d' ∧ d'.blocks = db₂'.blocks ∧
      ∀ r ∈ d'.transactions, r ∈ s'.db.transactions ∨
        r.blockHash = b'.hash ∧ r.blockNumber = int64 b'.number)
    (fun {d d' t t' d₁} ⟨hsame, hblocks, hrows⟩ ⟨ht, htof⟩ hstep => by
      obtain ⟨d₁', hd₁', hs₁, hb₁, hr₁⟩ := insertFull_sim hsame ht htof hlen
        (by rw [Tables.hasBlock, hblocks]; exact hblock)
        (fun r hr hrh => by
          rcases hrows r hr with hr | ⟨_, hrn⟩
          · exact hhash r hr hrh
          · exact hrn) hstep
      refine ⟨d₁', hd₁', hs₁, hb₁.trans hblocks, fun r hr => ?_⟩
      rcases hr₁ r hr with hr | rfl
      · exact hrows r hr
      · exact .inr ⟨htof.1, congrArg int64 htof.2.1⟩)
    (forall₂_transactions hts hof) ⟨hstart, rfl, fun r hr => .inl hr⟩ h₁
  refine ⟨{ db := db₁', cachedBlockNumber := max s'.cachedBlockNumber block'.blockNumber }, ?_,
    hsame, hblocks, hrows⟩
  have hins : s'.db.insertBlock (toStorageBlock block') = .ok db₂' := by
    rw [Tables.insertBlock, hrow]
    rfl
  rw [Store.insertBlock, hins]
  show (block'.transactions.foldlM Tables.insertFull db₂' >>= fun db => _) = _
  rw [h₁']
  rfl

end Hybridx

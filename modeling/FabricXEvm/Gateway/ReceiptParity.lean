import FabricXEvm.Gateway.Receipts

/-!
# Block receipts and transaction receipts

The two ways to a receipt join the logs differently: by block and hash, or by hash alone.
They agree, and every stored log is one of a transaction that its block lists, exactly if
each log stands in the block of its transaction (`Tables.Matched`).
-/

open Blocks Common

namespace Gateway

/-- The two kinds of receipt agree, and the logs are those of listed transactions. -/
structure SameStory (d : Decoders) (pool : Pool) (s : Store) : Prop where
  receipts : ∀ id block, s.getBlock id = some block →
    ∃ rs, s.getBlockReceipts id = .ok (some rs) ∧
      List.Forall₂ (fun t r => pool.isPending t.txHash = none →
        s.getTransactionReceipt d pool t.txHash = .ok (some r)) block.transactions rs
  logs : ∀ filter ls, s.getLogs filter = .ok ls → ∀ l ∈ ls,
    ∃ block, s.getBlock (.number l.blockNumber) = some block ∧
      ∃ t ∈ block.transactions, t.txHash = l.txHash

/-- Each log is in the block of its transaction. -/
def Tables.Matched (db : Tables) : Prop :=
  ∀ l ∈ db.logs, ∀ t ∈ db.transactions, t.txHash = l.txHash → t.blockNumber = l.blockNumber

/-- What makes the logs of a block come in one order, by either query. -/
structure Tables.Ordered (db : Tables) : Prop where
  number_lt : ∀ b ∈ db.blocks, b.blockNumber < 2 ^ 63
  index_lt : ∀ l ∈ db.logs, ∀ l' ∈ db.logs, l.blockNumber = l'.blockNumber →
    l.txIndex < l'.txIndex → l.logIndex < l'.logIndex

namespace Store

variable {s : Store} {d : Decoders} {pool : Pool} {row : BlockRow} {r : TransactionRow}

/-! ## Blocks -/

/-- The transactions that a block lists. -/
def listed (s : Store) (row : BlockRow) : List Domain.Transaction :=
  (s.getTransactionsByBlockNumber row.blockNumber).map toDomainTransaction

theorem mem_listed {t : Domain.Transaction} :
    t ∈ s.listed row ↔ ∃ r ∈ s.db.transactions, r.blockNumber = row.blockNumber ∧
      toDomainTransaction r = t := by
  simp [listed, getTransactionsByBlockNumber, and_assoc]

theorem filter_block (hs : s.db.Valid) {n : Int} (h : s.db.hasBlock n = true) :
    ∃ b ∈ s.db.blocks, b.blockNumber = n ∧ s.db.blocks.filter (fun b => n = b.blockNumber) = [b] := by
  obtain ⟨b, hb, hnum⟩ := List.any_eq_true.mp h
  have hnum : b.blockNumber = n := of_decide_eq_true hnum
  refine ⟨b, hb, hnum, ?_⟩
  rw [← hs.blocks.filter hb hnum]
  exact List.filter_congr fun b' _ => by simp [blocksSchema, eq_comm]

theorem eq_of_blockHash (hs : s.db.Valid) {b b' : BlockRow} (hb : b ∈ s.db.blocks)
    (hb' : b' ∈ s.db.blocks) (h : b.blockHash = b'.blockHash) : b = b' := by
  have hnodup : (s.db.blocks.map BlockRow.blockHash).Nodup := by
    rw [List.Nodup, List.pairwise_map]
    refine hs.blocks.clashFree.imp fun hclash => ?_
    simp only [blocksSchema, Bool.or_eq_false_iff, decide_eq_false_iff_not] at hclash
    exact hclash.1
  exact List.inj_on_of_nodup_map hnodup hb hb' h

theorem getTransactionsByBlockHash_eq (hs : s.db.Valid) (hrow : row ∈ s.db.blocks) :
    s.getTransactionsByBlockHash row.blockHash = s.getTransactionsByBlockNumber row.blockNumber := by
  refine congrArg (List.insertionSort fun t t' : TransactionRow => t.txIndex ≤ t'.txIndex)
    (Table.map_fst_join (p := fun b : BlockRow => b.blockHash = row.blockHash) fun t ht => ?_)
  obtain ⟨b, hb, hnum, hone⟩ := filter_block hs (hs.blockOf t ht)
  refine ⟨b, hone, decide_eq_decide.mpr ⟨fun hhash => ?_, fun heq => ?_⟩⟩
  · rw [← hnum, eq_of_blockHash hs hb hrow hhash]
  · rw [hs.blocks.eq_of_target hb hrow (hnum.trans heq)]

/-- A block that is returned is a row with its transactions. -/
theorem getBlock_some (hs : s.db.Valid) {id : BlockNumberOrHash} {block : Domain.Block}
    (h : s.getBlock id = some block) :
    ∃ row ∈ s.db.blocks, block = { toDomainBlock row with transactions := s.listed row } := by
  cases id with
  | hash blockHash =>
      obtain ⟨row, hrow, rfl⟩ := Option.map_eq_some_iff.mp h
      obtain rfl : row.blockHash = blockHash := by simpa using List.find?_some hrow
      have hmem := List.mem_of_find?_eq_some hrow
      exact ⟨row, hmem, by rw [getTransactionsByBlockHash_eq hs hmem]; rfl⟩
  | number num =>
      dsimp only [getBlock] at h
      split at h
      · obtain ⟨row, hrow, rfl⟩ := Option.map_eq_some_iff.mp h
        exact ⟨row, (List.mem_insertionSort _).mp (List.mem_of_head? hrow), rfl⟩
      · obtain ⟨row, hrow, rfl⟩ := Option.map_eq_some_iff.mp h
        have hnum : row.blockNumber = int64 (blockNumberToUint64 num) := by
          simpa using List.find?_some hrow
        exact ⟨row, List.mem_of_find?_eq_some hrow, by rw [listed, hnum]⟩

theorem number_of_row (hs : s.db.Valid) (ho : s.db.Ordered) (hrow : row ∈ s.db.blocks) :
    uint64OfInt row.blockNumber < 2 ^ 63 ∧ (uint64OfInt row.blockNumber : Int) = row.blockNumber := by
  have hlt := ho.number_lt row hrow
  have hcheck := hs.blocks.check row hrow
  simp only [blocksSchema, Bool.and_eq_true, decide_eq_true_eq] at hcheck
  have hnonneg := hcheck.1.1.1.1
  unfold uint64OfInt
  omega

/-- A row is returned for its number. -/
theorem getBlock_number (hs : s.db.Valid) (ho : s.db.Ordered) (hrow : row ∈ s.db.blocks) :
    s.getBlock (.number (uint64OfInt row.blockNumber)) =
      some { toDomainBlock row with transactions := s.listed row } := by
  obtain ⟨hlt, hnum⟩ := number_of_row hs ho hrow
  have hn : blockNumberToUint64 (uint64OfInt row.blockNumber) = uint64OfInt row.blockNumber := by
    unfold blockNumberToUint64
    rw [if_neg (by omega), if_neg (by omega), Int.toNat_natCast]
  dsimp only [getBlock]
  rw [hn, if_neg (by omega), getBlockByNumber, int64_of_lt hlt, hnum]
  exact congrArg (Option.map _) (hs.blocks.find? hrow rfl)

/-! ## Logs -/

/-- A log that is returned is that of a row, with the time of its block. -/
theorem mem_getLogs {filter : Domain.LogFilter} {ls : List Domain.Log} {l : Domain.Log}
    (h : s.getLogs filter = .ok ls) (hl : l ∈ ls) :
    ∃ r ∈ s.logsWithBlock, l = toDomainLog r.1 r.2.timestamp := by
  obtain ⟨inBlocks, _, h⟩ := Except.of_bind_ok h
  obtain rfl := Except.ok.inj h
  obtain ⟨r, hr, rfl⟩ := List.mem_map.mp hl
  exact ⟨r, (List.mem_filter.mp ((List.mem_insertionSort _).mp hr)).1, rfl⟩

theorem topicsMatch_nil (columns : List (Option Bytes)) : topicsMatch columns [] = true := by
  cases columns <;> rfl

/-- The logs of one block. -/
def blockLogs (s : Store) (n : Int) : List Domain.Log :=
  ((s.logsWithBlock.filter fun r => r.1.blockNumber = n).insertionSort
    fun r r' => r.1.Before r'.1).map fun r => toDomainLog r.1 r.2.timestamp

theorem getLogs_block {n : Nat} (hn : n < 2 ^ 63) :
    s.getLogs { fromBlock := some n, toBlock := some n } = .ok (s.blockLogs n) := by
  have hcond : s.blockCondition { fromBlock := some n, toBlock := some n } =
      .ok fun l => decide ((n : Int) ≤ l.blockNumber) && decide (l.blockNumber ≤ n) := by
    simp only [blockCondition, bindUint64, if_pos hn, Option.mapM_some]
    rfl
  unfold getLogs
  rw [hcond]
  refine congrArg (fun rows : List (LogRow × BlockRow) => Except.ok ((rows.insertionSort
    fun r r' => r.1.Before r'.1).map fun r => toDomainLog r.1 r.2.timestamp)) ?_
  refine List.filter_congr fun r _ => ?_
  rw [topicsMatch_nil, List.isEmpty_nil, Bool.true_or, Bool.and_true, Bool.and_true]
  dsimp only
  rw [← Bool.decide_and]
  exact decide_eq_decide.mpr ⟨fun h => by omega, fun h => by omega⟩

instance : Std.Total fun r r' : LogRow × BlockRow => r.1.Before r'.1 :=
  ⟨fun r r' => LogRow.Before.total r.1 r'.1⟩

instance : IsTrans (LogRow × BlockRow) fun r r' => r.1.Before r'.1 :=
  ⟨fun _ _ _ h h' => LogRow.Before.trans h h'⟩

instance : Std.Total fun r r' : LogRow × BlockRow => r.1.logIndex ≤ r'.1.logIndex :=
  ⟨fun r r' => Int.le_total r.1.logIndex r'.1.logIndex⟩

instance : IsTrans (LogRow × BlockRow) fun r r' => r.1.logIndex ≤ r'.1.logIndex :=
  ⟨fun _ _ _ h h' => Int.le_trans h h'⟩

theorem length_txHash (hs : s.db.Valid) {l : LogRow} (hl : l ∈ s.db.logs) :
    l.txHash.length = 32 := by
  have hcheck := hs.logs.check l hl
  simp only [logsSchema, Bool.and_eq_true, decide_eq_true_eq] at hcheck
  exact hcheck.1.1.1.1.1.1.1.2

/-- If the logs of a hash all are in one block, they are found there. -/
theorem filter_getLogs (hs : s.db.Valid) (ho : s.db.Ordered) {n : Int} {hash : Bytes}
    (hlen : hash.length = 32) (hblock : ∀ l ∈ s.db.logs, l.txHash = hash → l.blockNumber = n) :
    ((s.blockLogs n).filter fun l => bytesToHash l.txHash = bytesToHash hash) =
      s.getLogsByTxHash hash := by
  rw [blockLogs, List.filter_map]
  refine congrArg (List.map _) ?_
  set sorted := (s.logsWithBlock.filter fun r => r.1.blockNumber = n).insertionSort
    fun r r' => r.1.Before r'.1 with hsorted
  change (sorted.filter fun r => bytesToHash r.1.txHash = bytesToHash hash) = _
  have hhash : ∀ r ∈ s.logsWithBlock, bytesToHash r.1.txHash = bytesToHash hash ↔
      r.1.txHash = hash := fun r hr => by
    rw [bytesToHash_of_length hlen,
      bytesToHash_of_length (length_txHash hs (mem_logsWithBlock.mp hr).1)]
  have hmem : ∀ {r}, r ∈ (s.logsWithBlock.filter fun r => r.1.txHash = hash) ↔
      r ∈ s.logsWithBlock ∧ r.1.txHash = hash := by simp
  have hperm : (sorted.filter fun r => bytesToHash r.1.txHash = bytesToHash hash).Perm
      (s.logsWithBlock.filter fun r => r.1.txHash = hash) := by
    refine ((List.perm_insertionSort _ _).filter _).trans ?_
    rw [List.filter_filter]
    refine List.Perm.of_eq (List.filter_congr fun r hr => ?_)
    rw [← Bool.decide_and]
    refine decide_eq_decide.mpr ⟨fun h => (hhash r hr).mp h.1, fun h => ⟨(hhash r hr).mpr h, ?_⟩⟩
    exact hblock _ (mem_logsWithBlock.mp hr).1 h
  refine @List.Perm.eq_of_pairwise _ (fun r r' => r.1.logIndex ≤ r'.1.logIndex) _ _ ?_ ?_ ?_
    (hperm.trans (List.perm_insertionSort _ _).symm)
  · intro r r' hr hr' hle hle'
    obtain ⟨hr, hh⟩ := hmem.mp (hperm.mem_iff.mp hr)
    obtain ⟨hr', hh'⟩ := hmem.mp ((List.mem_insertionSort _).mp hr')
    exact logsWithBlock_inj hs hr hr' (hh.trans hh'.symm) (Int.le_antisymm hle hle')
  · -- In one block the order is that of the log index.
    have hbefore : sorted.Pairwise fun r r' => r.1.Before r'.1 := List.pairwise_insertionSort _ _
    refine (hbefore.filter _).imp_of_mem fun hr hr' hbefore => ?_
    obtain ⟨hr, hh⟩ := hmem.mp (hperm.mem_iff.mp hr)
    obtain ⟨hr', hh'⟩ := hmem.mp (hperm.mem_iff.mp hr')
    have hl := (mem_logsWithBlock.mp hr).1
    have hl' := (mem_logsWithBlock.mp hr').1
    have heq := (hblock _ hl hh).trans (hblock _ hl' hh').symm
    rcases hbefore with hlt | ⟨_, hlt | ⟨_, hle⟩⟩
    · omega
    · exact Int.le_of_lt (ho.index_lt _ hl _ hl' heq hlt)
    · exact hle
  · exact List.pairwise_insertionSort _ _

/-! ## The two receipts -/

theorem length_hash (hs : s.db.Valid) (hr : r ∈ s.db.transactions) :
    r.txHash.length = 32 ∧ r.blockHash.length = 32 := by
  have hcheck := hs.transactions.check r hr
  simp only [transactionsSchema, Bool.and_eq_true, decide_eq_true_eq] at hcheck
  exact hcheck.1.1.1.1.1.1.1

/-- A stored transaction has a receipt. -/
theorem receipt_some (hs : s.db.Valid) (hr : r ∈ s.db.transactions) (logs : List Domain.Log) :
    ∃ rec, receipt (some { toDomainTransaction r with logs }) = some rec := by
  have hne : r.blockHash ≠ [] := fun h => by
    have hlen := (length_hash hs hr).2
    rw [h] at hlen
    cases hlen
  exact ⟨_, if_neg hne⟩

/-- The receipt for the hash of a stored transaction that is not pending. -/
theorem getTransactionReceipt_eq (hs : s.db.Valid) (hr : r ∈ s.db.transactions)
    (hpending : pool.isPending r.txHash = none) :
    s.getTransactionReceipt d pool r.txHash =
      .ok (receipt (some { toDomainTransaction r with logs := s.getLogsByTxHash r.txHash })) := by
  have hget : s.getTransactionByHash r.txHash = some (toDomainTransaction r) :=
    congrArg (Option.map toDomainTransaction) (hs.transactions.find? hr rfl)
  unfold getTransactionReceipt transactionByHash
  rw [hpending, hget]
  rfl

theorem receiptIn_eq {n : Nat} {logs : List Domain.Log} {t : Domain.Transaction} {rec : RpcReceipt}
    (h : receipt (some { t with
      logs := logs.filter fun l => bytesToHash l.txHash = bytesToHash t.txHash }) = some rec) :
    receiptIn n logs t = .ok rec := by
  unfold receiptIn
  dsimp only
  rw [h]

theorem Matched.receipts (hs : s.db.Valid) (ho : s.db.Ordered) (hm : s.db.Matched)
    {id : BlockNumberOrHash} {block : Domain.Block} (h : s.getBlock id = some block) :
    ∃ rs, s.getBlockReceipts id = .ok (some rs) ∧
      List.Forall₂ (fun t r => pool.isPending t.txHash = none →
        s.getTransactionReceipt d pool t.txHash = .ok (some r)) block.transactions rs := by
  obtain ⟨row, hrow, rfl⟩ := getBlock_some hs h
  obtain ⟨hlt, hnum⟩ := number_of_row hs ho hrow
  unfold getBlockReceipts
  rw [h]
  dsimp only
  split
  next hnil => exact ⟨[], rfl, hnil ▸ .nil⟩
  next =>
    rw [show (toDomainBlock row).blockNumber = uint64OfInt row.blockNumber from rfl,
      getLogs_block hlt, hnum]
    dsimp only
    have hboth : ∀ t ∈ s.listed row, ∃ rec,
        receiptIn (uint64OfInt row.blockNumber) (s.blockLogs row.blockNumber) t = .ok rec ∧
        (pool.isPending t.txHash = none →
          s.getTransactionReceipt d pool t.txHash = .ok (some rec)) := by
      -- Both receipts are those of the stored transaction with the logs of its hash.
      intro t ht
      obtain ⟨r, hr, hblock, rfl⟩ := mem_listed.mp ht
      obtain ⟨rec, hrec⟩ := receipt_some hs hr (s.getLogsByTxHash r.txHash)
      refine ⟨rec, receiptIn_eq ?_, fun hpending => (getTransactionReceipt_eq hs hr hpending).trans ?_⟩
      · have hlogs := filter_getLogs hs ho (length_hash hs hr).1 fun l hl hhash =>
          (hm l hl r hr hhash.symm).symm.trans hblock
        rw [show (toDomainTransaction r).txHash = r.txHash from rfl, hlogs]
        exact hrec
      · rw [hrec]
    obtain ⟨rs, hrs, hrel⟩ := Except.mapM_ok hboth
    exact ⟨rs, by rw [hrs]; rfl, hrel⟩

end Store

/-- The two kinds of receipt agree exactly if each log is in the block of its transaction. -/
theorem sameStory_iff_matched {s : Store} {d : Decoders} {pool : Pool} (hs : s.db.Valid)
    (ho : s.db.Ordered) : SameStory d pool s ↔ s.db.Matched := by
  constructor
  · intro h l hl t ht hhash
    obtain ⟨b, hb, hnum⟩ := List.any_eq_true.mp (hs.blockOfLog l hl)
    have hnum : b.blockNumber = l.blockNumber := of_decide_eq_true hnum
    have hmem : toDomainLog l b.timestamp ∈ s.blockLogs b.blockNumber := by
      refine List.mem_map.mpr ⟨(l, b), (List.mem_insertionSort _).mpr (List.mem_filter.mpr ⟨?_, ?_⟩),
        rfl⟩
      · exact Store.mem_logsWithBlock.mpr ⟨hl, hb, hnum.symm⟩
      · exact decide_eq_true hnum.symm
    obtain ⟨hlt, hcast⟩ := Store.number_of_row hs ho hb
    obtain ⟨block, hblock, t', ht', hhash'⟩ :=
      h.logs _ _ (Store.getLogs_block hlt) _ (hcast.symm ▸ hmem)
    have hblock : s.getBlock (.number (uint64OfInt l.blockNumber)) = some block := hblock
    rw [← hnum, Store.getBlock_number hs ho hb] at hblock
    obtain rfl := Option.some.inj hblock
    obtain ⟨r, hr, hrb, rfl⟩ := Store.mem_listed.mp ht'
    rw [hs.transactions.eq_of_target ht hr (hhash.trans hhash'.symm), hrb, hnum]
  · intro hm
    refine ⟨fun id block h => Store.Matched.receipts hs ho hm h, fun filter ls h l hl => ?_⟩
    obtain ⟨⟨l, b⟩, hr, rfl⟩ := Store.mem_getLogs h hl
    obtain ⟨hl, hb, hnum⟩ := Store.mem_logsWithBlock.mp hr
    have hnum : l.blockNumber = b.blockNumber := hnum
    obtain ⟨t, ht, hhash⟩ := List.any_eq_true.mp (hs.transactionOf l hl)
    have hhash : t.txHash = l.txHash := of_decide_eq_true hhash
    refine ⟨_, (congrArg (fun n => s.getBlock (.number (uint64OfInt n))) hnum).trans
      (Store.getBlock_number hs ho hb), toDomainTransaction t, ?_, hhash⟩
    exact Store.mem_listed.mpr ⟨t, ht, (hm l hl t ht hhash).trans hnum, rfl⟩

end Gateway

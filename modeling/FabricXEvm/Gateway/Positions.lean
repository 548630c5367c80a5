import FabricXEvm.Gateway.ReceiptRuns

/-!
# Transactions by position

A transaction is stored with its number in the Fabric block, and the lookups by block and
index search for that number.  The list of a block and its length leave out the Fabric
transactions that are not EVM ones, and those whose Ethereum transaction was stored before.
So the `i`-th transaction of the list is found at index `i` exactly if the transactions that
are kept have the numbers from 0 on without a gap (`Run.positionsMatch_iff`).
-/

open Blocks Common

namespace Gateway

namespace Store

/-! ## Queries -/

/-- `SELECT COUNT(*) … WHERE block_number = ?`. -/
def getBlockTxCountByNumber (s : Store) (blockNumber : Nat) : Nat :=
  (s.db.transactions.filter fun t => t.blockNumber = int64 blockNumber).length

/-- The same for the joined block's hash. -/
def getBlockTxCountByHash (s : Store) (blockHash : Bytes) : Nat :=
  ((Table.join s.db.transactions s.db.blocks fun t b => t.blockNumber = b.blockNumber).filter
    fun r => r.2.blockHash = blockHash).length

def getTransactionByBlockNumberAndIndex (s : Store) (blockNumber : Nat) (txIndex : Int) :
    Option Domain.Transaction :=
  (s.db.transactions.find? fun t => t.blockNumber = int64 blockNumber && t.txIndex = txIndex).map
    toDomainTransaction

/-- Here the hash is the column of the transaction, not that of the block. -/
def getTransactionByBlockHashAndIndex (s : Store) (blockHash : Bytes) (txIndex : Int) :
    Option Domain.Transaction :=
  (s.db.transactions.find? fun t => t.blockHash = blockHash && t.txIndex = txIndex).map
    toDomainTransaction

/-- The lookups by position return the listed transactions up to the count, and nothing from
there on. -/
def PositionsMatch (s : Store) (b : Block) : Prop :=
  ∃ block, s.getBlockByNumber b.number = some block ∧
    ∀ c, c = s.getBlockTxCountByNumber b.number ∨ c = s.getBlockTxCountByHash b.hash →
      ∀ i : Nat,
        (i < c → ∃ t, block.transactions[i]? = some t ∧
          s.getTransactionByBlockNumberAndIndex b.number i = some t ∧
          s.getTransactionByBlockHashAndIndex b.hash i = some t) ∧
        (c ≤ i → s.getTransactionByBlockNumberAndIndex b.number i = none ∧
          s.getTransactionByBlockHashAndIndex b.hash i = none)

/-! ## Positions in the list of a block -/

variable {s : Store} {row : BlockRow} {r r' : TransactionRow}

theorem eq_of_position (hs : s.db.Valid) (hr : r ∈ s.db.transactions) (hr' : r' ∈ s.db.transactions)
    (hnum : r.blockNumber = r'.blockNumber) (hidx : r.txIndex = r'.txIndex) : r = r' := by
  have hnodup : (s.db.transactions.map fun r => (r.blockNumber, r.txIndex)).Nodup := by
    rw [List.Nodup, List.pairwise_map]
    refine hs.transactions.clashFree.imp fun hclash heq => ?_
    simp only [transactionsSchema, Bool.or_eq_false_iff, Bool.and_eq_false_iff,
      decide_eq_false_iff_not] at hclash
    obtain ⟨hn, hi⟩ := Prod.mk.inj heq
    exact hclash.1.2.elim (· hn) (· hi)
  exact List.inj_on_of_nodup_map hnodup hr hr' (Prod.ext hnum hidx)

instance : Std.Total fun r r' : TransactionRow => r.txIndex ≤ r'.txIndex :=
  ⟨fun r r' => Int.le_total r.txIndex r'.txIndex⟩

instance : IsTrans TransactionRow fun r r' => r.txIndex ≤ r'.txIndex :=
  ⟨fun _ _ _ h h' => Int.le_trans h h'⟩

theorem mem_getTransactionsByBlockNumber {n : Int} :
    r ∈ s.getTransactionsByBlockNumber n ↔ r ∈ s.db.transactions ∧ r.blockNumber = n := by
  simp [getTransactionsByBlockNumber]

theorem pairwise_txIndex (hs : s.db.Valid) (n : Int) :
    (s.getTransactionsByBlockNumber n).Pairwise fun r r' => r.txIndex < r'.txIndex := by
  have hsorted : (s.getTransactionsByBlockNumber n).Pairwise fun r r' => r.txIndex ≤ r'.txIndex :=
    List.pairwise_insertionSort _ _
  have hnodup : (s.getTransactionsByBlockNumber n).Nodup :=
    (List.perm_insertionSort _ _).nodup_iff.mpr
      ((List.Nodup.of_map _ hs.transactions.targets).filter _)
  refine (hsorted.and hnodup).imp_of_mem fun {r r'} hr hr' ⟨hle, hne⟩ => ?_
  obtain ⟨hr, hn⟩ := mem_getTransactionsByBlockNumber.mp hr
  obtain ⟨hr', hn'⟩ := mem_getTransactionsByBlockNumber.mp hr'
  exact lt_of_le_of_ne hle fun hidx => hne (eq_of_position hs hr hr' (hn.trans hn'.symm) hidx)

/-- A lookup by position, where the rows it searches are those of one block. -/
theorem find?_position {n : Int} {p : TransactionRow → Bool} (hs : s.db.Valid)
    (hp : ∀ r ∈ s.db.transactions, p r = true ↔ r.blockNumber = n) (i : Int)
    {t : Domain.Transaction} :
    (s.db.transactions.find? fun r => p r && r.txIndex = i).map toDomainTransaction = some t ↔
      ∃ r ∈ s.getTransactionsByBlockNumber n, r.txIndex = i ∧ toDomainTransaction r = t := by
  rw [Option.map_eq_some_iff]
  refine exists_congr fun r => ?_
  rw [Table.find?_eq_some_iff, Bool.and_eq_true, decide_eq_true_eq,
    mem_getTransactionsByBlockNumber]
  · constructor
    · rintro ⟨⟨hr, hpr, hidx⟩, heq⟩
      exact ⟨⟨hr, (hp r hr).mp hpr⟩, hidx, heq⟩
    · rintro ⟨⟨hr, hn⟩, hidx, heq⟩
      exact ⟨⟨hr, (hp r hr).mpr hn, hidx⟩, heq⟩
  · intro r hr r' hr' h h'
    simp only [Bool.and_eq_true, decide_eq_true_eq] at h h'
    have hn := ((hp r hr).mp h.1).trans ((hp r' hr').mp h'.1).symm
    exact eq_of_position hs hr hr' hn (h.2.trans h'.2.symm)

section

variable {b : Block} (hs : s.db.Valid) (hrow : row ∈ s.db.blocks)
  (hnum : row.blockNumber = int64 b.number) (hhash : row.blockHash = b.hash)
include hs hrow hnum

theorem getBlockByNumber_row : s.getBlockByNumber b.number =
    some { toDomainBlock row with transactions := s.listed row } := by
  rw [getBlockByNumber, ← hnum]
  exact congrArg (Option.map _) (hs.blocks.find? hrow rfl)

include hhash

theorem txCount_row {c : Nat}
    (hc : c = s.getBlockTxCountByNumber b.number ∨ c = s.getBlockTxCountByHash b.hash) :
    c = (s.getTransactionsByBlockNumber row.blockNumber).length := by
  rcases hc with rfl | rfl
  · rw [getBlockTxCountByNumber, ← hnum, getTransactionsByBlockNumber, List.length_insertionSort]
  · rw [← getTransactionsByBlockHash_eq hs hrow, hhash, getTransactionsByBlockHash,
      List.length_insertionSort, List.length_map, getBlockTxCountByHash]

/-- The positions match exactly if the numbers of the block's rows have no gap. -/
theorem positionsMatch_iff_noGap
    (hrows : ∀ r ∈ s.db.transactions, r.blockHash = b.hash ↔ r.blockNumber = row.blockNumber) :
    s.PositionsMatch b ↔ ∃ c : Nat, ∀ i : Int,
      (∃ r ∈ s.getTransactionsByBlockNumber row.blockNumber, r.txIndex = i) ↔ 0 ≤ i ∧ i < c := by
  have hbyNumber : ∀ (i : Int) {t}, s.getTransactionByBlockNumberAndIndex b.number i = some t ↔
      ∃ r ∈ s.getTransactionsByBlockNumber row.blockNumber, r.txIndex = i ∧
        toDomainTransaction r = t := by
    intro i t
    exact find?_position hs (fun r _ => by rw [decide_eq_true_eq, hnum]) i
  have hbyHash : ∀ (i : Int) {t}, s.getTransactionByBlockHashAndIndex b.hash i = some t ↔
      ∃ r ∈ s.getTransactionsByBlockNumber row.blockNumber, r.txIndex = i ∧
        toDomainTransaction r = t := by
    intro i t
    exact find?_position hs (fun r hr => by rw [decide_eq_true_eq]; exact hrows r hr) i
  have hblock := getBlockByNumber_row hs hrow hnum
  rw [Table.numbered_iff (pairwise_txIndex hs _)]
  constructor
  · rintro ⟨block, hget, h⟩ i r hr
    obtain rfl := Option.some.inj (hblock.symm.trans hget)
    have hi : i < s.getBlockTxCountByNumber b.number := by
      rw [txCount_row hs hrow hnum hhash (.inl rfl)]
      exact (List.getElem?_eq_some_iff.mp hr).1
    obtain ⟨t, ht, hfound, _⟩ := (h _ (.inl rfl) i).1 hi
    obtain ⟨r', _, hidx, rfl⟩ := (hbyNumber i).mp hfound
    have heq : toDomainTransaction r = toDomainTransaction r' := by
      simpa [listed, hr] using ht
    exact (congrArg Domain.Transaction.txIndex heq).trans hidx
  · intro h
    refine ⟨_, hblock, fun c hc i => ?_⟩
    obtain rfl := txCount_row hs hrow hnum hhash hc
    constructor
    · intro hi
      have hr := List.getElem?_eq_getElem hi
      have hfound : ∃ r ∈ s.getTransactionsByBlockNumber row.blockNumber, r.txIndex = i ∧
          toDomainTransaction r = toDomainTransaction _ :=
        ⟨_, List.getElem_mem hi, h i _ hr, rfl⟩
      refine ⟨_, ?_, (hbyNumber i).mpr hfound, (hbyHash i).mpr hfound⟩
      simp [listed, hr]
    · intro hi
      have hnone : ∀ {t}, ¬ ∃ r ∈ s.getTransactionsByBlockNumber row.blockNumber, r.txIndex = i ∧
          toDomainTransaction r = t := by
        rintro t ⟨r, hr, hidx, _⟩
        obtain ⟨n, hn⟩ := List.getElem?_of_mem hr
        have hlt := (List.getElem?_eq_some_iff.mp hn).1
        have := h n r hn
        omega
      exact ⟨Option.eq_none_iff_forall_ne_some.mpr fun t ht => hnone ((hbyNumber i).mp ht),
        Option.eq_none_iff_forall_ne_some.mpr fun t ht => hnone ((hbyHash i).mp ht)⟩

end

end Store

/-! ## Positions in the Fabric block -/

/-- The transactions of a block that are stored for it: those whose hash had not occurred. -/
def newTransactions (d : Decoders) (bs : List Block) (b : Block) : List Domain.Transaction :=
  (domainTxs d [b]).filter fun t =>
    (domainTxs d bs).find? (fun t' => t'.txHash = t.txHash) = some t

namespace Chain

variable {τ ε : Type} {d : Decoders} {trie : TrieStore τ ε} {bs : List Block} {c : Chain τ}
  {b : Block}

/-- What is listed for a handled block are its new transactions. -/
theorem Run.mem_listed_iff (hrun : Run d trie bs c) (hlt : ∀ b ∈ bs, b.number < 2 ^ 64)
    (hsame : ∀ b ∈ bs, ∀ b' ∈ bs, b.number = b'.number → b = b') (hb : b ∈ bs) {i : Int} :
    (∃ r ∈ c.store.getTransactionsByBlockNumber (int64 b.number), r.txIndex = i) ↔
      ∃ t ∈ newTransactions d bs b, t.txIndex = i := by
  simp only [Store.mem_getTransactionsByBlockNumber, newTransactions, List.mem_filter,
    decide_eq_true_eq, mem_domainTxs, List.mem_singleton]
  constructor
  · rintro ⟨r, ⟨hr, hn⟩, hidx⟩
    obtain ⟨t, rfl, hfind⟩ := hrun.mem_transactions_iff.mp hr
    obtain ⟨b', hb', ebl, hebl, ht⟩ := mem_domainTxs.mp (List.mem_of_find?_eq_some hfind)
    obtain ⟨tx, _, hfrom⟩ := convertedFrom_of_mem hebl ht
    have hn : int64 t.blockNumber = int64 b.number := hn
    rw [hfrom.converted.blockNumber] at hn
    obtain rfl := hsame b' hb' b hb (int64_inj (hlt b' hb') (hlt b hb) hn)
    exact ⟨t, ⟨⟨b', rfl, ebl, hebl, ht⟩, hfind⟩, hidx⟩
  · rintro ⟨t, ⟨⟨_, rfl, ebl, hebl, ht⟩, hfind⟩, hidx⟩
    obtain ⟨tx, _, hfrom⟩ := convertedFrom_of_mem hebl ht
    refine ⟨rowOf t, ⟨hrun.mem_transactions_iff.mpr ⟨t, rfl, hfind⟩, ?_⟩, hidx⟩
    exact congrArg int64 hfrom.converted.blockNumber

/-- The hash of a handled block is on its transactions and on no others. -/
theorem Run.blockHash_iff (hrun : Run d trie bs c) (hlt : ∀ b ∈ bs, b.number < 2 ^ 64)
    (hsame : ∀ b ∈ bs, ∀ b' ∈ bs, b.number = b'.number → b = b') (hb : b ∈ bs)
    {r : TransactionRow} (hr : r ∈ c.store.db.transactions) :
    r.blockHash = b.hash ↔ r.blockNumber = int64 b.number := by
  obtain ⟨t, rfl, hfind⟩ := hrun.mem_transactions_iff.mp hr
  obtain ⟨b', hb', ebl, hebl, ht⟩ := mem_domainTxs.mp (List.mem_of_find?_eq_some hfind)
  obtain ⟨tx, _, hfrom⟩ := convertedFrom_of_mem hebl ht
  have hhash : (rowOf t).blockHash = b'.hash := hfrom.blockHash
  have hnum : (rowOf t).blockNumber = int64 b'.number :=
    congrArg int64 hfrom.converted.blockNumber
  rw [hhash, hnum]
  constructor
  · intro heq
    obtain ⟨row, hrow, hn, hh⟩ := hrun.blockRow hlt hsame hb
    obtain ⟨row', hrow', hn', hh'⟩ := hrun.blockRow hlt hsame hb'
    obtain rfl := Store.eq_of_blockHash hrun.valid hrow' hrow (by rw [hh', hh, heq])
    exact hn'.symm.trans hn
  · intro heq
    rw [hsame b' hb' b hb (int64_inj (hlt b' hb') (hlt b hb) heq)]

/-- The positions of a handled block match exactly if the Fabric numbers of its transactions
that are new have no gap from 0 on. -/
theorem Run.positionsMatch_iff (hrun : Run d trie bs c) (hlt : ∀ b ∈ bs, b.number < 2 ^ 64)
    (hsame : ∀ b ∈ bs, ∀ b' ∈ bs, b.number = b'.number → b = b') (hb : b ∈ bs) :
    c.store.PositionsMatch b ↔ ∃ count : Nat, ∀ i : Int,
      (∃ t ∈ newTransactions d bs b, t.txIndex = i) ↔ 0 ≤ i ∧ i < count := by
  obtain ⟨row, hrow, hn, hhash⟩ := hrun.blockRow hlt hsame hb
  rw [Store.positionsMatch_iff_noGap hrun.valid hrow hn hhash
    fun r hr => (hrun.blockHash_iff hlt hsame hb hr).trans (by rw [hn]), hn]
  simp only [hrun.mem_listed_iff hlt hsame hb]

/-! ## Two transfers, and a transfer in second place -/

/-- Two transfers, and a transaction that is not an EVM one. -/
def twoTransfers : Block :=
  { blockOf 1 (carrier 1 .committed) with
    transactions := [carrier 1 .committed,
      { carrier 2 .committed with number := 1, inputArgs := [other₀.raw] },
      { carrier 3 .committed with number := 2, eventName := [] }] }

theorem positionsMatch_twoTransfers :
    (opened.handle sampleDecoders noTrie twoTransfers).1.store.getBlockTxCountByNumber 1 = 2 ∧
      (opened.handle sampleDecoders noTrie twoTransfers).1.store.PositionsMatch twoTransfers := by
  have hrun : Run sampleDecoders noTrie [twoTransfers] _ :=
    .handle (b := twoTransfers) run_opened rfl
  refine ⟨rfl,
    (hrun.positionsMatch_iff (by decide) (by simp) List.mem_cons_self).mpr ⟨2, fun i => ?_⟩⟩
  have hnew : (newTransactions sampleDecoders [twoTransfers] twoTransfers).map
      Domain.Transaction.txIndex = [0, 1] := rfl
  rw [← List.mem_map, hnew, List.mem_pair]
  omega

/-- An EVM transaction in second place. -/
def secondPlace : Block :=
  { blockOf 1 (carrier 1 .committed) with
    transactions := [{ carrier 2 .committed with eventName := [] },
      { carrier 1 .committed with number := 1 }] }

/-- The block has one transaction, and there is none at index 0 but one at index 1. -/
theorem secondPlace_not_at_zero :
    ∃ c, Run sampleDecoders noTrie [secondPlace] c ∧
      c.store.getBlockTxCountByNumber 1 = 1 ∧
      (c.store.getBlockByNumber 1).map (·.transactions.map Domain.Transaction.txHash) =
        some [transfer₀.tx.hash] ∧
      c.store.getTransactionByBlockNumberAndIndex 1 0 = none ∧
      c.store.getTransactionByBlockHashAndIndex secondPlace.hash 0 = none ∧
      (c.store.getTransactionByBlockNumberAndIndex 1 1).map Domain.Transaction.txHash =
        some transfer₀.tx.hash ∧
      ¬ c.store.PositionsMatch secondPlace := by
  refine ⟨_, .handle (b := secondPlace) run_opened rfl, rfl, rfl, rfl, rfl, rfl, ?_⟩
  rintro ⟨block, _, h⟩
  obtain ⟨t, _, hfound, _⟩ := (h 1 (.inl rfl) 0).1 (by decide)
  cases hfound

end Chain

end Gateway

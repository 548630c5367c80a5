import FabricXEvm.Gateway.ReceiptRuns

/-!
# Live filters and stored queries

A log filter is answered in two ways: for a block that is just being handled by a predicate
on its logs (`matchLogs`), and later by a query (`GetLogs` of `CriteriaToLogFilter`).

Both check the addresses, the alternatives at each topic position and the block range
(`FilterCriteria.Selects`).  The live one also wants as many topics as there are positions,
wildcards included, and does not look at a block hash.  So the two agree on a log that passes
the common checks exactly if these extra conditions do (`Run.accepts_iff_returns_iff`).
-/

open Blocks Common

namespace Gateway

/-- `filters.FilterCriteria` of go-ethereum.  A position without alternatives is a wildcard. -/
structure FilterCriteria where
  blockHash : Option Bytes := none
  fromBlock : Option Int := none
  toBlock : Option Int := none
  addresses : List Bytes := []
  topics : List (List Bytes) := []

/-- `big.Int.Uint64`, for a number that is not negative. -/
def bigUint64 (n : Int) : Nat := n.toNat % 2 ^ 64

/-! ## The live path -/

/-- The logs of one transaction, numbered from `logIndex` on. -/
def typesLogs (b : Block) (hash : Bytes) (txIndex : Int) : Int → List EventLog → List TypesLog
  | _, [] => []
  | logIndex, l :: logs =>
      { address := bytesToAddress l.address
        topics := l.topics.map fun t => bytesToHash (t.getD [])
        data := l.data
        blockNumber := b.number
        txHash := hash
        txIndex := uint64OfInt txIndex
        blockHash := bytesToHash b.hash
        index := uint64OfInt logIndex } ::
      typesLogs b hash txIndex (logIndex + 1) logs

/-- The loop of `logsFromBlock`. -/
def logsFromTransactions (d : Decoders) (b : Block) : Int → List Transaction → List TypesLog
  | _, [] => []
  | logIndex, tx :: txs =>
    match evmTx tx with
    | none => logsFromTransactions d b logIndex txs
    | some ethTxBytes =>
      if tx.valid = false ∨ tx.event.length = 0 ∨ (executionOutcome d tx).1 = false then
        logsFromTransactions d b logIndex txs
      else
        match unmarshalLogs d tx.event with
        | none => logsFromTransactions d b logIndex txs
        | some raw =>
          match d.unmarshalBinary ethTxBytes with
          | none => logsFromTransactions d b logIndex txs
          | some ethTx =>
            typesLogs b ethTx.hash tx.number logIndex raw ++
              logsFromTransactions d b (logIndex + raw.length) txs

/-- `logsFromBlock`. -/
def logsFromBlock (d : Decoders) (b : Block) : List TypesLog :=
  logsFromTransactions d b 0 b.transactions

namespace FilterCriteria

variable (crit : FilterCriteria)

/-- The check of `filterLogs`. -/
def check (log : TypesLog) : Bool :=
  if crit.fromBlock.any fun n => 0 ≤ n && log.blockNumber < bigUint64 n then false
  else if crit.toBlock.any fun n => 0 ≤ n && bigUint64 n < log.blockNumber then false
  else if !crit.addresses.isEmpty && !crit.addresses.contains log.address then false
  else if log.topics.length < crit.topics.length then false
  else (crit.topics.zip log.topics).all fun (sub, topic) => sub.isEmpty || sub.contains topic

/-- `matchLogs`. -/
def matchLogs (logs : List TypesLog) : List TypesLog := logs.filter crit.check

/-! ## The stored path -/

/-- `resolveFromBlock`.  The number -5 is the tag for the earliest block. -/
def resolveFromBlock (n : Option Int) (head : Nat) : Option Nat :=
  match n with
  | some n => if 0 ≤ n then some (bigUint64 n) else if n = -5 then some 0 else some head
  | none => some head

/-- `resolveToBlock`. -/
def resolveToBlock (n : Option Int) : Option Nat :=
  match n with
  | some n => if n = -5 then some 0 else if n < 0 then none else some (bigUint64 n)
  | none => none

/-- `CriteriaToLogFilter`. -/
def toLogFilter (head : Nat) : Domain.LogFilter where
  blockHash := crit.blockHash
  fromBlock := if crit.blockHash.isSome then none else resolveFromBlock crit.fromBlock head
  toBlock := if crit.blockHash.isSome then none else resolveToBlock crit.toBlock
  addresses := crit.addresses
  topics := crit.topics

/-! ## What both check -/

/-- A block hash, or a range of numbers. -/
def Explicit : Prop :=
  (∃ h, crit.blockHash = some h ∧ crit.fromBlock = none ∧ crit.toBlock = none) ∨
    ∃ low high : Nat, crit.blockHash = none ∧ crit.fromBlock = some (low : Int) ∧
      crit.toBlock = some (high : Int)

/-- The conditions on addresses, topics and range. -/
structure Selects (l : Domain.Log) : Prop where
  address : crit.addresses = [] ∨ l.address ∈ crit.addresses
  topics : ∀ (i : Nat) alternatives, crit.topics[i]? = some alternatives → alternatives ≠ [] →
    ∃ t ∈ alternatives, l.topics[i]? = some (some t)
  low : ∀ n ∈ crit.fromBlock, bigUint64 n ≤ l.blockNumber
  high : ∀ n ∈ crit.toBlock, l.blockNumber ≤ bigUint64 n

/-- What the stored path wants besides: the block of the hash, or an upper end that can be a
query argument. -/
def Reaches (b : Block) : Prop :=
  match crit.blockHash with
  | some blockHash => blockHash = b.hash
  | none => ∀ n ∈ crit.toBlock, bigUint64 n < 2 ^ 63

end FilterCriteria

/-- An address of 20 bytes and at most four topics of 32 bytes. -/
structure Domain.Log.WellFormed (l : Domain.Log) : Prop where
  address : l.address.length = 20
  topics : l.topics.length ≤ 4
  length : ∀ t ∈ l.topics, ∃ x : Bytes, t = some x ∧ x.length = 32

/-! ## The logs of both paths -/

/-- The log as the live path sees it. -/
def liveLog (l : Domain.Log) : TypesLog where
  address := bytesToAddress l.address
  topics := l.topics.map fun t => bytesToHash (t.getD [])
  data := l.data
  blockNumber := l.blockNumber
  blockHash := bytesToHash l.blockHash
  txHash := l.txHash
  txIndex := uint64OfInt l.txIndex
  index := uint64OfInt l.logIndex

theorem typesLogs_eq (b : Block) (hash : Bytes) (txIndex : Int) (raw : List EventLog) (i : Int) :
    typesLogs b hash txIndex i raw = (domainLogs b hash txIndex i raw).map liveLog := by
  induction raw generalizing i with
  | nil => rfl
  | cons l raw ih =>
      rw [typesLogs, domainLogs, List.map_cons, ih]
      rfl

theorem succeeded_of_status {d : Decoders} {tx : Transaction} (h : receiptStatus d tx = 1) :
    tx.valid = true ∧ (executionOutcome d tx).1 = true := by
  have hsucceeded : (executionOutcome d tx).1 = true := by
    unfold receiptStatus at h
    split at h
    next hs => exact hs
    next => cases h
  refine ⟨?_, hsucceeded⟩
  cases hvalid : tx.valid with
  | true => rfl
  | false =>
      rw [executionOutcome, if_pos hvalid] at hsucceeded
      cases hsucceeded

/-- The live path finds the logs that are stored. -/
theorem logsFromTransactions_eq {d : Decoders} {b : Block} {txs : List Transaction} {i : Int}
    {gas : UInt64} {ts : List Domain.Transaction}
    (h : convertTransactions d b i gas txs = .ok ts) :
    logsFromTransactions d b i txs = (ts.flatMap Domain.Transaction.logs).map liveLog := by
  induction txs generalizing i gas ts with
  | nil =>
      obtain rfl := Except.ok.inj h
      rfl
  | cons tx txs ih =>
      rw [convertTransactions] at h
      unfold logsFromTransactions
      cases hraw : evmTx tx with
      | none =>
        rw [hraw] at h
        exact ih h
      | some raw =>
        rw [hraw] at h
        dsimp only at h ⊢
        split at h
        · cases h
        next t next hconv =>
          split at h
          · cases h
          next ts' hrest =>
            obtain rfl := Except.ok.inj h
            obtain ⟨ethTx, heth, hc⟩ := convertTransaction_ok hconv
            obtain rfl := hc.next
            have ih := ih hrest
            rw [List.flatMap_cons, List.map_append, ← ih]
            change _ = t.logs.map liveLog ++ _
            rw [hc.logs, ← typesLogs_eq]
            split
            next hskip =>
              have hnil : rawLogs d tx = [] := by
                refine if_neg ?_
                rintro ⟨hstatus, hlen⟩
                obtain ⟨hvalid, hsucceeded⟩ := succeeded_of_status hstatus
                rcases hskip with hskip | hskip | hskip
                · rw [hvalid] at hskip
                  cases hskip
                · omega
                · rw [hsucceeded] at hskip
                  cases hskip
              rw [hnil, List.length_nil, Int.natCast_zero, Int.add_zero]
              rfl
            next hkeep =>
              rw [not_or, not_or] at hkeep
              have hraw : rawLogs d tx = (unmarshalLogs d tx.event).getD [] :=
                if_pos ⟨if_pos (by simpa using hkeep.2.2), Nat.pos_of_ne_zero hkeep.2.1⟩
              rw [hraw]
              cases unmarshalLogs d tx.event with
              | none =>
                  rw [Option.getD_none, List.length_nil, Int.natCast_zero, Int.add_zero]
                  rfl
              | some raw =>
                  dsimp only
                  rw [heth]
                  rfl

theorem logsFromBlock_map {d : Decoders} {b : Block} {ebl : Domain.Block}
    (h : convertToDomain d b = .ok ebl) :
    logsFromBlock d b = (ebl.transactions.flatMap Domain.Transaction.logs).map liveLog := by
  unfold convertToDomain at h
  split at h
  · cases h
  next ts hts =>
    obtain rfl := Except.ok.inj h
    exact logsFromTransactions_eq hts

theorem logsFromBlock_eq {d : Decoders} {b : Block} {l : Domain.Log} (hl : l ∈ logsOf d [b]) :
    logsFromBlock d b = (logsOf d [b]).map liveLog := by
  obtain ⟨b', hb', ebl, hebl, _⟩ := Chain.mem_logsOf hl
  rw [List.mem_singleton.mp hb'] at hebl
  rw [logsFromBlock_map hebl, logsOf, domainTxs, List.flatMap_singleton, hebl]

theorem liveLog_eq {l : Domain.Log} (hash : l.txHash.length = 32) (htime : l.timestamp = 0) :
    liveLog l = domainLogToTypes l := by
  rw [liveLog, domainLogToTypes, bytesToHash_of_length hash, htime]
  rfl

/-- Filters see the logs of the converted block, in order and as the API shows them.  An
address of 20 bytes and topics of 32 bytes are shown as they are. -/
theorem logsFromBlock_eq_domainLogToTypes {d : Decoders} {b : Block} {ebl : Domain.Block}
    (h : convertToDomain d b = .ok ebl) :
    logsFromBlock d b =
        (ebl.transactions.flatMap Domain.Transaction.logs).map domainLogToTypes ∧
      ∀ l ∈ ebl.transactions.flatMap Domain.Transaction.logs, l.WellFormed →
        (domainLogToTypes l).address = l.address ∧
          (domainLogToTypes l).topics.map some = l.topics := by
  constructor
  · rw [logsFromBlock_map h]
    refine List.map_congr_left fun l hl => ?_
    obtain ⟨t, ht, hl⟩ := List.mem_flatMap.mp hl
    obtain ⟨tx, _, hfrom⟩ := convertedFrom_of_mem h ht
    have hat := hfrom.mem_logs hl
    refine liveLog_eq ?_ hat.timestamp
    obtain ⟨_, _, ethTx, _, hhash⟩ :
        ∃ raw, evmTx tx = some raw ∧ ∃ ethTx, d.unmarshalBinary raw = some ethTx ∧
          ethTx.hash = t.txHash := by
      simpa [ethHash, Option.bind_eq_some_iff] using hfrom.converted.hash
    rw [hat.txHash, ← hhash]
    exact ethTx.hash_length
  · intro l _ hwf
    constructor
    · simp [domainLogToTypes, bytesToAddress, hwf.address]
    · have htopic : ∀ t ∈ l.topics, some (bytesToHash (t.getD [])) = t := by
        intro t ht
        obtain ⟨x, rfl, hx⟩ := hwf.length t ht
        rw [Option.getD_some, bytesToHash_of_length hx]
      rw [domainLogToTypes, List.map_map]
      exact (List.map_congr_left htopic).trans (List.map_id _)

/-! ## What each path adds -/

namespace FilterCriteria

variable {crit : FilterCriteria} {l : Domain.Log}

/-- The loop over the topic positions, by position. -/
theorem all_zip_iff {topics : List (List Bytes)} {ts : List Bytes} :
    ((topics.zip ts).all fun (sub, topic) => sub.isEmpty || sub.contains topic) = true ↔
      ∀ (i : Nat) sub t, topics[i]? = some sub → ts[i]? = some t → sub ≠ [] → t ∈ sub := by
  rw [List.all_eq_true]
  constructor
  · intro h i sub t hsub ht hne
    have hmem : (sub, t) ∈ topics.zip ts :=
      List.mem_of_getElem? (List.getElem?_zip_eq_some.mpr ⟨hsub, ht⟩)
    simpa [hne] using h _ hmem
  · rintro h ⟨sub, t⟩ hmem
    obtain ⟨i, hi⟩ := List.getElem?_of_mem hmem
    obtain ⟨hsub, ht⟩ := List.getElem?_zip_eq_some.mp hi
    by_cases hne : sub = []
    · simp [hne]
    · simpa [hne] using h i sub t hsub ht hne

theorem column_match_iff {sub : List Bytes} {column : Option Bytes} :
    (sub.isEmpty || column.any sub.contains) = true ↔ (sub ≠ [] → ∃ t ∈ sub, column = some t) := by
  cases sub with
  | nil => simp
  | cons t sub => cases column <;> simp

theorem topicsMatch_iff {columns : List (Option Bytes)} {topics : List (List Bytes)} :
    topicsMatch columns topics = true ↔
      ∀ (i : Nat) sub column, topics[i]? = some sub → columns[i]? = some column → sub ≠ [] →
        ∃ t ∈ sub, column = some t := by
  induction columns generalizing topics with
  | nil => simp [topicsMatch]
  | cons column columns ih =>
      cases topics with
      | nil => simp [topicsMatch]
      | cons sub topics =>
          rw [topicsMatch, Bool.and_eq_true, ih, column_match_iff]
          constructor
          · rintro ⟨hhead, htail⟩ i sub' column' hsub hcolumn
            cases i with
            | zero =>
                cases hsub
                cases hcolumn
                exact hhead
            | succ i => exact htail i sub' column' hsub hcolumn
          · intro h
            exact ⟨h 0 sub column rfl rfl, fun i sub' column' => h (i + 1) sub' column'⟩

/-- Up to four positions, the condition on the columns is that on the topics. -/
theorem topicsMatch_row (hcrit : crit.topics.length ≤ 4) :
    topicsMatch (toStorageLog l).topicColumns crit.topics = true ↔
      ∀ (i : Nat) sub, crit.topics[i]? = some sub → sub ≠ [] →
        ∃ t ∈ sub, l.topics[i]? = some (some t) := by
  have hcolumn : ∀ i < 4, (toStorageLog l).topicColumns[i]? = some (topic l.topics i) := by
    intro i hi
    match i, hi with
    | 0, _ => rfl
    | 1, _ => rfl
    | 2, _ => rfl
    | 3, _ => rfl
  rw [topicsMatch_iff]
  constructor
  · intro h i sub hsub hne
    have hi : i < 4 := Nat.lt_of_lt_of_le (List.getElem?_eq_some_iff.mp hsub).1 hcrit
    obtain ⟨t, ht, heq⟩ := h i sub _ hsub (hcolumn i hi) hne
    exact ⟨t, ht, Option.join_eq_some_iff.mp heq⟩
  · intro h i sub column hsub hc hne
    have hi : i < 4 := Nat.lt_of_lt_of_le (List.getElem?_eq_some_iff.mp hsub).1 hcrit
    obtain ⟨t, ht, heq⟩ := h i sub hsub hne
    rw [hcolumn i hi] at hc
    obtain rfl := Option.some.inj hc
    exact ⟨t, ht, Option.join_eq_some_iff.mpr heq⟩

theorem Explicit.nonneg (hcrit : crit.Explicit) :
    (∀ n ∈ crit.fromBlock, 0 ≤ n) ∧ ∀ n ∈ crit.toBlock, 0 ≤ n := by
  obtain ⟨h, _, hlow, hhigh⟩ | ⟨low, high, _, hlow, hhigh⟩ := hcrit
  · rw [hlow, hhigh]
    exact ⟨nofun, nofun⟩
  · rw [hlow, hhigh]
    refine ⟨fun n hn => ?_, fun n hn => ?_⟩
    · rw [← Option.some.inj hn]
      exact Int.natCast_nonneg low
    · rw [← Option.some.inj hn]
      exact Int.natCast_nonneg high

theorem not_any_iff {o : Option Int} {p : Int → Bool} (h : ∀ n ∈ o, 0 ≤ n) :
    ¬ o.any (fun n => 0 ≤ n && p n) = true ↔ ∀ n ∈ o, p n = false := by
  cases o with
  | none => simp
  | some n => simp [h n rfl]

theorem topics_liveLog (hl : l.WellFormed) {i : Nat} {t : Bytes} :
    (liveLog l).topics[i]? = some t ↔ l.topics[i]? = some (some t) := by
  rw [liveLog, List.getElem?_map]
  cases hi : l.topics[i]? with
  | none => simp
  | some x =>
      obtain ⟨x, rfl, hlen⟩ := hl.length x (List.mem_of_getElem? hi)
      simp [bytesToHash_of_length hlen]

/-- The check, as the conditions it makes. -/
theorem check_eq_true {log : TypesLog} :
    crit.check log = true ↔
      (¬ crit.fromBlock.any (fun n => 0 ≤ n && decide (log.blockNumber < bigUint64 n)) = true ∧
        ¬ crit.toBlock.any (fun n => 0 ≤ n && decide (bigUint64 n < log.blockNumber)) = true) ∧
      (crit.addresses = [] ∨ log.address ∈ crit.addresses) ∧
      crit.topics.length ≤ log.topics.length ∧
      ∀ (i : Nat) sub t, crit.topics[i]? = some sub → log.topics[i]? = some t → sub ≠ [] → t ∈ sub := by
  rw [← all_zip_iff, ← Nat.not_lt]
  have haddr : (crit.addresses = [] ∨ log.address ∈ crit.addresses) ↔
      ¬ (!crit.addresses.isEmpty && !crit.addresses.contains log.address) = true := by
    simp [or_iff_not_imp_left]
  rw [haddr]
  unfold check
  split_ifs with hfrom hto hout hlen <;> tauto

/-- What the live path accepts. -/
theorem check_iff (hl : l.WellFormed) (hcrit : crit.Explicit) :
    crit.check (liveLog l) = true ↔ crit.Selects l ∧ crit.topics.length ≤ l.topics.length := by
  have haddress : bytesToAddress l.address = l.address := by
    simp [bytesToAddress, hl.address]
  obtain ⟨hlow, hhigh⟩ := hcrit.nonneg
  rw [check_eq_true, not_any_iff hlow, not_any_iff hhigh]
  simp only [decide_eq_false_iff_not, Nat.not_lt]
  rw [show (liveLog l).topics.length = l.topics.length from List.length_map _,
    show (liveLog l).address = l.address from haddress]
  constructor
  · rintro ⟨⟨hlow, hhigh⟩, haddr, hlen, htopics⟩
    refine ⟨⟨haddr, fun i sub hsub hne => ?_, hlow, hhigh⟩, hlen⟩
    have hi : i < l.topics.length :=
      Nat.lt_of_lt_of_le (List.getElem?_eq_some_iff.mp hsub).1 hlen
    obtain ⟨x, hx, _⟩ := hl.length _ (List.getElem_mem hi)
    have hget : l.topics[i]? = some (some x) := by rw [List.getElem?_eq_getElem hi, hx]
    exact ⟨x, htopics i sub x hsub ((topics_liveLog hl).mpr hget) hne, hget⟩
  · rintro ⟨hs, hlen⟩
    refine ⟨⟨hs.low, hs.high⟩, hs.address, hlen, fun i sub t hsub ht hne => ?_⟩
    obtain ⟨t', ht', hget⟩ := hs.topics i sub hsub hne
    rw [(topics_liveLog hl).mp ht] at hget
    cases hget
    exact ht'

end FilterCriteria

/-- The query returns the log. -/
def Store.Returns (s : Store) (filter : Domain.LogFilter) (l : Domain.Log) : Prop :=
  ∃ ls, s.getLogs filter = .ok ls ∧
    ∃ x ∈ ls, x.blockNumber = l.blockNumber ∧ x.txHash = l.txHash ∧ x.logIndex = l.logIndex

theorem Store.returns_iff {s : Store} {filter : Domain.LogFilter} {l : Domain.Log} :
    s.Returns filter l ↔ ∃ inBlocks, s.blockCondition filter = .ok inBlocks ∧
      ∃ r ∈ s.logsWithBlock, inBlocks r.1 = true ∧
        (filter.addresses = [] ∨ r.1.address ∈ filter.addresses) ∧
        topicsMatch r.1.topicColumns filter.topics = true ∧
        uint64OfInt r.1.blockNumber = l.blockNumber ∧ r.1.txHash = l.txHash ∧
        r.1.logIndex = l.logIndex := by
  constructor
  · rintro ⟨ls, hls, x, hx, hnum, hhash, hidx⟩
    obtain ⟨inBlocks, hcond, hls⟩ := Except.of_bind_ok hls
    obtain rfl := Except.ok.inj hls
    obtain ⟨r, hr, rfl⟩ := List.mem_map.mp hx
    obtain ⟨hr, hp⟩ := List.mem_filter.mp ((List.mem_insertionSort _).mp hr)
    simp only [Bool.and_eq_true, Bool.or_eq_true, List.isEmpty_iff, List.contains_iff_mem] at hp
    exact ⟨inBlocks, hcond, r, hr, hp.1.1, hp.1.2, hp.2, hnum, hhash, hidx⟩
  · rintro ⟨inBlocks, hcond, r, hr, hin, haddr, htopics, hnum, hhash, hidx⟩
    unfold Store.Returns Store.getLogs
    rw [hcond]
    refine ⟨_, rfl, _, List.mem_map.mpr ⟨r, ?_, rfl⟩, hnum, hhash, hidx⟩
    refine (List.mem_insertionSort _).mpr (List.mem_filter.mpr ⟨hr, ?_⟩)
    simp only [Bool.and_eq_true, Bool.or_eq_true, List.isEmpty_iff, List.contains_iff_mem]
    exact ⟨⟨hin, haddr⟩, htopics⟩

theorem Store.blockCondition_range {s : Store} {crit : FilterCriteria} {head low high : Nat}
    (hhash : crit.blockHash = none) (hlow : crit.fromBlock = some (low : Int))
    (hhigh : crit.toBlock = some (high : Int)) :
    s.blockCondition (crit.toLogFilter head) =
      if bigUint64 low < 2 ^ 63 ∧ bigUint64 high < 2 ^ 63 then
        .ok fun l => decide ((bigUint64 low : Int) ≤ l.blockNumber) &&
          decide (l.blockNumber ≤ bigUint64 high)
      else .error (if bigUint64 low < 2 ^ 63 then .highBit (bigUint64 high)
        else .highBit (bigUint64 low)) := by
  have hfrom : (crit.toLogFilter head).fromBlock = some (bigUint64 low) := by
    simp [FilterCriteria.toLogFilter, hhash, hlow, FilterCriteria.resolveFromBlock]
  have hto : (crit.toLogFilter head).toBlock = some (bigUint64 high) := by
    have hne : (high : Int) ≠ -5 := by omega
    simp [FilterCriteria.toLogFilter, hhash, hhigh, FilterCriteria.resolveToBlock, hne]
  have hnone : (crit.toLogFilter head).blockHash = none := hhash
  unfold Store.blockCondition
  rw [hnone, hfrom, hto]
  simp only [Option.mapM_some, bindUint64]
  split_ifs <;> first | rfl | omega

namespace Chain

variable {τ ε : Type} {d : Decoders} {trie : TrieStore τ ε} {bs : List Block} {c : Chain τ}
  {b : Block} {l : Domain.Log} {crit : FilterCriteria} {head : Nat}

/-- No earlier log of the run has the hash and the index of this one. -/
def First (d : Decoders) (bs : List Block) (l : Domain.Log) : Prop :=
  (logsOf d bs).find? (fun l' => (l'.txHash, l'.logIndex) = (l.txHash, l.logIndex)) = some l

theorem OneLedger.log_inj (hbs : OneLedger bs) {l l' : Domain.Log} (hl : l ∈ logsOf d bs)
    (hl' : l' ∈ logsOf d bs) (hnum : l.blockNumber = l'.blockNumber)
    (hidx : l.logIndex = l'.logIndex) : l = l' := by
  obtain ⟨logs, hmem, hmem', hpair⟩ := hbs.logs_of_block hl hl' hnum
  have hnodup : (logs.map Domain.Log.logIndex).Nodup := by
    rw [List.Nodup, List.pairwise_map]
    exact hpair.imp fun h => Int.ne_of_lt h.1
  exact List.inj_on_of_nodup_map hnodup hmem hmem' hidx

/-- The row of a log of the run, if it was kept. -/
theorem Run.row_iff (hrun : Run d trie bs c) (hbs : OneLedger bs) (hl : l ∈ logsOf d bs)
    {row : LogRow} :
    row ∈ c.store.db.logs ∧ uint64OfInt row.blockNumber = l.blockNumber ∧ row.txHash = l.txHash ∧
      row.logIndex = l.logIndex ↔ row = toStorageLog l ∧ First d bs l := by
  constructor
  · rintro ⟨hrow, hnum, hhash, hidx⟩
    obtain ⟨l', rfl, hfind⟩ := hrun.mem_logs_iff.mp hrow
    have hl' := List.mem_of_find?_eq_some hfind
    have hnum : uint64OfInt (int64 l'.blockNumber) = l.blockNumber := hnum
    rw [uint64OfInt_int64 (hbs.blockNumber_lt hl')] at hnum
    obtain rfl := hbs.log_inj hl' hl hnum hidx
    exact ⟨rfl, hfind⟩
  · rintro ⟨rfl, hfirst⟩
    exact ⟨hrun.mem_logs_iff.mpr ⟨l, rfl, hfirst⟩, uint64OfInt_int64 (hbs.blockNumber_lt hl), rfl,
      rfl⟩

/-- A hash names a handled block exactly if it is its hash. -/
theorem Run.blockNumberByHash_iff (hrun : Run d trie bs c) (hbs : OneLedger bs) (hb : b ∈ bs)
    {h : Bytes} : c.store.blockNumberByHash h = some (int64 b.number) ↔ h = b.hash := by
  obtain ⟨row, hmem, hn, hhash⟩ := hrun.blockRow hbs.number_lt hbs.same hb
  have hvalid := hrun.valid
  constructor
  · intro hfind
    obtain ⟨row', hrow', hn'⟩ := Option.map_eq_some_iff.mp hfind
    have heq := hvalid.blocks.eq_of_target (List.mem_of_find?_eq_some hrow') hmem (hn'.trans hn.symm)
    have hh : row'.blockHash = h := by simpa using List.find?_some hrow'
    rw [← hh, heq, hhash]
  · rintro rfl
    obtain ⟨row', hrow'⟩ : ∃ row', (c.store.db.blocks.find? fun r => r.blockHash = b.hash) =
        some row' :=
      Option.isSome_iff_exists.mp (List.find?_isSome.mpr ⟨row, hmem, decide_eq_true hhash⟩)
    have hh : row'.blockHash = b.hash := by simpa using List.find?_some hrow'
    rw [Store.blockNumberByHash, hrow', Store.eq_of_blockHash hvalid
      (List.mem_of_find?_eq_some hrow') hmem (hh.trans hhash.symm)]
    exact congrArg some hn

/-- The condition on the block, for a log of a handled one. -/
theorem Run.inBlocks_iff (hrun : Run d trie bs c) (hbs : OneLedger bs) (hb : b ∈ bs)
    (hnum : l.blockNumber = b.number) (hcrit : crit.Explicit) :
    (∃ inBlocks, c.store.blockCondition (crit.toLogFilter head) = .ok inBlocks ∧
      inBlocks (toStorageLog l) = true) ↔
      (∀ n ∈ crit.fromBlock, bigUint64 n ≤ l.blockNumber) ∧
        (∀ n ∈ crit.toBlock, l.blockNumber ≤ bigUint64 n) ∧ crit.Reaches b := by
  obtain ⟨h, hhash, hlow, hhigh⟩ | ⟨low, high, hhash, hlow, hhigh⟩ := hcrit
  · have hcond : c.store.blockCondition (crit.toLogFilter head) =
        .ok fun l => c.store.blockNumberByHash h = some l.blockNumber := by
      simp only [Store.blockCondition, FilterCriteria.toLogFilter, hhash]
    rw [hcond, hlow, hhigh, FilterCriteria.Reaches, hhash]
    dsimp only
    rw [← hrun.blockNumberByHash_iff hbs hb, ← hnum]
    constructor
    · rintro ⟨_, hok, hin⟩
      obtain rfl := Except.ok.inj hok
      exact ⟨fun n hn => absurd hn (Option.not_mem_none n),
        fun n hn => absurd hn (Option.not_mem_none n), of_decide_eq_true hin⟩
    · rintro ⟨_, _, hfind⟩
      exact ⟨_, rfl, decide_eq_true hfind⟩
  · obtain ⟨row, hmem, hn, _⟩ := hrun.blockRow hbs.number_lt hbs.same hb
    have hcheck := hrun.valid.blocks.check row hmem
    simp only [blocksSchema, Bool.and_eq_true, decide_eq_true_eq] at hcheck
    have hnonneg := hcheck.1.1.1.1
    have hbn : int64 l.blockNumber = l.blockNumber ∧ l.blockNumber < 2 ^ 63 := by
      have hlt := hbs.number_lt b hb
      rw [hn, ← hnum] at hnonneg
      rw [← hnum] at hlt
      unfold int64 at hnonneg ⊢
      split at hnonneg <;> omega
    rw [Store.blockCondition_range hhash hlow hhigh, hlow, hhigh, FilterCriteria.Reaches, hhash, hhigh]
    dsimp only
    have hrange : (decide ((bigUint64 low : Int) ≤ (toStorageLog l).blockNumber) &&
        decide ((toStorageLog l).blockNumber ≤ bigUint64 high)) = true ↔
          bigUint64 low ≤ l.blockNumber ∧ l.blockNumber ≤ bigUint64 high := by
      rw [Bool.and_eq_true, decide_eq_true_eq, decide_eq_true_eq,
        show (toStorageLog l).blockNumber = l.blockNumber from hbn.1, Int.ofNat_le, Int.ofNat_le]
    simp only [Option.mem_def, Option.some.injEq, forall_eq']
    constructor
    · rintro ⟨_, hok, hin⟩
      split at hok
      next hargs =>
        obtain rfl := Except.ok.inj hok
        obtain ⟨hl, hh⟩ := hrange.mp hin
        exact ⟨hl, hh, hargs.2⟩
      next => cases hok
    · rintro ⟨hl, hh, hreach⟩
      exact ⟨_, if_pos ⟨by omega, hreach⟩, hrange.mpr ⟨hl, hh⟩⟩

/-- What the stored path returns. -/
theorem Run.returns_iff (hrun : Run d trie bs c) (hbs : OneLedger bs) (hb : b ∈ bs)
    (hl : l ∈ logsOf d [b]) (hcrit : crit.Explicit) (htopics : crit.topics.length ≤ 4) :
    c.store.Returns (crit.toLogFilter head) l ↔
      crit.Selects l ∧ First d bs l ∧ crit.Reaches b := by
  have hmem : l ∈ logsOf d bs := by
    obtain ⟨t, ht, hl⟩ := List.mem_flatMap.mp hl
    obtain ⟨b', hb', ebl, hebl, hmem⟩ := mem_domainTxs.mp ht
    rw [List.mem_singleton.mp hb'] at hebl
    exact List.mem_flatMap.mpr ⟨t, mem_domainTxs.mpr ⟨b, hb, ebl, hebl, hmem⟩, hl⟩
  have hnum : l.blockNumber = b.number := by
    obtain ⟨b', hb', _, _, _, hnum⟩ := mem_logsOf hl
    rwa [List.mem_singleton.mp hb'] at hnum
  rw [Store.returns_iff]
  constructor
  · rintro ⟨inBlocks, hcond, r, hr, hin, haddr, htop, hkey⟩
    obtain ⟨hlog, _, _⟩ := Store.mem_logsWithBlock.mp hr
    obtain ⟨heq, hfirst⟩ := (hrun.row_iff hbs hmem).mp ⟨hlog, hkey⟩
    rw [heq] at hlog hin haddr htop
    obtain ⟨hlow, hhigh, hreach⟩ :=
      (hrun.inBlocks_iff hbs hb hnum hcrit).mp ⟨inBlocks, hcond, hin⟩
    exact ⟨⟨haddr, (FilterCriteria.topicsMatch_row htopics).mp htop, hlow, hhigh⟩, hfirst, hreach⟩
  · rintro ⟨hs, hfirst, hreach⟩
    obtain ⟨hlog, hkey⟩ := (hrun.row_iff hbs hmem).mpr ⟨rfl, hfirst⟩
    obtain ⟨inBlocks, hcond, hin⟩ :=
      (hrun.inBlocks_iff hbs hb hnum hcrit).mpr ⟨hs.low, hs.high, hreach⟩
    obtain ⟨row, hrow, hn, _⟩ := hrun.blockRow hbs.number_lt hbs.same hb
    have hn : int64 l.blockNumber = row.blockNumber := by rw [hn, hnum]
    exact ⟨inBlocks, hcond, (toStorageLog l, row), Store.mem_logsWithBlock.mpr ⟨hlog, hrow, hn⟩,
      hin, hs.address, (FilterCriteria.topicsMatch_row htopics).mpr hs.topics, hkey⟩

/-- The live path accepts a log of a handled block exactly if the stored query returns it, if
and only if the following holds of a log that passes the common checks: it has as many topics
as there are positions exactly if it is kept and the criteria reach its block. -/
theorem Run.accepts_iff_returns_iff (hrun : Run d trie bs c) (hbs : OneLedger bs) (hb : b ∈ bs)
    (hl : l ∈ logsOf d [b]) (hwf : l.WellFormed) (hcrit : crit.Explicit)
    (htopics : crit.topics.length ≤ 4) :
    (liveLog l ∈ crit.matchLogs (logsFromBlock d b) ↔
      c.store.Returns (crit.toLogFilter head) l) ↔
    (crit.Selects l →
      (crit.topics.length ≤ l.topics.length ↔ First d bs l ∧ crit.Reaches b)) := by
  have hlive : liveLog l ∈ logsFromBlock d b := by
    rw [logsFromBlock_eq hl]
    exact List.mem_map_of_mem hl
  rw [FilterCriteria.matchLogs, List.mem_filter, and_iff_right hlive,
    FilterCriteria.check_iff hwf hcrit, hrun.returns_iff hbs hb hl hcrit htopics]
  tauto

/-! ## One log -/

/-- The log of the block `logged 1`. -/
def lone : Domain.Log where
  blockNumber := 1
  blockHash := List.replicate 32 1
  txHash := transfer₀.tx.hash
  txIndex := 0
  logIndex := 0
  address := account₂
  topics := []
  data := none

theorem logsOf_logged : logsOf sampleDecoders [logged 1] = [lone] := rfl

theorem lone_wellFormed : lone.WellFormed where
  address := rfl
  topics := by decide
  length _ ht := absurd ht List.not_mem_nil

theorem run_logged :
    Run sampleDecoders noTrie [logged 1] (opened.handle sampleDecoders noTrie (logged 1)).1 :=
  .handle (b := logged 1) (@Run.new _ _ sampleDecoders noTrie false _ rfl) rfl

theorem oneLedger_logged : OneLedger [logged 1] := ⟨by decide, by simp, by decide⟩

/-- A block that begins with a transaction that is not an EVM one. -/
def mixedBlock : Block :=
  { logged 1 with
    transactions := { carrier 2 .committed with eventName := [] } :: (logged 1).transactions }

theorem logsFromBlock_mixedBlock : ∃ ebl, convertToDomain sampleDecoders mixedBlock = .ok ebl ∧
    logsFromBlock sampleDecoders mixedBlock =
      (ebl.transactions.flatMap Domain.Transaction.logs).map domainLogToTypes ∧
    (logsFromBlock sampleDecoders mixedBlock).length = 1 :=
   ⟨_, rfl, (logsFromBlock_eq_domainLogToTypes rfl).1, rfl⟩

/-- The logs of block 1. -/
def ofBlockOne : FilterCriteria := { fromBlock := some 1, toBlock := some 1 }

theorem accepts_iff_returns_logged :
    liveLog lone ∈ ofBlockOne.matchLogs (logsFromBlock sampleDecoders (logged 1)) ↔
      (opened.handle sampleDecoders noTrie (logged 1)).1.store.Returns
        (ofBlockOne.toLogFilter 0) lone := by
  have hl : lone ∈ logsOf sampleDecoders [logged 1] := by simp [logsOf_logged]
  refine (run_logged.accepts_iff_returns_iff oneLedger_logged List.mem_cons_self hl
    lone_wellFormed (.inr ⟨1, 1, rfl, rfl, rfl⟩) (by decide)).mpr fun _ => ?_
  refine iff_of_true (by decide) ⟨rfl, fun n hn => ?_⟩
  obtain rfl := Option.some.inj hn
  decide

/-- For the hash of another block the live path accepts the log and the query does not return
it; for a wildcard beyond its topics it is the other way round. -/
theorem hash_and_wildcard_differ :
    Run sampleDecoders noTrie [logged 1] (opened.handle sampleDecoders noTrie (logged 1)).1 ∧
      ({ blockHash := some (List.replicate 32 9) } : FilterCriteria).matchLogs
        (logsFromBlock sampleDecoders (logged 1)) = [liveLog lone] ∧
      (opened.handle sampleDecoders noTrie (logged 1)).1.store.getLogs
        (({ blockHash := some (List.replicate 32 9) } : FilterCriteria).toLogFilter 0) = .ok [] ∧
      { ofBlockOne with topics := [[]] }.matchLogs (logsFromBlock sampleDecoders (logged 1)) = [] ∧
      ((opened.handle sampleDecoders noTrie (logged 1)).1.store.getLogs
        ({ ofBlockOne with topics := [[]] }.toLogFilter 0)).map (·.map Domain.Log.txHash) =
          .ok [lone.txHash] := by
  exact ⟨run_logged, rfl, rfl, rfl, rfl⟩

end Chain

end Gateway

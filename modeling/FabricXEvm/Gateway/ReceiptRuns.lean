import FabricXEvm.Gateway.Links
import FabricXEvm.Gateway.ReceiptParity

/-!
# Receipts after any run

The store keeps the first transaction of each hash, and the first log of each hash and index.
After any run the two kinds of receipt agree exactly if each such log is in the block of the
transaction that was kept (`Run.sameStory_iff`).  A transaction that met a conflict and was
committed in a later block has its logs there, while its record stays in the first block
(`logs_elsewhere`).
-/

open Blocks Common

namespace Gateway

/-! ## The logs of a block -/

/-- The Ethereum transactions of the blocks, in order. -/
def domainTxs (d : Decoders) (bs : List Block) : List Domain.Transaction :=
  bs.flatMap fun b =>
    match convertToDomain d b with
    | .ok ebl => ebl.transactions
    | .error _ => []

/-- Their logs. -/
def logsOf (d : Decoders) (bs : List Block) : List Domain.Log :=
  (domainTxs d bs).flatMap Domain.Transaction.logs

theorem domainTxs_concat {d : Decoders} {bs : List Block} {b : Block} {ebl : Domain.Block}
    (h : convertToDomain d b = .ok ebl) :
    domainTxs d (bs ++ [b]) = domainTxs d bs ++ ebl.transactions := by
  rw [domainTxs, List.flatMap_append, List.flatMap_singleton, h]
  rfl

theorem mem_domainTxs {d : Decoders} {bs : List Block} {t : Domain.Transaction} :
    t ∈ domainTxs d bs ↔ ∃ b ∈ bs, ∃ ebl, convertToDomain d b = .ok ebl ∧ t ∈ ebl.transactions := by
  rw [domainTxs, List.mem_flatMap]
  refine exists_congr fun b => and_congr_right fun _ => ?_
  cases convertToDomain d b with
  | error e => simp
  | ok ebl => simp

/-- One log of a transaction comes before another. -/
def Domain.Log.Before (l l' : Domain.Log) : Prop :=
  l.logIndex < l'.logIndex ∧ l.txIndex ≤ l'.txIndex

/-- Of two logs, the one with the lower transaction index has the lower log index. -/
def Domain.Log.Aligned (l l' : Domain.Log) : Prop :=
  (l.txIndex < l'.txIndex → l.logIndex < l'.logIndex) ∧
    (l'.txIndex < l.txIndex → l'.logIndex < l.logIndex)

instance : Std.Symm Domain.Log.Aligned := ⟨fun _ _ h => ⟨h.2, h.1⟩⟩

theorem Domain.Log.aligned_self (l : Domain.Log) : l.Aligned l :=
  ⟨fun h => absurd h (Int.lt_irrefl _), fun h => absurd h (Int.lt_irrefl _)⟩

theorem Domain.Log.Before.aligned {l l' : Domain.Log} (h : l.Before l') : l.Aligned l' :=
  ⟨fun _ => h.1, fun hlt => absurd hlt (Int.not_lt.mpr h.2)⟩

theorem pairwise_domainLogs (b : Block) (hash : Bytes) (txIndex : Int) (raw : List EventLog)
    (i : Int) : (domainLogs b hash txIndex i raw).Pairwise Domain.Log.Before := by
  induction raw generalizing i with
  | nil => exact .nil
  | cons e raw ih =>
      refine .cons (fun l hl => ?_) (ih (i + 1))
      obtain ⟨hat, hidx⟩ := at_of_mem_domainLogs hl
      exact ⟨by dsimp only; omega, Int.le_of_eq hat.txIndex.symm⟩

/-- The logs of a block are numbered in the order of its transactions. -/
theorem convertTransactions_logs {d : Decoders} {b : Block} {txs : List Transaction} {i : Int}
    {gas : UInt64} {ts : List Domain.Transaction} (h : convertTransactions d b i gas txs = .ok ts)
    (hnum : txs.Pairwise fun tx tx' => tx.number < tx'.number) :
    (∀ l ∈ ts.flatMap Domain.Transaction.logs, i ≤ l.logIndex ∧ ∃ tx ∈ txs, l.txIndex = tx.number) ∧
      (ts.flatMap Domain.Transaction.logs).Pairwise Domain.Log.Before := by
  induction txs generalizing i gas ts with
  | nil =>
      obtain rfl := Except.ok.inj h
      exact ⟨nofun, .nil⟩
  | cons tx txs ih =>
      obtain ⟨hlt, hnum⟩ := List.pairwise_cons.mp hnum
      rw [convertTransactions] at h
      split at h
      next =>
        obtain ⟨hmem, hpair⟩ := ih h hnum
        refine ⟨fun l hl => ?_, hpair⟩
        obtain ⟨hidx, tx', htx', heq⟩ := hmem l hl
        exact ⟨hidx, tx', List.mem_cons_of_mem _ htx', heq⟩
      next raw hraw =>
        dsimp only at h
        split at h
        · cases h
        next t next hconv =>
          split at h
          · cases h
          next ts' hrest =>
            obtain rfl := Except.ok.inj h
            obtain ⟨ethTx, _, hc⟩ := convertTransaction_ok hconv
            obtain rfl := hc.next
            obtain ⟨hmem, hpair⟩ := ih hrest hnum
            rw [List.flatMap_cons]
            change (∀ l ∈ t.logs ++ _, _) ∧ (t.logs ++ _).Pairwise _
            rw [hc.logs]
            refine ⟨fun l hl => ?_, List.pairwise_append.mpr
              ⟨pairwise_domainLogs _ _ _ _ _, hpair, fun l hl l' hl' => ?_⟩⟩
            · rcases List.mem_append.mp hl with hl | hl
              · obtain ⟨hat, hidx⟩ := at_of_mem_domainLogs hl
                exact ⟨hidx.1, tx, List.mem_cons_self, hat.txIndex⟩
              · obtain ⟨hidx, tx', htx', heq⟩ := hmem l hl
                exact ⟨by omega, tx', List.mem_cons_of_mem _ htx', heq⟩
            · obtain ⟨hat, hidx⟩ := at_of_mem_domainLogs hl
              have htx := hat.txIndex
              obtain ⟨hidx', tx', htx', heq⟩ := hmem l' hl'
              have := hlt tx' htx'
              exact ⟨by omega, by omega⟩

/-! ## What is kept -/

open Tables (Recorded)

theorem Tables.insertFull_firsts {db db' : Tables} {t : Domain.Transaction} {given : List LogRow}
    (hdb : logsSchema.Firsts given db.logs) (h : db.insertFull t = .ok db') :
    logsSchema.Firsts (given ++ t.logs.map toStorageLog) db'.logs := by
  obtain ⟨txs, _, h⟩ := insertFull_eq h
  exact Except.foldlM_ok (fun done db => logsSchema.Firsts (given ++ done) db.logs) h
    (by simpa using hdb) fun {done db l db'} hP hstep => by
      obtain ⟨logs, hlogs, rfl⟩ := insertLog_eq hstep
      rw [← List.append_assoc]
      exact hP.insert hlogs

theorem Store.insertBlock_firsts {s s' : Store} {block : Domain.Block} {given : List LogRow}
    (hdb : logsSchema.Firsts given s.db.logs) (h : s.insertBlock block = .ok s') :
    logsSchema.Firsts
      (given ++ (block.transactions.flatMap Domain.Transaction.logs).map toStorageLog)
      s'.db.logs := by
  obtain ⟨db₁, db₂, h₁, h₂, rfl⟩ := Store.insertBlock_eq h
  obtain ⟨blocks, _, rfl⟩ := Tables.insertBlock_eq h₁
  exact Except.foldlM_ok (fun done db => logsSchema.Firsts
      (given ++ (done.flatMap Domain.Transaction.logs).map toStorageLog) db.logs) h₂
    (by simpa using hdb) fun {done db t db'} hP hstep => by
      rw [List.flatMap_append, List.map_append, List.flatMap_singleton, ← List.append_assoc]
      exact Tables.insertFull_firsts hP hstep

namespace Chain

variable {τ ε : Type} {d : Decoders} {trie : TrieStore τ ε} {bs : List Block} {c c' : Chain τ}

/-- The rows after a run: those of its blocks, the first transaction of each hash, and the
first log of each hash and index. -/
structure Kept (d : Decoders) (bs : List Block) (db : Tables) : Prop where
  blocks : ∀ r ∈ db.blocks, ∃ b ∈ bs, r.blockNumber = int64 b.number ∧ r.blockHash = b.hash
  transactions : Recorded (domainTxs d bs) db
  logs : logsSchema.Firsts ((logsOf d bs).map toStorageLog) db.logs

theorem Run.kept (hrun : Run d trie bs c) : Kept d bs c.store.db := by
  induction hrun with
  | new h =>
      rw [db_of_new h]
      exact ⟨fun _ h => absurd h List.not_mem_nil, .empty, fun _ => rfl⟩
  | @handle bs c c' b _ h ih =>
      obtain ⟨ebl, root, hebl, hins⟩ := of_handle_ok h
      refine ⟨fun r hr => ?_, ?_, ?_⟩
      · rcases Schema.eq_or_mem_of_insert (Store.insertBlock_blocks hins) hr with hr | rfl
        · obtain ⟨b', hb', hnum⟩ := ih.blocks r hr
          exact ⟨b', List.mem_append_left _ hb', hnum⟩
        · obtain ⟨hnum, hhash, _⟩ := convertToDomain_ok hebl
          exact ⟨b, by simp, congrArg int64 hnum, hhash⟩
      · have hrec := Store.insertBlock_recorded ih.transactions hins
          fun t ht => blockNumber_of_mem hebl t ht
        rw [domainTxs_concat hebl]
        exact hrec
      · have hlogs := Store.insertBlock_firsts ih.logs hins
        rw [logsOf, domainTxs_concat hebl, List.flatMap_append, List.map_append]
        exact hlogs
  | failed _ h ih => rw [store_of_handle_error h]; exact ih
  | reopen _ h ih => rw [db_of_new h]; exact ih

theorem Run.hasBlock (hrun : Run d trie bs c) {b : Block} (hb : b ∈ bs) :
    c.store.db.hasBlock (int64 b.number) = true := by
  induction hrun with
  | new h => cases hb
  | @handle bs c c' b' _ h ih =>
      obtain ⟨ebl, root, hebl, hins⟩ := of_handle_ok h
      obtain ⟨hgrows, _⟩ := Store.insertBlock_holds hins
      rcases List.mem_append.mp hb with hb | hb
      · exact Tables.hasBlock_mono hgrows.blocks (ih hb)
      · rw [List.mem_singleton.mp hb]
        obtain ⟨r, hr, hrn⟩ := Schema.exists_target_of_insert (Store.insertBlock_blocks hins)
        refine List.any_eq_true.mpr ⟨r, hr, decide_eq_true (hrn.trans ?_)⟩
        exact congrArg int64 (convertToDomain_ok hebl).1
  | failed _ h ih => rw [store_of_handle_error h]; exact ih hb
  | reopen _ h ih => rw [db_of_new h]; exact ih hb

/-- The row of a handled block, if no other one has its number. -/
theorem Run.blockRow (hrun : Run d trie bs c) (hlt : ∀ b ∈ bs, b.number < 2 ^ 64)
    (hsame : ∀ b ∈ bs, ∀ b' ∈ bs, b.number = b'.number → b = b') {b : Block} (hb : b ∈ bs) :
    ∃ row ∈ c.store.db.blocks, row.blockNumber = int64 b.number ∧ row.blockHash = b.hash := by
  obtain ⟨row, hrow, hn⟩ := List.any_eq_true.mp (hrun.hasBlock hb)
  have hn : row.blockNumber = int64 b.number := of_decide_eq_true hn
  obtain ⟨b', hb', hn', hhash⟩ := hrun.kept.blocks row hrow
  have heq := int64_inj (hlt b' hb') (hlt b hb) (hn'.symm.trans hn)
  rw [hsame b' hb' b hb heq] at hhash
  exact ⟨row, hrow, hn, hhash⟩

/-! ## The two kinds of receipt -/

/-- The blocks are of one ledger.  Blocks may be handled again. -/
structure OneLedger (bs : List Block) : Prop where
  number_lt : ∀ b ∈ bs, b.number < 2 ^ 64
  same : ∀ b ∈ bs, ∀ b' ∈ bs, b.number = b'.number → b = b'
  increasing : ∀ b ∈ bs, b.transactions.Pairwise fun tx tx' => tx.number < tx'.number

/-- A log of the run is one of a transaction in a block. -/
theorem mem_logsOf {l : Domain.Log} (hl : l ∈ logsOf d bs) :
    ∃ b ∈ bs, ∃ ebl, convertToDomain d b = .ok ebl ∧
      l ∈ ebl.transactions.flatMap Domain.Transaction.logs ∧ l.blockNumber = b.number := by
  obtain ⟨t, ht, hl⟩ := List.mem_flatMap.mp hl
  obtain ⟨b, hb, ebl, hebl, ht⟩ := mem_domainTxs.mp ht
  obtain ⟨tx, _, hfrom⟩ := convertedFrom_of_mem hebl ht
  exact ⟨b, hb, ebl, hebl, List.mem_flatMap.mpr ⟨t, ht, hl⟩, (hfrom.mem_logs hl).blockNumber⟩

/-- The logs of one block are numbered in the order of its transactions. -/
theorem OneLedger.logs_of_block (hbs : OneLedger bs) {l l' : Domain.Log} (hl : l ∈ logsOf d bs)
    (hl' : l' ∈ logsOf d bs) (hnum : l.blockNumber = l'.blockNumber) :
    ∃ logs : List Domain.Log, l ∈ logs ∧ l' ∈ logs ∧ logs.Pairwise Domain.Log.Before := by
  obtain ⟨b, hb, ebl, hebl, hmem, hb₁⟩ := mem_logsOf hl
  obtain ⟨b', hb', ebl', hebl', hmem', hb₁'⟩ := mem_logsOf hl'
  obtain rfl := hbs.same b hb b' hb' (hb₁.symm.trans (hnum.trans hb₁'))
  obtain rfl := Except.ok.inj (hebl.symm.trans hebl')
  refine ⟨_, hmem, hmem', ?_⟩
  unfold convertToDomain at hebl
  split at hebl
  · cases hebl
  next ts hts =>
    obtain rfl := Except.ok.inj hebl
    exact (convertTransactions_logs hts (hbs.increasing b hb)).2

theorem OneLedger.index_lt (hbs : OneLedger bs) {l l' : Domain.Log} (hl : l ∈ logsOf d bs)
    (hl' : l' ∈ logsOf d bs) (hnum : l.blockNumber = l'.blockNumber)
    (hlt : l.txIndex < l'.txIndex) : l.logIndex < l'.logIndex := by
  obtain ⟨logs, hmem, hmem', hpair⟩ := hbs.logs_of_block hl hl' hnum
  have haligned := hpair.imp fun h => h.aligned
  exact (haligned.forall_of_forall (fun l _ => l.aligned_self) hmem hmem').1 hlt

theorem OneLedger.blockNumber_lt (hbs : OneLedger bs) {l : Domain.Log} (hl : l ∈ logsOf d bs) :
    l.blockNumber < 2 ^ 64 := by
  obtain ⟨b, hb, _, _, _, hnum⟩ := mem_logsOf hl
  rw [hnum]
  exact hbs.number_lt b hb

theorem OneLedger.number_of_tx (hbs : OneLedger bs) {t : Domain.Transaction}
    (ht : t ∈ domainTxs d bs) : t.blockNumber < 2 ^ 64 := by
  obtain ⟨b, hb, ebl, hebl, ht⟩ := mem_domainTxs.mp ht
  rw [blockNumber_of_mem hebl t ht, (convertToDomain_ok hebl).1]
  exact hbs.number_lt b hb

/-- The stored log rows are the first ones of the run. -/
theorem Run.mem_logs_iff (hrun : Run d trie bs c) {row : LogRow} :
    row ∈ c.store.db.logs ↔ ∃ l, toStorageLog l = row ∧ (logsOf d bs).find?
      (fun l' => (l'.txHash, l'.logIndex) = (l.txHash, l.logIndex)) = some l := by
  have hfirsts := hrun.kept.logs
  constructor
  · intro hrow
    have hfind := hfirsts.find?_of_mem hrun.valid.logs hrow
    rw [List.find?_map] at hfind
    obtain ⟨l, hl, rfl⟩ := Option.map_eq_some_iff.mp hfind
    exact ⟨l, rfl, hl⟩
  · rintro ⟨l, rfl, hl⟩
    refine hfirsts.mem_of_find? (k := (l.txHash, l.logIndex)) ?_
    rw [List.find?_map]
    exact congrArg (Option.map toStorageLog) hl

/-- The stored transaction rows are the first ones of the run. -/
theorem Run.mem_transactions_iff (hrun : Run d trie bs c) {r : TransactionRow} :
    r ∈ c.store.db.transactions ↔
      ∃ t, rowOf t = r ∧ (domainTxs d bs).find? (fun t' => t'.txHash = t.txHash) = some t := by
  have hfirst := hrun.kept.transactions.first
  constructor
  · intro hr
    have hfind := hfirst r.txHash
    rw [show (c.store.db.transactions.find? fun r' => r'.txHash = r.txHash) = some r from
      hrun.valid.transactions.find? hr rfl] at hfind
    obtain ⟨t, ht, rfl⟩ := Option.map_eq_some_iff.mp hfind.symm
    exact ⟨t, rfl, ht⟩
  · rintro ⟨t, rfl, ht⟩
    refine List.mem_of_find?_eq_some ((hfirst t.txHash).trans ?_)
    rw [ht]
    rfl

theorem Run.ordered (hrun : Run d trie bs c) (hbs : OneLedger bs) : c.store.db.Ordered where
  number_lt r hr := by
    obtain ⟨b, hb, hnum, _⟩ := hrun.kept.blocks r hr
    have := hbs.number_lt b hb
    rw [hnum]
    unfold int64
    split <;> omega
  index_lt l hl l' hl' hnum hlt := by
    obtain ⟨dl, rfl, hdl⟩ := hrun.mem_logs_iff.mp hl
    obtain ⟨dl', rfl, hdl'⟩ := hrun.mem_logs_iff.mp hl'
    have hdl := List.mem_of_find?_eq_some hdl
    have hdl' := List.mem_of_find?_eq_some hdl'
    refine hbs.index_lt hdl hdl' ?_ hlt
    exact int64_inj (hbs.blockNumber_lt hdl) (hbs.blockNumber_lt hdl') hnum

/-- Each kept log is in the block of the kept transaction of its hash. -/
def LogsAtFirst (d : Decoders) (bs : List Block) : Prop :=
  ∀ l t, (logsOf d bs).find? (fun l' => (l'.txHash, l'.logIndex) = (l.txHash, l.logIndex)) = some l →
    (domainTxs d bs).find? (fun t => t.txHash = l.txHash) = some t → t.blockNumber = l.blockNumber

theorem Run.matched_iff (hrun : Run d trie bs c) (hbs : OneLedger bs) :
    c.store.db.Matched ↔ LogsAtFirst d bs := by
  constructor
  · intro hm l t hl ht
    have hhash : t.txHash = l.txHash := by simpa using List.find?_some ht
    have hrow := hrun.mem_logs_iff.mpr ⟨l, rfl, hl⟩
    have hr := hrun.mem_transactions_iff.mpr ⟨t, rfl, hhash ▸ ht⟩
    exact int64_inj (hbs.number_of_tx (List.mem_of_find?_eq_some ht))
      (hbs.blockNumber_lt (List.mem_of_find?_eq_some hl)) (hm _ hrow _ hr hhash)
  · intro h row hrow r hr hhash
    obtain ⟨l, rfl, hl⟩ := hrun.mem_logs_iff.mp hrow
    obtain ⟨t, rfl, ht⟩ := hrun.mem_transactions_iff.mp hr
    have hhash : t.txHash = l.txHash := hhash
    exact congrArg int64 (h l t hl (hhash ▸ ht))

/-- After any run, the two kinds of receipt agree and the logs are those of listed
transactions exactly if each kept log is in the block of the kept transaction of its hash. -/
theorem Run.sameStory_iff (hrun : Run d trie bs c) (hbs : OneLedger bs) (pool : Pool) :
    SameStory d pool c.store ↔ LogsAtFirst d bs :=
  (sameStory_iff_matched hrun.valid (hrun.ordered hbs)).trans (hrun.matched_iff hbs)

/-! ## A transaction resubmitted after a conflict -/

/-- Nothing is pending. -/
def noPool : Pool where
  queue _ := none
  nonceGate _ := none
  marshalBinary _ := none
  signer := sampleSigner

/-- A block with `transfer₀`, committed with a log. -/
def logged (n : Nat) : Block :=
  blockOf n { carrier (UInt8.ofNat n) .committed with event := logEvent }

theorem sameStory_of_first_attempt :
    SameStory sampleDecoders noPool (opened.handle sampleDecoders noTrie (logged 1)).1.store := by
  have hrun : Run sampleDecoders noTrie [logged 1] _ :=
    .handle (b := logged 1) (@Run.new _ _ sampleDecoders noTrie false _ rfl) rfl
  refine (hrun.sameStory_iff ⟨by decide, by simp, by decide⟩ noPool).mpr fun l t hl ht => ?_
  have hl := List.mem_of_find?_eq_some hl
  have ht := List.mem_of_find?_eq_some ht
  obtain rfl := List.mem_singleton.mp ht
  obtain rfl := List.mem_singleton.mp hl
  rfl

/-- The transaction met a conflict in block 1 and was committed with a log in block 2.  Its
receipt has the log, the receipt that block 1 gives for it has none. -/
theorem logs_elsewhere : ∃ c, Run sampleDecoders noTrie [conflicted, logged 2] c ∧
    OneLedger [conflicted, logged 2] ∧
    (c.store.getBlockReceipts (.number 1)).map (·.map (·.map fun r => (r.txHash, r.logs.length))) =
      .ok (some [(transfer₀.tx.hash, 0)]) ∧
    (c.store.getTransactionReceipt sampleDecoders noPool transfer₀.tx.hash).map
      (·.map fun r => (r.blockNumber, r.logs.map TypesLog.blockNumber)) = .ok (some (1, [2])) := by
  have hrun : Run sampleDecoders noTrie [conflicted] _ :=
    .handle (b := conflicted) (@Run.new _ _ sampleDecoders noTrie false _ rfl) rfl
  exact ⟨_, .handle (b := logged 2) hrun rfl, ⟨by decide, by decide, by decide⟩, rfl, rfl⟩

end Chain

end Gateway

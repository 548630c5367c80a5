import FabricXEvm.Gateway.Records

/-!
# What the inserts of a block leave behind

`Store.InsertBlock` skips the rows that are there already.  So the rows of a block that was
stored once (`Holds`) stay, and the block may be inserted again with any parent and root
(`Holds.insertBlock`).  A block that is refused because something must be unique names a row
it clashes with (`Store.clash_of_insertBlock`).
-/

open Blocks Common

namespace Gateway

/-! ## Databases that keep their constraints -/

namespace Tables

variable {db db' : Tables}

/-- Each table keeps its constraints, and the rows that foreign keys name exist. -/
structure Valid (db : Tables) : Prop where
  blocks : blocksSchema.Valid db.blocks
  transactions : transactionsSchema.Valid db.transactions
  logs : logsSchema.Valid db.logs
  blockOf : ∀ t ∈ db.transactions, db.hasBlock t.blockNumber = true
  blockOfLog : ∀ l ∈ db.logs, db.hasBlock l.blockNumber = true
  transactionOf : ∀ l ∈ db.logs, db.hasTransaction l.txHash = true

theorem valid_empty : Valid {} where
  blocks := Schema.valid_nil
  transactions := Schema.valid_nil
  logs := Schema.valid_nil
  blockOf _ h := absurd h List.not_mem_nil
  blockOfLog _ h := absurd h List.not_mem_nil
  transactionOf _ h := absurd h List.not_mem_nil

theorem hasTransaction_mono {hash : Bytes} (hsub : db.transactions ⊆ db'.transactions)
    (h : db.hasTransaction hash = true) : db'.hasTransaction hash = true := by
  obtain ⟨t, ht, hn⟩ := List.any_eq_true.mp h
  exact List.any_eq_true.mpr ⟨t, hsub ht, hn⟩

theorem Valid.insertBlock {row : BlockRow} (hdb : Valid db) (h : db.insertBlock row = .ok db') :
    Valid db' := by
  obtain ⟨blocks, hblocks, rfl⟩ := insertBlock_eq h
  have hsub : db.blocks ⊆ blocks := fun _ => Schema.mem_of_insert hblocks
  exact ⟨hdb.blocks.insert hblocks, hdb.transactions, hdb.logs,
    fun t ht => hasBlock_mono hsub (hdb.blockOf t ht),
    fun l hl => hasBlock_mono hsub (hdb.blockOfLog l hl), hdb.transactionOf⟩

theorem Valid.insertTransaction {row : TransactionRow} (hdb : Valid db)
    (h : db.insertTransaction row = .ok db') : Valid db' := by
  obtain ⟨txs, htxs, rfl⟩ := insertTransaction_eq h
  have hsub : db.transactions ⊆ txs := fun _ => Schema.mem_of_insert htxs
  refine ⟨hdb.blocks, hdb.transactions.insert htxs, hdb.logs, fun t ht => ?_, hdb.blockOfLog,
    fun l hl => hasTransaction_mono hsub (hdb.transactionOf l hl)⟩
  obtain ⟨_, ⟨_, rfl⟩ | ⟨_, _, hrefs, rfl⟩⟩ := Schema.insert_ok htxs
  · exact hdb.blockOf t ht
  · rcases List.mem_append.mp ht with ht | ht
    · exact hdb.blockOf t ht
    · rw [List.mem_singleton.mp ht]
      exact hrefs

theorem Valid.insertLog {row : LogRow} (hdb : Valid db) (h : db.insertLog row = .ok db') :
    Valid db' := by
  obtain ⟨logs, hlogs, rfl⟩ := insertLog_eq h
  have hnew : ∀ l ∈ logs, l ∈ db.logs ∨
      (db.hasTransaction l.txHash && db.hasBlock l.blockNumber) = true := by
    obtain ⟨_, ⟨_, rfl⟩ | ⟨_, _, hrefs, rfl⟩⟩ := Schema.insert_ok hlogs
    · exact fun l hl => .inl hl
    · intro l hl
      rcases List.mem_append.mp hl with hl | hl
      · exact .inl hl
      · rw [List.mem_singleton.mp hl]
        exact .inr hrefs
  refine ⟨hdb.blocks, hdb.transactions, hdb.logs.insert hlogs, hdb.blockOf, fun l hl => ?_,
    fun l hl => ?_⟩
  · exact (hnew l hl).elim (hdb.blockOfLog l) fun h => ((Bool.and_eq_true _ _).mp h).2
  · exact (hnew l hl).elim (hdb.transactionOf l) fun h => ((Bool.and_eq_true _ _).mp h).1

theorem Valid.insertFull {t : Domain.Transaction} (hdb : Valid db) (h : db.insertFull t = .ok db') :
    Valid db' := by
  obtain ⟨db₁, h₁, h⟩ := Except.of_bind_ok h
  exact Except.foldlM_ok (fun _ db => Valid db) h (hdb.insertTransaction h₁) Valid.insertLog

end Tables

theorem Store.insertBlock_valid {s s' : Store} {block : Domain.Block} (hdb : s.db.Valid)
    (h : s.insertBlock block = .ok s') : s'.db.Valid := by
  obtain ⟨db₁, db₂, h₁, h₂, rfl⟩ := Store.insertBlock_eq h
  exact Except.foldlM_ok (fun _ db => db.Valid) h₂ (hdb.insertBlock h₁) Tables.Valid.insertFull

/-- The database of a chain keeps its constraints. -/
theorem Chain.Run.valid {τ ε : Type} {d : Decoders} {trie : TrieStore τ ε} {bs : List Block}
    {c : Chain τ} (hrun : Chain.Run d trie bs c) : c.store.db.Valid := by
  induction hrun with
  | new h => rw [db_of_new h]; exact Tables.valid_empty
  | handle _ h ih =>
      obtain ⟨ebl, root, _, hins⟩ := of_handle_ok h
      exact Store.insertBlock_valid ih hins
  | failed _ h ih => rw [store_of_handle_error h]; exact ih
  | reopen _ h ih => rw [db_of_new h]; exact ih

/-! ## Rows that are there already -/

namespace Tables

variable {db db' db'' : Tables} {t : Domain.Transaction}

/-- Rows are only added. -/
structure Grows (db db' : Tables) : Prop where
  blocks : db.blocks ⊆ db'.blocks
  transactions : db.transactions ⊆ db'.transactions
  logs : db.logs ⊆ db'.logs

theorem Grows.refl (db : Tables) : Grows db db where
  blocks := List.Subset.refl _
  transactions := List.Subset.refl _
  logs := List.Subset.refl _

theorem Grows.trans (h : Grows db db') (h' : Grows db' db'') : Grows db db'' where
  blocks := List.Subset.trans h.blocks h'.blocks
  transactions := List.Subset.trans h.transactions h'.transactions
  logs := List.Subset.trans h.logs h'.logs

/-- The rows of a transaction and its logs are there. -/
structure HasFull (db : Tables) (t : Domain.Transaction) : Prop where
  row : transactionsSchema.Has db.transactions (rowOf t)
  logs : ∀ l ∈ t.logs.map toStorageLog, logsSchema.Has db.logs l

theorem HasFull.mono (h : HasFull db t) (hgrows : Grows db db') : HasFull db' t where
  row := h.row.mono hgrows.transactions
  logs l hl := (h.logs l hl).mono hgrows.logs

theorem insertBlock_grows {row : BlockRow} (h : db.insertBlock row = .ok db') : Grows db db' := by
  obtain ⟨blocks, hblocks, rfl⟩ := insertBlock_eq h
  exact ⟨fun _ => Schema.mem_of_insert hblocks, List.Subset.refl _, List.Subset.refl _⟩

/-- What the insert of a transaction with its logs leaves behind. -/
theorem insertFull_has (h : db.insertFull t = .ok db') : Grows db db' ∧ HasFull db' t := by
  obtain ⟨txs, htxs, h⟩ := insertFull_eq h
  have hloop := Except.foldlM_ok
    (fun done db' => Grows { db with transactions := txs } db' ∧
      ∀ l ∈ done, logsSchema.Has db'.logs l) h ⟨.refl _, nofun⟩
    fun {done s l s'} hP hstep => by
      obtain ⟨logs, hlogs, rfl⟩ := insertLog_eq hstep
      have hsub : s.logs ⊆ logs := fun _ => Schema.mem_of_insert hlogs
      refine ⟨hP.1.trans ⟨List.Subset.refl _, List.Subset.refl _, hsub⟩, fun l' hl' => ?_⟩
      rcases List.mem_append.mp hl' with hl' | hl'
      · exact (hP.2 l' hl').mono hsub
      · rw [List.mem_singleton.mp hl']
        exact Schema.has_of_insert hlogs
  obtain ⟨hgrows, hlogs⟩ := hloop
  have hinsert : Grows db { db with transactions := txs } :=
    ⟨List.Subset.refl _, fun _ => Schema.mem_of_insert htxs, List.Subset.refl _⟩
  exact ⟨hinsert.trans hgrows, (Schema.has_of_insert htxs).mono hgrows.transactions, hlogs⟩

theorem HasFull.insertFull (h : HasFull db t) : db.insertFull t = .ok db := by
  have hlogs : ∀ ls : List LogRow, (∀ l ∈ ls, logsSchema.Has db.logs l) →
      ls.foldlM insertLog db = .ok db := by
    intro ls hls
    induction ls with
    | nil => rfl
    | cons l ls ih =>
        have hl : db.insertLog l = .ok db := by
          unfold insertLog
          rw [(hls l List.mem_cons_self).insert_eq]
          rfl
        rw [List.foldlM_cons, hl]
        exact ih fun l hl => hls l (List.mem_cons_of_mem _ hl)
  have hrow : db.insertTransaction (rowOf t) = .ok db := by
    unfold insertTransaction
    rw [h.row.insert_eq]
    rfl
  change (db.insertTransaction (rowOf t) >>= fun db => (t.logs.map toStorageLog).foldlM insertLog db)
    = _
  rw [hrow]
  exact hlogs _ h.logs

/-- The rows of a block are there.  Its parent and root do not matter, as long as they are
hashes. -/
structure Holds (db : Tables) (block : Domain.Block) : Prop where
  row : ∀ parent root, parent.length = 32 → root.length = 32 →
    blocksSchema.Has db.blocks
      (toStorageBlock { block with parentHash := parent, stateRoot := root })
  transactions : ∀ t ∈ block.transactions, HasFull db t

theorem Holds.mono {block : Domain.Block} (h : Holds db block) (hgrows : Grows db db') :
    Holds db' block where
  row parent root hparent hroot := (h.row parent root hparent hroot).mono hgrows.blocks
  transactions t ht := (h.transactions t ht).mono hgrows

end Tables

open Tables (Grows HasFull Holds)

theorem Store.insertBlock_holds {s s' : Store} {block : Domain.Block}
    (h : s.insertBlock block = .ok s') : Grows s.db s'.db ∧ Holds s'.db block := by
  obtain ⟨db₁, db₂, h₁, h₂, rfl⟩ := Store.insertBlock_eq h
  have hloop := Except.foldlM_ok
    (fun done db => Grows db₁ db ∧ ∀ t ∈ done, HasFull db t) h₂ ⟨.refl _, nofun⟩
    fun {done s t s'} hP hstep => by
      obtain ⟨hgrows, hhas⟩ := Tables.insertFull_has hstep
      refine ⟨hP.1.trans hgrows, fun t' ht' => ?_⟩
      rcases List.mem_append.mp ht' with ht' | ht'
      · exact (hP.2 t' ht').mono hgrows
      · rwa [List.mem_singleton.mp ht']
  obtain ⟨hgrows, htxs⟩ := hloop
  refine ⟨(Tables.insertBlock_grows h₁).trans hgrows, fun parent root hparent hroot => ?_, htxs⟩
  obtain ⟨blocks, hblocks, rfl⟩ := Tables.insertBlock_eq h₁
  obtain ⟨hcheck, r, hr, htarget⟩ := Schema.has_of_insert hblocks
  refine ⟨?_, r, hgrows.blocks hr, htarget⟩
  simp only [blocksSchema, toStorageBlock, Bool.and_eq_true, decide_eq_true_eq] at hcheck ⊢
  exact ⟨⟨⟨hcheck.1.1.1, hparent⟩, hroot⟩, hcheck.2⟩

/-- A stored block is skipped. -/
theorem Tables.Holds.insertBlock {s : Store} {block : Domain.Block} (h : Holds s.db block)
    {parent root : Bytes} (hparent : parent.length = 32) (hroot : root.length = 32) :
    s.insertBlock { block with parentHash := parent, stateRoot := root } =
      .ok { s with cachedBlockNumber := max s.cachedBlockNumber block.blockNumber } := by
  have hrow : s.db.insertBlock
      (toStorageBlock { block with parentHash := parent, stateRoot := root }) = .ok s.db := by
    unfold Tables.insertBlock
    rw [(h.row parent root hparent hroot).insert_eq]
    rfl
  have htxs : ∀ ts : List Domain.Transaction, (∀ t ∈ ts, HasFull s.db t) →
      ts.foldlM Tables.insertFull s.db = .ok s.db := by
    intro ts hts
    induction ts with
    | nil => rfl
    | cons t ts ih =>
        rw [List.foldlM_cons, (hts t List.mem_cons_self).insertFull]
        exact ih fun t ht => hts t (List.mem_cons_of_mem _ ht)
  unfold Store.insertBlock
  rw [hrow]
  change (block.transactions.foldlM Tables.insertFull s.db >>= _) = _
  rw [htxs _ h.transactions]
  rfl

/-- A transaction row was there before, or is of the block. -/
theorem Store.mem_of_insertBlock {s s' : Store} {block : Domain.Block} {r : TransactionRow}
    (h : s.insertBlock block = .ok s') (hr : r ∈ s'.db.transactions) :
    r ∈ s.db.transactions ∨ ∃ t ∈ block.transactions, r = rowOf t := by
  obtain ⟨db₁, db₂, h₁, h₂, rfl⟩ := Store.insertBlock_eq h
  obtain ⟨blocks, _, rfl⟩ := Tables.insertBlock_eq h₁
  exact Except.foldlM_ok (fun done db => ∀ r ∈ db.transactions,
      r ∈ s.db.transactions ∨ ∃ t ∈ done, r = rowOf t) h₂ (fun _ hr => .inl hr)
    (fun {done db t db'} hP hstep r hr => by
      rcases Schema.eq_or_mem_of_insert (Tables.insertFull_ok hstep).1 hr with hr | rfl
      · exact (hP r hr).imp_right fun ⟨t', ht', heq⟩ => ⟨t', List.mem_append_left _ ht', heq⟩
      · exact .inr ⟨t, by simp, rfl⟩) r hr

theorem Tables.clash_of_insertFull {db : Tables} {t : Domain.Transaction}
    (h : db.insertFull t = .error .unique) :
    ∃ r ∈ db.transactions, r.txHash ≠ t.txHash ∧ transactionsSchema.clash r (rowOf t) = true := by
  rcases Except.of_bind_error h with h | ⟨db₁, _, h⟩
  · unfold insertTransaction at h
    rcases Except.of_bind_error h with h | ⟨_, _, h⟩
    · obtain ⟨hfree, r, hr, hclash⟩ := Schema.clash_of_insert h
      exact ⟨r, hr, hfree r hr, hclash⟩
    · cases h
  · -- Of a log nothing but the target is unique.
    obtain ⟨db₂, l, _, _, h⟩ := Except.foldlM_error (fun _ => True) h trivial fun _ _ _ => trivial
    unfold insertLog at h
    rcases Except.of_bind_error h with h | ⟨_, _, h⟩
    · obtain ⟨_, r, _, hclash⟩ := Schema.clash_of_insert h
      cases hclash
    · cases h

/-- Where the clash is when a block is refused for one. -/
theorem Store.clash_of_insertBlock {s : Store} {block : Domain.Block}
    (h : s.insertBlock block = .error .unique) :
    (∃ r ∈ s.db.blocks, blocksSchema.clash r (toStorageBlock block) = true) ∨
      ∃ r, ∃ t ∈ block.transactions,
        (r ∈ s.db.transactions ∨ ∃ t' ∈ block.transactions, r = rowOf t') ∧
        r.txHash ≠ t.txHash ∧ transactionsSchema.clash r (rowOf t) = true := by
  rcases Except.of_bind_error h with h | ⟨db₁, h₁, h⟩
  · left
    rcases Except.of_bind_error h with h | ⟨_, _, h⟩
    · exact (Schema.clash_of_insert h).2
    · cases h
  · right
    obtain ⟨blocks, _, rfl⟩ := Tables.insertBlock_eq h₁
    rcases Except.of_bind_error h with h | ⟨_, _, h⟩
    · obtain ⟨db₂, t, ht, hP, hfail⟩ := Except.foldlM_error
        (fun db => ∀ r ∈ db.transactions,
          r ∈ s.db.transactions ∨ ∃ t' ∈ block.transactions, r = rowOf t') h
        (fun _ hr => .inl hr) fun {db t db'} ht hP hstep r hr => by
          rcases Schema.eq_or_mem_of_insert (Tables.insertFull_ok hstep).1 hr with hr | rfl
          · exact hP r hr
          · exact .inr ⟨t, ht, rfl⟩
      obtain ⟨r, hr, hne, hclash⟩ := Tables.clash_of_insertFull hfail
      exact ⟨r, t, ht, hP r hr, hne, hclash⟩
    · cases h

/-- The last of the rows in order is the latest. -/
theorem Store.latestBlock_eq {s : Store}
    (h : (s.db.blocks.map BlockRow.blockNumber).Pairwise (· < ·)) :
    s.latestBlock = s.db.blocks.getLast? := by
  unfold Store.latestBlock
  generalize s.db.blocks = rows at h ⊢
  induction rows with
  | nil => rfl
  | cons r rows ih =>
      rw [List.map_cons, List.pairwise_cons] at h
      have ih := ih h.2
      rw [List.insertionSort_cons]
      cases hsorted : rows.insertionSort fun b b' => b'.blockNumber ≤ b.blockNumber with
      | nil =>
          have hlen := List.length_insertionSort (fun b b' => b'.blockNumber ≤ b.blockNumber) rows
          rw [hsorted] at hlen
          obtain rfl := List.length_eq_zero_iff.mp hlen.symm
          rfl
      | cons t ts =>
          rw [hsorted, List.head?_cons] at ih
          have hlt : r.blockNumber < t.blockNumber :=
            h.1 _ (List.mem_map_of_mem (List.mem_of_getLast? ih.symm))
          rw [List.orderedInsert_cons, if_neg (by omega), List.head?_cons, List.getLast?_cons, ← ih]
          rfl

end Gateway

import FabricXEvm.Gateway.Inserts
import FabricXEvm.Gateway.Links

/-!
# SnapshotStore

`SnapshotStore` adds rollback to the block store.  A snapshot is the number of the tip, and a
revert deletes the rows above it.  That gives the earlier rows back only if all rows added since
are above the number: `InsertBlock` adds rows of its own block only (`Store.insertBlock_adds`), so
blocks above the number leave the rows up to it alone (`Tables.Adds.upTo_eq`).
-/

open Blocks Common

namespace Gateway

namespace Tables

/-- The rows that `DELETE ... WHERE block_number > ?` leaves. -/
def rowsUpTo {ρ : Type} (number : ρ → Int) (n : Nat) (rows : List ρ) : List ρ :=
  rows.filter fun r => number r ≤ n

def upTo (db : Tables) (n : Nat) : Tables where
  blocks := rowsUpTo BlockRow.blockNumber n db.blocks
  transactions := rowsUpTo TransactionRow.blockNumber n db.transactions
  logs := rowsUpTo LogRow.blockNumber n db.logs

end Tables

inductive StoreRevertError where
  /-- `cannot revert to block %d: chain tip is %d`. -/
  | aboveTip (blockNumber tip : Nat)
  | database
deriving DecidableEq, Repr

namespace Store

/-- `Snapshot`. -/
def snapshot (s : Store) : Nat := s.cachedBlockNumber

/-- `RevertToBlock`.  If the database fails, the transaction is rolled back. -/
def revertToBlock (s : Store) (blockNumber : Nat) (fails : Bool) :
    Except StoreRevertError Store :=
  if s.cachedBlockNumber < blockNumber then .error (.aboveTip blockNumber s.cachedBlockNumber)
  else if blockNumber = s.cachedBlockNumber then .ok s
  else if fails then .error .database
  else .ok { db := s.db.upTo blockNumber, cachedBlockNumber := blockNumber }

/-- No row is above the cached tip. -/
def Bounded (s : Store) : Prop := s.db.upTo s.cachedBlockNumber = s.db

end Store

/-! ## Rows of one block -/

namespace Tables

section Rows

variable {ρ : Type} {number : ρ → Int} {k : Int} {m n : Nat} {rows rows' rows'' : List ρ}

/-- Rows with the number `k` are added, and nothing else. -/
def AddsRows (number : ρ → Int) (k : Int) (rows rows' : List ρ) : Prop :=
  ∃ new, rows' = rows ++ new ∧ ∀ r ∈ new, number r = k

theorem AddsRows.refl (rows : List ρ) : AddsRows number k rows rows :=
  ⟨[], (List.append_nil _).symm, nofun⟩

theorem AddsRows.trans (h : AddsRows number k rows rows') (h' : AddsRows number k rows' rows'') :
    AddsRows number k rows rows'' := by
  obtain ⟨new, rfl, hnew⟩ := h
  obtain ⟨new', rfl, hnew'⟩ := h'
  exact ⟨new ++ new', List.append_assoc .., List.forall_mem_append.mpr ⟨hnew, hnew'⟩⟩

theorem addsRows_insert {κ : Type} [DecidableEq κ] {s : Schema ρ κ} {references : Bool} {row : ρ}
    (h : s.insert references row rows = .ok rows') (hrow : number row = k) :
    AddsRows number k rows rows' := by
  obtain ⟨_, ⟨_, rfl⟩ | ⟨_, _, _, rfl⟩⟩ := Schema.insert_ok h
  · exact .refl _
  · exact ⟨[row], rfl, List.forall_mem_singleton.mpr hrow⟩

theorem AddsRows.rowsUpTo_eq (h : AddsRows number k rows rows') (hk : (n : Int) < k) :
    rowsUpTo number n rows' = rowsUpTo number n rows := by
  obtain ⟨new, rfl, hnew⟩ := h
  have hnone : rowsUpTo number n new = [] :=
    List.filter_eq_nil_iff.mpr fun r hr => by simpa [hnew r hr] using hk
  rw [rowsUpTo, List.filter_append]
  exact (congrArg (rowsUpTo number n rows ++ ·) hnone).trans (List.append_nil _)

theorem rowsUpTo_eq_self : rowsUpTo number n rows = rows ↔ ∀ r ∈ rows, number r ≤ n := by
  simp only [rowsUpTo, List.filter_eq_self, decide_eq_true_eq]

theorem AddsRows.bounded (h : AddsRows number k rows rows') (hrows : rowsUpTo number m rows = rows)
    (hmn : m ≤ n) (hk : k ≤ n) : rowsUpTo number n rows' = rows' := by
  obtain ⟨new, rfl, hnew⟩ := h
  rw [rowsUpTo_eq_self] at hrows ⊢
  refine List.forall_mem_append.mpr ⟨fun r hr => ?_, fun r hr => (hnew r hr).trans_le hk⟩
  exact (hrows r hr).trans (Int.ofNat_le.mpr hmn)

theorem rowsUpTo_rowsUpTo (hmn : m ≤ n) :
    rowsUpTo number m (rowsUpTo number n rows) = rowsUpTo number m rows := by
  unfold rowsUpTo
  rw [List.filter_filter]
  refine List.filter_congr fun r _ => ?_
  simp only [Bool.and_eq_left_iff_imp, decide_eq_true_eq]
  exact fun hm => hm.trans (Int.ofNat_le.mpr hmn)

end Rows

variable {db db' db'' : Tables} {k : Int} {m n : Nat}

/-- Rows of the block number `k` are added, and nothing else. -/
structure Adds (k : Int) (db db' : Tables) : Prop where
  blocks : AddsRows BlockRow.blockNumber k db.blocks db'.blocks
  transactions : AddsRows TransactionRow.blockNumber k db.transactions db'.transactions
  logs : AddsRows LogRow.blockNumber k db.logs db'.logs

theorem Adds.trans (h : Adds k db db') (h' : Adds k db' db'') : Adds k db db'' where
  blocks := h.blocks.trans h'.blocks
  transactions := h.transactions.trans h'.transactions
  logs := h.logs.trans h'.logs

/-- Rows above a number do not count up to it. -/
theorem Adds.upTo_eq (h : Adds k db db') (hk : (n : Int) < k) : db'.upTo n = db.upTo n := by
  rw [upTo, h.blocks.rowsUpTo_eq hk, h.transactions.rowsUpTo_eq hk, h.logs.rowsUpTo_eq hk]
  rfl

/-- The tip moves up with the rows. -/
theorem Adds.bounded (h : Adds k db db') (hdb : db.upTo m = db) (hmn : m ≤ n) (hk : k ≤ n) :
    db'.upTo n = db' := by
  rw [upTo, h.blocks.bounded (congrArg Tables.blocks hdb) hmn hk,
    h.transactions.bounded (congrArg Tables.transactions hdb) hmn hk,
    h.logs.bounded (congrArg Tables.logs hdb) hmn hk]

theorem upTo_upTo (hmn : m ≤ n) : (db.upTo n).upTo m = db.upTo m := by
  simp only [upTo, rowsUpTo_rowsUpTo hmn]

theorem insertBlock_adds {row : BlockRow} (h : db.insertBlock row = .ok db') :
    Adds row.blockNumber db db' := by
  obtain ⟨blocks, hblocks, rfl⟩ := insertBlock_eq h
  exact ⟨addsRows_insert hblocks rfl, .refl _, .refl _⟩

theorem insertFull_adds {t : Domain.Transaction} (h : db.insertFull t = .ok db')
    (ht : (rowOf t).blockNumber = k) (hlogs : ∀ l ∈ t.logs.map toStorageLog, l.blockNumber = k) :
    Adds k db db' := by
  obtain ⟨txs, htxs, h⟩ := insertFull_eq h
  have hrow : Adds k db { db with transactions := txs } :=
    ⟨.refl _, addsRows_insert htxs ht, .refl _⟩
  refine Except.foldlM_ok (fun done db' => (∀ l ∈ done, l.blockNumber = k) → Adds k db db') h
    (fun _ => hrow) (fun {done s l s'} hP hstep hdone => ?_) hlogs
  obtain ⟨hdone, hl⟩ := List.forall_mem_append.mp hdone
  obtain ⟨logs, hlogs, rfl⟩ := insertLog_eq hstep
  refine (hP hdone).trans ⟨.refl _, .refl _, addsRows_insert hlogs ?_⟩
  exact hl l (List.mem_singleton_self l)

end Tables

/-- Everything in the block has its number. -/
def OfNumber (block : Domain.Block) (t : Domain.Transaction) : Prop :=
  t.blockNumber = block.blockNumber ∧ ∀ l ∈ t.logs, l.blockNumber = block.blockNumber

variable {s s' : Store} {block : Domain.Block} {n : Nat}

theorem Store.insertBlock_adds (h : s.insertBlock block = .ok s')
    (hblock : ∀ t ∈ block.transactions, OfNumber block t) :
    Tables.Adds (int64 block.blockNumber) s.db s'.db := by
  obtain ⟨db₁, db₂, h₁, h₂, rfl⟩ := Store.insertBlock_eq h
  refine Except.foldlM_ok (fun done db => (∀ t ∈ done, OfNumber block t) →
    Tables.Adds (int64 block.blockNumber) s.db db) h₂ (fun _ => Tables.insertBlock_adds h₁)
    (fun {done db t db'} hP hstep hdone => ?_) hblock
  obtain ⟨hdone, ht⟩ := List.forall_mem_append.mp hdone
  obtain ⟨hnumber, hlogs⟩ := List.forall_mem_singleton.mp ht
  refine (hP hdone).trans (Tables.insertFull_adds hstep (congrArg int64 hnumber) ?_)
  exact List.forall_mem_map.mpr fun l hl => congrArg int64 (hlogs l hl)

theorem Store.cachedBlockNumber_insertBlock (h : s.insertBlock block = .ok s') :
    s'.cachedBlockNumber = max s.cachedBlockNumber block.blockNumber := by
  obtain ⟨db₁, db₂, h₁, h₂, rfl⟩ := Store.insertBlock_eq h
  rfl

/-- A block with a number that the column cannot hold is refused. -/
theorem Store.int64_insertBlock (h : s.insertBlock block = .ok s')
    (hlt : block.blockNumber < 2 ^ 64) : int64 block.blockNumber = block.blockNumber := by
  have hcheck := (Schema.insert_ok (Store.insertBlock_blocks h)).1
  simp only [blocksSchema, toStorageBlock, Bool.and_eq_true, decide_eq_true_eq] at hcheck
  have hpos := hcheck.1.1.1.1
  unfold int64 at hpos ⊢
  split at hpos
  next hlt => rw [if_pos hlt]
  next => omega

/-- A block above a number leaves the rows up to it alone. -/
theorem Store.insertBlock_upTo (h : s.insertBlock block = .ok s')
    (hblock : ∀ t ∈ block.transactions, OfNumber block t) (hlt : block.blockNumber < 2 ^ 64)
    (hn : n < block.blockNumber) : s'.db.upTo n = s.db.upTo n := by
  refine (Store.insertBlock_adds h hblock).upTo_eq ?_
  rw [Store.int64_insertBlock h hlt]
  exact Int.ofNat_lt.mpr hn

theorem Store.Bounded.insertBlock (hs : s.Bounded) (h : s.insertBlock block = .ok s')
    (hblock : ∀ t ∈ block.transactions, OfNumber block t) (hlt : block.blockNumber < 2 ^ 64) :
    s'.Bounded := by
  unfold Bounded
  rw [Store.cachedBlockNumber_insertBlock h]
  refine (Store.insertBlock_adds h hblock).bounded hs (le_max_left _ _) ?_
  rw [Store.int64_insertBlock h hlt]
  exact Int.ofNat_le.mpr (le_max_right _ _)

/-- A revert leaves the rows up to its number, which becomes the tip. -/
theorem Store.revertToBlock_ok {fails : Bool} (hs : s.Bounded)
    (hok : s.revertToBlock n fails = .ok s') : s'.db = s.db.upTo n ∧ s'.cachedBlockNumber = n := by
  unfold revertToBlock at hok
  split at hok
  · cases hok
  · split at hok
    next htip =>
      obtain rfl := Except.ok.inj hok
      rw [htip]
      exact ⟨hs.symm, rfl⟩
    next =>
      split at hok
      · cases hok
      · obtain rfl := Except.ok.inj hok
        exact ⟨rfl, rfl⟩

/-- `Handle` of the chain leaves the store alone, or inserts a block with the number. -/
theorem Chain.handle_store {τ ε : Type} (d : Decoders) (trie : TrieStore τ ε) (c : Chain τ)
    (b : Block) : (c.handle d trie b).1.store = c.store ∨
      ∃ block : Domain.Block, c.store.insertBlock block = .ok (c.handle d trie b).1.store ∧
        block.blockNumber = b.number ∧ ∀ t ∈ block.transactions, OfNumber block t := by
  rcases hcase : c.handle d trie b with ⟨c', _ | e⟩
  · obtain ⟨ebl, root, hebl, hinsert⟩ := of_handle_ok hcase
    have hnumber := (convertToDomain_ok hebl).1
    refine .inr ⟨_, hinsert, hnumber, fun t ht => ?_⟩
    obtain ⟨tx, _, hfrom⟩ := convertedFrom_of_mem hebl ht
    refine ⟨hfrom.converted.blockNumber.trans hnumber.symm, fun l hl => ?_⟩
    exact (hfrom.mem_logs hl).blockNumber.trans hnumber.symm
  · exact .inl (store_of_handle_error hcase)

end Gateway

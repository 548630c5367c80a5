import FabricXEvm.Gateway.Links
import FabricXEvm.Hybridx.SameRows

/-!
# The effect of a block on either path

Take any ledger that delivery can take in from its first block to its last.  When
notification takes over at some block, the stores end up the same up to block hashes,
timestamps and the rows of empty blocks, exactly when

* no valid transaction that is not an EVM one writes in the namespace from the takeover on,
  since the dispatcher drops it (`NothingDropped`), and
* the takeover is not at block 0 with a later block to come.  The placeholder hash of
  block 0 is the zero hash, which is also its parent, so the next block would be its
  second child and the store refuses it (`GenesisNotified`).
-/

open Blocks Common Gateway Storage

namespace Hybridx

variable {τ ε : Type} {cfg : Config τ ε} {takeover : Nat} {bs : List Block}

/-! ## Statement -/

/-- The blocks of a ledger.  Their hashes are 32-byte strings, distinct from each other
and from the placeholders. -/
structure Committed (bs : List Block) : Prop where
  increasing : bs.Pairwise fun b b' => b.number < b'.number
  number_lt : ∀ b ∈ bs, b.number < 2 ^ 64
  hash_length : ∀ b ∈ bs, b.hash.length = 32
  hash_ne : bs.Pairwise fun b b' => b.hash ≠ b'.hash
  hash_real : ∀ b ∈ bs, ∀ n, b.hash ≠ blockNumberHash n

/-- What is assumed of the libraries: the trie takes every block and its roots have 32
bytes, and the clock is not before 1970. -/
structure Config.Ok (cfg : Config τ ε) : Prop where
  commit : ∀ ts b, ∃ ts' root, cfg.trie.commit ts b = .ok (ts', root) ∧ root.length = 32
  now : ∀ n, 0 ≤ cfg.now n

/-- New stores. -/
structure Fresh (cfg : Config τ ε) (s : Stores τ) : Prop where
  kvs : ∃ size h, s.kvs = LightKVS.new size h
  chain : ∃ withTrie, Chain.new cfg.trie withTrie {} = .ok s.chain

/-- The same transactions and logs per block number, up to the hash of the block. -/
def SameRecords (db db' : Tables) : Prop :=
  ∀ n : Int,
    (db'.transactions.filter fun r => r.blockNumber = n).map anonRow =
        (db.transactions.filter fun r => r.blockNumber = n).map anonRow ∧
      (db'.logs.filter fun r => r.blockNumber = n).map anonLogRow =
        (db.logs.filter fun r => r.blockNumber = n).map anonLogRow

/-- With the takeover, every block is taken in and the stores end as `s`, in which every
block came by delivery. -/
def SameEffect (cfg : Config τ ε) (takeover : Nat) (bs : List Block) (s₀ s : Stores τ) : Prop :=
  ∃ s', bs.foldlM (cfg.takeIn takeover) s₀ = .ok s' ∧
    (∀ key, record s'.kvs.current.data cfg.ns key = record s.kvs.current.data cfg.ns key) ∧
    SameRecords s.chain.store.db s'.chain.store.db

/-- Notification takes over at block 0, which carries an EVM transaction, and so does a
later block. -/
def GenesisNotified (ns : Bytes) (takeover : Nat) (bs : List Block) : Prop :=
  takeover = 0 ∧ ∃ b₀ ∈ bs, ∃ b₁ ∈ bs, b₀.number = 0 ∧ 0 < b₁.number ∧
    carriesEVM ns b₀ = true ∧ carriesEVM ns b₁ = true

/-! ## The block the handlers see -/

/-- The hash a block is stored with. -/
def hashAt (takeover : Nat) (b : Block) : Bytes :=
  if b.number < takeover then b.hash else blockNumberHash b.number

/-- The handlers are called for the block. -/
def shown (ns : Bytes) (takeover : Nat) (b : Block) : Bool :=
  b.number < takeover || carriesEVM ns b

def seen (cfg : Config τ ε) (takeover : Nat) (b : Block) : Block :=
  if b.number < takeover then nsFilter cfg.ns b
  else notifiedBlock cfg.ns (cfg.now b.number) b

theorem takeIn_eq (s : Stores τ) (b : Block) :
    cfg.takeIn takeover s b =
      if shown cfg.ns takeover b then cfg.dispatch s (seen cfg takeover b) else .ok s := by
  unfold Config.takeIn shown seen
  by_cases hlt : b.number < takeover
  · simp [hlt, Config.deliver]
  · simp [hlt, notify_eq]

theorem seen_number (b : Block) : (seen cfg takeover b).number = b.number := by
  unfold seen
  split <;> rfl

theorem seen_hash (b : Block) : (seen cfg takeover b).hash = hashAt takeover b := by
  unfold seen hashAt
  split <;> rfl

theorem seen_transactions (b : Block) :
    seen cfg takeover b = nsFilter cfg.ns b ∨
      (seen cfg takeover b).transactions = (nsFilter cfg.ns b).transactions.filter isEVM := by
  unfold seen
  split
  · exact .inl rfl
  · exact .inr rfl

theorem blockNumberHash_length (n : Nat) : (blockNumberHash n).length = 32 := by
  simp [blockNumberHash]

theorem blockNumberHash_inj {m n : Nat} (hm : m < 2 ^ 64) (hn : n < 2 ^ 64)
    (h : blockNumberHash m = blockNumberHash n) : m = n :=
  BigEndian.encode_inj (by simpa using hm) (by simpa using hn) (List.append_cancel_left h)

theorem zeroHash_eq : zeroHash = blockNumberHash 0 := by decide

namespace Committed

variable (hbs : Committed bs)
include hbs

theorem eq_of_number {b b' : Block} (hb : b ∈ bs) (hb' : b' ∈ bs) (h : b.number = b'.number) :
    b = b' := by
  have hnodup : (bs.map Block.number).Nodup :=
    List.pairwise_map.mpr (hbs.increasing.imp fun hlt => hlt.ne)
  exact List.inj_on_of_nodup_map hnodup hb hb' h

theorem hashAt_length {b : Block} (hb : b ∈ bs) : (hashAt takeover b).length = 32 := by
  unfold hashAt
  split
  · exact hbs.hash_length b hb
  · exact blockNumberHash_length _

/-- The hashes blocks are stored with tell them apart. -/
theorem hashAt_inj {b b' : Block} (hb : b ∈ bs) (hb' : b' ∈ bs)
    (h : hashAt takeover b = hashAt takeover b') : b = b' := by
  unfold hashAt at h
  split at h <;> split at h
  · exact List.inj_on_of_nodup_map (List.pairwise_map.mpr hbs.hash_ne) hb hb' h
  · exact absurd h (hbs.hash_real b hb _)
  · exact absurd h.symm (hbs.hash_real b' hb' _)
  · exact hbs.eq_of_number hb hb'
      (blockNumberHash_inj (hbs.number_lt b hb) (hbs.number_lt b' hb') h)

/-- Only block 0 of the notification path is stored with the zero hash. -/
theorem hashAt_eq_zero {b : Block} (hb : b ∈ bs) (h : hashAt takeover b = zeroHash) :
    b.number = 0 ∧ takeover = 0 := by
  unfold hashAt at h
  rw [zeroHash_eq] at h
  split at h
  · exact absurd h (hbs.hash_real b hb 0)
  next hge =>
    have hzero := blockNumberHash_inj (hbs.number_lt b hb) (by decide) h
    omega

end Committed

/-! ## The chain -/

/-- The blocks the handlers were called for. -/
def shownBlocks (cfg : Config τ ε) (takeover : Nat) (bs : List Block) : List Block :=
  bs.filter (shown cfg.ns takeover)

def numbersOf (bs : List Block) : List Int := bs.map fun b => int64 b.number

/-- The block rows are those of the blocks shown. -/
def Shows (cfg : Config τ ε) (takeover : Nat) (done : List Block) (c : Chain τ) : Prop :=
  Chain.Linked (numbersOf (shownBlocks cfg takeover done))
    ((shownBlocks cfg takeover done).map (hashAt takeover)) c

/-- The chain with the takeover against the one fed by delivery. -/
structure Sim (takeover : Nat) (done : List Block) (c c' : Chain τ) : Prop where
  rows : SameRows c.store.db c'.store.db
  hashes : ∀ r ∈ c'.store.db.transactions, ∃ b ∈ done, r.blockNumber = int64 b.number ∧
    r.blockHash = hashAt takeover b

theorem shownBlocks_append (done : List Block) (b : Block) :
    shownBlocks cfg takeover (done ++ [b]) =
      shownBlocks cfg takeover done ++ if shown cfg.ns takeover b then [b] else [] := by
  rw [shownBlocks, List.filter_append]
  cases h : shown cfg.ns takeover b <;> simp [shownBlocks, h]

section Step

variable {done todo : List Block} {b : Block} (hbs : Committed (done ++ b :: todo))
include hbs

theorem lt_of_done {b' : Block} (hb' : b' ∈ done) : b'.number < b.number := by
  have hinc := hbs.increasing
  rw [List.pairwise_append] at hinc
  exact hinc.2.2 b' hb' b (List.mem_cons_self ..)

theorem int64_ne_of_done {b' : Block} (hb' : b' ∈ done) : int64 b'.number ≠ int64 b.number := by
  intro h
  have hlt := lt_of_done hbs hb'
  have heq := congrArg uint64OfInt h
  rw [uint64OfInt_int64 (hbs.number_lt b' (by simp [hb'])),
    uint64OfInt_int64 (hbs.number_lt b (by simp))] at heq
  omega

theorem hashAt_ne_of_done {b' : Block} (hb' : b' ∈ done) : hashAt takeover b' ≠ hashAt takeover b := by
  intro h
  have heq := hbs.hashAt_inj (by simp [hb']) (by simp) h
  have hlt := lt_of_done hbs hb'
  rw [heq] at hlt
  exact lt_irrefl _ hlt

theorem Shows.shown {c c' : Chain τ} (hc : Shows cfg takeover done c)
    (hshown : shown cfg.ns takeover b = true)
    (h : c.handle cfg.decoders cfg.trie (seen cfg takeover b) = (c', none)) :
    Shows cfg takeover (done ++ [b]) c' := by
  rw [Shows, shownBlocks_append, if_pos hshown, numbersOf, List.map_append, List.map_append,
    List.map_singleton, List.map_singleton, ← @seen_number _ _ cfg takeover b,
    ← @seen_hash _ _ cfg takeover b]
  refine hc.handle h ?_
  rw [seen_number]
  intro hmem
  obtain ⟨b', hb', heq⟩ := List.mem_map.mp hmem
  exact int64_ne_of_done hbs (List.mem_filter.mp hb').1 heq

/-- No stored hash is the zero hash when a further block is to be stored. -/
theorem nodup_hashes (hgenesis : ¬ GenesisNotified cfg.ns takeover (done ++ b :: todo))
    (hshown : shown cfg.ns takeover b = true) :
    (zeroHash :: (shownBlocks cfg takeover done).map (hashAt takeover)).Nodup := by
  have hmem : ∀ b' ∈ shownBlocks cfg takeover done, b' ∈ done ++ b :: todo := fun b' hb' =>
    List.mem_append_left _ (List.mem_filter.mp hb').1
  rw [List.nodup_cons]
  constructor
  · intro hzero
    obtain ⟨b₀, hb₀, hhash⟩ := List.mem_map.mp hzero
    obtain ⟨hnum, rfl⟩ := hbs.hashAt_eq_zero (hmem b₀ hb₀) hhash
    obtain ⟨hdone, hshown₀⟩ := List.mem_filter.mp hb₀
    refine hgenesis ⟨rfl, b₀, hmem b₀ hb₀, b, by simp, hnum, ?_, ?_, ?_⟩
    · exact hnum ▸ lt_of_done hbs hdone
    · simpa [shown] using hshown₀
    · simpa [shown] using hshown
  · refine List.Nodup.map_on (fun x hx y hy h => hbs.hashAt_inj (hmem x hx) (hmem y hy) h) ?_
    refine List.Nodup.filter _ ?_
    have hinc := (List.pairwise_append.mp hbs.increasing).1
    exact hinc.imp fun hlt heq => by rw [heq] at hlt; exact lt_irrefl _ hlt

/-- The block row of the notification path can be inserted. -/
theorem insert_row {c' : Chain τ} {block : Domain.Block} (hc : Shows cfg takeover done c')
    (hgenesis : ¬ GenesisNotified cfg.ns takeover (done ++ b :: todo))
    (hshown : shown cfg.ns takeover b = true) (hnum : block.blockNumber = b.number)
    (hhash : block.blockHash = hashAt takeover b) (hparent : block.parentHash = c'.prevHash)
    (hroot : block.stateRoot.length = 32) (htime : 0 ≤ block.timestamp)
    (hpos : 0 ≤ int64 b.number) :
    blocksSchema.insert true (toStorageBlock block) c'.store.db.blocks =
      .ok (c'.store.db.blocks ++ [toStorageBlock block]) := by
  have hlast : c'.prevHash ∈ zeroHash :: (shownBlocks cfg takeover done).map (hashAt takeover) :=
    List.mem_of_getLast? hc.prevHash.symm
  have hnodup := nodup_hashes hbs hgenesis hshown
  refine Schema.insert_new ?_ ?_ ?_
  · have hplen : c'.prevHash.length = 32 := by
      rcases List.mem_cons.mp hlast with h | h
      · rw [h, zeroHash_eq]
        exact blockNumberHash_length 0
      · obtain ⟨b', hb', heq⟩ := List.mem_map.mp h
        rw [← heq]
        exact hbs.hashAt_length (List.mem_append_left _ (List.mem_filter.mp hb').1)
    have hhlen : block.blockHash.length = 32 := by
      rw [hhash]
      exact hbs.hashAt_length (by simp)
    simp only [blocksSchema, toStorageBlock, Bool.and_eq_true, decide_eq_true_eq]
    exact ⟨⟨⟨⟨by rw [hnum]; exact hpos, hhlen⟩, by rw [hparent]; exact hplen⟩, hroot⟩, htime⟩
  · intro r hr htaken
    have hmem : r.blockNumber ∈ numbersOf (shownBlocks cfg takeover done) := by
      rw [← hc.rowNumbers]
      exact List.mem_map_of_mem hr
    obtain ⟨b', hb', heq⟩ := List.mem_map.mp hmem
    refine int64_ne_of_done hbs (List.mem_filter.mp hb').1 (heq.trans ?_)
    exact htaken.trans (congrArg int64 hnum)
  · intro r hr
    simp only [blocksSchema, toStorageBlock, Bool.or_eq_false_iff, decide_eq_false_iff_not]
    constructor
    · intro hsame
      have hmem : r.blockHash ∈ (shownBlocks cfg takeover done).map (hashAt takeover) := by
        rw [← hc.rowHashes]
        exact List.mem_map_of_mem hr
      obtain ⟨b', hb', heq⟩ := List.mem_map.mp hmem
      exact hashAt_ne_of_done hbs (List.mem_filter.mp hb').1 (heq.trans (hsame.trans hhash))
    · -- The parents so far are all hashes but the last, which is the new parent.
      intro hsame
      have hmem : r.parentHash ∈
          (zeroHash :: (shownBlocks cfg takeover done).map (hashAt takeover)).dropLast := by
        rw [← hc.parents]
        exact List.mem_map_of_mem hr
      rw [hsame, hparent] at hmem
      have hne : zeroHash :: (shownBlocks cfg takeover done).map (hashAt takeover) ≠ [] :=
        List.cons_ne_nil _ _
      have hprev := hc.prevHash
      rw [List.getLast?_eq_some_getLast hne] at hprev
      rw [← List.dropLast_append_getLast hne, List.nodup_append] at hnodup
      exact hnodup.2.2 _ hmem _ (List.mem_singleton_self _) (Option.some.inj hprev)

/-- A block that delivery takes in is taken in on the other path as well. -/
theorem Sim.shown (hcfg : cfg.Ok) {c c' c₁ : Chain τ} (hsim : Sim takeover done c c')
    (hc : Shows cfg takeover done c')
    (hgenesis : ¬ GenesisNotified cfg.ns takeover (done ++ b :: todo))
    (hshown : shown cfg.ns takeover b = true)
    (h : c.handle cfg.decoders cfg.trie (nsFilter cfg.ns b) = (c₁, none)) :
    ∃ c₁', c'.handle cfg.decoders cfg.trie (seen cfg takeover b) = (c₁', none) ∧
      Sim takeover (done ++ [b]) c₁ c₁' := by
  obtain ⟨ebl, ts, root, store, hebl, _, hstore, rfl⟩ := Chain.handle_ok_iff.mp h
  have hnumber : (seen cfg takeover b).number = (nsFilter cfg.ns b).number := seen_number b
  obtain ⟨ts', hconv, hts, hof⟩ := convertToDomain_sim hnumber (seen_transactions b) hebl
  obtain ⟨tr, root', htrie, hroot⟩ : ∃ tr root', c'.commitTrie cfg.trie (seen cfg takeover b) =
      .ok (tr, root') ∧ root'.length = 32 := by
    unfold Chain.commitTrie
    cases c'.ts with
    | none => exact ⟨none, _, rfl, by decide⟩
    | some tr =>
        obtain ⟨tr', root', hcommit, hlen⟩ := hcfg.commit tr (seen cfg takeover b)
        exact ⟨some tr', root', by simp [hcommit, Except.map], hlen⟩
  have hcheck := (Schema.insert_ok (Store.insertBlock_blocks hstore)).1
  simp only [blocksSchema, toStorageBlock, Bool.and_eq_true, decide_eq_true_eq,
    (convertToDomain_ok hebl).1] at hcheck
  have htime : 0 ≤ (seen cfg takeover b).timestamp := by
    unfold seen
    split
    · have htime : ebl.timestamp = (nsFilter cfg.ns b).timestamp := by
        unfold convertToDomain at hebl
        split at hebl
        · cases hebl
        · obtain rfl := Except.ok.inj hebl; rfl
      exact htime ▸ hcheck.2
    · exact hcfg.now _
  have hhash : HashOf c'.store.db (seen cfg takeover b).hash
      (int64 (seen cfg takeover b).number) := by
    intro r hr hsame
    obtain ⟨b', hb', _, hrh⟩ := hsim.hashes r hr
    rw [seen_hash] at hsame
    exact absurd (hrh.symm.trans hsame) (hashAt_ne_of_done hbs hb')
  let block' : Domain.Block :=
    { blockNumber := (seen cfg takeover b).number
      blockHash := (seen cfg takeover b).hash
      parentHash := c'.prevHash
      stateRoot := root'
      timestamp := (seen cfg takeover b).timestamp
      transactions := ts' }
  have hrow : blocksSchema.insert true (toStorageBlock block') c'.store.db.blocks =
      .ok (c'.store.db.blocks ++ [toStorageBlock block']) :=
    insert_row hbs hc hgenesis hshown (seen_number b) (seen_hash b) rfl hroot htime
      hcheck.1.1.1.1
  obtain ⟨store', hstore', hrows, _, htxs⟩ := insertBlock_sim hsim.rows hstore hts hof rfl
    (by rw [seen_hash]; exact hbs.hashAt_length (by simp)) hhash hrow
  refine ⟨_, Chain.handle_ok_iff.mpr ⟨_, tr, root', store', hconv, htrie, hstore', rfl⟩, hrows, ?_⟩
  intro r hr
  rcases htxs r hr with hr | ⟨hrh, hrn⟩
  · obtain ⟨b', hb', hr'⟩ := hsim.hashes r hr
    exact ⟨b', List.mem_append_left _ hb', hr'⟩
  · exact ⟨b, by simp, by rw [hrn, seen_number], by rw [hrh, seen_hash]⟩

end Step

/-- A block that is not shown to the handlers has no Ethereum transaction, so delivery
adds only a block row. -/
theorem Sim.notShown {done : List Block} {b : Block} {c c' c₁ : Chain τ}
    (hsim : Sim takeover done c c') (hshown : Hybridx.shown cfg.ns takeover b = false)
    (h : c.handle cfg.decoders cfg.trie (nsFilter cfg.ns b) = (c₁, none)) :
    Sim takeover (done ++ [b]) c₁ c' := by
  obtain ⟨ebl, ts, root, store, hebl, _, hstore, rfl⟩ := Chain.handle_ok_iff.mp h
  have hnone : ∀ tx ∈ (nsFilter cfg.ns b).transactions, isEVM tx = false := by
    have hcarries := (Bool.or_eq_false_iff.mp hshown).2
    simpa [carriesEVM] using hcarries
  have htxs : ebl.transactions = [] := by
    unfold convertToDomain at hebl
    rw [convertTransactions_none hnone] at hebl
    obtain rfl := Except.ok.inj hebl
    rfl
  obtain ⟨db₁, db₂, h₁, h₂, rfl⟩ := Store.insertBlock_eq hstore
  obtain ⟨blocks, _, rfl⟩ := Tables.insertBlock_eq h₁
  dsimp only at h₂
  rw [htxs] at h₂
  obtain rfl := Except.ok.inj h₂
  refine ⟨⟨hsim.rows.transactions, hsim.rows.logs⟩, fun r hr => ?_⟩
  obtain ⟨b', hb', hr'⟩ := hsim.hashes r hr
  exact ⟨b', List.mem_append_left _ hb', hr'⟩

/-! ## The endorser's store -/

/-- The store after new blocks: their updates in order. -/
structure Filled (done : List Block) (us : List KeyValueVersion) (kvs : LightKVS) : Prop where
  data : kvs.current.data = latest us
  tip : kvs.current.placeholder = true ∨ ∃ b ∈ done, kvs.current.blockNumber = b.number

theorem Filled.new (size : Nat) (h : 0 < size % 2 ^ 32) : Filled [] [] (LightKVS.new size h) :=
  ⟨rfl, .inl rfl⟩

theorem Filled.handle {done : List Block} {us : List KeyValueVersion} {kvs : LightKVS}
    (hkvs : Filled done us kvs) (b : Block) {b' : Block} (hnum : b'.number = b.number)
    (hlt : ∀ x ∈ done, x.number < b.number) :
    ∃ kvs', kvs.handle b' = .ok kvs' ∧ Filled (done ++ [b]) (us ++ blockUpdates b') kvs' := by
  have hnext : kvs.current.placeholder = true ∨ kvs.current.blockNumber < b'.number := by
    rcases hkvs.tip with h | ⟨x, hx, hxn⟩
    · exact .inl h
    · exact .inr (by rw [hxn, hnum]; exact hlt x hx)
  refine ⟨_, LightKVS.handle_next hnext, ?_, .inr ⟨b, by simp, hnum⟩⟩
  change applyUpdates kvs.current.data (blockUpdates b') = _
  rw [applyUpdates_eq_foldl, hkvs.data, foldl_put_latest]

theorem Filled.skip {done : List Block} {us : List KeyValueVersion} {kvs : LightKVS}
    (hkvs : Filled done us kvs) (b : Block) : Filled (done ++ [b]) us kvs :=
  ⟨hkvs.data, hkvs.tip.imp_right fun ⟨x, hx, hxn⟩ => ⟨x, List.mem_append_left _ hx, hxn⟩⟩

/-- The block shown to the handlers makes the updates of its path. -/
theorem blockUpdates_seen (b : Block) :
    blockUpdates (seen cfg takeover b) = hybridUpdates cfg.ns takeover b := by
  unfold seen hybridUpdates
  split <;> rfl

theorem hybridUpdates_notShown {b : Block} (h : shown cfg.ns takeover b = false) :
    hybridUpdates cfg.ns takeover b = [] := by
  obtain ⟨hge, hcarries⟩ := Bool.or_eq_false_iff.mp h
  have hnone : (nsFilter cfg.ns b).transactions.filter isEVM = [] := by
    simpa [carriesEVM] using hcarries
  rw [hybridUpdates, if_neg (by simpa using hge), hnone]
  rfl

/-! ## Whole runs -/

theorem dispatch_ok_iff {s s₁ : Stores τ} {b : Block} :
    cfg.dispatch s b = .ok s₁ ↔
      s.kvs.handle b = .ok s₁.kvs ∧
        s.chain.handle cfg.decoders cfg.trie b = (s₁.chain, none) := by
  unfold Config.dispatch
  generalize s.kvs.handle b = r
  generalize s.chain.handle cfg.decoders cfg.trie b = r'
  obtain ⟨kvs₁, chain₁⟩ := s₁
  cases r with
  | error e => simp
  | ok kvs =>
      obtain ⟨chain, _ | e⟩ := r'
      · simp [and_comm]
      · simp

/-- What holds after the blocks `done` on a run with the takeover. -/
structure RunInv (cfg : Config τ ε) (takeover : Nat) (done : List Block) (s : Stores τ) :
    Prop where
  kvs : Filled done (done.flatMap (hybridUpdates cfg.ns takeover)) s.kvs
  chain : Shows cfg takeover done s.chain

theorem RunInv.fresh {s : Stores τ} (hs : Fresh cfg s) : RunInv cfg takeover [] s := by
  obtain ⟨size, hsize, hkvs⟩ := hs.kvs
  obtain ⟨withTrie, hchain⟩ := hs.chain
  exact ⟨hkvs ▸ Filled.new size hsize, Chain.linked_new hchain⟩

theorem RunInv.step {done todo : List Block} {b : Block} (hbs : Committed (done ++ b :: todo))
    {s s₁ : Stores τ} (hinv : RunInv cfg takeover done s) (h : cfg.takeIn takeover s b = .ok s₁) :
    RunInv cfg takeover (done ++ [b]) s₁ := by
  rw [takeIn_eq] at h
  cases hshown : shown cfg.ns takeover b with
  | false =>
      rw [hshown] at h
      obtain rfl := Except.ok.inj h
      refine ⟨?_, ?_⟩
      · rw [List.flatMap_append, List.flatMap_singleton, hybridUpdates_notShown hshown,
          List.append_nil]
        exact hinv.kvs.skip b
      · rw [Shows, shownBlocks_append, if_neg (by rw [hshown]; exact nofun), List.append_nil]
        exact hinv.chain
  | true =>
      rw [hshown, if_pos rfl, dispatch_ok_iff] at h
      refine ⟨?_, hinv.chain.shown hbs hshown h.2⟩
      obtain ⟨kvs', hkvs', hfilled⟩ :=
        hinv.kvs.handle b (@seen_number _ _ cfg takeover b) fun x hx => lt_of_done hbs hx
      obtain rfl := Except.ok.inj (h.1.symm.trans hkvs')
      rw [List.flatMap_append, List.flatMap_singleton, ← blockUpdates_seen]
      exact hfilled

theorem RunInv.run (hbs : Committed bs) {s₀ s : Stores τ} (hs₀ : Fresh cfg s₀)
    (h : bs.foldlM (cfg.takeIn takeover) s₀ = .ok s) : RunInv cfg takeover bs s := by
  refine Except.foldlM_ok (fun done s => done <+: bs → RunInv cfg takeover done s) h
    (fun _ => RunInv.fresh hs₀) ?_ (List.prefix_refl bs)
  rintro done s b s₁ hinv hstep ⟨todo, htodo⟩
  rw [List.append_assoc, List.singleton_append] at htodo
  exact (hinv ⟨_, htodo⟩).step (htodo ▸ hbs) hstep

def deliveredUpdates (ns : Bytes) (bs : List Block) : List KeyValueVersion :=
  bs.flatMap fun b => blockUpdates (nsFilter ns b)

/-- The endorser's store when every block is delivered. -/
theorem data_of_delivered (hbs : Committed bs) {s₀ s : Stores τ} (hs₀ : Fresh cfg s₀)
    (h : bs.foldlM cfg.deliver s₀ = .ok s) :
    s.kvs.current.data = latest (deliveredUpdates cfg.ns bs) := by
  suffices hfilled : Filled bs (deliveredUpdates cfg.ns bs) s.kvs from hfilled.data
  refine Except.foldlM_ok
    (fun done s => done <+: bs → Filled done (deliveredUpdates cfg.ns done) s.kvs) h ?_ ?_
    (List.prefix_refl bs)
  · intro _
    obtain ⟨size, hsize, hkvs⟩ := hs₀.kvs
    exact hkvs ▸ Filled.new size hsize
  · rintro done s b s₁ hinv hstep ⟨todo, htodo⟩
    rw [List.append_assoc, List.singleton_append] at htodo
    have hnum : (nsFilter cfg.ns b).number = b.number := rfl
    obtain ⟨kvs', hkvs', hfilled⟩ := (hinv ⟨_, htodo⟩).handle b hnum
      fun x hx => lt_of_done (htodo ▸ hbs) hx
    obtain rfl := Except.ok.inj ((dispatch_ok_iff.mp hstep).1.symm.trans hkvs')
    rw [deliveredUpdates, List.flatMap_append, List.flatMap_singleton]
    exact hfilled

/-- Whatever delivery takes in is taken in with the takeover. -/
theorem Sim.run (hcfg : cfg.Ok) {done todo : List Block} (hbs : Committed (done ++ todo))
    (hgenesis : ¬ GenesisNotified cfg.ns takeover (done ++ todo)) {s s' s₁ : Stores τ}
    (hsim : Sim takeover done s.chain s'.chain) (hinv : RunInv cfg takeover done s')
    (h : todo.foldlM cfg.deliver s = .ok s₁) :
    ∃ s₁', todo.foldlM (cfg.takeIn takeover) s' = .ok s₁' ∧
      Sim takeover (done ++ todo) s₁.chain s₁'.chain := by
  induction todo generalizing done s s' with
  | nil =>
      obtain rfl : s = s₁ := Except.ok.inj h
      exact ⟨s', rfl, by rwa [List.append_nil]⟩
  | cons b todo ih =>
      rw [List.foldlM_cons] at h
      obtain ⟨s₂, h₂, hrest⟩ := Except.of_bind_ok h
      have hchain := (dispatch_ok_iff.mp h₂).2
      have hstep : ∃ s₂', cfg.takeIn takeover s' b = .ok s₂' ∧
          Sim takeover (done ++ [b]) s₂.chain s₂'.chain := by
        rw [takeIn_eq]
        cases hshown : Hybridx.shown cfg.ns takeover b with
        | false => exact ⟨s', rfl, hsim.notShown hshown hchain⟩
        | true =>
            obtain ⟨kvs₂', hkvs, _⟩ := hinv.kvs.handle b (@seen_number _ _ cfg takeover b)
              fun x hx => lt_of_done hbs hx
            obtain ⟨c₂', hc, hsim₂⟩ := hsim.shown hbs hcfg hinv.chain hgenesis hshown hchain
            exact ⟨⟨kvs₂', c₂'⟩, dispatch_ok_iff.mpr ⟨hkvs, hc⟩, hsim₂⟩
      obtain ⟨s₂', h₂', hsim₂⟩ := hstep
      have happ : done ++ b :: todo = done ++ [b] ++ todo := by simp
      obtain ⟨s₁', h₁', hsim₁⟩ := ih (happ ▸ hbs) (happ ▸ hgenesis) hsim₂ (hinv.step hbs h₂') hrest
      refine ⟨s₁', ?_, happ ▸ hsim₁⟩
      rw [List.foldlM_cons, h₂']
      exact h₁'

theorem sameRecords_of_sameRows {db db' : Tables} (h : SameRows db db') : SameRecords db db' := by
  intro n
  constructor
  · have hrows := congrArg (List.filter fun r : TransactionRow => r.blockNumber = n) h.transactions
    rwa [List.filter_map, List.filter_map] at hrows
  · have hrows := congrArg (List.filter fun r : LogRow => r.blockNumber = n) h.logs
    rwa [List.filter_map, List.filter_map] at hrows

/-! ## The condition is necessary -/

/-- A store without an error along the way has not stored block 0 with the zero hash and
then a further block. -/
theorem not_genesisNotified (hbs : Committed bs) {c : Chain τ} (hc : Shows cfg takeover bs c) :
    ¬ GenesisNotified cfg.ns takeover bs := by
  rintro ⟨rfl, b₀, hb₀, b₁, hb₁, hzero, hpos, hevm₀, hevm₁⟩
  have hmem₀ : b₀ ∈ shownBlocks cfg 0 bs := List.mem_filter.mpr ⟨hb₀, by simp [shown, hevm₀]⟩
  have hmem₁ : b₁ ∈ shownBlocks cfg 0 bs := List.mem_filter.mpr ⟨hb₁, by simp [shown, hevm₁]⟩
  have hinc : (shownBlocks cfg 0 bs).Pairwise fun b b' => b.number < b'.number :=
    hbs.increasing.filter _
  have hdistinct := hc.distinct
  obtain ⟨xs, last, hxs⟩ := List.eq_nil_or_concat' (shownBlocks cfg 0 bs) |>.resolve_left
    (List.ne_nil_of_mem hmem₀)
  rw [hxs] at hmem₀ hmem₁ hinc hdistinct
  rw [List.pairwise_append] at hinc
  rw [List.map_append, List.map_singleton, ← List.cons_append, List.dropLast_concat,
    List.nodup_cons] at hdistinct
  -- Block 0 is not the last one shown, so its hash is among the parents.
  have hfirst : b₀ ∈ xs := by
    rcases List.mem_append.mp hmem₀ with h | h
    · exact h
    · obtain rfl := List.mem_singleton.mp h
      rcases List.mem_append.mp hmem₁ with h₁ | h₁
      · have hlt := hinc.2.2 b₁ h₁ b₀ h
        omega
      · obtain rfl := List.mem_singleton.mp h₁
        omega
  refine hdistinct.1 (List.mem_map.mpr ⟨b₀, hfirst, ?_⟩)
  rw [hashAt, if_neg (Nat.not_lt_zero _), hzero, zeroHash_eq]

theorem key_of_mem_delivered {ns : Bytes} {u : KeyValueVersion}
    (hu : u ∈ deliveredUpdates ns bs) : ∃ key, u.key = fullKey ns key := by
  obtain ⟨b, _, hu⟩ := List.mem_flatMap.mp hu
  obtain ⟨tx', htx', hu⟩ := List.mem_flatMap.mp hu
  obtain ⟨tx, _, hns⟩ := List.mem_filterMap.mp htx'
  obtain ⟨rws, hrws, rfl⟩ := Option.map_eq_some_iff.mp hns
  unfold collectWrites at hu
  split at hu
  · rw [List.flatMap_singleton] at hu
    obtain ⟨w, _, rfl⟩ := List.mem_map.mp hu
    refine ⟨w.key, ?_⟩
    have hname : rws.ns = ns := by simpa using List.find?_some hrws
    rw [hname]
  · cases hu

theorem data_eq_of_record {data data' : Data} {ns key : Bytes}
    (h : record data ns key = record data' ns key) :
    data (fullKey ns key) = data' (fullKey ns key) := by
  refine Option.map_injective ?_ h
  rintro ⟨_, _, _, _, _, _⟩ ⟨_, _, _, _, _, _⟩ heq
  simp only [WriteRecord.mk.injEq] at heq
  simp only [ValueVersion.mk.injEq]
  tauto

/-- Records that agree mean that no write was dropped. -/
theorem nothingDropped_of_records {ns : Bytes}
    (h : ∀ key, record (latest (bs.flatMap (hybridUpdates ns takeover))) ns key =
      record (latest (deliveredUpdates ns bs)) ns key) : NothingDropped ns takeover bs := by
  refine nothingDropped_iff.mpr (sublist_eq_of_latest ?_ ?_)
  · exact List.Sublist.flatMap_right bs fun b _ => hybridUpdates_sublist ns takeover b
  · intro u hu
    obtain ⟨key, hkey⟩ := key_of_mem_delivered hu
    rw [hkey]
    exact data_eq_of_record (h key)

/-- A block has the same effect on either path exactly if nothing is dropped and block 0
is not followed on the notification path. -/
theorem same_effect_iff (hbs : Committed bs) (hcfg : cfg.Ok) {s₀ s : Stores τ}
    (hs₀ : Fresh cfg s₀) (h : bs.foldlM cfg.deliver s₀ = .ok s) (takeover : Nat) :
    SameEffect cfg takeover bs s₀ s ↔
      NothingDropped cfg.ns takeover bs ∧ ¬ GenesisNotified cfg.ns takeover bs := by
  have hdata := data_of_delivered hbs hs₀ h
  constructor
  · rintro ⟨s', h', hrecords, _⟩
    have hinv := RunInv.run hbs hs₀ h'
    refine ⟨nothingDropped_of_records ?_, not_genesisNotified hbs hinv.chain⟩
    rwa [hdata, hinv.kvs.data] at hrecords
  · rintro ⟨hdropped, hgenesis⟩
    have hsim₀ : Sim takeover [] s₀.chain s₀.chain := by
      obtain ⟨withTrie, hchain⟩ := hs₀.chain
      refine ⟨⟨rfl, rfl⟩, ?_⟩
      rw [Chain.db_of_new hchain]
      exact nofun
    have hbs₀ : Committed ([] ++ bs) := hbs
    obtain ⟨s', h', hsim⟩ := hsim₀.run hcfg hbs₀ hgenesis (RunInv.fresh hs₀) h
    refine ⟨s', h', fun key => ?_, sameRecords_of_sameRows hsim.rows⟩
    rw [hdata, (RunInv.run hbs hs₀ h').kvs.data, nothingDropped_iff.mp hdropped]
    rfl

/-! ## A ledger -/

def basic : Config Unit Unit where
  decoders := sampleDecoders
  trie := Chain.noTrie
  ns := [1]
  now _ := 0

theorem basic_ok : basic.Ok := ⟨fun _ _ => ⟨(), emptyRootHash, rfl, by decide⟩, fun _ => le_rfl⟩

def newStores : Stores Unit := { kvs := LightKVS.new 1 (by decide), chain := Chain.opened }

theorem fresh_newStores : Fresh basic newStores := ⟨⟨1, by decide, rfl⟩, false, rfl⟩

/-- A valid transaction with a transfer, which writes the key `[1]` of the namespace. -/
def writer (t : Signed) (eventName : Bytes) : Transaction where
  id := t.tx.hash
  eventName := eventName
  payload := successPayload
  inputArgs := [t.raw]
  nsRWS := [{ ns := [1], rws := { writes := [{ key := [1], value := some t.tx.hash }] } }]

/-- Block `n`, with one transaction. -/
def blockWith (n : Nat) (tx : Transaction) : Block where
  number := n
  hash := List.replicate 32 (UInt8.ofNat (n + 1))
  transactions := [tx]

theorem committed_two (tx₀ tx₁ : Transaction) : Committed [blockWith 0 tx₀, blockWith 1 tx₁] where
  increasing := by simp [blockWith]
  number_lt := by simp [blockWith]
  hash_length := by simp [blockWith]
  hash_ne := by simp [blockWith]
  hash_real := by
    intro b hb n h
    have hhead : b.hash.head? = some 0 := by rw [h]; rfl
    fin_cases hb <;> exact absurd (Option.some.inj hhead) (by decide)

/-- An EVM transaction in block 0, and in block 1 one with this event name. -/
def twoWriters (eventName : Bytes) : List Block :=
  [blockWith 0 (writer transfer₀ proposalTypeEVMTx), blockWith 1 (writer transfer₁ eventName)]

/-- Two EVM transactions: notification takes over at block 1. -/
theorem same_effect_evm :
    ∃ s, SameEffect basic 1 (twoWriters proposalTypeEVMTx) newStores s := by
  refine ⟨_, (same_effect_iff (committed_two _ _) basic_ok fresh_newStores rfl 1).mpr ⟨?_, ?_⟩⟩
  · intro b hb _ tx htx _ hevm
    fin_cases hb <;> fin_cases htx <;> cases hevm
  · exact fun h => absurd h.1 (by decide)

/-- A valid transaction without the marker writes in the namespace: the store misses it
when its block comes by notification. -/
theorem unmarked_write_dropped :
    ∃ s, (twoWriters []).foldlM basic.deliver newStores = .ok s ∧ Committed (twoWriters []) ∧
      basic.Ok ∧ Fresh basic newStores ∧ ¬ SameEffect basic 1 (twoWriters []) newStores s := by
  refine ⟨_, rfl, committed_two _ _, basic_ok, fresh_newStores, ?_⟩
  rintro ⟨s', h', hrecords, -⟩
  obtain rfl := Except.ok.inj h'
  exact absurd (hrecords [1]) (by decide)

end Hybridx

import FabricXEvm.Gateway.Records

/-!
# The chain of block rows

`Handle` stores a block with the hash of the block it handled before as its parent, and
the column of parent hashes is unique.  `Linked` says what the block rows are after a
series of new blocks: their parents are the zero hash and then their own hashes, shifted
by one.
-/

open Blocks Common

namespace Gateway

/-- `common.Hash{}`. -/
def zeroHash : Bytes := bytesToHash []

/-- Inserting a block touches the block rows once. -/
theorem Store.insertBlock_blocks {s s' : Store} {block : Domain.Block}
    (h : s.insertBlock block = .ok s') :
    blocksSchema.insert true (toStorageBlock block) s.db.blocks = .ok s'.db.blocks := by
  obtain ⟨db₁, db₂, h₁, h₂, rfl⟩ := Store.insertBlock_eq h
  obtain ⟨blocks, hblocks, rfl⟩ := Tables.insertBlock_eq h₁
  have hkeep : db₂.blocks = blocks := Except.foldlM_ok (fun _ db => db.blocks = blocks) h₂ rfl
    fun hP hstep => (Tables.insertFull_ok hstep).2.trans hP
  rw [hkeep]
  exact hblocks

namespace Chain

variable {τ ε : Type} {d : Decoders} {trie : TrieStore τ ε} {c c' : Chain τ} {b : Block}
  {numbers : List Int} {hashes : List Bytes}

/-- The block rows, in order. -/
structure Linked (numbers : List Int) (hashes : List Bytes) (c : Chain τ) : Prop where
  rowNumbers : c.store.db.blocks.map BlockRow.blockNumber = numbers
  rowHashes : c.store.db.blocks.map BlockRow.blockHash = hashes
  parents : c.store.db.blocks.map BlockRow.parentHash = (zeroHash :: hashes).dropLast
  prevHash : some c.prevHash = (zeroHash :: hashes).getLast?
  distinct : (zeroHash :: hashes).dropLast.Nodup

theorem linked_new {withTrie : Bool} (h : Chain.new trie withTrie {} = .ok c) :
    Linked [] [] c := by
  have hdb := db_of_new h
  have hprev : c.prevHash = zeroHash := by
    unfold Chain.new at h
    split at h
    · obtain ⟨ts, _, h⟩ := Except.of_bind_ok h
      obtain rfl := Except.ok.inj h
      rfl
    · obtain rfl := Except.ok.inj h
      rfl
  exact ⟨by rw [hdb]; rfl, by rw [hdb]; rfl, by rw [hdb]; rfl, by rw [hprev]; rfl, List.nodup_nil⟩

/-- A new block is linked to the one before it. -/
theorem Linked.handle (hc : Linked numbers hashes c) (h : c.handle d trie b = (c', none))
    (hnew : int64 b.number ∉ numbers) :
    Linked (numbers ++ [int64 b.number]) (hashes ++ [b.hash]) c' := by
  obtain ⟨ebl, ts, root, store, hebl, _, hstore, rfl⟩ := handle_ok_iff.mp h
  obtain ⟨hnum, hhash, _⟩ := convertToDomain_ok hebl
  have hrow := Store.insertBlock_blocks hstore
  set row := toStorageBlock { ebl with parentHash := c.prevHash, stateRoot := root } with hrowdef
  have hrownum : row.blockNumber = int64 b.number := congrArg int64 hnum
  have hrowhash : row.blockHash = b.hash := hhash
  obtain ⟨hcheck, ⟨⟨r, hr, htaken⟩, _⟩ | ⟨_, hclash, _, hblocks⟩⟩ := Schema.insert_ok hrow
  · refine absurd ?_ hnew
    rw [← hc.rowNumbers, ← hrownum]
    exact List.mem_map.mpr ⟨r, hr, htaken⟩
  · have hlen : b.hash.length = 32 := by
      simp only [blocksSchema, Bool.and_eq_true, decide_eq_true_eq] at hcheck
      exact hrowhash ▸ hcheck.1.1.1.2
    have hlast : (zeroHash :: hashes).dropLast ++ [c.prevHash] = zeroHash :: hashes := by
      have hne : zeroHash :: hashes ≠ [] := nofun
      have hprev := hc.prevHash
      rw [List.getLast?_eq_some_getLast hne] at hprev
      rw [Option.some.inj hprev]
      exact List.dropLast_append_getLast hne
    have hdrop : (zeroHash :: (hashes ++ [b.hash])).dropLast = zeroHash :: hashes := by
      rw [← List.cons_append, List.dropLast_concat]
    refine ⟨?_, ?_, ?_, ?_, ?_⟩
    · rw [hblocks, List.map_append, hc.rowNumbers, List.map_singleton, hrownum]
    · rw [hblocks, List.map_append, hc.rowHashes, List.map_singleton, hrowhash]
    · rw [hdrop, hblocks, List.map_append, hc.parents]
      exact hlast
    · rw [← List.cons_append, List.getLast?_concat, hhash, bytesToHash_of_length hlen]
    · -- The parent of the new row differs from those of the rows before.
      rw [hdrop, ← hlast, List.nodup_append]
      refine ⟨hc.distinct, List.nodup_singleton _, fun p hp q hq => ?_⟩
      obtain rfl := List.mem_singleton.mp hq
      rw [← hc.parents] at hp
      obtain ⟨r, hr, rfl⟩ := List.mem_map.mp hp
      have := hclash r hr
      simp only [blocksSchema, Bool.or_eq_false_iff, decide_eq_false_iff_not] at this
      exact this.2

end Chain

end Gateway

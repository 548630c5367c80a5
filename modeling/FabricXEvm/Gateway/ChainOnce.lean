import FabricXEvm.Gateway.Inserts
import FabricXEvm.Gateway.Links
import FabricXEvm.Gateway.Trie

/-!
# A chain that gets each block once

`Once` is the reference: a fresh chain handles the blocks of a ledger, in order, and none of
them fails.  `Stored` is what there is to know about the chain afterwards: its rows are
linked, the trie is the map with all valid writes, and a restart finds the chain as it was
(`Stored.reopen`, `Once.reopen`).

The trie is a map of fields to values, and the root of a state of the ledger names that state
(`IsMap`).
-/

open Blocks Common

namespace Gateway

open Tables (Holds)

namespace Chain

variable {ε : Type} {d : Decoders} {trie : TrieStore TrieState ε} {root : TrieState → Bytes}
  {withTrie : Bool} {bs L : List Block} {b : Block} {c c' c₁ : Chain TrieState} {p n m : Nat}

/-! ## The trie -/

/-- The state after the writes of the blocks. -/
def stateAfter (bs : List Block) : TrieState := Assign.all TrieState.empty (bs.flatMap setters)

/-- The trie is a map of fields to values.  The root of a state of the ledger names it. -/
structure IsMap (trie : TrieStore TrieState ε) (root : TrieState → Bytes) (L : List Block) :
    Prop where
  length : ∀ s, (root s).length = 32
  commit : ∀ s b, trie.commit s b = .ok (s.commit b, root (s.commit b))
  newZero : ∀ {s}, trie.new zeroHash = .ok s → s = .empty
  newRoot : ∀ {n s}, 0 < n → n ≤ L.length →
    trie.new (root (stateAfter (L.take n))) = .ok s → s = stateAfter (L.take n)

/-- The root that is stored, also without a trie. -/
def rootOf (root : TrieState → Bytes) : Option TrieState → Bytes
  | none => emptyRootHash
  | some s => root s

theorem IsMap.length_rootOf (ht : IsMap trie root L) : ∀ ts, (rootOf root ts).length = 32
  | none => BigEndian.length_encode _ _
  | some s => ht.length s

theorem IsMap.commitTrie (ht : IsMap trie root L) (c : Chain TrieState) (b : Block) :
    c.commitTrie trie b = .ok (c.ts.map (·.commit b), rootOf root (c.ts.map (·.commit b))) := by
  unfold Chain.commitTrie
  cases c.ts with
  | none => rfl
  | some s =>
      dsimp only
      rw [ht.commit]
      rfl

theorem IsMap.handle_ok (ht : IsMap trie root L) (h : c.handle d trie b = (c', none)) :
    ∃ ebl store, convertToDomain d b = .ok ebl ∧
      c.store.insertBlock { ebl with
        parentHash := c.prevHash
        stateRoot := rootOf root (c.ts.map (·.commit b)) } = .ok store ∧
      c' = { store := store, ts := c.ts.map (·.commit b), prevHash := bytesToHash ebl.blockHash } := by
  obtain ⟨ebl, ts, stateRoot, store, hebl, hts, hstore, rfl⟩ := handle_ok_iff.mp h
  rw [ht.commitTrie] at hts
  obtain ⟨rfl, rfl⟩ := Prod.mk.inj (Except.ok.inj hts)
  exact ⟨ebl, store, hebl, hstore, rfl⟩

/-- A `Handle` that the store refused has committed the writes. -/
theorem IsMap.handle_insert (ht : IsMap trie root L) {v : Violation}
    (h : c.handle d trie b = (c', some (.insert v))) :
    ∃ ebl, convertToDomain d b = .ok ebl ∧
      c.store.insertBlock { ebl with
        parentHash := c.prevHash
        stateRoot := rootOf root (c.ts.map (·.commit b)) } = .error v ∧
      c' = { c with ts := c.ts.map (·.commit b) } := by
  unfold handle at h
  rw [ht.commitTrie] at h
  split at h
  · cases h
  next ebl hebl =>
    dsimp only at h
    split at h
    next hins =>
      obtain ⟨rfl, hv⟩ := Prod.mk.inj h
      cases hv
      exact ⟨ebl, hebl, hins, rfl⟩
    next => cases h

/-- The outcome of a `Handle` depends on the store, the parent and the state after it. -/
theorem IsMap.handle_congr (ht : IsMap trie root L) (hstore : c.store = c₁.store)
    (hprev : c.prevHash = c₁.prevHash)
    (hts : c.ts.map (·.commit b) = c₁.ts.map (·.commit b)) :
    (c.handle d trie b).2 = (c₁.handle d trie b).2 ∧
      ((c.handle d trie b).2 = none → c.handle d trie b = c₁.handle d trie b) := by
  unfold handle
  rw [ht.commitTrie, ht.commitTrie, hstore, hprev, hts]
  cases convertToDomain d b with
  | error e => exact ⟨rfl, nofun⟩
  | ok ebl =>
      dsimp only
      cases c₁.store.insertBlock _ with
      | error v => exact ⟨rfl, nofun⟩
      | ok store => exact ⟨rfl, fun _ => rfl⟩

/-! ## Each block once -/

/-- The blocks of a ledger, in its order. -/
structure InOrder (L : List Block) : Prop where
  number_lt : ∀ b ∈ L, b.number < 2 ^ 64
  increasing : L.Pairwise fun b b' => b.number < b'.number

theorem InOrder.sublist (hL : InOrder L) (h : bs.Sublist L) : InOrder bs where
  number_lt b hb := hL.number_lt b (h.subset hb)
  increasing := hL.increasing.sublist h

/-- The chain that got each of the blocks once, in order. -/
inductive Once (d : Decoders) (trie : TrieStore TrieState ε) (withTrie : Bool) :
    List Block → Chain TrieState → Prop where
  | new {c : Chain TrieState} (h : Chain.new trie withTrie {} = .ok c) : Once d trie withTrie [] c
  | handle {bs : List Block} {c c' : Chain TrieState} {b : Block}
      (hrun : Once d trie withTrie bs c) (h : c.handle d trie b = (c', none)) :
      Once d trie withTrie (bs ++ [b]) c'

/-- Everything there is to know about the chain after the blocks. -/
structure Stored (d : Decoders) (root : TrieState → Bytes) (withTrie : Bool) (bs : List Block)
    (c : Chain TrieState) : Prop where
  linked : Linked (bs.map fun b => int64 b.number) (bs.map Block.hash) c
  ts : c.ts = if withTrie then some (stateAfter bs) else none
  stateRoot : ∀ r ∈ c.store.db.blocks.getLast?, r.stateRoot = rootOf root c.ts
  holds : ∀ b ∈ bs, ∃ ebl, convertToDomain d b = .ok ebl ∧ Holds c.store.db ebl
  cached : c.store.cachedBlockNumber = (bs.getLast?.map Block.number).getD 0

theorem commit_stateAfter (bs : List Block) (b : Block) :
    (stateAfter bs).commit b = stateAfter (bs ++ [b]) := by
  rw [stateAfter, stateAfter, List.flatMap_append, Assign.all_append, List.flatMap_singleton]
  rfl

/-- The chain on an empty database. -/
theorem IsMap.stored_new (ht : IsMap trie root L) (h : Chain.new trie withTrie {} = .ok c) :
    Stored d root withTrie [] c := by
  have hdb := db_of_new h
  refine ⟨linked_new h, ?_, ?_, nofun, ?_⟩
  · unfold Chain.new at h
    split at h
    next htrie =>
      obtain ⟨ts, hts, h⟩ := Except.of_bind_ok h
      obtain rfl := Except.ok.inj h
      rw [if_pos htrie]
      exact congrArg some (ht.newZero hts)
    next htrie =>
      obtain rfl := Except.ok.inj h
      rw [if_neg htrie]
  · rw [hdb]
    nofun
  · unfold Chain.new at h
    split at h
    · obtain ⟨ts, hts, h⟩ := Except.of_bind_ok h
      obtain rfl := Except.ok.inj h
      rfl
    · obtain rfl := Except.ok.inj h
      rfl

theorem Stored.check (hc : Stored d root withTrie bs c) (hb : b ∈ bs) :
    0 ≤ int64 b.number ∧ b.hash.length = 32 := by
  obtain ⟨ebl, hebl, hholds⟩ := hc.holds b hb
  obtain ⟨hnum, hhash, _⟩ := convertToDomain_ok hebl
  have hcheck := (hholds.row zeroHash zeroHash rfl rfl).1
  simp only [blocksSchema, toStorageBlock, Bool.and_eq_true, decide_eq_true_eq] at hcheck
  rw [← hnum, ← hhash]
  exact hcheck.1.1.1

theorem Stored.int64_number (hc : Stored d root withTrie bs c) (hbs : InOrder bs) (hb : b ∈ bs) :
    int64 b.number = b.number := by
  have hnonneg := (hc.check hb).1
  have hlt := hbs.number_lt b hb
  unfold int64 at hnonneg ⊢
  split at hnonneg <;> omega

theorem Stored.number_le (hc : Stored d root withTrie bs c) (hbs : InOrder bs) (hb : b ∈ bs) :
    b.number ≤ c.store.cachedBlockNumber := by
  rw [hc.cached]
  rcases List.eq_nil_or_concat bs with rfl | ⟨bs, last, rfl⟩
  · cases hb
  · rw [List.concat_eq_append] at hb hbs ⊢
    rw [List.getLast?_concat]
    rcases List.mem_append.mp hb with hb | hb
    · exact Nat.le_of_lt ((List.pairwise_append.mp hbs.increasing).2.2 b hb last (by simp))
    · rw [List.mem_singleton.mp hb]
      rfl

/-- A new block. -/
theorem Stored.handle (ht : IsMap trie root L) (hc : Stored d root withTrie bs c)
    (hbs : InOrder (bs ++ [b])) (h : c.handle d trie b = (c', none)) :
    Stored d root withTrie (bs ++ [b]) c' := by
  have hlt : ∀ b' ∈ bs, b'.number < b.number := fun b' hb' =>
    (List.pairwise_append.mp hbs.increasing).2.2 b' hb' b (by simp)
  have hnew : int64 b.number ∉ bs.map fun b => int64 b.number := by
    intro hmem
    obtain ⟨b', hb', heq⟩ := List.mem_map.mp hmem
    have heq := int64_inj (hbs.number_lt b' (by simp [hb'])) (hbs.number_lt b (by simp)) heq
    exact Nat.ne_of_lt (hlt b' hb') heq
  have hlinked := hc.linked.handle h hnew
  obtain ⟨ebl, store, hebl, hstore, rfl⟩ := ht.handle_ok h
  obtain ⟨hgrows, hholds⟩ := Store.insertBlock_holds hstore
  refine ⟨?_, ?_, ?_, ?_, ?_⟩
  · rw [List.map_append, List.map_append]
    exact hlinked
  · rw [hc.ts]
    cases withTrie with
    | false => rfl
    | true => exact congrArg some (commit_stateAfter bs b)
  · obtain ⟨_, ⟨_, hrows⟩ | ⟨_, _, _, hrows⟩⟩ :=
      Schema.insert_ok (Store.insertBlock_blocks hstore)
    · have hlen := congrArg List.length (hrows ▸ hlinked.rowNumbers)
      rw [hc.linked.rowNumbers] at hlen
      simp at hlen
    · intro r hr
      rw [hrows, List.getLast?_concat] at hr
      rw [← Option.some.inj hr]
      rfl
  · intro b' hb'
    rcases List.mem_append.mp hb' with hb' | hb'
    · obtain ⟨ebl', hebl', hholds'⟩ := hc.holds b' hb'
      exact ⟨ebl', hebl', hholds'.mono hgrows⟩
    · rw [List.mem_singleton.mp hb']
      exact ⟨ebl, hebl, hholds.row, hholds.transactions⟩
  · have hle : c.store.cachedBlockNumber ≤ b.number := by
      rw [hc.cached]
      cases hlast : bs.getLast? with
      | none => exact Nat.zero_le _
      | some last => exact Nat.le_of_lt (hlt last (List.mem_of_getLast? hlast))
    rw [List.getLast?_concat]
    obtain ⟨_, _, _, _, rfl⟩ := Store.insertBlock_eq hstore
    rw [(convertToDomain_ok hebl).1]
    exact Nat.max_eq_right hle

theorem Once.stored (ht : IsMap trie root L) (h : Once d trie withTrie bs c) (hbs : InOrder bs) :
    Stored d root withTrie bs c := by
  induction h with
  | new h => exact ht.stored_new h
  | handle _ h ih => exact (ih (hbs.sublist (List.sublist_append_left _ _))).handle ht hbs h

theorem Stored.init (hc : Stored d root withTrie bs c) (hbs : InOrder bs) :
    (Store.init c.store.db).latestBlock = c.store.db.blocks.getLast? ∧
      Store.init c.store.db = c.store := by
  have hrows : (c.store.db.blocks.map BlockRow.blockNumber).Pairwise (· < ·) := by
    rw [hc.linked.rowNumbers, List.pairwise_map]
    refine hbs.increasing.imp_of_mem fun hb hb' hlt => ?_
    rw [hc.int64_number hbs hb, hc.int64_number hbs hb']
    exact Int.ofNat_lt.mpr hlt
  refine ⟨Store.latestBlock_eq hrows, ?_⟩
  have hcached : (Store.init c.store.db).cachedBlockNumber = c.store.cachedBlockNumber := by
    have hlast := congrArg List.getLast? hc.linked.rowNumbers
    rw [List.getLast?_map, List.getLast?_map] at hlast
    have hnumber : (c.store.db.blocks.getLast?.map BlockRow.blockNumber).map uint64OfInt =
        (bs.getLast?.map Block.number) := by
      rw [hlast, Option.map_map]
      refine Option.map_congr fun b hb => ?_
      exact uint64OfInt_int64 (hbs.number_lt b (List.mem_of_getLast? hb))
    rw [hc.cached, ← hnumber, Option.map_map]
    exact congrArg (fun r : Option BlockRow => (r.map fun b => uint64OfInt b.blockNumber).getD 0)
      (Store.latestBlock_eq hrows)
  exact congrArg (Store.mk c.store.db) hcached

theorem Stored.prevHash (hc : Stored d root withTrie bs c) :
    c.prevHash = (c.store.db.blocks.getLast?.map fun r => bytesToHash r.blockHash).getD zeroHash := by
  have hlast := congrArg List.getLast? hc.linked.rowHashes
  rw [List.getLast?_map, List.getLast?_map] at hlast
  have hhash : (c.store.db.blocks.getLast?.map BlockRow.blockHash).map bytesToHash =
      bs.getLast?.map Block.hash := by
    rw [hlast, Option.map_map]
    refine Option.map_congr fun b hb => ?_
    exact bytesToHash_of_length (hc.check (List.mem_of_getLast? hb)).2
  have hprev := hc.linked.prevHash
  rw [List.getLast?_cons, List.getLast?_map] at hprev
  rw [Option.some.inj hprev, ← hhash, Option.map_map]
  rfl

/-- A restart finds the chain as it was. -/
theorem Stored.reopen (ht : IsMap trie root L) (hL : InOrder L) (hn : n ≤ L.length)
    (hc : Stored d root withTrie (L.take n) c)
    (h : Chain.new trie withTrie c.store.db = .ok c') : c' = c := by
  obtain ⟨hlatest, hinit⟩ := hc.init (hL.sublist (List.take_sublist _ _))
  unfold Chain.new at h
  dsimp only at h
  rw [hlatest, hinit] at h
  have hprev := hc.prevHash
  have hts := hc.ts
  cases withTrie with
  | false =>
      obtain rfl := Except.ok.inj h
      change _ = Chain.mk c.store c.ts c.prevHash
      rw [hprev, hts]
      rfl
  | true =>
      obtain ⟨s, hs, h⟩ := Except.of_bind_ok h
      obtain rfl := Except.ok.inj h
      have hstate : s = stateAfter (L.take n) := by
        have hlen := congrArg List.length hc.linked.rowHashes
        rw [List.length_map, List.length_map] at hlen
        cases hlast : c.store.db.blocks.getLast? with
        | none =>
            rw [hlast] at hs
            rw [List.getLast?_eq_none_iff.mp hlast] at hlen
            rw [List.length_eq_zero_iff.mp hlen.symm]
            exact ht.newZero hs
        | some r =>
            have hpos : 0 < n := by
              have := List.length_pos_of_mem (List.mem_of_getLast? hlast)
              rw [hlen, List.length_take] at this
              omega
            have hroot : r.stateRoot = root (stateAfter (L.take n)) := by
              rw [hc.stateRoot r hlast, hts]
              rfl
            rw [hlast, Option.map_some, Option.getD_some, hroot,
              bytesToHash_of_length (ht.length _)] at hs
            exact ht.newRoot hpos hn hs
      change _ = Chain.mk c.store c.ts c.prevHash
      rw [hprev, hts, hstate]
      rfl

/-- The trie, if there is one, opens at the root of the last block in the database. -/
def TrieOpens (trie : TrieStore TrieState ε) (withTrie : Bool) (db : Tables) : Prop :=
  withTrie = true → ∃ ts, trie.new
    (((Store.init db).latestBlock.map fun b => bytesToHash b.stateRoot).getD (bytesToHash [])) =
      .ok ts

theorem TrieOpens.new_ok {db : Tables} (h : TrieOpens trie withTrie db) :
    ∃ c, Chain.new trie withTrie db = .ok c := by
  unfold Chain.new
  cases withTrie with
  | false => exact ⟨_, rfl⟩
  | true =>
      obtain ⟨ts, hts⟩ := h rfl
      dsimp only
      rw [hts]
      exact ⟨_, rfl⟩

/-- The chain that got each block once is opened again as it was. -/
theorem Once.reopen (ht : IsMap trie root L) (hL : InOrder L) (hn : n ≤ L.length)
    (hc : Once d trie withTrie (L.take n) c) (h : TrieOpens trie withTrie c.store.db) :
    Chain.new trie withTrie c.store.db = .ok c := by
  obtain ⟨c', hc'⟩ := h.new_ok
  have hstored := hc.stored ht (hL.sublist (List.take_sublist n L))
  rw [hc', hstored.reopen ht hL hn hc']

end Chain

end Gateway

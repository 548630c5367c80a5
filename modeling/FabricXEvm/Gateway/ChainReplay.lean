import FabricXEvm.Gateway.ChainOnce

/-!
# Redelivered blocks and restarts

A synchronizer that resumes may deliver stored blocks once more, in order, and the gateway
may be restarted at any time.  `Delivery` is every such history over one ledger.

The rows of a stored block are skipped, so the store is the one that got each block once.
The trie takes in old writes again and shows old values meanwhile, but what is still to be
delivered again overwrites them (`Replayed.trie`).  When delivery has caught up, the chain is
the one that got each block once, and the next block is linked to its predecessor.

What remains is that a block is taken when it first comes.  It is if nothing on the ledger
comes twice that the store wants unique (`Distinct.taken`): block hashes, positions in a block
and the Fabric ids of different Ethereum transactions.  A duplicate of an id is refused
(`duplicate_refused`).
-/

open Blocks Common

namespace Gateway

namespace Chain

variable {ε : Type} {d : Decoders} {trie : TrieStore TrieState ε} {root : TrieState → Bytes}
  {withTrie : Bool} {bs L : List Block} {b : Block} {c c' c₁ : Chain TrieState} {p n m : Nat}

/-! ## Deliveries -/

/-- A history over the ledger `L`.  The next block is the one at `next`, the first `stored`
ones are in the store, and the writes of the first `committed` ones reached the trie. -/
inductive Delivery (d : Decoders) (trie : TrieStore TrieState ε) (withTrie : Bool)
    (L : List Block) : Nat → Nat → Nat → Chain TrieState → Prop where
  | new {c : Chain TrieState} (h : Chain.new trie withTrie {} = .ok c) :
      Delivery d trie withTrie L 0 0 0 c
  | deliver {next stored committed : Nat} {c c' : Chain TrieState} {b : Block}
      (hrun : Delivery d trie withTrie L next stored committed c) (hb : L[next]? = some b)
      (h : c.handle d trie b = (c', none)) :
      Delivery d trie withTrie L (next + 1) (max stored (next + 1)) (max committed (next + 1)) c'
  | refused {next stored committed : Nat} {c c' : Chain TrieState} {b : Block} {v : Violation}
      (hrun : Delivery d trie withTrie L next stored committed c) (hb : L[next]? = some b)
      (h : c.handle d trie b = (c', some (.insert v))) :
      Delivery d trie withTrie L next stored (max committed (next + 1)) c'
  | failed {next stored committed : Nat} {c c' : Chain TrieState} {b : Block}
      {e : HandleError ε}
      (hrun : Delivery d trie withTrie L next stored committed c) (hb : L[next]? = some b)
      (h : c.handle d trie b = (c', some e)) (he : ∀ v, e ≠ .insert v) :
      Delivery d trie withTrie L next stored committed c'
  | resume {next next' stored committed : Nat} {c : Chain TrieState}
      (hrun : Delivery d trie withTrie L next stored committed c) (hle : next' ≤ next) :
      Delivery d trie withTrie L next' stored committed c
  | restart {next next' stored committed : Nat} {c c' : Chain TrieState}
      (hrun : Delivery d trie withTrie L next stored committed c)
      (h : Chain.new trie withTrie c.store.db = .ok c') (hle : next' ≤ stored) :
      Delivery d trie withTrie L next' stored stored c'

/-- What holds in every state of a delivery. -/
structure Replayed (d : Decoders) (trie : TrieStore TrieState ε) (withTrie : Bool)
    (L : List Block) (next stored committed : Nat) (c : Chain TrieState) : Prop where
  next_le : next ≤ stored
  stored_le : stored ≤ L.length
  le_committed : stored ≤ committed
  committed_le : committed ≤ stored + 1
  once : ∃ c₁, Once d trie withTrie (L.take stored) c₁ ∧ c.store = c₁.store ∧
    (next = stored → c.prevHash = c₁.prevHash)
  length : c.prevHash.length = 32
  withTrie : c.ts.isSome = withTrie
  -- What is still to be delivered again overwrites what is out of date.
  trie : ∀ s ∈ c.ts, Assign.all s (((L.take committed).drop next).flatMap setters) =
    stateAfter (L.take committed)

/-- Earlier blocks may be committed again before the ones that are to come. -/
theorem commit_again {M : List Block} {s : TrieState} {j : Nat}
    (h : Assign.all s ((M.drop p).flatMap setters) = stateAfter M) (hj : j ≤ p) :
    Assign.all s ((M.drop j).flatMap setters) = stateAfter M := by
  have hdrop : M.drop j = (M.drop j).take (p - j) ++ M.drop p := by
    have happ := List.take_append_drop (p - j) (M.drop j)
    rw [List.drop_drop, Nat.add_sub_cancel' hj] at happ
    exact happ.symm
  have hstate : stateAfter M = Assign.all (stateAfter (M.take j))
      (((M.drop j).take (p - j)).flatMap setters ++ (M.drop p).flatMap setters) := by
    rw [← List.flatMap_append, ← hdrop, stateAfter, stateAfter, ← Assign.all_append,
      ← List.flatMap_append, List.take_append_drop]
  rw [hstate] at h
  rw [hdrop, List.flatMap_append, hstate]
  exact Assign.all_again h

theorem Stored.length_prevHash (hc : Stored d root withTrie bs c) : c.prevHash.length = 32 := by
  rw [hc.prevHash]
  cases c.store.db.blocks.getLast? with
  | none => rfl
  | some r => exact length_bytesToHash _

/-- The chain that got each block once, wherever delivery goes on from there. -/
theorem Once.replayed (ht : IsMap trie root L) (hL : InOrder L)
    (h : Once d trie withTrie (L.take n) c) (hn : n ≤ L.length) (hp : p ≤ n) :
    Replayed d trie withTrie L p n n c := by
  have hc := h.stored ht (hL.sublist (List.take_sublist _ _))
  refine ⟨hp, hn, Nat.le_refl _, Nat.le_succ _, ⟨c, h, rfl, fun _ => rfl⟩, hc.length_prevHash,
    ?_, ?_⟩
  · rw [hc.ts]
    cases withTrie <;> rfl
  · intro s hs
    rw [hc.ts] at hs
    cases withTrie with
    | false => cases hs
    | true =>
        obtain rfl := Option.some.inj hs
        refine commit_again (p := n) ?_ hp
        rw [List.drop_eq_nil_of_le (List.length_take_le _ _)]
        rfl

namespace Replayed

/-- The state after committing the next block. -/
theorem commit (hc : Replayed d trie withTrie L p n m c) (hb : L[p]? = some b) {s : TrieState}
    (hs : s ∈ c.ts) :
    Assign.all (s.commit b) (((L.take (max m (p + 1))).drop (p + 1)).flatMap setters) =
      stateAfter (L.take (max m (p + 1))) := by
  have hstate := hc.trie s hs
  by_cases hlt : p < m
  · have hdrop : (L.take m).drop p = b :: (L.take m).drop (p + 1) := by
      rw [← List.getElem?_take_of_lt hlt] at hb
      obtain ⟨hlen, hget⟩ := List.getElem?_eq_some_iff.mp hb
      rw [List.drop_eq_getElem_cons hlen, hget]
    rw [Nat.max_eq_left hlt]
    rw [hdrop, List.flatMap_cons, Assign.all_append] at hstate
    exact hstate
  · have hp : p = m := by have := hc.next_le; have := hc.le_committed; omega
    subst hp
    rw [Nat.max_eq_right (Nat.le_succ _)]
    rw [List.drop_eq_nil_of_le (List.length_take_le _ _)] at hstate ⊢
    have hs' : s = stateAfter (L.take p) := hstate
    have htake : L.take (p + 1) = L.take p ++ [b] := by
      rw [List.take_add_one, hb]
      rfl
    rw [hs', commit_stateAfter, htake]
    rfl

/-- A stored block is skipped. -/
theorem skipped (ht : IsMap trie root L) (hL : InOrder L)
    (hc : Replayed d trie withTrie L p n m c) (hb : L[p]? = some b) (hlt : p < n) :
    ∃ ebl, convertToDomain d b = .ok ebl ∧
      c.store.insertBlock { ebl with
        parentHash := c.prevHash
        stateRoot := rootOf root (c.ts.map (·.commit b)) } = .ok c.store := by
  obtain ⟨c₁, hc₁, hstore, _⟩ := hc.once
  have hbs : InOrder (L.take n) := hL.sublist (List.take_sublist _ _)
  have hstored := hc₁.stored ht hbs
  have hmem : b ∈ L.take n := List.mem_of_getElem? (by rw [List.getElem?_take_of_lt hlt]; exact hb)
  obtain ⟨ebl, hebl, hholds⟩ := hstored.holds b hmem
  refine ⟨ebl, hebl, ?_⟩
  rw [← hstore] at hholds
  rw [hholds.insertBlock hc.length (ht.length_rootOf _)]
  have hle : ebl.blockNumber ≤ c.store.cachedBlockNumber := by
    rw [(convertToDomain_ok hebl).1, hstore]
    exact hstored.number_le hbs hmem
  rw [Nat.max_eq_left hle]

/-- When delivery has caught up with the store, `Handle` does what it does for the chain that
got each block once. -/
theorem caughtUp (ht : IsMap trie root L) (hL : InOrder L)
    (hc : Replayed d trie withTrie L n n m c) (hb : L[n]? = some b) :
    ∃ c₁, Once d trie withTrie (L.take n) c₁ ∧
      (c.handle d trie b).2 = (c₁.handle d trie b).2 ∧
      ((c.handle d trie b).2 = none → c.handle d trie b = c₁.handle d trie b) := by
  obtain ⟨c₁, hc₁, hstore, hprev⟩ := hc.once
  refine ⟨c₁, hc₁, ht.handle_congr hstore (hprev rfl) ?_⟩
  rw [(hc₁.stored ht (hL.sublist (List.take_sublist _ _))).ts]
  have hsome := hc.withTrie
  cases hts : c.ts with
  | none =>
      rw [hts] at hsome
      subst hsome
      rfl
  | some s =>
      rw [hts] at hsome
      subst hsome
      have hstate := hc.commit hb hts
      have hm : max m (n + 1) = n + 1 := Nat.max_eq_right hc.committed_le
      rw [hm, List.drop_eq_nil_of_le (List.length_take_le _ _), List.take_add_one, hb] at hstate
      have hs : s.commit b = stateAfter (L.take n ++ [b]) := hstate
      change some (s.commit b) = some ((stateAfter (L.take n)).commit b)
      rw [hs, commit_stateAfter]

theorem deliver (ht : IsMap trie root L) (hL : InOrder L)
    (hc : Replayed d trie withTrie L p n m c) (hb : L[p]? = some b)
    (h : c.handle d trie b = (c', none)) :
    Replayed d trie withTrie L (p + 1) (max n (p + 1)) (max m (p + 1)) c' := by
  have hp := hc.next_le
  have hm := hc.le_committed
  have hm' := hc.committed_le
  obtain ⟨ebl, store, hebl, hins, rfl⟩ := ht.handle_ok h
  refine ⟨by omega, ?_, by omega, by omega, ?_, length_bytesToHash _, ?_, ?_⟩
  · have := (List.getElem?_eq_some_iff.mp hb).1
    have := hc.stored_le
    omega
  · by_cases hlt : p < n
    · obtain ⟨ebl', hebl', hskip⟩ := hc.skipped ht hL hb hlt
      obtain rfl := Except.ok.inj (hebl.symm.trans hebl')
      obtain rfl := Except.ok.inj (hins.symm.trans hskip)
      obtain ⟨c₁, hc₁, hstore, _⟩ := hc.once
      rw [Nat.max_eq_left hlt]
      refine ⟨c₁, hc₁, hstore, fun heq => ?_⟩
      have hstored := hc₁.stored ht (hL.sublist (List.take_sublist n L))
      have hlen := (hstored.check (List.mem_of_getElem? (by
        rw [List.getElem?_take_of_lt hlt]; exact hb))).2
      have hprev := hstored.linked.prevHash
      rw [← heq, List.take_add_one, hb, List.map_append, ← List.cons_append] at hprev
      rw [Option.some.inj (hprev.trans List.getLast?_concat), (convertToDomain_ok hebl).2.1]
      exact bytesToHash_of_length hlen
    · obtain rfl : p = n := by omega
      obtain ⟨c₁, hc₁, _, hsame⟩ := hc.caughtUp ht hL hb
      rw [h] at hsame
      refine ⟨_, ?_, rfl, fun _ => rfl⟩
      rw [Nat.max_eq_right (Nat.le_succ _), List.take_add_one, hb]
      exact hc₁.handle (hsame rfl).symm
  · rw [← hc.withTrie]
    exact Option.isSome_map
  · intro s' hs'
    obtain ⟨s, hs, rfl⟩ := Option.mem_map.mp hs'
    exact hc.commit hb hs

theorem refused (ht : IsMap trie root L) (hc : Replayed d trie withTrie L p n m c) (hb : L[p]? = some b)
    {v : Violation} (h : c.handle d trie b = (c', some (.insert v))) :
    Replayed d trie withTrie L p n (max m (p + 1)) c' := by
  have hp := hc.next_le
  have hm := hc.le_committed
  have hm' := hc.committed_le
  obtain ⟨ebl, hebl, hins, rfl⟩ := ht.handle_insert h
  refine ⟨hp, hc.stored_le, by omega, by omega, hc.once, hc.length, ?_, ?_⟩
  · rw [← hc.withTrie]
    exact Option.isSome_map
  · intro s' hs'
    obtain ⟨s, hs, rfl⟩ := Option.mem_map.mp hs'
    exact commit_again (hc.commit hb hs) (Nat.le_succ _)

end Replayed

/-- A `Handle` that fails before the insert changes nothing. -/
theorem IsMap.handle_failed (ht : IsMap trie root L) {e : HandleError ε}
    (h : c.handle d trie b = (c', some e)) (he : ∀ v, e ≠ .insert v) : c' = c := by
  unfold handle at h
  rw [ht.commitTrie] at h
  split at h
  next => exact (Prod.mk.inj h).1.symm
  next ebl hebl =>
    dsimp only at h
    split at h
    next v _ => exact absurd (Option.some.inj (Prod.mk.inj h).2).symm (he v)
    next => cases h

theorem Delivery.replayed (ht : IsMap trie root L) (hL : InOrder L)
    (hrun : Delivery d trie withTrie L p n m c) : Replayed d trie withTrie L p n m c := by
  induction hrun with
  | new h =>
      exact Once.replayed ht hL (.new h) (Nat.zero_le _) (Nat.le_refl _)
  | deliver _ hb h ih => exact ih.deliver ht hL hb h
  | refused _ hb h ih => exact ih.refused ht hb h
  | failed _ _ h he ih =>
      rw [ht.handle_failed h he]
      exact ih
  | resume _ hle ih =>
      obtain ⟨hnext, hstored, hle₁, hle₂, ⟨c₁, hc₁, hstore, hprev⟩, hlen, hsome, htrie⟩ := ih
      refine ⟨hle.trans hnext, hstored, hle₁, hle₂, ⟨c₁, hc₁, hstore, fun heq => ?_⟩, hlen, hsome,
        fun s hs => commit_again (htrie s hs) hle⟩
      exact hprev (by omega)
  | restart _ h hle ih =>
      obtain ⟨c₁, hc₁, hstore, _⟩ := ih.once
      rw [hstore] at h
      rw [(hc₁.stored ht (hL.sublist (List.take_sublist _ _))).reopen ht hL ih.stored_le h]
      exact hc₁.replayed ht hL ih.stored_le hle

/-! ## Ledgers whose blocks are taken -/

/-- Nothing that the store wants unique comes twice: block hashes, positions in a block, and
the Fabric ids of different Ethereum transactions. -/
structure Distinct (d : Decoders) (L : List Block) : Prop where
  hashes : (zeroHash :: L.map Block.hash).Nodup
  positions : ∀ b ∈ L, (b.transactions.map Transaction.number).Nodup
  ids : ∀ b ∈ L, ∀ b' ∈ L, ∀ tx ∈ b.transactions, ∀ tx' ∈ b'.transactions, tx.id = tx'.id →
    (ethHash d tx).isSome → (ethHash d tx').isSome → ethHash d tx = ethHash d tx'

/-- The row of an Ethereum transaction of the ledger. -/
def Sourced (d : Decoders) (L : List Block) (r : TransactionRow) : Prop :=
  ∃ b ∈ L, ∃ tx ∈ b.transactions, ∃ t, ConvertedFrom d b tx t ∧ r = rowOf t

theorem Once.sourced (h : Once d trie withTrie bs c) :
    ∀ r ∈ c.store.db.transactions, Sourced d bs r := by
  induction h with
  | new h =>
      intro r hr
      rw [db_of_new h] at hr
      cases hr
  | @handle bs c c' b _ h ih =>
      obtain ⟨ebl, stateRoot, hebl, hins⟩ := of_handle_ok h
      intro r hr
      rcases Store.mem_of_insertBlock hins hr with hr | ⟨t, ht, rfl⟩
      · obtain ⟨b', hb', hsource⟩ := ih r hr
        exact ⟨b', List.mem_append_left _ hb', hsource⟩
      · obtain ⟨tx, htx, hfrom⟩ := convertedFrom_of_mem hebl ht
        exact ⟨b, by simp, tx, htx, t, hfrom, rfl⟩

/-- Rows of a distinct ledger that share a unique value share their hash. -/
theorem Distinct.txHash_eq (hd : Distinct d L) (hL : InOrder L) {r r' : TransactionRow}
    (hr : Sourced d L r) (hr' : Sourced d L r') (hclash : transactionsSchema.clash r r' = true) :
    r.txHash = r'.txHash := by
  obtain ⟨b, hb, tx, htx, t, hfrom, rfl⟩ := hr
  obtain ⟨b', hb', tx', htx', t', hfrom', rfl⟩ := hr'
  have hhash := hfrom.converted.hash
  have hhash' := hfrom'.converted.hash
  suffices heq : ethHash d tx = ethHash d tx' by
    rw [hhash, hhash'] at heq
    exact Option.some.inj heq
  -- Transactions at one position of one block are the same.
  have hsame : b = b' → t.txIndex = t'.txIndex → ethHash d tx = ethHash d tx' := by
    rintro rfl hidx
    rw [hfrom.converted.txIndex, hfrom'.converted.txIndex] at hidx
    rw [List.inj_on_of_nodup_map (hd.positions b hb) htx htx' hidx]
  simp only [transactionsSchema, Bool.or_eq_true, Bool.and_eq_true, decide_eq_true_eq] at hclash
  obtain (hid | ⟨hnum, hidx⟩) | ⟨hbh, hidx⟩ := hclash
  · refine hd.ids b hb b' hb' tx htx tx' htx' ?_ (by simp [hhash]) (by simp [hhash'])
    rw [← hfrom.converted.fabricTxID, ← hfrom'.converted.fabricTxID]
    exact hid
  · refine hsame ?_ hidx
    have hnum : int64 t.blockNumber = int64 t'.blockNumber := hnum
    rw [hfrom.converted.blockNumber, hfrom'.converted.blockNumber] at hnum
    have hnum := int64_inj (hL.number_lt b hb) (hL.number_lt b' hb') hnum
    have hnodup : (L.map Block.number).Nodup := by
      rw [List.Nodup, List.pairwise_map]
      exact hL.increasing.imp fun hlt => Nat.ne_of_lt hlt
    exact List.inj_on_of_nodup_map hnodup hb hb' hnum
  · refine hsame ?_ hidx
    have hbh : t.blockHash = t'.blockHash := hbh
    rw [hfrom.blockHash, hfrom'.blockHash] at hbh
    exact List.inj_on_of_nodup_map (List.nodup_cons.mp hd.hashes).2 hb hb' hbh

/-- The blocks of a distinct ledger are taken by the chain that got the ones before once. -/
theorem Distinct.taken (hd : Distinct d L) (ht : IsMap trie root L) (hL : InOrder L)
    (hc : Once d trie withTrie (L.take n) c) (hb : L[n]? = some b) :
    (c.handle d trie b).2 ≠ some (.insert .unique) := by
  intro hrefused
  obtain ⟨ebl, hebl, hins, _⟩ := ht.handle_insert (Prod.ext rfl hrefused)
  have htake : L.take (n + 1) = L.take n ++ [b] := by
    rw [List.take_add_one, hb]
    rfl
  rcases Store.clash_of_insertBlock hins with ⟨r, hr, hclash⟩ | ⟨r, t, htmem, hr, hne, hclash⟩
  · -- Neither its hash nor its parent's has come before.
    have hlinked := (hc.stored ht (hL.sublist (List.take_sublist _ _))).linked
    have hnodup : (zeroHash :: (L.take n ++ [b]).map Block.hash).Nodup := by
      rw [← htake]
      exact hd.hashes.sublist ((List.take_sublist _ _).map _ |>.cons_cons _)
    rw [List.map_append, ← List.cons_append, List.nodup_append] at hnodup
    simp only [blocksSchema, Bool.or_eq_true, decide_eq_true_eq] at hclash
    rcases hclash with hclash | hclash
    · refine hnodup.2.2 r.blockHash (List.mem_cons_of_mem _ ?_) b.hash (by simp) ?_
      · rw [← hlinked.rowHashes]
        exact List.mem_map_of_mem hr
      · rw [← (convertToDomain_ok hebl).2.1]
        exact hclash
    · have hne : zeroHash :: (L.take n).map Block.hash ≠ [] := List.cons_ne_nil _ _
      have hprev := hlinked.prevHash
      rw [List.getLast?_eq_some_getLast hne] at hprev
      have hlast := List.dropLast_append_getLast hne
      rw [← Option.some.inj hprev, ← hlinked.parents] at hlast
      have hnodup := hnodup.1
      rw [← hlast, List.nodup_append] at hnodup
      exact hnodup.2.2 r.parentHash (List.mem_map_of_mem hr) c.prevHash (by simp) hclash
  · have hmem : b ∈ L := List.mem_of_getElem? hb
    have hsource : ∀ t ∈ ebl.transactions, Sourced d L (rowOf t) := by
      intro t htmem
      obtain ⟨tx, htx, hfrom⟩ := convertedFrom_of_mem hebl htmem
      exact ⟨b, hmem, tx, htx, t, hfrom, rfl⟩
    have hrow : Sourced d L r := by
      rcases hr with hr | ⟨t', ht', rfl⟩
      · obtain ⟨b', hb', hsource⟩ := hc.sourced r hr
        exact ⟨b', List.mem_of_mem_take hb', hsource⟩
      · exact hsource t' ht'
    exact hne (hd.txHash_eq hL hrow (hsource t htmem) hclash)

/-! ## A ledger of payments -/

/-- A block that carries `transfer₀`, or later `transfer₁`, and sets a balance to `n`. -/
def paying (n : Nat) : Block where
  number := n
  hash := List.replicate 32 (UInt8.ofNat n)
  transactions := [{ carrier (UInt8.ofNat n) .committed with
    inputArgs := [(if n ≤ 1 then transfer₀ else transfer₁).raw]
    nsRWS := [⟨[], { writes := [Execution.StateDB.writeOf
      (Execution.accKey (fun _ => 0) 1 (ascii "bal"))
      (Execution.uint256ToBytes (BitVec.ofNat 256 n))] }⟩] }]

theorem setters_paying (n : Nat) :
    setters (paying n) = [⟨.balance 1, BitVec.ofNat 256 n⟩] := by
  simp [setters, settersOf, paying, carrier, Transaction.valid, Status.valid, applyWrite_balance]

/-- A trie whose root is the balance. -/
def balanceRoot (s : TrieState) : Bytes := BigEndian.encode 32 (s (.balance 1) : BitVec 256).toNat

/-- A trie for the ledger of the payments 1 and 2. -/
def balanceTrie : TrieStore TrieState Unit where
  new r :=
    if r = zeroHash then .ok .empty
    else if r = BigEndian.encode 32 1 then .ok (stateAfter [paying 1])
    else .ok (stateAfter [paying 1, paying 2])
  commit s b := .ok (s.commit b, balanceRoot (s.commit b))

theorem opens_balanceTrie (r : Bytes) : ∃ s, balanceTrie.new r = .ok s := by
  dsimp only [balanceTrie]
  split
  · exact ⟨_, rfl⟩
  · split <;> exact ⟨_, rfl⟩

theorem new_balanceTrie (db : Tables) : ∃ c, Chain.new balanceTrie true db = .ok c :=
  TrieOpens.new_ok fun _ => opens_balanceTrie _

theorem balanceRoot_paying : balanceRoot (stateAfter [paying 1]) = BigEndian.encode 32 1 ∧
    balanceRoot (stateAfter [paying 1, paying 2]) = BigEndian.encode 32 2 := by
  constructor
  · rw [stateAfter, List.flatMap_singleton, setters_paying]
    rfl
  · rw [stateAfter, List.flatMap_cons, List.flatMap_singleton, setters_paying, setters_paying]
    rfl

theorem isMap_balanceTrie : IsMap balanceTrie balanceRoot [paying 1, paying 2] where
  length _ := BigEndian.length_encode _ _
  commit _ _ := rfl
  newZero h := (Except.ok.inj h).symm
  newRoot {n s} hpos hn h := by
    obtain rfl | rfl : n = 1 ∨ n = 2 := by
      change n ≤ 2 at hn
      omega
    · rw [show [paying 1, paying 2].take 1 = [paying 1] from rfl, balanceRoot_paying.1] at h
      dsimp only [balanceTrie] at h
      rw [if_neg (by decide), if_pos rfl] at h
      exact (Except.ok.inj h).symm
    · rw [show [paying 1, paying 2].take 2 = [paying 1, paying 2] from rfl,
        balanceRoot_paying.2] at h
      dsimp only [balanceTrie] at h
      rw [if_neg (by decide), if_neg (by decide)] at h
      exact (Except.ok.inj h).symm

theorem inOrder_paying : InOrder [paying 1, paying 2] where
  number_lt := by decide
  increasing := by decide

theorem distinct_paying : Distinct sampleDecoders [paying 1, paying 2] where
  hashes := by decide
  positions := by decide
  ids := by decide

/-- Both payments, the first of them again, and a restart. -/
theorem delivery_paying : ∃ c, Delivery sampleDecoders balanceTrie true [paying 1, paying 2] 2 2 2 c := by
  have hnew : Delivery sampleDecoders balanceTrie true [paying 1, paying 2] 0 0 0
      { store := {}, ts := some .empty, prevHash := zeroHash } := .new rfl
  have hfirst := hnew.deliver (b := paying 1) rfl (Prod.ext rfl rfl)
  have hsecond := hfirst.deliver (b := paying 2) rfl (Prod.ext rfl rfl)
  have hresume := hsecond.resume (Nat.zero_le 2)
  have hagain := hresume.deliver (b := paying 1) rfl (Prod.ext rfl rfl)
  obtain ⟨c, hc⟩ := new_balanceTrie _
  exact ⟨c, hagain.restart hc (Nat.le_refl 2)⟩

/-! ## The stored chain -/

/-- The stored chain is linked and is the one that got each block once. -/
structure SameChain (d : Decoders) (trie : TrieStore TrieState ε) (withTrie : Bool)
    (L : List Block) (next stored committed : Nat) (c : Chain TrieState) : Prop where
  linked : c.store.db.blocks.map BlockRow.parentHash =
    (zeroHash :: c.store.db.blocks.map BlockRow.blockHash).dropLast
  once : ∃ c₁, Once d trie withTrie (L.take stored) c₁ ∧ c.store = c₁.store ∧
    (next = committed → c = c₁)

/-- Whatever is delivered next, the store does not refuse it. -/
theorem Replayed.accepted (ht : IsMap trie root L) (hL : InOrder L)
    (hc : Replayed d trie withTrie L p n m c) (hd : Distinct d L) (hb : L[p]? = some b) :
    (c.handle d trie b).2 ≠ some (.insert .unique) := by
  by_cases hlt : p < n
  · intro hrefused
    obtain ⟨ebl, hebl, hskip⟩ := hc.skipped ht hL hb hlt
    obtain ⟨ebl', hebl', hins, _⟩ := ht.handle_insert (Prod.ext rfl hrefused)
    obtain rfl := Except.ok.inj (hebl.symm.trans hebl')
    rw [hskip] at hins
    cases hins
  · obtain rfl : p = n := by have := hc.next_le; omega
    obtain ⟨c₁, hc₁, hsame, _⟩ := hc.caughtUp ht hL hb
    rw [hsame]
    exact hd.taken ht hL hc₁ hb

theorem Replayed.sameChain (ht : IsMap trie root L) (hL : InOrder L)
    (hc : Replayed d trie withTrie L p n m c) : SameChain d trie withTrie L p n m c := by
  obtain ⟨c₁, hc₁, hstore, hprev⟩ := hc.once
  have hstored := hc₁.stored ht (hL.sublist (List.take_sublist _ _))
  refine ⟨?_, c₁, hc₁, hstore, fun heq => ?_⟩
  · rw [hstore, hstored.linked.parents, hstored.linked.rowHashes]
  · have hn : p = n := by have := hc.next_le; have := hc.le_committed; omega
    have hts : c.ts = c₁.ts := by
      rw [hstored.ts]
      have hsome := hc.withTrie
      cases hts : c.ts with
      | none =>
          rw [hts] at hsome
          subst hsome
          rfl
      | some s =>
          rw [hts] at hsome
          subst hsome
          have hstate := hc.trie s hts
          rw [← heq, List.drop_eq_nil_of_le (List.length_take_le _ _)] at hstate
          rw [← hn]
          exact congrArg some hstate
    change Chain.mk c.store c.ts c.prevHash = Chain.mk c₁.store c₁.ts c₁.prevHash
    rw [hstore, hts, hprev hn]

/-- Redelivery and restarts change nothing about the stored chain, in every history over the
ledger; and if the ledger has nothing twice that the store wants unique, no block is refused. -/
theorem replayProof (ht : IsMap trie root L) (hL : InOrder L)
    (hrun : Delivery d trie withTrie L p n m c) :
    SameChain d trie withTrie L p n m c ∧
      (Distinct d L → ∀ b, L[p]? = some b → (c.handle d trie b).2 ≠ some (.insert .unique)) :=
  ⟨(hrun.replayed ht hL).sameChain ht hL,
    fun hd _ hb => (hrun.replayed ht hL).accepted ht hL hd hb⟩

/-- Both payments are stored, and the first is delivered again after a restart. -/
theorem replayProof_of_payments : ∃ c,
    Delivery sampleDecoders balanceTrie true [paying 1, paying 2] 0 2 2 c ∧
      SameChain sampleDecoders balanceTrie true [paying 1, paying 2] 0 2 2 c ∧
      (c.handle sampleDecoders balanceTrie (paying 1)).2 ≠ some (.insert .unique) := by
  obtain ⟨c, hrun⟩ := delivery_paying
  obtain ⟨hsame, htaken⟩ :=
    replayProof isMap_balanceTrie inOrder_paying (hrun.resume (Nat.zero_le 2))
  exact ⟨c, hrun.resume (Nat.zero_le 2), hsame, htaken distinct_paying (paying 1) rfl⟩

/-- Another Ethereum transaction in a Fabric transaction with an id that was used before. -/
def duplicate : Block := blockOf 2 { carrier 1 (.other 9) with inputArgs := [transfer₁.raw] }

def duplicated : List Block := [blockOf 1 (carrier 1 .committed), duplicate]

/-- A block with a duplicate of a Fabric id is refused when it first comes. -/
theorem duplicate_refused : ∃ c,
    Delivery sampleDecoders balanceTrie false duplicated 1 1 1 c ∧ InOrder duplicated ∧
      (c.handle sampleDecoders balanceTrie duplicate).2 = some (.insert .unique) := by
  have hnew : Delivery sampleDecoders balanceTrie false duplicated 0 0 0
      { store := {}, ts := none, prevHash := zeroHash } := .new rfl
  have hfirst := hnew.deliver (b := blockOf 1 (carrier 1 .committed)) rfl (Prod.ext rfl rfl)
  exact ⟨_, hfirst, ⟨by decide, by decide⟩, rfl⟩

end Chain

end Gateway

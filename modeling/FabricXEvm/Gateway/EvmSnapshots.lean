import FabricXEvm.Gateway.SnapshotStore
import FabricXEvm.Lib.FinMap
import FabricXEvm.Storage.Recall

/-!
# evm_snapshot and evm_revert

The test node's `EvmAPI` moves the endorser's store and the block store back together.  A
snapshot is noted under the number of the block store's tip.  `Revert` first reverts the
endorser's store, then the block store, and then forgets the later snapshots.

In runs where a snapshot is taken while both stores are at one number, where no block at or
below the number of a snapshot changes them, and where the database does not fail between the
two stores, a revert that succeeds gives back the values, the rows and the tip.  It does not
give back the chain's `prevHash`, which is the hash of the last block stored, and a failure of
the block store leaves the endorser's store reverted (`TestNode.Runs.allOrNothing_iff`).

The nonce gate, which a revert resets, and the fence, but for its error, are left out.
-/

open Blocks Common Storage

namespace Gateway

/-- A test node: the endorser's store, the chain, and `EvmAPI.snapshots`. -/
structure TestNode (τ : Type) where
  kvs : RevertibleLightKVS
  chain : Chain τ
  snapshots : FinMap (List Char) Nat := ∅

inductive EvmError where
  /-- `beginRewind` failed. -/
  | fenced
  | invalidID (id : List Char)
  | kvs (e : RevertError)
  | store (e : StoreRevertError)
deriving DecidableEq, Repr

namespace TestNode

variable {τ ε : Type}

/-- The handlers of a block, in their order.  If the database fails, the insert is undone, but
not the trie's commit. -/
def handle (d : Decoders) (trie : TrieStore τ ε) (n : TestNode τ) (b : Block) (fails : Bool) :
    TestNode τ :=
  match n.kvs.handle b with
  | .error _ => n
  | .ok kvs =>
      let chain := (n.chain.handle d trie b).1
      { n with kvs, chain := if fails then { n.chain with ts := chain.ts } else chain }

/-- `fmt.Sprintf("0x%x", blockNumber)`. -/
def snapshotID (blockNumber : Nat) : List Char := '0' :: 'x' :: Nat.toDigits 16 blockNumber

/-- `Snapshot`, when the fence is drained. -/
def snapshot (n : TestNode τ) : TestNode τ × List Char :=
  let blockNumber := n.chain.store.snapshot
  ({ n with snapshots := n.snapshots.insert (snapshotID blockNumber) blockNumber },
    snapshotID blockNumber)

/-- Snapshots created after this one. -/
def dropLater (blockNumber : Nat) (snapshots : FinMap (List Char) Nat) : FinMap (List Char) Nat :=
  FinMap.alterAll (fun bn => if blockNumber < bn then none else some bn) snapshots

/-- `Revert`: the node afterwards and the error, if any. -/
def revert (n : TestNode τ) (id : List Char) (fenced fails : Bool) : TestNode τ × Option EvmError :=
  if fenced then (n, some .fenced)
  else
    match n.snapshots.lookup id with
    | none => (n, some (.invalidID id))
    | some blockNumber =>
      match n.kvs.revertToBlock blockNumber with
      | .error e => (n, some (.kvs e))
      | .ok kvs =>
        match n.chain.store.revertToBlock blockNumber fails with
        | .error e => ({ n with kvs }, some (.store e))
        | .ok store =>
            ({ kvs, chain := { n.chain with store }
               snapshots := dropLater blockNumber n.snapshots }, none)

/-! ## Runs -/

/-- The values, the rows and the tip are those of `m`, and so is the parent of the next block. -/
structure Restores (m n : TestNode τ) : Prop where
  values : ∀ ns key,
    Reader.shows ⟨some n.kvs.current⟩ ns key = Reader.shows ⟨some m.kvs.current⟩ ns key
  store : n.chain.store = m.chain.store
  prevHash : n.chain.prevHash = m.chain.prevHash

/-- The moment of a snapshot: the node, and the blocks that `Chain.Handle` had stored. -/
structure Moment (τ : Type) where
  node : TestNode τ
  stored : List Block

/-- What a revert should do, `taken` being the moments of the snapshots. -/
structure AllOrNothing (taken : FinMap (List Char) (Moment τ)) (n : TestNode τ) (id : List Char)
    (r : TestNode τ × Option EvmError) : Prop where
  restored : r.2 = none → ∃ m, taken.lookup id = some m ∧ Restores m.node r.1
  unchanged : r.2 ≠ none → r.1.kvs = n.kvs ∧ r.1.chain.store = n.chain.store ∧
    r.1.snapshots = n.snapshots

/-- The block is above all snapshots. -/
def Above (n : TestNode τ) (b : Block) : Prop :=
  ∀ id bn, n.snapshots.lookup id = some bn → bn < b.number

/-- `Chain.Handle` stores the block. -/
def stores (d : Decoders) (trie : TrieStore τ ε) (n : TestNode τ) (b : Block) (fails : Bool) :
    Bool :=
  (n.kvs.handle b).isOk && (n.chain.handle d trie b).2.isNone && !fails

/-- The snapshot is usable, and the endorser's store can go back to its number `bn`. -/
structure Reverting (n : TestNode τ) (id : List Char) (fenced : Bool) (bn : Nat) : Prop where
  drained : fenced = false
  usable : n.snapshots.lookup id = some bn
  reached : n.kvs.Reaches bn

/-- The block store can go back to the number of the snapshot, too. -/
def Succeeds (n : TestNode τ) (id : List Char) (fenced fails : Bool) : Prop :=
  ∃ bn, n.Reverting id fenced bn ∧ (bn = n.chain.store.cachedBlockNumber ∨
    bn < n.chain.store.cachedBlockNumber ∧ fails = false)

/-- The endorser's store has something to revert, and the block store cannot follow. -/
def Splits (n : TestNode τ) (id : List Char) (fenced fails : Bool) : Prop :=
  ∃ bn, n.Reverting id fenced bn ∧ bn ≠ n.kvs.blockNumber ∧
    (n.chain.store.cachedBlockNumber < bn ∨ bn < n.chain.store.cachedBlockNumber ∧ fails = true)

/-- A node after calls of `Handle`, `Snapshot` and `Revert`, the blocks that `Chain.Handle` has
stored, and the moments of the snapshots. -/
inductive Runs (historySize : Nat) (d : Decoders) (trie : TrieStore τ ε) :
    TestNode τ → List Block → FinMap (List Char) (Moment τ) → Prop where
  | start {chain : Chain τ} (hrows : chain.store.Bounded) :
      Runs historySize d trie { kvs := .new historySize, chain } [] ∅
  | block {n stored taken b fails} (h : Runs historySize d trie n stored taken)
      (hnumber : b.number < 2 ^ 64)
      (habove : n.Above b ∨ (n.handle d trie b fails).kvs = n.kvs ∧
        (n.handle d trie b fails).chain.store = n.chain.store) :
      Runs historySize d trie (n.handle d trie b fails)
        (if n.stores d trie b fails then stored ++ [b] else stored) taken
  | snapshot {n stored taken} (h : Runs historySize d trie n stored taken)
      (hsynced : n.kvs.blockNumber = n.chain.store.cachedBlockNumber) :
      Runs historySize d trie n.snapshot.1 stored (taken.insert n.snapshot.2 ⟨n, stored⟩)
  | revert {n stored taken id fenced fails} (h : Runs historySize d trie n stored taken)
      (hwhole : ¬ n.Splits id fenced fails) :
      Runs historySize d trie (n.revert id fenced fails).1 stored taken

/-- The last block stored since the moment, if there is one, has the hash of the one before. -/
def Moment.SameParent (m : Moment τ) (stored : List Block) : Prop :=
  ∀ b ∈ (stored.drop m.stored.length).getLast?, bytesToHash b.hash = m.node.chain.prevHash

/-! ## What is kept of a snapshot -/

variable {d : Decoders} {trie : TrieStore τ ε} {historySize : Nat} {n n' : TestNode τ}
  {stored : List Block} {taken : FinMap (List Char) (Moment τ)} {id : List Char} {bn : Nat}
  {m : Moment τ} {b : Block}

/-- The rows up to the number are still those of the store `m`, whose tip it was. -/
structure KeepsRows (s m : Store) (bn : Nat) : Prop where
  tip : m.cachedBlockNumber = bn
  rows : s.db.upTo bn = m.db
  le : bn ≤ s.cachedBlockNumber

structure Inv (historySize : Nat) (n : TestNode τ) (taken : FinMap (List Char) (Moment τ)) :
    Prop where
  known : ∀ {id bn}, n.snapshots.lookup id = some bn →
    ∃ m, taken.lookup id = some m ∧ KeepsRows n.chain.store m.node.chain.store bn
  bounded : n.chain.store.Bounded
  recalls : ∃ hs, n.kvs.Holds historySize hs ∧ ∀ {id bn m}, n.snapshots.lookup id = some bn →
    taken.lookup id = some m → n.kvs.Recalls hs bn m.node.kvs.current.data

theorem Inv.congr (h : Inv historySize n taken) (hkvs : n'.kvs = n.kvs)
    (hstore : n'.chain.store = n.chain.store) (hsnapshots : n'.snapshots = n.snapshots) :
    Inv historySize n' taken := by
  refine ⟨?_, ?_, ?_⟩
  · rw [hsnapshots, hstore]
    exact h.known
  · rw [hstore]
    exact h.bounded
  · rw [hkvs, hsnapshots]
    exact h.recalls

theorem Inv.start {chain : Chain τ} (hrows : chain.store.Bounded) :
    Inv historySize { kvs := .new historySize, chain } ∅ where
  known h := nomatch h
  bounded := hrows
  recalls := ⟨[], .new historySize, fun h => nomatch h⟩

/-- The endorser's store takes a block above all snapshots, or skips it. -/
theorem Inv.handleKvs (h : Inv historySize n taken) (hsize : historySize < 2 ^ 32)
    (habove : n.Above b) {kvs : RevertibleLightKVS} (hok : n.kvs.handle b = .ok kvs) :
    ∃ hs, kvs.Holds historySize hs ∧ ∀ {id bn m}, n.snapshots.lookup id = some bn →
      taken.lookup id = some m → kvs.Recalls hs bn m.node.kvs.current.data := by
  obtain ⟨hs, hholds, hrecalls⟩ := h.recalls
  by_cases hpast : n.kvs.current.Past b
  · obtain rfl := Except.ok.inj ((replayGuard_next hpast).symm.trans hok)
    refine ⟨_, hholds.handle hsize hpast, fun {id bn m} hid hm => ?_⟩
    refine (hrecalls hid hm).slide (List.drop_suffix _ _) ?_
    rw [RevertibleLightKVS.current_applyBlockSequential]
    exact habove id bn hid
  · obtain rfl := replayGuard_skip hpast hok
    exact ⟨hs, hholds, hrecalls⟩

/-- The block store takes a block above all snapshots, or not. -/
theorem Inv.handleChain (h : Inv historySize n taken) (hnumber : b.number < 2 ^ 64)
    (habove : n.Above b) (d : Decoders) (trie : TrieStore τ ε) :
    (n.chain.handle d trie b).1.store.Bounded ∧
      ∀ {id bn}, n.snapshots.lookup id = some bn → ∃ m, taken.lookup id = some m ∧
        KeepsRows (n.chain.handle d trie b).1.store m.node.chain.store bn := by
  rcases n.chain.handle_store d trie b with hsame | ⟨block, hinsert, hblock, hof⟩
  · rw [hsame]
    exact ⟨h.bounded, h.known⟩
  · rw [← hblock] at hnumber
    refine ⟨h.bounded.insertBlock hinsert hof hnumber, fun {id bn} hid => ?_⟩
    obtain ⟨m, hm, hkeeps⟩ := h.known hid
    have hlt : bn < block.blockNumber := hblock ▸ habove id bn hid
    refine ⟨m, hm, hkeeps.tip, ?_, ?_⟩
    · exact (Store.insertBlock_upTo hinsert hof hnumber hlt).trans hkeeps.rows
    · rw [Store.cachedBlockNumber_insertBlock hinsert]
      exact hkeeps.le.trans (le_max_left _ _)

theorem Inv.handle (h : Inv historySize n taken) (hsize : historySize < 2 ^ 32)
    (hnumber : b.number < 2 ^ 64) (habove : n.Above b) (fails : Bool) :
    Inv historySize (n.handle d trie b fails) taken := by
  unfold TestNode.handle
  cases hok : n.kvs.handle b with
  | error e => exact h
  | ok kvs =>
      have hkvs := h.handleKvs hsize habove hok
      cases fails with
      | true => exact ⟨h.known, h.bounded, hkvs⟩
      | false =>
          obtain ⟨hbounded, hknown⟩ := h.handleChain hnumber habove d trie
          exact ⟨hknown, hbounded, hkvs⟩

theorem Inv.snapshot (h : Inv historySize n taken)
    (hsynced : n.kvs.blockNumber = n.chain.store.cachedBlockNumber) (stored : List Block) :
    Inv historySize n.snapshot.1 (taken.insert n.snapshot.2 ⟨n, stored⟩) := by
  obtain ⟨hs, hholds, hrecalls⟩ := h.recalls
  refine ⟨fun {id bn} hid => ?_, h.bounded, hs, hholds, fun {id bn m} hid hm => ?_⟩
  · change (n.snapshots.insert _ _).lookup id = some bn at hid
    rw [FinMap.lookup_insert_if] at hid ⊢
    split at hid
    next heq =>
      obtain rfl := Option.some.inj hid
      exact ⟨⟨n, stored⟩, if_pos heq, rfl, h.bounded, le_rfl⟩
    next hne =>
      obtain ⟨m, hm, hkeeps⟩ := h.known hid
      exact ⟨m, (if_neg hne).trans hm, hkeeps⟩
  · change (n.snapshots.insert _ _).lookup id = some bn at hid
    rw [FinMap.lookup_insert_if] at hid hm
    split at hid
    next heq =>
      obtain rfl := Option.some.inj hid
      obtain rfl := Option.some.inj ((if_pos heq).symm.trans hm)
      exact .tip hsynced rfl
    next hne => exact hrecalls hid ((if_neg hne).symm.trans hm)

/-! ## The parent of the next block -/

/-- `prevHash` is the hash of the last block stored. -/
theorem prevHash_handle (d : Decoders) (trie : TrieStore τ ε) (n : TestNode τ) (b : Block)
    (fails : Bool) : (n.handle d trie b fails).chain.prevHash =
      if n.stores d trie b fails then bytesToHash b.hash else n.chain.prevHash := by
  unfold TestNode.handle stores
  cases n.kvs.handle b with
  | error e => rfl
  | ok kvs =>
      cases fails with
      | true => simp
      | false =>
          rcases hcase : n.chain.handle d trie b with ⟨c', _ | e⟩
          · obtain ⟨ebl, ts, root, store, hebl, -, -, rfl⟩ := Chain.handle_ok_iff.mp hcase
            rw [← (convertToDomain_ok hebl).2.1]
            rfl
          · obtain ⟨ts, rfl⟩ := Chain.of_handle_error hcase
            rfl

/-- Since each moment, the parent has moved on with the blocks stored. -/
def ParentSince (n : TestNode τ) (stored : List Block) (m : Moment τ) : Prop :=
  m.stored.length ≤ stored.length ∧ n.chain.prevHash =
    ((stored.drop m.stored.length).getLast?.map fun b => bytesToHash b.hash).getD
      m.node.chain.prevHash

theorem ParentSince.handle (h : ParentSince n stored m) (d : Decoders) (trie : TrieStore τ ε)
    (b : Block) (fails : Bool) :
    ParentSince (n.handle d trie b fails)
      (if n.stores d trie b fails then stored ++ [b] else stored) m := by
  unfold ParentSince
  rw [prevHash_handle]
  split
  next =>
    refine ⟨h.1.trans (by simp), ?_⟩
    rw [List.drop_append_of_le_length h.1, List.getLast?_concat]
    rfl
  next => exact h

theorem ParentSince.iff (h : ParentSince n stored m) :
    n.chain.prevHash = m.node.chain.prevHash ↔ m.SameParent stored := by
  rw [h.2, Moment.SameParent]
  cases (stored.drop m.stored.length).getLast? with
  | none => simp
  | some b => simp

/-! ## Reverts -/

theorem lookup_dropLater {snapshots : FinMap (List Char) Nat} {bn' : Nat}
    (h : (dropLater bn snapshots).lookup id = some bn') :
    snapshots.lookup id = some bn' ∧ bn' ≤ bn := by
  rw [dropLater, FinMap.lookup_alterAll, Option.bind_eq_some_iff] at h
  obtain ⟨bn₀, hlookup, h⟩ := h
  split at h
  next => cases h
  next hle =>
    obtain rfl := Option.some.inj h
    exact ⟨hlookup, not_lt.mp hle⟩

/-- How a revert ends. -/
inductive Ends (n : TestNode τ) (id : List Char) (fenced fails : Bool) :
    TestNode τ × Option EvmError → Prop where
  | refused {e} (hnot : fenced = false → ∀ bn, n.snapshots.lookup id = some bn →
      ∀ kvs, n.kvs.revertToBlock bn ≠ .ok kvs) : Ends n id fenced fails (n, some e)
  | half {bn kvs e} (hdrained : fenced = false) (hid : n.snapshots.lookup id = some bn)
      (hkvs : n.kvs.revertToBlock bn = .ok kvs)
      (hstore : n.chain.store.revertToBlock bn fails = .error e) :
      Ends n id fenced fails ({ n with kvs }, some (.store e))
  | done {bn kvs store} (hdrained : fenced = false) (hid : n.snapshots.lookup id = some bn)
      (hkvs : n.kvs.revertToBlock bn = .ok kvs)
      (hstore : n.chain.store.revertToBlock bn fails = .ok store) :
      Ends n id fenced fails ({ kvs, chain := { n.chain with store }
                                snapshots := dropLater bn n.snapshots }, none)

theorem revert_ends (n : TestNode τ) (id : List Char) (fenced fails : Bool) :
    Ends n id fenced fails (n.revert id fenced fails) := by
  unfold revert
  cases fenced with
  | true => exact .refused nofun
  | false =>
      cases hid : n.snapshots.lookup id with
      | none =>
          refine .refused fun _ bn hbn => ?_
          rw [hid] at hbn
          cases hbn
      | some bn =>
          cases hkvs : n.kvs.revertToBlock bn with
          | error e =>
              simp only [hkvs]
              refine .refused fun _ bn' hbn' kvs hok => ?_
              obtain rfl := Option.some.inj (hid.symm.trans hbn')
              cases hkvs.symm.trans hok
          | ok kvs =>
              cases hstore : n.chain.store.revertToBlock bn fails with
              | error e =>
                  simp only [hkvs, hstore]
                  exact .half rfl hid hkvs hstore
              | ok store =>
                  simp only [hkvs, hstore]
                  exact .done rfl hid hkvs hstore

/-- The block store goes back to its tip, or below it unless the database fails. -/
theorem store_revert_ok {s s' : Store} {fails : Bool} (h : s.revertToBlock bn fails = .ok s') :
    bn = s.cachedBlockNumber ∨ bn < s.cachedBlockNumber ∧ fails = false := by
  unfold Store.revertToBlock at h
  split at h
  next => cases h
  next hle =>
    split at h
    next heq => exact .inl heq
    next hne =>
      split at h
      next => cases h
      next hfails => exact .inr ⟨lt_of_le_of_ne (not_lt.mp hle) hne, Bool.eq_false_iff.mpr hfails⟩

theorem store_revert_error {s : Store} {fails : Bool} {e : StoreRevertError}
    (h : s.revertToBlock bn fails = .error e) :
    s.cachedBlockNumber < bn ∨ bn < s.cachedBlockNumber ∧ fails = true := by
  unfold Store.revertToBlock at h
  split at h
  next hlt => exact .inl hlt
  next hle =>
    split at h
    next => cases h
    next hne =>
      split at h
      next hfails => exact .inr ⟨lt_of_le_of_ne (not_lt.mp hle) hne, hfails⟩
      next => cases h

/-- It cannot both go back and not. -/
theorem not_ok_and_error {tip : Nat} {fails : Bool} (hok : bn = tip ∨ bn < tip ∧ fails = false) :
    ¬ (tip < bn ∨ bn < tip ∧ fails = true) := by
  rcases hok with rfl | ⟨hlt, rfl⟩
  · omega
  · rintro (hlt' | ⟨-, hfails⟩)
    · omega
    · cases hfails

/-- The block store is as it was. -/
theorem KeepsRows.reverted {s s' m : Store} (h : KeepsRows s m bn) (hs : s.Bounded) {fails : Bool}
    (hok : s.revertToBlock bn fails = .ok s') : s' = m := by
  obtain ⟨hdb, htip⟩ := Store.revertToBlock_ok hs hok
  cases s'
  cases m
  exact congrArg₂ Store.mk (hdb.trans h.rows) (htip.trans h.tip.symm)

/-- What was kept of an earlier snapshot still is. -/
theorem KeepsRows.below {s s' m : Store} {bn' : Nat} (h : KeepsRows s m bn') (hs : s.Bounded)
    {fails : Bool} (hok : s.revertToBlock bn fails = .ok s') (hle : bn' ≤ bn) :
    KeepsRows s' m bn' := by
  obtain ⟨hdb, htip⟩ := Store.revertToBlock_ok hs hok
  refine ⟨h.tip, ?_, hle.trans htip.ge⟩
  rw [hdb, Tables.upTo_upTo hle]
  exact h.rows

theorem Inv.done (h : Inv historySize n taken) (hid : n.snapshots.lookup id = some bn)
    {kvs : RevertibleLightKVS} (hkvs : n.kvs.revertToBlock bn = .ok kvs) {fails : Bool}
    {store : Store} (hstore : n.chain.store.revertToBlock bn fails = .ok store) :
    Inv historySize { kvs, chain := { n.chain with store }
                      snapshots := dropLater bn n.snapshots } taken := by
  obtain ⟨hs, hholds, hrecalls⟩ := h.recalls
  obtain ⟨m, hm, -⟩ := h.known hid
  obtain ⟨hs', hholds', -, hbelow⟩ := (hrecalls hid hm).revert hholds hkvs
  refine ⟨fun hid' => ?_, ?_, hs', hholds', fun hid' hm' => ?_⟩
  · obtain ⟨hid', hle⟩ := lookup_dropLater hid'
    obtain ⟨m', hm', hkeeps⟩ := h.known hid'
    exact ⟨m', hm', hkeeps.below h.bounded hstore hle⟩
  · obtain ⟨hdb, htip⟩ := Store.revertToBlock_ok h.bounded hstore
    show store.db.upTo store.cachedBlockNumber = store.db
    rw [htip, hdb, Tables.upTo_upTo le_rfl]
  · obtain ⟨hid', hle⟩ := lookup_dropLater hid'
    exact hbelow _ _ hle (hrecalls hid' hm')

/-- A revert that is under way in the endorser's store. -/
theorem Inv.reverting (h : Inv historySize n taken) {fenced : Bool} (hdrained : fenced = false)
    (hid : n.snapshots.lookup id = some bn) {kvs : RevertibleLightKVS}
    (hkvs : n.kvs.revertToBlock bn = .ok kvs) : n.Reverting id fenced bn := by
  obtain ⟨hs, hholds, -⟩ := h.recalls
  exact ⟨hdrained, hid, (hholds.revert_ok_iff bn).mp ⟨kvs, hkvs⟩⟩

/-- One that is refused never was. -/
theorem Inv.not_reverting (h : Inv historySize n taken) {fenced : Bool}
    (hnot : fenced = false → ∀ bn, n.snapshots.lookup id = some bn →
      ∀ kvs, n.kvs.revertToBlock bn ≠ .ok kvs) : ¬ n.Reverting id fenced bn := by
  rintro ⟨hdrained, hid, hreached⟩
  obtain ⟨hs, hholds, -⟩ := h.recalls
  obtain ⟨kvs, hok⟩ := (hholds.revert_ok_iff bn).mpr hreached
  exact hnot hdrained bn hid kvs hok

theorem Inv.revert (h : Inv historySize n taken) {r : TestNode τ × Option EvmError}
    {fenced fails : Bool} (hends : Ends n id fenced fails r) (hwhole : ¬ n.Splits id fenced fails) :
    Inv historySize r.1 taken := by
  cases hends with
  | refused => exact h
  | @half bn kvs e hdrained hid hkvs hstore =>
      have htip : bn = n.kvs.blockNumber := by
        by_contra hne
        exact hwhole ⟨bn, h.reverting hdrained hid hkvs, hne, store_revert_error hstore⟩
      exact h.congr ((RevertibleLightKVS.revert_self_iff hkvs).mpr htip) rfl rfl
  | done _ hid hkvs hstore => exact h.done hid hkvs hstore

theorem Runs.inv (hsize : historySize < 2 ^ 32) (h : Runs historySize d trie n stored taken) :
    Inv historySize n taken := by
  induction h with
  | start hrows => exact .start hrows
  | block _ hnumber habove ih =>
      rcases habove with habove | ⟨hkvs, hstore⟩
      · exact ih.handle hsize hnumber habove _
      · refine ih.congr hkvs hstore ?_
        unfold TestNode.handle
        split <;> rfl
  | snapshot _ hsynced ih => exact ih.snapshot hsynced _
  | revert _ hwhole ih => exact ih.revert (revert_ends _ _ _ _) hwhole

theorem Runs.parentSince (h : Runs historySize d trie n stored taken) :
    ∀ {id m}, taken.lookup id = some m → ParentSince n stored m := by
  induction h with
  | start => exact fun hm => nomatch hm
  | block _ _ _ ih => exact fun hm => (ih hm).handle d trie _ _
  | @snapshot n stored taken _ _ ih =>
      intro id m hm
      rw [FinMap.lookup_insert_if] at hm
      split at hm
      next =>
        obtain rfl := Option.some.inj hm
        refine ⟨le_rfl, ?_⟩
        simp [TestNode.snapshot]
      next => exact ih hm
  | @revert n stored taken id fenced fails _ _ ih =>
      intro id' m hm
      have hends := revert_ends n id fenced fails
      generalize n.revert id fenced fails = r at hends ⊢
      cases hends with
      | refused => exact ih hm
      | half => exact ih hm
      | done => exact ih hm

/-- All but `prevHash` is as it was. -/
theorem Inv.restores_iff (h : Inv historySize n taken) (hid : n.snapshots.lookup id = some bn)
    (hm : taken.lookup id = some m) {kvs : RevertibleLightKVS}
    (hkvs : n.kvs.revertToBlock bn = .ok kvs) {fails : Bool} {store : Store}
    (hstore : n.chain.store.revertToBlock bn fails = .ok store)
    (snapshots : FinMap (List Char) Nat) :
    Restores m.node { kvs, chain := { n.chain with store }, snapshots } ↔
      n.chain.prevHash = m.node.chain.prevHash := by
  refine ⟨fun hrestores => hrestores.prevHash, fun hprev => ⟨fun ns key => ?_, ?_, hprev⟩⟩
  · obtain ⟨hs, hholds, hrecalls⟩ := h.recalls
    obtain ⟨-, -, hshown, -⟩ := (hrecalls hid hm).revert hholds hkvs
    rw [shows_snapshot, shows_snapshot]
    exact congrFun hshown _
  · obtain ⟨m', hm', hkeeps⟩ := h.known hid
    obtain rfl := Option.some.inj (hm.symm.trans hm')
    exact hkeeps.reverted h.bounded hstore

/-- In every such run a revert is all or nothing exactly if it would not move the endorser's
store alone, and, if it can go through, no block with another hash was stored last since the
snapshot. -/
theorem Runs.allOrNothing_iff (hsize : historySize < 2 ^ 32)
    (h : Runs historySize d trie n stored taken) (id : List Char) (fenced fails : Bool) :
    AllOrNothing taken n id (n.revert id fenced fails) ↔
      (n.Succeeds id fenced fails → ∀ m, taken.lookup id = some m → m.SameParent stored) ∧
      ¬ n.Splits id fenced fails := by
  have hinv := h.inv hsize
  have hends := revert_ends n id fenced fails
  generalize n.revert id fenced fails = r at hends ⊢
  cases hends with
  | refused hnot =>
      refine iff_of_true ⟨nofun, fun _ => ⟨rfl, rfl, rfl⟩⟩ ⟨?_, ?_⟩
      · rintro ⟨bn, hreverting, -⟩
        exact absurd hreverting (hinv.not_reverting hnot)
      · rintro ⟨bn, hreverting, -⟩
        exact hinv.not_reverting hnot hreverting
  | @half bn kvs e hdrained hid hkvs hstore =>
      have hsame := RevertibleLightKVS.revert_self_iff hkvs
      have hreverting := hinv.reverting hdrained hid hkvs
      constructor
      · intro hall
        refine ⟨?_, ?_⟩
        · rintro ⟨bn', hreverting', hok⟩
          obtain rfl := Option.some.inj (hid.symm.trans hreverting'.usable)
          exact absurd (store_revert_error hstore) (not_ok_and_error hok)
        · rintro ⟨bn', hreverting', hne, -⟩
          obtain rfl := Option.some.inj (hid.symm.trans hreverting'.usable)
          exact hne (hsame.mp (hall.unchanged nofun).1)
      · rintro ⟨-, hsplits⟩
        refine ⟨nofun, fun _ => ⟨hsame.mpr ?_, rfl, rfl⟩⟩
        by_contra hne
        exact hsplits ⟨bn, hreverting, hne, store_revert_error hstore⟩
  | @done bn kvs store hdrained hid hkvs hstore =>
      have hreverting := hinv.reverting hdrained hid hkvs
      constructor
      · intro hall
        refine ⟨fun _ m hm => ?_, ?_⟩
        · obtain ⟨m', hm', hrestores⟩ := hall.restored rfl
          obtain rfl := Option.some.inj (hm.symm.trans hm')
          exact (h.parentSince hm).iff.mp hrestores.prevHash
        · rintro ⟨bn', hreverting', -, herror⟩
          obtain rfl := Option.some.inj (hid.symm.trans hreverting'.usable)
          exact not_ok_and_error (store_revert_ok hstore) herror
      · rintro ⟨hparent, -⟩
        obtain ⟨m, hm, -⟩ := hinv.known hid
        have hsame := hparent ⟨bn, hreverting, store_revert_ok hstore⟩ m hm
        refine ⟨fun _ => ⟨m, hm, ?_⟩, fun hne => absurd rfl hne⟩
        exact (hinv.restores_iff hid hm hkvs hstore _).mpr ((h.parentSince hm).iff.mpr hsame)

/-! ## Two blocks -/

def emptyBlock (k : Nat) : Block where
  number := k
  hash := List.replicate 32 (UInt8.ofNat k)

/-- A node after block 1. -/
def atOne : TestNode Unit :=
  handle sampleDecoders Chain.noTrie { kvs := .new 4, chain := Chain.opened } (emptyBlock 1) false

/-- The moment of its snapshot. -/
def momentOne : FinMap (List Char) (Moment Unit) :=
  AList.insert (snapshotID 1) ⟨atOne, [emptyBlock 1]⟩ ∅

/-- After the snapshot comes block 2, which the database may refuse. -/
def atTwo (fails : Bool) : TestNode Unit :=
  handle sampleDecoders Chain.noTrie atOne.snapshot.1 (emptyBlock 2) fails

theorem runs_atTwo (fails : Bool) : Runs 4 sampleDecoders Chain.noTrie (atTwo fails)
    (if fails then [emptyBlock 1] else [emptyBlock 1, emptyBlock 2]) momentOne := by
  have hstart : Runs 4 sampleDecoders Chain.noTrie { kvs := .new 4, chain := Chain.opened } [] ∅ :=
    .start rfl
  have hone : Runs 4 sampleDecoders Chain.noTrie atOne [emptyBlock 1] ∅ :=
    hstart.block (by decide) (.inl nofun)
  have habove : atOne.snapshot.1.Above (emptyBlock 2) := by
    intro id bn hid
    change (AList.insert (snapshotID 1) 1 ∅ : FinMap (List Char) Nat).lookup id = some bn at hid
    rw [FinMap.lookup_insert_if] at hid
    split at hid
    next =>
      obtain rfl := Option.some.inj hid
      decide
    next => cases hid
  cases fails with
  | true => exact (hone.snapshot rfl).block (by decide) (.inl habove)
  | false => exact (hone.snapshot rfl).block (by decide) (.inl habove)

/-- Block 2 was not stored, and the revert takes it back in the endorser's store. -/
theorem reverted_unstored : ((atTwo true).revert (snapshotID 1) false false).2 = none ∧
    (atTwo true).kvs.blockNumber = 2 ∧
    AllOrNothing momentOne (atTwo true) (snapshotID 1)
      ((atTwo true).revert (snapshotID 1) false false) := by
  refine ⟨rfl, rfl, ((runs_atTwo true).allOrNothing_iff (by decide) _ _ _).mpr
    ⟨fun _ m hm => ?_, ?_⟩⟩
  · obtain rfl := Option.some.inj ((AList.lookup_insert _).symm.trans hm)
    nofun
  · rintro ⟨bn, hreverting, -, herror⟩
    obtain rfl := Option.some.inj ((AList.lookup_insert _).symm.trans hreverting.usable)
    exact absurd herror (by decide)

/-- After a revert to block 1, the next block would still have block 2 as its parent. -/
theorem parent_not_reverted :
    Runs 4 sampleDecoders Chain.noTrie (atTwo false) [emptyBlock 1, emptyBlock 2] momentOne ∧
      ((atTwo false).revert (snapshotID 1) false false).2 = none ∧
      atOne.chain.prevHash = List.replicate 32 1 ∧
      ((atTwo false).revert (snapshotID 1) false false).1.chain.prevHash = List.replicate 32 2 ∧
      ¬ AllOrNothing momentOne (atTwo false) (snapshotID 1)
        ((atTwo false).revert (snapshotID 1) false false) := by
  have hone : atOne.chain.prevHash = List.replicate 32 1 := by decide
  have htwo : ((atTwo false).revert (snapshotID 1) false false).1.chain.prevHash =
      List.replicate 32 2 := by
    decide
  refine ⟨runs_atTwo false, rfl, hone, htwo, fun hall => ?_⟩
  obtain ⟨m, hm, hrestores⟩ := hall.restored rfl
  obtain rfl := Option.some.inj ((AList.lookup_insert _).symm.trans hm)
  exact absurd (htwo.symm.trans (hrestores.prevHash.trans hone)) (by decide)

end TestNode

end Gateway

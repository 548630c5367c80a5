import FabricXEvm.Gateway.ChainReplay
import FabricXEvm.Storage.Redelivery

/-!
# The two stores of a node

One synchronizer feeds the stores of a node in turn: first the endorser's `PebbleKVS`, then the
`Chain`, and then the gateway, which marks the transactions of the block complete.  Both stores
are on disk, and each takes a block in one write of its own.  The process may stop between any
two of them.  When it is started again, delivery goes on from the height of the chain.  That is a
stop of the process only: when the operating system goes down, pebble may lose its last blocks,
which it does not sync, and then the endorser's store is behind the chain.

So the endorser's store is at most one block ahead of the chain, and never behind it.  The block
that it has already is checked against what it wrote, and skipped.  Each store ends up with each
block once and opens again as it was, and what the gateway marked complete is in both, also after
any number of stops (`NodeStores.stores_consistent`).
-/

open Blocks Common Storage

namespace Gateway

/-! ## The endorser's store along a ledger -/

/-- The store that got each of the blocks once. -/
def refAfter (bs : List Block) : Reference where
  head := bs.getLast?.map Block.number
  log := bs.flatMap blockUpdates

/-- A ledger whose blocks fit into the stores. -/
structure LedgerFits (L : List Block) : Prop where
  order : Chain.InOrder L
  updates : ∀ b ∈ L, ∀ u ∈ blockUpdates b, UpdateFits u
  length : (L.flatMap blockUpdates).length < 2 ^ 64

section

variable {L : List Block} {b : Block} {i k : Nat} {p : PebbleKVS}

theorem take_succ (hb : L[k]? = some b) : L.take (k + 1) = L.take k ++ [b] := by
  rw [List.take_add_one, hb]
  rfl

theorem refAfter_succ (hb : L[k]? = some b) :
    refAfter (L.take (k + 1)) =
      ⟨some b.number, (refAfter (L.take k)).log ++ blockUpdates b⟩ := by
  simp [refAfter, take_succ hb]

/-- The head is the number of the last block. -/
theorem refAfter_head {head : Nat} (h : (refAfter (L.take k)).head = some head) :
    ∃ j < k, ∃ b', L[j]? = some b' ∧ b'.number = head := by
  obtain ⟨b', hlast, rfl⟩ := Option.map_eq_some_iff.mp h
  obtain ⟨j, hj⟩ := List.mem_iff_getElem?.mp (List.mem_of_getLast? hlast)
  have hlt : j < k := by
    have hlen := (List.getElem?_eq_some_iff.mp hj).1
    rw [List.length_take] at hlen
    omega
  exact ⟨j, hlt, b', (List.getElem?_take_of_lt hlt).symm.trans hj, rfl⟩

theorem LedgerFits.number_lt (hL : LedgerFits L) {j : Nat} {b' : Block} (hj : L[j]? = some b')
    (hb : L[i]? = some b) (hlt : j < i) : b'.number < b.number := by
  obtain ⟨hjlen, rfl⟩ := List.getElem?_eq_some_iff.mp hj
  obtain ⟨hilen, rfl⟩ := List.getElem?_eq_some_iff.mp hb
  exact List.pairwise_iff_getElem.mp hL.order.increasing j i hjlen hilen hlt

theorem LedgerFits.blockFits (hL : LedgerFits L) (hb : L[k]? = some b) :
    BlockFits (refAfter (L.take k)).log b where
  number := hL.order.number_lt b (List.mem_of_getElem? hb)
  updates := hL.updates b (List.mem_of_getElem? hb)
  length := by
    have hsub : ((L.take (k + 1)).flatMap blockUpdates).Sublist (L.flatMap blockUpdates) :=
      (List.take_sublist (k + 1) L).flatMap blockUpdates
    rw [take_succ hb, List.flatMap_append, List.flatMap_singleton] at hsub
    exact hsub.length_le.trans_lt hL.length

/-- A block past the head is applied. -/
theorem handle_new {ref : Reference} (h : p.Inv ref) (hfits : BlockFits ref.log b)
    (hpast : ∀ head, ref.head = some head → head < b.number) :
    ∃ p', p.handle b = .ok p' ∧ p'.Inv ⟨some b.number, ref.log ++ blockUpdates b⟩ := by
  obtain ⟨p', hp', hinv, -⟩ := h.applyBlock hfits hpast
  refine ⟨p', ?_, hinv⟩
  rw [PebbleKVS.handle, PebbleKVS.commitBlock, if_neg, hp']
  rw [h.checkpoint, h.current]
  cases hhead : ref.head with
  | none => simp
  | some head => simpa using hpast head hhead

/-- A block before the head is skipped. -/
theorem handle_old {ref : Reference} {head : Nat} (h : p.Inv ref) (hhead : ref.head = some head)
    (hlt : b.number < head) : p.handle b = .ok p := by
  rw [PebbleKVS.handle, PebbleKVS.commitBlock, h.checkpoint, h.current, hhead]
  simp [hlt, hlt.le]

/-- A block of the ledger is applied if it is the next one, and changes nothing if the store has
it already. -/
theorem handle_kvs (hL : LedgerFits L) (h : p.Inv (refAfter (L.take k))) (hk : k ≤ L.length)
    (hb : L[i]? = some b) (hi : i ≤ k) :
    ∃ p', p.handle b = .ok p' ∧ p'.Inv (refAfter (L.take (max k (i + 1)))) := by
  rcases hi.eq_or_lt with rfl | hlt
  · -- the next block: every block before it has a lower number
    have hpast : ∀ head, (refAfter (L.take i)).head = some head → head < b.number := by
      intro head hhead
      obtain ⟨j, hj, b', hb', rfl⟩ := refAfter_head hhead
      exact hL.number_lt hb' hb hj
    rw [Nat.max_eq_right (Nat.le_succ i), refAfter_succ hb]
    exact handle_new h (hL.blockFits hb) hpast
  · rw [Nat.max_eq_left hlt]
    refine ⟨p, ?_, h⟩
    obtain ⟨m, rfl⟩ := Nat.exists_eq_succ_of_ne_zero (Nat.ne_zero_of_lt hlt)
    have hlast : L[m]? = some L[m] := List.getElem?_eq_getElem hk
    have href := refAfter_succ hlast
    rcases (Nat.le_of_lt_succ hlt).eq_or_lt with rfl | hbefore
    · -- the tip: what it wrote is what the store has
      obtain rfl := Option.some.inj (hb.symm.trans hlast)
      rw [h.handle_tip (by rw [href])]
      have hkeys : ∀ u ∈ blockUpdates L[i], u.key.length < 2 ^ 32 :=
        fun u hu => (hL.updates _ (List.getElem_mem hk) u hu).key
      rw [(h.verifyTipReplay_ok hkeys).mpr]
      · rfl
      · rw [href]
        exact accepts_self _ _
    · exact handle_old h (by rw [href]) (hL.number_lt hb hlast hbefore)

end

/-! ## The stores of a node -/

/-- The handler that gets the next block next. -/
inductive Handler where
  | kvs
  | chain
  | gateway
deriving DecidableEq, Repr

/-- The two stores of a node and how far its synchronizer is with the ledger.  The first `stored`
blocks are in the chain's store and the writes of the first `committed` ones reached its trie.
`completed` has the blocks whose transactions the gateway marked complete. -/
structure NodeStores where
  kvs : PebbleKVS
  chain : Chain TrieState
  turn : Handler := .kvs
  next : Nat := 0
  stored : Nat := 0
  committed : Nat := 0
  completed : List Nat := []

namespace NodeStores

section

variable {ε : Type} (d : Decoders) (trie : TrieStore TrieState ε) (withTrie : Bool)
  (historySize : Int) (L : List Block)

/-- One step of a node over the blocks that its handlers get. -/
inductive Step : NodeStores → NodeStores → Prop where
  | kvs {s : NodeStores} {b : Block} {kvs' : PebbleKVS} (hturn : s.turn = .kvs)
      (hb : L[s.next]? = some b) (h : s.kvs.handle b = .ok kvs') :
      Step s { s with kvs := kvs', turn := .chain }
  | chain {s : NodeStores} {b : Block} {c : Chain TrieState} (hturn : s.turn = .chain)
      (hb : L[s.next]? = some b) (h : s.chain.handle d trie b = (c, none)) :
      Step s { s with
        chain := c
        turn := .gateway
        stored := max s.stored (s.next + 1)
        committed := max s.committed (s.next + 1) }
  -- the insert is refused, with the writes of the block in the trie already
  | refused {s : NodeStores} {b : Block} {c : Chain TrieState} {v : Violation}
      (hturn : s.turn = .chain) (hb : L[s.next]? = some b)
      (h : s.chain.handle d trie b = (c, some (.insert v))) :
      Step s { s with chain := c, turn := .kvs, committed := max s.committed (s.next + 1) }
  | failed {s : NodeStores} {b : Block} {c : Chain TrieState} {e : HandleError ε}
      (hturn : s.turn = .chain) (hb : L[s.next]? = some b)
      (h : s.chain.handle d trie b = (c, some e)) (he : ∀ v, e ≠ .insert v) :
      Step s { s with chain := c, turn := .kvs }
  | gateway {s : NodeStores} (hturn : s.turn = .gateway) :
      Step s { s with turn := .kvs, next := s.next + 1, completed := s.completed ++ [s.next] }
  -- the stream breaks, between any two handlers, and is opened again
  | resume {s : NodeStores} {next' : Nat} (hle : next' ≤ s.next) :
      Step s { s with turn := .kvs, next := next' }
  -- simulations pin heights of the endorser's store and let them go
  | readers {s : NodeStores} (openReaders : List (Nat × Nat)) :
      Step s { s with kvs := { s.kvs with openReaders := openReaders } }
  -- the process stops, between any two handlers, and is started again on its databases; a start
  -- that fails is no step
  | restart {s : NodeStores} {kvs' : PebbleKVS} {c : Chain TrieState} {next' : Nat}
      (hkvs : PebbleKVS.new s.kvs.db historySize = .ok kvs')
      (hchain : Chain.new trie withTrie s.chain.store.db = .ok c) (hle : next' ≤ s.stored) :
      Step s { s with
        kvs := kvs', chain := c, turn := .kvs, next := next', committed := s.stored }

/-- The states of a node that started with empty databases. -/
inductive Reachable : NodeStores → Prop where
  | new {kvs : PebbleKVS} {c : Chain TrieState}
      (hkvs : PebbleKVS.new OrderedStore.empty historySize = .ok kvs)
      (hchain : Chain.new trie withTrie {} = .ok c) :
      Reachable { kvs := kvs, chain := c }
  | step {s t : NodeStores} (hrun : Reachable s)
      (hstep : Step d trie withTrie historySize L s t) : Reachable t

/-- Both stores have each block once.  The endorser's store has all that the chain has and at
most one block more, and it takes the next block.  Opened again, it has the same blocks, and the
chain is the one that got each block once, if its trie opens at the root in the store.  What is
complete is in both. -/
structure Consistent (s : NodeStores) : Prop where
  applied : ∃ k, s.stored ≤ k ∧ k ≤ s.stored + 1 ∧ s.kvs.Inv (refAfter (L.take k)) ∧
    ∃ kvs', PebbleKVS.new s.kvs.db historySize = .ok kvs' ∧ kvs'.Inv (refAfter (L.take k))
  accepts : ∀ b, L[s.next]? = some b → ∃ kvs', s.kvs.handle b = .ok kvs'
  once : ∃ c₁, Chain.Once d trie withTrie (L.take s.stored) c₁ ∧ s.chain.store = c₁.store ∧
    (Chain.TrieOpens trie withTrie s.chain.store.db →
      Chain.new trie withTrie s.chain.store.db = .ok c₁)
  completed : ∀ i ∈ s.completed, i < s.stored

/-- The block that the chain waits for. -/
def awaited (s : NodeStores) : Nat := if s.turn = .gateway then s.next + 1 else s.next

/-- What every step keeps: the chain is in a delivery of its own, and the endorser's store is
ahead of it by the block on its way at most. -/
structure Inv (s : NodeStores) : Prop where
  delivery : Chain.Delivery d trie withTrie L s.awaited s.stored s.committed s.chain
  applied : ∃ k, s.stored ≤ k ∧ k ≤ s.stored + 1 ∧ k ≤ L.length ∧
    s.kvs.Inv (refAfter (L.take k)) ∧ (s.turn = .chain → s.next < k)
  completed : ∀ i ∈ s.completed, i < s.stored

end

section

variable {ε : Type} {d : Decoders} {trie : TrieStore TrieState ε} {root : TrieState → Bytes}
  {withTrie : Bool} {historySize : Int} {L : List Block} {s t : NodeStores}

theorem next_le_awaited (s : NodeStores) : s.next ≤ s.awaited := by
  unfold awaited
  split <;> omega

theorem awaited_of_ne (h : s.turn ≠ .gateway) : s.awaited = s.next := if_neg h

theorem Inv.step (ht : Chain.IsMap trie root L) (hL : LedgerFits L)
    (hs : s.Inv d trie withTrie L) (hstep : Step d trie withTrie historySize L s t) :
    t.Inv d trie withTrie L := by
  obtain ⟨hrun, ⟨k, hle, hk, hlen, hkvs, hahead⟩, hdone⟩ := hs
  have hbound : s.awaited ≤ s.stored := (hrun.replayed ht hL.order).next_le
  cases hstep with
  | kvs hturn hb h =>
      rw [awaited_of_ne (by rw [hturn]; decide)] at hrun hbound
      obtain ⟨p', hp', hinv⟩ := handle_kvs hL hkvs hlen hb (hbound.trans hle)
      obtain rfl := Except.ok.inj (h.symm.trans hp')
      have hnext := (List.getElem?_eq_some_iff.mp hb).1
      exact ⟨hrun, ⟨max k (s.next + 1), hle.trans (le_max_left _ _),
        max_le hk (Nat.succ_le_succ hbound), max_le hlen hnext, hinv, fun _ => Nat.le_max_right _ _⟩,
        hdone⟩
  | chain hturn hb h =>
      rw [awaited_of_ne (by rw [hturn]; decide)] at hrun hbound
      have hnext := hahead hturn
      have hk' : k ≤ max s.stored (s.next + 1) + 1 := hk.trans (Nat.succ_le_succ (le_max_left _ _))
      exact ⟨hrun.deliver hb h, ⟨k, max_le hle hnext, hk', hlen, hkvs, nofun⟩,
        fun i hi => (hdone i hi).trans_le (le_max_left _ _)⟩
  | refused hturn hb h =>
      rw [awaited_of_ne (by rw [hturn]; decide)] at hrun
      exact ⟨hrun.refused hb h, ⟨k, hle, hk, hlen, hkvs, nofun⟩, hdone⟩
  | failed hturn hb h he =>
      rw [awaited_of_ne (by rw [hturn]; decide)] at hrun
      exact ⟨hrun.failed hb h he, ⟨k, hle, hk, hlen, hkvs, nofun⟩, hdone⟩
  | gateway hturn =>
      rw [awaited, if_pos hturn] at hrun hbound
      refine ⟨hrun, ⟨k, hle, hk, hlen, hkvs, nofun⟩, fun i hi => ?_⟩
      rcases List.mem_append.mp hi with hi | hi
      · exact hdone i hi
      · rw [List.mem_singleton.mp hi]
        exact hbound
  | resume hle' =>
      exact ⟨hrun.resume (hle'.trans s.next_le_awaited), ⟨k, hle, hk, hlen, hkvs, nofun⟩, hdone⟩
  | readers openReaders =>
      exact ⟨hrun, ⟨k, hle, hk, hlen, ⟨hkvs.stored, hkvs.current, hkvs.checkpoint⟩, hahead⟩, hdone⟩
  | restart hnew hchain hle' =>
      obtain ⟨p', hp', hinv, -⟩ := hkvs.stored.open historySize
      obtain rfl := Except.ok.inj (hnew.symm.trans hp')
      exact ⟨hrun.restart hchain hle', ⟨k, hle, hk, hlen, hinv, nofun⟩, hdone⟩

theorem Reachable.inv (ht : Chain.IsMap trie root L) (hL : LedgerFits L)
    (h : Reachable d trie withTrie historySize L s) : s.Inv d trie withTrie L := by
  induction h with
  | new hkvs hchain =>
      obtain ⟨p, hp, hinv, -⟩ := Stored.empty.open historySize
      obtain rfl := Except.ok.inj (hkvs.symm.trans hp)
      exact ⟨.new hchain, ⟨0, Nat.le_refl 0, Nat.zero_le _, Nat.zero_le _, hinv, nofun⟩, nofun⟩
  | step _ hstep ih => exact ih.step ht hL hstep

/-- Stops of the process, broken streams and redelivery at any point leave both stores with each
block once, to be opened again as they were, and nothing is complete that one of them lacks. -/
theorem stores_consistent (ht : Chain.IsMap trie root L) (hL : LedgerFits L)
    (h : Reachable d trie withTrie historySize L s) :
    s.Consistent d trie withTrie historySize L := by
  obtain ⟨hrun, ⟨k, hle, hk, hlen, hkvs, -⟩, hdone⟩ := h.inv ht hL
  have hreplayed := hrun.replayed ht hL.order
  obtain ⟨c₁, hc₁, hstore, -⟩ := hreplayed.once
  obtain ⟨p', hp', hinv, -⟩ := hkvs.stored.open historySize
  have hreopen := hc₁.reopen ht hL.order hreplayed.stored_le
  rw [← hstore] at hreopen
  refine ⟨⟨k, hle, hk, hkvs, p', hp', hinv⟩, fun b hb => ?_, ⟨c₁, hc₁, hstore, hreopen⟩, hdone⟩
  have hnext : s.next ≤ k := (s.next_le_awaited.trans hreplayed.next_le).trans hle
  obtain ⟨p'', hp'', -⟩ := handle_kvs hL hkvs hlen hb hnext
  exact ⟨p'', hp''⟩

end

/-! ### Two payments -/

theorem ledgerFits_paying : LedgerFits [Chain.paying 1, Chain.paying 2] where
  order := Chain.inOrder_paying
  updates b hb u hu := by
    have hfits : ∀ b ∈ [Chain.paying 1, Chain.paying 2], ∀ u ∈ blockUpdates b,
        u.key.length < 2 ^ 32 ∧ u.blockNum < 2 ^ 64 ∧ u.txNum < 2 ^ 64 ∧
          u.txID.length + (u.value.getD []).length < 2 ^ 62 := by
      decide +kernel
    obtain ⟨hkey, hblock, htx, hsize⟩ := hfits b hb u hu
    exact ⟨hkey, hblock, htx, hsize⟩
  length := by decide +kernel

def emptyChain : Chain TrieState where
  store := {}
  ts := some .empty
  prevHash := zeroHash

/-- The process stops after the endorser's store got the first payment and before the chain did.
Then both get it, and the gateway marks it complete. -/
theorem stores_consistent_paying : ∃ s : NodeStores,
    s.Consistent sampleDecoders Chain.balanceTrie true 0 [Chain.paying 1, Chain.paying 2] ∧
      s.stored = 1 ∧ s.completed = [0] ∧
      Chain.TrieOpens Chain.balanceTrie true s.chain.store.db := by
  have hL := ledgerFits_paying
  obtain ⟨p₀, hp₀, hinv₀, -⟩ := Stored.empty.open 0
  have hnew : Reachable sampleDecoders Chain.balanceTrie true 0 [Chain.paying 1, Chain.paying 2]
      { kvs := p₀, chain := emptyChain } := .new hp₀ rfl
  obtain ⟨p₁, hp₁, hinv₁⟩ := handle_kvs hL (k := 0) hinv₀ (Nat.zero_le _) (i := 0) rfl
    (Nat.le_refl 0)
  have hahead := hnew.step (.kvs rfl rfl hp₁)
  obtain ⟨p₂, hp₂, hinv₂, -⟩ := hinv₁.stored.open 0
  have hrestart := hahead.step (.restart (c := emptyChain) hp₂ rfl (Nat.le_refl 0))
  obtain ⟨p₃, hp₃, -⟩ := handle_kvs hL (k := 1) hinv₂ (by decide) (i := 0) rfl (Nat.zero_le 1)
  have hagain := hrestart.step (.kvs rfl rfl hp₃)
  have hchain := hagain.step (.chain rfl rfl (Prod.ext rfl rfl))
  have hdone := hchain.step (.gateway rfl)
  exact ⟨_, stores_consistent Chain.isMap_balanceTrie hL hdone, rfl, rfl,
    fun _ => Chain.opens_balanceTrie _⟩

end NodeStores

end Gateway

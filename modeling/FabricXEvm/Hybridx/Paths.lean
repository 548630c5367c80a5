import FabricXEvm.Gateway.Chain
import FabricXEvm.Hybridx.Notification
import FabricXEvm.Storage.Reference

/-!
# The two paths into the stores

A committed block reaches the endorser's store and the chain by delivery, or as a batch
of the notification stream.  Both go through the same namespace filter and the same
handlers, but the dispatcher of the stream first drops what is not an EVM transaction.

`takeIn` is what happens to a block when notification takes over at a given number, and
`hybridUpdates` are the writes it makes.  They are a sublist of the writes delivery
makes, and the store tells the two apart as soon as one is missing, because every write of
a key is counted in its version (`sublist_eq_of_latest`).
-/

open Blocks Common Gateway Storage

namespace Hybridx

/-! ## The namespace filter -/

/-- A transaction of the namespace, trimmed to that namespace's read-write set. -/
def nsTx (ns : Bytes) (tx : Transaction) : Option Transaction :=
  (tx.nsRWS.find? fun rws => rws.ns = ns).map fun rws => { tx with nsRWS := [rws] }

/-- `nsFilter.Handle`: the block the handlers see.  It is forwarded even when empty. -/
def nsFilter (ns : Bytes) (b : Block) : Block :=
  { b with transactions := b.transactions.filterMap (nsTx ns) }

/-- The batch the stream makes of a block, asked for the namespace. -/
def batchOf (ns : Bytes) (b : Block) : AllTxBatch where
  blockNumber := b.number
  events := b.transactions.filter fun tx => (nsTx ns tx).isSome

/-! ## The handlers -/

/-- The stores a gateway with an embedded endorser feeds. -/
structure Stores (τ : Type) where
  kvs : LightKVS
  chain : Chain τ

inductive HandlerError (ε : Type) where
  | kvs (e : ReplayError)
  | chain (e : HandleError ε)

/-- What both paths need: the decoders, the trie, the namespace, and for the notification
path the clock when a block arrives. -/
structure Config (τ ε : Type) where
  decoders : Decoders
  trie : TrieStore τ ε
  ns : Bytes
  now : Nat → Int

namespace Config

variable {τ ε : Type}

/-- The chain of handlers, in order. -/
def dispatch (cfg : Config τ ε) (s : Stores τ) (b : Block) : Except (HandlerError ε) (Stores τ) :=
  match s.kvs.handle b with
  | .error e => .error (.kvs e)
  | .ok kvs =>
    match s.chain.handle cfg.decoders cfg.trie b with
    | (_, some e) => .error (.chain e)
    | (chain, none) => .ok { kvs := kvs, chain := chain }

def deliver (cfg : Config τ ε) (s : Stores τ) (b : Block) : Except (HandlerError ε) (Stores τ) :=
  cfg.dispatch s (nsFilter cfg.ns b)

def notify (cfg : Config τ ε) (s : Stores τ) (b : Block) : Except (HandlerError ε) (Stores τ) :=
  match (batchOf cfg.ns b).block (cfg.now b.number) with
  | none => .ok s
  | some b => cfg.dispatch s (nsFilter cfg.ns b)

/-- Delivery below the takeover, notification from it on.  An error of a handler is a
panic on both paths and ends the run. -/
def takeIn (cfg : Config τ ε) (takeover : Nat) (s : Stores τ) (b : Block) :
    Except (HandlerError ε) (Stores τ) :=
  if b.number < takeover then cfg.deliver s b else cfg.notify s b

end Config

/-! ## What the handlers see -/

/-- Marked as an EVM transaction. -/
def isEVM (tx : Transaction) : Bool := (evmTx tx).isSome

theorem isEVM_of_nsTx {ns : Bytes} {tx tx' : Transaction} (h : nsTx ns tx = some tx') :
    isEVM tx' = isEVM tx := by
  obtain ⟨rws, _, rfl⟩ := Option.map_eq_some_iff.mp h
  rfl

/-- The namespace filter and the dispatcher's filter commute. -/
theorem filterMap_evmTxs (ns : Bytes) (b : Block) :
    (batchOf ns b).evmTxs.filterMap (nsTx ns) = (nsFilter ns b).transactions.filter isEVM := by
  simp only [AllTxBatch.evmTxs, batchOf, nsFilter]
  induction b.transactions with
  | nil => rfl
  | cons tx txs ih =>
      cases hns : nsTx ns tx with
      | none =>
          rw [List.filter_cons_of_neg (by simp [hns]), List.filterMap_cons_none hns]
          exact ih
      | some tx' =>
          rw [List.filter_cons_of_pos (by simp [hns]), List.filterMap_cons_some hns,
            List.filter_cons, List.filter_cons]
          have hevm := isEVM_of_nsTx hns
          change List.filterMap (nsTx ns) (if isEVM tx then _ else _) = _
          cases hmark : isEVM tx with
          | false =>
              rw [if_neg nofun, if_neg (by rw [hevm, hmark]; exact nofun)]
              exact ih
          | true =>
              rw [if_pos rfl, if_pos (hevm.trans hmark), List.filterMap_cons_some hns]
              exact congrArg _ ih

/-- A block carries an EVM transaction of the namespace. -/
def carriesEVM (ns : Bytes) (b : Block) : Bool := (nsFilter ns b).transactions.any isEVM

theorem evmTxs_eq_nil_iff (ns : Bytes) (b : Block) :
    (batchOf ns b).evmTxs = [] ↔ carriesEVM ns b = false := by
  simp only [AllTxBatch.evmTxs, batchOf, carriesEVM, nsFilter, List.filter_filter,
    List.filter_eq_nil_iff, List.any_eq_false, List.mem_filterMap]
  constructor
  · rintro h tx' ⟨tx, htx, hns⟩ hevm
    refine h tx htx ?_
    rw [isEVM_of_nsTx hns] at hevm
    exact Bool.and_eq_true_iff.mpr ⟨hevm, by simp [hns]⟩
  · intro h tx htx hevm
    obtain ⟨hmark, hns⟩ := Bool.and_eq_true_iff.mp hevm
    obtain ⟨tx', htx'⟩ := Option.isSome_iff_exists.mp hns
    refine h tx' ⟨tx, htx, htx'⟩ ?_
    rw [isEVM_of_nsTx htx']
    exact hmark

/-- The block the handlers get for a batch. -/
def notifiedBlock (ns : Bytes) (now : Int) (b : Block) : Block where
  number := b.number
  hash := blockNumberHash b.number
  parentHash := blockNumberHash (b.number - 1)
  timestamp := now
  transactions := (nsFilter ns b).transactions.filter isEVM

theorem notify_eq {τ ε : Type} (cfg : Config τ ε) (s : Stores τ) (b : Block) :
    cfg.notify s b =
      if carriesEVM cfg.ns b then
        cfg.dispatch s (notifiedBlock cfg.ns (cfg.now b.number) b)
      else .ok s := by
  unfold Config.notify AllTxBatch.block
  cases hevm : carriesEVM cfg.ns b with
  | false => simp [(evmTxs_eq_nil_iff cfg.ns b).mpr hevm]
  | true =>
      have hne : (batchOf cfg.ns b).evmTxs ≠ [] := by
        rw [Ne, evmTxs_eq_nil_iff, hevm]
        exact nofun
      have hblock : nsFilter cfg.ns
          { number := b.number, hash := blockNumberHash b.number
            parentHash := blockNumberHash (b.number - 1), timestamp := cfg.now b.number
            transactions := (batchOf cfg.ns b).evmTxs } =
          notifiedBlock cfg.ns (cfg.now b.number) b := by
        rw [nsFilter, notifiedBlock, ← filterMap_evmTxs]
      simp only [List.length_eq_zero_iff, hne, if_false, if_true]
      exact congrArg (cfg.dispatch s) hblock

/-! ## The writes of the two paths -/

/-- The writes of the block as the handlers see it. -/
def hybridUpdates (ns : Bytes) (takeover : Nat) (b : Block) : List KeyValueVersion :=
  if b.number < takeover then blockUpdates (nsFilter ns b)
  else blockUpdates { nsFilter ns b with transactions := (nsFilter ns b).transactions.filter isEVM }

theorem hybridUpdates_sublist (ns : Bytes) (takeover : Nat) (b : Block) :
    (hybridUpdates ns takeover b).Sublist (blockUpdates (nsFilter ns b)) := by
  unfold hybridUpdates
  split
  · exact List.Sublist.refl _
  · exact List.filter_sublist.flatMap _

/-- Nothing the namespace would see is dropped: from the takeover on, a valid transaction
that is not an EVM one writes nothing in the namespace. -/
def NothingDropped (ns : Bytes) (takeover : Nat) (bs : List Block) : Prop :=
  ∀ b ∈ bs, takeover ≤ b.number → ∀ tx ∈ b.transactions, tx.valid = true → evmTx tx = none →
    ∀ rws, (tx.nsRWS.find? fun rws => rws.ns = ns) = some rws → rws.rws.writes = []

/-- A transaction of the filtered block makes the writes of its read-write set. -/
theorem collectWrites_nsTx {ns : Bytes} {tx tx' : Transaction} (h : nsTx ns tx = some tx')
    (block : Nat) :
    collectWrites tx'.nsRWS block (uint64OfInt tx'.number) tx'.id tx'.valid = [] ↔
      (tx.valid = true → ∀ rws, (tx.nsRWS.find? fun rws => rws.ns = ns) = some rws →
        rws.rws.writes = []) := by
  obtain ⟨rws, hrws, rfl⟩ := Option.map_eq_some_iff.mp h
  cases hvalid : tx.valid with
  | false => simp [collectWrites, Transaction.valid, show tx.status.valid = false from hvalid]
  | true =>
      simp [collectWrites, Transaction.valid, show tx.status.valid = true from hvalid, hrws]

/-- Two parts of one list of lists that are equal as a whole are equal part by part. -/
theorem flatMap_eq_of_sublist {α β : Type} {f g : α → List β} {l : List α}
    (hsub : ∀ a, (f a).Sublist (g a)) (h : l.flatMap f = l.flatMap g) :
    ∀ a ∈ l, f a = g a := by
  induction l with
  | nil => exact nofun
  | cons a l ih =>
      have hlen := congrArg List.length h
      have hle := (List.Sublist.flatMap_right l fun a _ => hsub a).length_le
      rw [List.flatMap_cons, List.flatMap_cons, List.length_append, List.length_append] at hlen
      have heq : f a = g a := (hsub a).eq_of_length_le (by omega)
      rw [List.flatMap_cons, List.flatMap_cons, heq] at h
      intro b hb
      rcases List.mem_cons.mp hb with rfl | hb
      · exact heq
      · exact ih (List.append_cancel_left h) b hb

theorem flatMap_filter_eq_iff {α β : Type} {f : α → List β} {p : α → Bool} {l : List α} :
    (l.filter p).flatMap f = l.flatMap f ↔ ∀ a ∈ l, p a = false → f a = [] := by
  have hparts : (l.filter p).flatMap f = l.flatMap fun a => if p a then f a else [] := by
    induction l with
    | nil => rfl
    | cons a l ih => cases hp : p a <;> simp [hp, ih]
  rw [hparts]
  constructor
  · intro h a ha hp
    have hsub : ∀ a, (if p a then f a else []).Sublist (f a) := by
      intro a
      split
      · exact List.Sublist.refl _
      · exact List.nil_sublist _
    simpa [hp] using (flatMap_eq_of_sublist hsub h a ha).symm
  · intro h
    refine List.flatMap_congr fun a ha => ?_
    cases hp : p a with
    | false => simp [h a ha hp]
    | true => simp

theorem nothingDropped_iff {ns : Bytes} {takeover : Nat} {bs : List Block} :
    NothingDropped ns takeover bs ↔
      bs.flatMap (hybridUpdates ns takeover) = bs.flatMap fun b => blockUpdates (nsFilter ns b) := by
  have hblock : ∀ b, hybridUpdates ns takeover b = blockUpdates (nsFilter ns b) ↔
      (takeover ≤ b.number → ∀ tx ∈ b.transactions, tx.valid = true → evmTx tx = none →
        ∀ rws, (tx.nsRWS.find? fun rws => rws.ns = ns) = some rws → rws.rws.writes = []) := by
    intro b
    unfold hybridUpdates
    by_cases hlt : b.number < takeover
    · simp [hlt]
    · rw [if_neg hlt]
      unfold blockUpdates
      dsimp only
      rw [flatMap_filter_eq_iff]
      constructor
      · intro h _ tx htx hvalid hevm rws hrws
        have hns : nsTx ns tx = some { tx with nsRWS := [rws] } := by simp [nsTx, hrws]
        have hmem : { tx with nsRWS := [rws] } ∈ (nsFilter ns b).transactions :=
          List.mem_filterMap.mpr ⟨tx, htx, hns⟩
        have hmark : isEVM { tx with nsRWS := [rws] } = false := by
          rw [isEVM_of_nsTx hns, isEVM, hevm]
          rfl
        exact (collectWrites_nsTx hns b.number).mp (h _ hmem hmark) hvalid rws hrws
      · intro h tx' htx' hmark
        obtain ⟨tx, htx, hns⟩ := List.mem_filterMap.mp htx'
        refine (collectWrites_nsTx hns b.number).mpr fun hvalid rws hrws => ?_
        rw [isEVM_of_nsTx hns] at hmark
        exact h (Nat.le_of_not_lt hlt) tx htx hvalid (by simpa [isEVM] using hmark) rws hrws
  constructor
  · intro h
    exact List.flatMap_congr fun b hb => (hblock b).mpr (h b hb)
  · intro h b hb
    exact (hblock b).mp (flatMap_eq_of_sublist (hybridUpdates_sublist ns takeover) h b hb)

/-- The store counts the writes of every key, so it sees when one is missing. -/
theorem sublist_eq_of_latest {us vs : List KeyValueVersion} (hsub : us.Sublist vs)
    (hlatest : ∀ v ∈ vs, latest us v.key = latest vs v.key) : us = vs := by
  have hlen : ∀ v ∈ vs, (writesOf us v.key).length = (writesOf vs v.key).length := by
    intro v hv
    rw [← nextVersion_latest, ← nextVersion_latest, nextVersion, nextVersion, hlatest v hv]
  clear hlatest
  induction hsub with
  | slnil => rfl
  | @cons us vs v hsub ih =>
      -- The dropped write is counted on one side only.
      have hle := (hsub.filter fun u => decide (u.key = v.key)).length_le
      have heq := hlen v (List.mem_cons_self ..)
      simp only [writesOf, List.filter_cons, decide_true, if_true, List.length_cons] at heq
      omega
  | @cons_cons us vs v hsub ih =>
      refine congrArg (v :: ·) (ih fun w hw => ?_)
      have heq := hlen w (List.mem_cons_of_mem v hw)
      simp only [writesOf, List.filter_cons] at heq ⊢
      split at heq
      · simpa using heq
      · exact heq

end Hybridx

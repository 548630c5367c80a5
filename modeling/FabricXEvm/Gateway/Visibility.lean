import FabricXEvm.Gateway.Inserts
import FabricXEvm.Gateway.NonceGateBooks
import FabricXEvm.Gateway.Receipts
import FabricXEvm.Gateway.ReusedEndorsements

/-!
# A transaction that was accepted is found

`SendTransaction` hands a transaction to the nonce gate, which parks it or passes it to the
queue.  Workers take it from there, and the chain stores it when it is in a block.  Only then
the gateway lets the gate and the queue go on: `Observe` releases what is parked and `Handle`
completes what is in progress.

`TransactionByHash` asks the queue, then the gate, and then the store, each at a time of its
own.  It finds every transaction that was accepted, in all interleavings, unless the gateway
gave it up: it failed, another one took its place or its nonce, it was parked for too long, or the
queue refused it when it was released or dropped it later (`Front.transactionByHash_found`).
There is one more exception.  A transaction that the gate releases between the first two questions is in neither of
the two answers (`Front.missed_when_released`).

What that asks of a queue is `Finding`, which the plain queue and the one with the dependency graph
have.
-/

open Blocks Common

namespace Gateway

/-! ## What the gate forgets -/

namespace NonceGate

variable {g g' : NonceGate} {ref : Nat}

/-- The index by hash loses at most these. -/
def Forgets (g g' : NonceGate) (hashes : List Bytes) : Prop :=
  ∀ hash ∈ g.byHash, hash ∉ hashes → hash ∈ g'.byHash

/-- The hashes of what is parked at some nonces. -/
def hashesAt (parked : FinMap Nat ParkedTx) (nonces : List Nat) : List Bytes :=
  nonces.flatMap fun n => (parked.lookup n).toList.map (·.tx.hash)

/-- The hash of what a newly parked transaction takes the place of. -/
def replacedHashes (parked : FinMap Nat ParkedTx) (tx : EthTx) : Option AdmitResult → List Bytes
  | some .parked => (hashesAt parked [tx.nonce]).filter (· ≠ tx.hash)
  | _ => []

/-- The hashes of what a commit of nonce `n` leaves without a nonce. -/
def spentHashes (g : NonceGate) (A : Bytes) (n : Nat) : List Bytes :=
  let next := (raise (g.known A).next (nonceAfter n)).getD 0
  hashesAt (g.known A).parked ((g.known A).parked.keys.filter (· < next))

/-- The hashes of what a sender has parked for too long. -/
def expiredOf (g : NonceGate) (now : Int) (ref : Nat) : List Bytes :=
  hashesAt (g.states ref).parked
    (((g.states ref).parked.entries.filter fun e => g.ttl < now - e.2.parkedAt).map Sigma.fst)

def expiredHashes (g : NonceGate) (now : Int) : List Bytes :=
  g.entries.entries.flatMap fun e => g.expiredOf now e.2

/-- What is parked in `g'` is parked in `g`. -/
def ParksLess (g g' : NonceGate) : Prop :=
  ∀ ref k p, (g'.states ref).parked.lookup k = some p → (g.states ref).parked.lookup k = some p

theorem parksLess_unpark (g : NonceGate) (ref n : Nat) : ParksLess g (g.unpark ref n).1 := by
  intro r k p h
  unfold unpark at h
  split at h
  next => exact h
  next q hq =>
    change ((Function.update g.states ref _) r).parked.lookup k = some p at h
    by_cases hr : r = ref
    · subst hr
      rw [Function.update_self, FinMap.lookup_erase_if] at h
      split at h
      next => cases h
      next => exact h
    · rwa [Function.update_of_ne hr] at h

theorem forgets_unpark (g : NonceGate) (ref n : Nat) :
    Forgets g (g.unpark ref n).1 (hashesAt (g.states ref).parked [n]) := by
  intro hash hmem hkept
  rw [hashesAt, List.flatMap_singleton] at hkept
  unfold unpark
  split
  next => exact hmem
  next p hp =>
    rw [hp] at hkept
    exact AList.mem_erase.mpr ⟨fun heq => hkept (by simp [heq]), hmem⟩

theorem hashesAt_mono {parked parked' : FinMap Nat ParkedTx}
    (h : ∀ k p, parked'.lookup k = some p → parked.lookup k = some p) (nonces : List Nat) :
    hashesAt parked' nonces ⊆ hashesAt parked nonces := by
  intro hash hmem
  obtain ⟨n, hn, hmem⟩ := List.mem_flatMap.mp hmem
  obtain ⟨p, hp, rfl⟩ := List.mem_map.mp hmem
  refine List.mem_flatMap.mpr ⟨n, hn, List.mem_map.mpr ⟨p, ?_, rfl⟩⟩
  rw [h n p (Option.mem_toList.mp hp)]
  exact List.mem_singleton.mpr rfl

theorem forgets_unparkAll (g : NonceGate) (ref : Nat) (nonces : List Nat) :
    Forgets g (g.unparkAll ref nonces) (hashesAt (g.states ref).parked nonces) ∧
      ParksLess g (g.unparkAll ref nonces) := by
  induction nonces generalizing g with
  | nil => exact ⟨fun _ hmem _ => hmem, fun _ _ _ h => h⟩
  | cons n nonces ih =>
      have hless := parksLess_unpark g ref n
      obtain ⟨hrest, hless'⟩ := ih (g.unpark ref n).1
      refine ⟨fun hash hmem hkept => ?_, fun r k p h => hless r k p (hless' r k p h)⟩
      have hsplit : hashesAt (g.states ref).parked (n :: nonces) =
          hashesAt (g.states ref).parked [n] ++ hashesAt (g.states ref).parked nonces := by
        simp [hashesAt]
      rw [hsplit, List.mem_append, not_or] at hkept
      exact hrest hash (forgets_unpark g ref n hash hmem hkept.1) fun hmem' =>
        hkept.2 (hashesAt_mono (hless ref) nonces hmem')

theorem forgets_park (g : NonceGate) (ref : Nat) (tx : EthTx) (now : Int) :
    Forgets g (g.park ref tx now) (replacedHashes (g.states ref).parked tx (some .parked)) := by
  intro hash hmem hkept
  refine (AList.mem_insert _).mpr ?_
  by_cases heq : hash = tx.hash
  · exact .inl heq
  · refine .inr ?_
    split
    next => exact hmem
    next old hold =>
      refine AList.mem_erase.mpr ⟨fun hsame => hkept ?_, hmem⟩
      simp [replacedHashes, hashesAt, hold, ← hsame, heq]

/-- What a call of `Admit` does to the index: it loses what is replaced, and has what is parked. -/
structure Admits (g g' : NonceGate) (parked : FinMap Nat ParkedTx) (tx : EthTx)
    (r : Option AdmitResult) : Prop where
  forgets : Forgets g g' (replacedHashes parked tx r)
  parked : r = some .parked → tx.hash ∈ g'.byHash

theorem Admits.of_byHash {parked : FinMap Nat ParkedTx} {tx : EthTx} {r : Option AdmitResult}
    (h : g'.byHash = g.byHash) (hr : r ≠ some .parked) : Admits g g' parked tx r :=
  ⟨fun _ hmem _ => h ▸ hmem, fun hparked => absurd hparked hr⟩

/-- The end of `Admit`, on a gate `g₀` that has the index of `g`. -/
theorem admits_settle (g₀ : NonceGate) (ref : Nat) (tx : EthTx) (now : Int)
    (hindex : g₀.byHash = g.byHash) : Admits g ((g₀.settle ref tx now).1.release ref)
      (g₀.states ref).parked tx (some (g₀.settle ref tx now).2) := by
  unfold settle
  dsimp only
  split
  next => exact .of_byHash ((release_frame _ _).1.trans hindex) nofun
  split
  next => exact .of_byHash ((release_frame _ _).1.trans hindex) nofun
  split
  next => exact .of_byHash ((release_frame _ _).1.trans hindex) nofun
  next =>
    refine ⟨fun hash hmem hkept => ?_, fun _ => ?_⟩
    · rw [(release_frame _ _).1]
      refine forgets_park _ ref tx now hash (hindex ▸ hmem) ?_
      simpa [update] using hkept
    · rw [(release_frame _ _).1]
      exact (AList.mem_insert _).mpr (.inl rfl)

theorem acquire_known (g : NonceGate) (A : Bytes) :
    ((g.acquire A).1.states (g.acquire A).2).parked = (g.known A).parked ∧
      ((g.acquire A).1.states (g.acquire A).2).next = (g.known A).next := by
  unfold acquire known entry
  cases g.entries.lookup A with
  | none => simp
  | some ref => simp [update]

theorem admits_admitTx (g : NonceGate) (A : Bytes) (tx : EthTx) (now : Int) :
    Admits g (g.admitTx A tx now).1 (g.known A).parked tx (g.admitTx A tx now).2.2 := by
  obtain ⟨hindex, -⟩ := acquire_frame g A
  unfold admitTx
  dsimp only
  split
  next => exact .of_byHash hindex nofun
  next =>
    rw [← (acquire_known g A).1]
    exact admits_settle _ _ tx now hindex

theorem admits_admitSeeded (g : NonceGate) (ref : Nat) (tx : EthTx) (seed : Option Nat)
    (now : Int) : Admits g (g.admitSeeded ref tx seed now).1 (g.states ref).parked tx
      (g.admitSeeded ref tx seed now).2 := by
  cases seed with
  | none => exact .of_byHash (release_frame _ _).1 nofun
  | some seed =>
      have hparked : ((g.update ref fun ss => { ss with next := raise ss.next seed }).states
          ref).parked = (g.states ref).parked := by
        simp [update]
      rw [← hparked]
      exact admits_settle _ ref tx now rfl

/-- `Observe` loses what is spent and what it hands to the queue. -/
theorem forgets_observeSender (g : NonceGate) (now : Int) (A : Bytes) (n : Nat) :
    Forgets g (g.observeSender now A n).1
      (g.spentHashes A n ++ (g.observeSender now A n).2.toList.map EthTx.hash) := by
  unfold observeSender
  dsimp only
  obtain ⟨hparked, hnext⟩ := acquire_known g A
  generalize hacquire : g.acquire A = acquired at hparked hnext
  obtain ⟨g₀, ref⟩ := acquired
  have hindex : g₀.byHash = g.byHash := by
    have hframe := (acquire_frame g A).1
    rwa [hacquire] at hframe
  generalize hraised : g₀.update ref (fun ss =>
    { ss with next := raise ss.next (nonceAfter n), lastSeen := now }) = g₁
  have hstate : (g₁.states ref).parked = (g.known A).parked ∧
      (g₁.states ref).next = raise (g.known A).next (nonceAfter n) := by
    rw [← hraised, ← hparked, ← hnext]
    simp [update]
  have hindex₁ : g₁.byHash = g.byHash := by
    rw [← hraised]
    exact hindex
  intro hash hmem hkept
  rw [List.mem_append, not_or] at hkept
  rw [(release_frame _ _).1]
  have hspent : hash ∈ (g₁.dropSpent ref ((g₁.states ref).next.getD 0)).byHash := by
    refine (forgets_unparkAll g₁ ref _).1 hash (hindex₁ ▸ hmem) ?_
    rw [hstate.1, hstate.2]
    exact hkept.1
  refine forgets_unpark _ ref _ hash hspent fun hreleased => hkept.2 ?_
  rw [unpark_tx]
  simpa [hashesAt, Option.toList_map] using hreleased

theorem mem_expiredOf {now : Int} {hash : Bytes} : hash ∈ g.expiredOf now ref ↔
    ∃ n p, (g.states ref).parked.lookup n = some p ∧ g.ttl < now - p.parkedAt ∧
      p.tx.hash = hash := by
  constructor
  · intro hmem
    obtain ⟨n, hn, hmem⟩ := List.mem_flatMap.mp hmem
    obtain ⟨p, hp, rfl⟩ := List.mem_map.mp hmem
    obtain ⟨⟨n, q⟩, hq, rfl⟩ := List.mem_map.mp hn
    obtain ⟨hentry, hold⟩ := List.mem_filter.mp hq
    have hlookup : (g.states ref).parked.lookup n = some q := AList.mem_lookup_iff.mpr hentry
    obtain rfl : q = p := Option.some.inj (hlookup.symm.trans (Option.mem_toList.mp hp))
    exact ⟨n, q, hlookup, of_decide_eq_true hold, rfl⟩
  · rintro ⟨n, p, hp, hold, rfl⟩
    have hentry : (⟨n, p⟩ : Σ _ : Nat, ParkedTx) ∈ (g.states ref).parked.entries :=
      AList.mem_lookup_iff.mp hp
    refine List.mem_flatMap.mpr ⟨n, List.mem_map.mpr ⟨⟨n, p⟩, ?_, rfl⟩, ?_⟩
    · exact List.mem_filter.mpr ⟨hentry, decide_eq_true hold⟩
    · exact List.mem_map.mpr ⟨p, Option.mem_toList.mpr hp, rfl⟩

theorem forgets_expireAll (now : Int) (es : List (Σ _ : Bytes, Nat)) (g : NonceGate) :
    Forgets g (es.foldl (fun g e => g.expireSender now e.2) g)
      (es.flatMap fun e => g.expiredOf now e.2) := by
  induction es generalizing g with
  | nil => exact fun _ hmem _ => hmem
  | cons e es ih =>
      intro hash hmem hkept
      rw [List.flatMap_cons, List.mem_append, not_or] at hkept
      obtain ⟨hforgets, hless⟩ := forgets_unparkAll g e.2
        (((g.states e.2).parked.entries.filter fun e => g.ttl < now - e.2.parkedAt).map Sigma.fst)
      have hlimits := (unparkAll_frame g e.2
        (((g.states e.2).parked.entries.filter fun e => g.ttl < now - e.2.parkedAt).map Sigma.fst)).2
      refine ih (g.expireSender now e.2) hash (hforgets hash hmem hkept.1) fun hlater => hkept.2 ?_
      obtain ⟨e', he', hlater⟩ := List.mem_flatMap.mp hlater
      obtain ⟨n, p, hp, hold, rfl⟩ := mem_expiredOf.mp hlater
      have hold' : g.ttl < now - p.parkedAt := hlimits.ttl ▸ hold
      exact List.mem_flatMap.mpr ⟨e', he', mem_expiredOf.mpr ⟨n, p, hless _ n p hp, hold', rfl⟩⟩

theorem Evicts.byHash (h : Evicts g g') : g'.byHash = g.byHash := by
  induction h with
  | done | stuck => rfl
  | evict _ _ _ _ ih => exact ih

/-- The reaper loses what was parked for too long. -/
theorem forgets_prune {now : Int} (h : Evicts (g.expire now) g') :
    Forgets g g' (g.expiredHashes now) := by
  intro hash hmem hkept
  rw [h.byHash]
  exact forgets_expireAll now g.entries.entries g hash hmem hkept

end NonceGate

/-! ## What a queue finds -/

section

variable {Q ε : Type} (I : WorkQueue Q ε)

/-- `IsPending` finds the transaction. -/
def WorkQueue.Has (q : Q) (hash : Bytes) : Prop := (I.isPending q hash).isSome

/-- The queue finds what it took until it is completed or in a block, and says that a transaction
is pending only if it finds it. -/
structure Finding : Prop where
  enqueue : ∀ {q tx q' hash}, I.enqueue q tx = .ok q' → hash = tx.hash ∨ I.Has q hash → I.Has q' hash
  pending : ∀ {q tx}, I.enqueue q tx = .error .alreadyPending → I.Has q tx.hash
  dequeue : ∀ {q tx q' hash}, I.dequeue q = some (tx, q') → I.Has q hash → I.Has q' hash
  complete : ∀ {q done hash}, hash ≠ done → I.Has q hash → I.Has (I.complete q done) hash
  handle : ∀ {q block hash}, hash ∉ blockHashes block → I.Has q hash → I.Has (I.handle q block) hash
  reuse : ∀ {q asked hash}, I.Has q hash → I.Has (I.reusableEndorsement q asked).1 hash

/-- `Enqueue` in `Observe`, which has nobody to report an error to. -/
def enqueueReleased (q : Q) : Option EthTx → Q
  | none => q
  | some tx =>
      match I.enqueue q tx with
      | .ok q' => q'
      | .error _ => q

/-- What is dropped there, since the queue is full or closed. -/
def refusedHashes (q : Q) : Option EthTx → List Bytes
  | none => []
  | some tx =>
      match I.enqueue q tx with
      | .ok _ | .error .alreadyPending => []
      | .error .full | .error .closed => [tx.hash]

/-- The end of `SendTransaction`: the queue after it, and the hash if no error is returned. -/
def admitted (q : Q) (tx : EthTx) : Option AdmitResult → Q × List Bytes
  | some .enqueue =>
      match I.enqueue q tx with
      | .ok q' => (q', [tx.hash])
      | .error _ => (q, [])
  | some .parked => (q, [tx.hash])
  | _ => (q, [])

end

namespace TxQueue

variable {ε : Type} {q q' : TxQueue} {hash : Bytes} {tx : EthTx}

theorem has_iff : (workQueue (ε := ε)).Has q hash ↔ hash ∈ q.queuedMap ∨ hash ∈ q.inProgressMap := by
  show (q.isPending hash).isSome ↔ _
  unfold isPending
  rw [← AList.lookup_isSome, ← AList.lookup_isSome]
  cases q.inProgressMap.lookup hash <;> simp

theorem enqueue_queuedMap (h : q.enqueue tx = .ok q') :
    q'.queuedMap = q.queuedMap.insert tx.hash tx ∧ q'.inProgressMap = q.inProgressMap := by
  unfold enqueue at h
  split at h
  next => cases h
  split at h
  next => cases h
  next =>
    cases h
    exact ⟨rfl, rfl⟩

theorem queuedMap_handle (q : TxQueue) (block : Domain.Block) :
    (q.handle block).queuedMap = q.queuedMap := by
  unfold handle
  induction block.transactions generalizing q with
  | nil => rfl
  | cons tx txs ih => exact ih _

theorem finding : Finding (workQueue (ε := ε)) where
  enqueue h hmem := by
    obtain ⟨hqueued, htaken⟩ := enqueue_queuedMap h
    rw [has_iff] at hmem ⊢
    rw [hqueued, htaken, AList.mem_insert, or_assoc]
    exact hmem
  pending {q tx} h := by
    have hrefused : q.enqueue tx = .error .alreadyPending := h
    rw [has_iff]
    unfold enqueue at hrefused
    split at hrefused
    next hqueued => exact .inl (AList.lookup_isSome.mp hqueued)
    split at hrefused
    next htaken => exact .inr (AList.lookup_isSome.mp htaken)
    next => cases hrefused
  dequeue {q tx q' hash} h hmem := by
    obtain ⟨rest, -, rfl⟩ := dequeue_spec h
    rw [has_iff] at hmem ⊢
    rw [AList.mem_erase, AList.mem_insert]
    tauto
  complete hne hmem := by
    rw [has_iff] at hmem ⊢
    exact hmem.imp_right fun hmem => AList.mem_erase.mpr ⟨hne, hmem⟩
  handle {q block hash} hne hmem := by
    rw [has_iff] at hmem ⊢
    show hash ∈ (q.handle block).queuedMap ∨ hash ∈ (q.handle block).inProgressMap
    rw [queuedMap_handle, mem_inProgressMap_handle]
    exact hmem.imp_right fun hmem => ⟨hmem, hne⟩
  reuse hmem := hmem

end TxQueue

namespace Pipeline

variable {ε : Type}

theorem has_iff {s : Pipeline ε} {hash : Bytes} :
    workQueue.Has s hash ↔ (s.queue.entry hash).isSome := by
  show ((s.queue.tracked.lookup hash).map TrackedTx.tx).isSome ↔ _
  rw [DepGraphQueue.entry, Option.isSome_map, Option.isSome_map]

theorem finding : Finding (workQueue (ε := ε)) where
  enqueue h hmem := by
    rw [has_iff] at hmem ⊢
    rw [DepGraphQueue.entry_enqueue (enqueue_eq_ok h)]
    split
    next => rfl
    next hne => exact hmem.resolve_left hne
  pending {s tx} h := by
    have hmap : (s.queue.enqueue tx).map (fun queue => { s with queue }) = .error .alreadyPending := h
    rw [has_iff, DepGraphQueue.entry, Option.isSome_map]
    unfold DepGraphQueue.enqueue at hmap
    split at hmap
    next => cases hmap
    split at hmap
    next htracked => exact htracked
    split at hmap
    next => cases hmap
    next => cases hmap
  dequeue h hmem := by
    rw [has_iff] at hmem ⊢
    rwa [DepGraphQueue.entry_dequeue (dequeue_eq_some h)]
  complete {s done hash} hne hmem := by
    rw [has_iff] at hmem ⊢
    show ((s.queue.takeNodes [done]).1.entry hash).isSome
    rw [(DepGraphQueue.entry_takeNodes [done]).2, if_neg fun h => hne (List.mem_singleton.mp h)]
    exact hmem
  handle {s block hash} hne hmem := by
    rw [has_iff] at hmem ⊢
    show ((s.queue.handle block).1.entry hash).isSome
    rwa [DepGraphQueue.entry_handle, if_neg hne]
  reuse {s asked hash} hmem := by
    rw [has_iff] at hmem ⊢
    show ((s.queue.reusableEndorsement asked).1.entry hash).isSome
    rw [DepGraphQueue.entry_reusableEndorsement]
    split
    next => rwa [Option.isSome_map]
    next => exact hmem

end Pipeline

section

variable {Q ε : Type} {I : WorkQueue Q ε} {q : Q} {hash : Bytes}

/-- What is released is found in the queue, unless it was refused. -/
theorem has_enqueueReleased (hI : Finding I) {released : Option EthTx}
    (hmem : hash ∈ released.toList.map EthTx.hash ∨ I.Has q hash)
    (hkept : hash ∉ refusedHashes I q released) : I.Has (enqueueReleased I q released) hash := by
  cases released with
  | none => exact hmem.resolve_left List.not_mem_nil
  | some tx =>
      rw [Option.toList_some, List.map_singleton, List.mem_singleton] at hmem
      dsimp only [refusedHashes] at hkept
      dsimp only [enqueueReleased]
      cases h : I.enqueue q tx with
      | ok q' => exact hI.enqueue h hmem
      | error err =>
          refine hmem.elim (fun heq => ?_) id
          cases err with
          | alreadyPending => exact heq ▸ hI.pending h
          | full | closed =>
              rw [h] at hkept
              exact absurd (List.mem_singleton.mpr heq) hkept

/-- The end of `SendTransaction` keeps what is queued, and an accepted transaction is there if it
was not parked. -/
theorem has_admitted (hI : Finding I) (tx : EthTx) (r : Option AdmitResult) :
    (I.Has q hash → I.Has (admitted I q tx r).1 hash) ∧
      (hash ∈ (admitted I q tx r).2 → I.Has (admitted I q tx r).1 hash ∨
        r = some .parked ∧ hash = tx.hash) := by
  unfold admitted
  split
  next =>
    cases h : I.enqueue q tx with
    | ok q' =>
        exact ⟨fun hmem => hI.enqueue h (.inr hmem), fun hmem =>
          .inl (hI.enqueue h (.inl (List.mem_singleton.mp hmem)))⟩
    | error err => exact ⟨id, nofun⟩
  next => exact ⟨id, fun hmem => .inr ⟨rfl, List.mem_singleton.mp hmem⟩⟩
  next => exact ⟨id, nofun⟩

theorem not_mem_replacedHashes {tx : EthTx} {r : Option AdmitResult}
    {parked : FinMap Nat ParkedTx} (hmem : hash ∈ (admitted I q tx r).2) :
    hash ∉ NonceGate.replacedHashes parked tx r := by
  have heq : hash = tx.hash := by
    unfold admitted at hmem
    split at hmem
    next =>
      split at hmem
      next => exact List.mem_singleton.mp hmem
      next => exact absurd hmem List.not_mem_nil
    next => exact List.mem_singleton.mp hmem
    next => exact absurd hmem List.not_mem_nil
  intro hlost
  unfold NonceGate.replacedHashes at hlost
  split at hlost
  next => exact of_decide_eq_true (List.mem_filter.mp hlost).2 heq
  next => exact absurd hlost List.not_mem_nil

end

/-! ## The front of the gateway -/

/-- The transaction is stored. -/
def Store.Has (s : Store) (hash : Bytes) : Prop := ∃ r ∈ s.db.transactions, r.txHash = hash

/-- What a step does to the transactions that were sent. -/
structure Effect where
  /-- `SendTransaction` returns no error. -/
  accepted : List Bytes := []
  /-- The gate hands them to the queue. -/
  released : List Bytes := []
  /-- The gateway gives them up. -/
  dropped : Set Bytes := ∅

/-- The gate, the queue and the store, with the calls of `Admit` that are off the lock, and the
block that the chain has stored and the gateway not yet handled, with the senders that `Observe`
has still to visit. -/
structure Front (Q : Type) where
  gate : NonceGate
  queue : Q
  store : Store := {}
  calls : List NonceGate.Call := []
  block : Option Domain.Block := none
  observing : List (Σ _ : Bytes, Nat) := []

namespace Front

variable {Q ε : Type}

section

open NonceGate (Turn)

variable (I : WorkQueue Q ε) (executes : EthTx → ε → Prop) (d : Decoders) (signer : Signer)

/-- What may happen next.  The checks of `SendTransaction` before `Admit` only turn transactions
away, so here anything may be sent at any time. -/
inductive Step : Front Q → Effect → Front Q → Prop where
  | send {s : Front Q} {A : Bytes} {tx : EthTx} {r : AdmitResult} {gate : NonceGate}
      (hturn : Turn d signer s.gate (.admitTx A tx r) gate) :
      Step s
        { accepted := (admitted I s.queue tx r).2
          dropped := { hash | hash ∈ NonceGate.replacedHashes (s.gate.known A).parked tx r } }
        { s with gate, queue := (admitted I s.queue tx r).1 }
  /-- `Admit` lets go of the lock to read the nonce. -/
  | admitReads {s : Front Q} {c : NonceGate.Call} {gate : NonceGate}
      (hturn : Turn d signer s.gate (.admitReads c) gate) :
      Step s {} { s with gate, calls := s.calls ++ [c] }
  | resume {s : Front Q} {pre post : List NonceGate.Call} {c : NonceGate.Call} {seed : Option Nat}
      {r : Option AdmitResult} {gate : NonceGate} (hcalls : s.calls = pre ++ c :: post)
      (hturn : Turn d signer s.gate (.resume c seed r) gate) :
      Step s
        { accepted := (admitted I s.queue c.tx r).2
          dropped := { hash | hash ∈ NonceGate.replacedHashes (s.gate.states c.ref).parked c.tx r } }
        { s with gate, queue := (admitted I s.queue c.tx r).1, calls := pre ++ post }
  /-- The chain stores the next block. -/
  | insert {s : Front Q} {b : Block} {block : Domain.Block} {parent root : Bytes} {store : Store}
      {order : List (Σ _ : Bytes, Nat)} (hidle : s.block = none)
      (hconvert : convertToDomain d b = .ok block)
      (hinsert : s.store.insertBlock { block with parentHash := parent, stateRoot := root } =
        .ok store)
      (horder : order.Perm (NonceGate.highest d block.transactions).entries) :
      Step s {} { s with store, block := some block, observing := order }
  /-- One sender of `Observe`. -/
  | observe {s : Front Q} {A : Bytes} {n : Nat} {rest : List (Σ _ : Bytes, Nat)} {tx : Option EthTx}
      {gate : NonceGate} (hnext : s.observing = ⟨A, n⟩ :: rest)
      (hturn : Turn d signer s.gate (.observeSender A n tx) gate) :
      Step s
        { released := tx.toList.map EthTx.hash
          dropped := { hash | hash ∈ s.gate.spentHashes A n ∨ hash ∈ refusedHashes I s.queue tx } }
        { s with gate, queue := enqueueReleased I s.queue tx, observing := rest }
  | handle {s : Front Q} {block : Domain.Block} (hblock : s.block = some block)
      (hobserved : s.observing = []) :
      Step s {} { s with queue := I.handle s.queue block, block := none }
  | dequeue {s : Front Q} {tx : EthTx} {queue : Q} (h : I.dequeue s.queue = some (tx, queue)) :
      Step s {} { s with queue }
  | reuse {s : Front Q} (hash : Bytes) :
      Step s {} { s with queue := (I.reusableEndorsement s.queue hash).1 }
  /-- A worker or the submitter completes a transaction after an error. -/
  | fail {s : Front Q} (hash : Bytes) :
      Step s { dropped := {hash} } { s with queue := I.complete s.queue hash }
  /-- A goroutine of the queue, which may give transactions up. -/
  | background {s : Front Q} {queue : Q} (h : I.background executes s.queue queue) :
      Step s { dropped := { hash | I.Has s.queue hash ∧ ¬ I.Has queue hash } } { s with queue }
  | prune {s : Front Q} {now : Int} {gate : NonceGate}
      (hturn : Turn d signer s.gate (.prune now) gate) :
      Step s { dropped := { hash | hash ∈ s.gate.expiredHashes now } } { s with gate }

/-- A run and what its steps did. -/
inductive Run : Front Q → List Effect → Front Q → Prop where
  | nil {s : Front Q} : Run s [] s
  | snoc {s t u : Front Q} {effs : List Effect} {eff : Effect} (hrun : Run s effs t)
      (hstep : Step I executes d signer t eff u) : Run s (effs ++ [eff]) u

end

/-- The chain stores a block before the gateway handles it. -/
def Inv (s : Front Q) : Prop := ∀ block, s.block = some block → Tables.Holds s.store.db block

/-- The transaction is in the queue, the gate or the store. -/
def Known (I : WorkQueue Q ε) (s : Front Q) (hash : Bytes) : Prop :=
  I.Has s.queue hash ∨ hash ∈ s.gate.byHash ∨ s.store.Has hash

end Front

/-! ## The store -/

theorem isSome_getTransactionByHash {s : Store} {hash : Bytes} :
    (s.getTransactionByHash hash).isSome ↔ s.Has hash := by
  simp [Store.getTransactionByHash, Store.Has, List.find?_isSome]

theorem Store.Has.mono {s s' : Store} {hash : Bytes} (h : s.Has hash)
    (hgrows : Tables.Grows s.db s'.db) : s'.Has hash := by
  obtain ⟨r, hr, hhash⟩ := h
  exact ⟨r, hgrows.transactions hr, hhash⟩

/-- A block that the store holds has all its transactions there. -/
theorem has_of_holds {s : Store} {block : Domain.Block} (h : Tables.Holds s.db block) {hash : Bytes}
    (hmem : hash ∈ blockHashes block) : s.Has hash := by
  obtain ⟨t, ht, rfl⟩ := List.mem_map.mp hmem
  obtain ⟨hcheck, r, hr, htarget⟩ := (h.transactions t ht).row
  have hlen : t.txHash.length = 32 := by
    simp only [transactionsSchema, Bool.and_eq_true, decide_eq_true_eq] at hcheck
    exact hcheck.1.1.1.1.1.1.1.1
  rw [bytesToHash_of_length hlen]
  exact ⟨r, hr, htarget⟩

namespace Front

variable {Q ε : Type} {I : WorkQueue Q ε} {executes : EthTx → ε → Prop} {d : Decoders}
  {signer : Signer} {s t u : Front Q} {eff : Effect} {effs : List Effect} {hash : Bytes}

theorem Inv.step (hinv : s.Inv) (hstep : Step I executes d signer s eff t) : t.Inv := by
  cases hstep with
  | insert hidle hconvert hinsert horder =>
      intro block hblock
      cases hblock
      obtain ⟨-, hrow, htxs⟩ := Store.insertBlock_holds hinsert
      exact ⟨hrow, htxs⟩
  | handle hblock hobserved => exact nofun
  | send | admitReads | resume | observe | dequeue | reuse | fail | background | prune => exact hinv

/-- The store only grows. -/
theorem Step.grows (hstep : Step I executes d signer s eff t) :
    Tables.Grows s.store.db t.store.db := by
  cases hstep with
  | insert hidle hconvert hinsert horder => exact (Store.insertBlock_holds hinsert).1
  | send | admitReads | resume | observe | handle | dequeue | reuse | fail | background | prune =>
      exact .refl _

/-- What is accepted is not given up in the same step. -/
theorem Step.not_dropped (hstep : Step I executes d signer s eff t)
    (haccepted : hash ∈ eff.accepted) : hash ∉ eff.dropped := by
  cases hstep with
  | send | resume => exact not_mem_replacedHashes haccepted
  | admitReads | insert | observe | handle | dequeue | reuse | fail | background | prune =>
      exact absurd haccepted List.not_mem_nil

/-- Where a transaction is after a step that does not give it up. -/
structure Keeps (I : WorkQueue Q ε) (s t : Front Q) (eff : Effect) (hash : Bytes) : Prop where
  queue : I.Has s.queue hash → I.Has t.queue hash ∨ t.store.Has hash
  gate : hash ∈ s.gate.byHash → hash ∈ t.gate.byHash ∨ hash ∈ eff.released ∧ I.Has t.queue hash
  accepted : hash ∈ eff.accepted → I.Has t.queue hash ∨ hash ∈ t.gate.byHash

/-- The end of `SendTransaction`. -/
theorem keeps_admitted (hI : Finding I) {gate : NonceGate} {calls : List NonceGate.Call} {tx : EthTx}
    {parked : FinMap Nat ParkedTx} {r : Option AdmitResult}
    (hadmits : NonceGate.Admits s.gate gate parked tx r)
    (hkept : hash ∉ NonceGate.replacedHashes parked tx r) :
    Keeps I s { s with gate, queue := (admitted I s.queue tx r).1, calls }
      { accepted := (admitted I s.queue tx r).2
        dropped := { hash | hash ∈ NonceGate.replacedHashes parked tx r } } hash where
  queue hmem := .inl ((has_admitted hI tx r).1 hmem)
  gate hmem := .inl (hadmits.forgets hash hmem hkept)
  accepted hmem := ((has_admitted hI tx r).2 hmem).imp_right fun ⟨hr, heq⟩ =>
    heq ▸ hadmits.parked hr

/-- One sender of `Observe`. -/
theorem keeps_observe (hI : Finding I) {gate : NonceGate} {A : Bytes} {n : Nat} {now : Int}
    {tx : Option EthTx} {rest : List (Σ _ : Bytes, Nat)}
    (hcall : s.gate.observeSender now A n = (gate, tx))
    (hkept : ¬ (hash ∈ s.gate.spentHashes A n ∨ hash ∈ refusedHashes I s.queue tx)) :
    Keeps I s { s with gate, queue := enqueueReleased I s.queue tx, observing := rest }
      { released := tx.toList.map EthTx.hash
        dropped := { hash | hash ∈ s.gate.spentHashes A n ∨ hash ∈ refusedHashes I s.queue tx } }
      hash := by
  obtain ⟨hspent, hrefused⟩ := not_or.mp hkept
  refine ⟨fun hmem => .inl (has_enqueueReleased hI (.inr hmem) hrefused), fun hmem => ?_, nofun⟩
  by_cases hmem' : hash ∈ tx.toList.map EthTx.hash
  · exact .inr ⟨hmem', has_enqueueReleased hI (.inl hmem') hrefused⟩
  · have hforgets := NonceGate.forgets_observeSender s.gate now A n
    rw [hcall] at hforgets
    exact .inl (hforgets hash hmem fun hlost => (List.mem_append.mp hlost).elim hspent hmem')

theorem Step.keeps (hI : Finding I) (hinv : s.Inv) (hstep : Step I executes d signer s eff t)
    (hkept : hash ∉ eff.dropped) : Keeps I s t eff hash := by
  cases hstep with
  | @send A tx r gate hturn =>
      cases hturn with
      | @admitTx _ _ _ now _ _ _ hcall =>
          have hadmits := NonceGate.admits_admitTx s.gate A tx now
          rw [hcall] at hadmits
          exact keeps_admitted hI hadmits hkept
  | admitReads hturn =>
      cases hturn with
      | @admitReads _ A tx now _ _ hcall =>
          have hadmits := NonceGate.admits_admitTx s.gate A tx now
          rw [hcall] at hadmits
          exact ⟨.inl, fun hmem => .inl (hadmits.forgets hash hmem List.not_mem_nil), nofun⟩
  | @resume pre post c seed r gate hcalls hturn =>
      cases hturn with
      | @resume _ _ _ now _ hcall =>
          have hadmits := NonceGate.admits_admitSeeded s.gate c.ref c.tx seed now
          rw [hcall] at hadmits
          exact keeps_admitted hI hadmits hkept
  | insert hidle hconvert hinsert horder => exact ⟨.inl, .inl, nofun⟩
  | observe hnext hturn => cases hturn with | observeSender hcall => exact keeps_observe hI hcall hkept
  | @handle block hblock hobserved =>
      refine ⟨fun hmem => ?_, .inl, nofun⟩
      -- what the queue completes is of the block, and the store has the block
      by_cases hdone : hash ∈ blockHashes block
      · exact .inr (has_of_holds (hinv _ hblock) hdone)
      · exact .inl (hI.handle hdone hmem)
  | dequeue h => exact ⟨fun hmem => .inl (hI.dequeue h hmem), .inl, nofun⟩
  | reuse asked => exact ⟨fun hmem => .inl (hI.reuse hmem), .inl, nofun⟩
  | fail done => exact ⟨fun hmem => .inl (hI.complete hkept hmem), .inl, nofun⟩
  | background h =>
      refine ⟨fun hmem => .inl ?_, .inl, nofun⟩
      by_contra hlost
      exact hkept ⟨hmem, hlost⟩
  | prune hturn =>
      cases hturn with
      | prune hevicts =>
          exact ⟨.inl, fun hmem => .inl (NonceGate.forgets_prune hevicts hash hmem hkept), nofun⟩

theorem Step.known (hI : Finding I) (hinv : s.Inv) (hstep : Step I executes d signer s eff t)
    (hknown : s.Known I hash) (hkept : hash ∉ eff.dropped) : t.Known I hash := by
  have h := hstep.keeps hI hinv hkept
  rcases hknown with hqueue | hgate | hstore
  · exact (h.queue hqueue).imp_right .inr
  · rcases h.gate hgate with hgate | ⟨-, hqueue⟩
    · exact .inr (.inl hgate)
    · exact .inl hqueue
  · exact .inr (.inr (hstore.mono hstep.grows))

/-- No step of the run gives the transaction up. -/
def Kept (effs : List Effect) (hash : Bytes) : Prop := ∀ eff ∈ effs, hash ∉ eff.dropped

theorem kept_snoc : Kept (effs ++ [eff]) hash ↔ Kept effs hash ∧ hash ∉ eff.dropped := by
  simp [Kept, or_imp, forall_and]

theorem Run.inv (hinv : s.Inv) (hrun : Run I executes d signer s effs t) : t.Inv := by
  induction hrun with
  | nil => exact hinv
  | snoc _ hstep ih => exact ih.step hstep

theorem Run.known (hI : Finding I) (hinv : s.Inv) (hrun : Run I executes d signer s effs t)
    (hknown : s.Known I hash) (hkept : Kept effs hash) : t.Known I hash := by
  induction hrun with
  | nil => exact hknown
  | snoc hrun hstep ih =>
      obtain ⟨hkept, hlast⟩ := kept_snoc.mp hkept
      exact hstep.known hI (hrun.inv hinv) (ih hkept) hlast

theorem Run.grows (hrun : Run I executes d signer s effs t) :
    Tables.Grows s.store.db t.store.db := by
  induction hrun with
  | nil => exact .refl _
  | snoc _ hstep ih => exact ih.trans hstep.grows

/-- What is parked stays so until it is released. -/
theorem Run.parked (hI : Finding I) (hinv : s.Inv) (hrun : Run I executes d signer s effs t)
    (hgate : hash ∈ s.gate.byHash) (hkept : Kept effs hash)
    (hheld : ∀ eff ∈ effs, hash ∉ eff.released) : hash ∈ t.gate.byHash := by
  induction hrun with
  | nil => exact hgate
  | snoc hrun hstep ih =>
      obtain ⟨hkept, hlast⟩ := kept_snoc.mp hkept
      have hbefore := ih hkept fun eff heff => hheld eff (List.mem_append_left _ heff)
      refine ((hstep.keeps hI (hrun.inv hinv) hlast).gate hbefore).resolve_right fun hreleased => ?_
      exact hheld _ (List.mem_append_right _ List.mem_cons_self) hreleased.1

/-- What `TransactionByHash` asks, with the queue in `s`, the gate in `t` and the store in `u`. -/
def lookup (I : WorkQueue Q ε) (d : Decoders) (marshalBinary : EthTx → Option Bytes)
    (signer : Signer) (s t u : Front Q) (hash : Bytes) :
    Except LookupError (Option Domain.Transaction) :=
  u.store.transactionByHash d
    { queue := I.isPending s.queue, nonceGate := t.gate.isPending, marshalBinary, signer } hash

theorem lookup_ne_none {marshalBinary : EthTx → Option Bytes}
    (h : I.Has s.queue hash ∨ hash ∈ t.gate.byHash ∨ u.store.Has hash) :
    lookup I d marshalBinary signer s t u hash ≠ .ok none := by
  unfold lookup Store.transactionByHash Pool.isPending
  dsimp only
  cases hqueue : I.isPending s.queue hash with
  | some tx => simp only; split <;> [simp; (split <;> simp)]
  | none =>
    cases hgate : t.gate.isPending hash with
    | some tx => simp only; split <;> [simp; (split <;> simp)]
    | none =>
      have hstore : u.store.Has hash := by
        rcases h with h | h | h
        · rw [WorkQueue.Has, hqueue] at h
          cases h
        · exact absurd h (AList.lookup_eq_none.mp hgate)
        · exact h
      obtain ⟨tx, htx⟩ := Option.isSome_iff_exists.mp (isSome_getTransactionByHash.mpr hstore)
      simp [htx]

/-- A gateway that has just started, on an empty store. -/
def start (queue : Q) (maxPerSender maxSenders : Nat) (ttl : Int) : Front Q :=
  { gate := { maxPerSender, maxSenders, ttl }, queue }

theorem inv_start (queue : Q) (maxPerSender maxSenders : Nat) (ttl : Int) :
    (start queue maxPerSender maxSenders ttl).Inv := by
  intro block hblock
  cases hblock

/-- A transaction that `SendTransaction` accepted is found, whatever happens before, between and
after the three questions of `TransactionByHash`, unless it was given up, a refusal of the queue at
its release included, or the gate releases it between the first two. -/
theorem transactionByHash_found (hI : Finding I) {marshalBinary : EthTx → Option Bytes} {queue : Q}
    {maxPerSender maxSenders : Nat} {ttl : Int} {s₀ s₁ s₂ s₃ : Front Q}
    {earlier before during after : List Effect}
    (h₀ : Run I executes d signer (start queue maxPerSender maxSenders ttl) earlier s)
    (hsent : Step I executes d signer s eff s₀) (haccepted : hash ∈ eff.accepted)
    (h₁ : Run I executes d signer s₀ before s₁) (h₂ : Run I executes d signer s₁ during s₂)
    (h₃ : Run I executes d signer s₂ after s₃) (hkept : Kept (before ++ during) hash)
    (hheld : ∀ eff ∈ during, hash ∉ eff.released) :
    lookup I d marshalBinary signer s₁ s₂ s₃ hash ≠ .ok none := by
  have hinv : s.Inv := h₀.inv (inv_start _ _ _ _)
  have hinv₀ := hinv.step hsent
  have hinv₁ := h₁.inv hinv₀
  have hsplit : Kept before hash ∧ Kept during hash := List.forall_mem_append.mp hkept
  have hknown₀ : s₀.Known I hash := by
    rcases (hsent.keeps hI hinv (hsent.not_dropped haccepted)).accepted haccepted with
      hqueue | hgate
    · exact .inl hqueue
    · exact .inr (.inl hgate)
  refine lookup_ne_none ?_
  rcases h₁.known hI hinv₀ hknown₀ hsplit.1 with hqueue | hgate | hstore
  · exact .inl hqueue
  · exact .inr (.inl (h₂.parked hI hinv₁ hgate hsplit.2 hheld))
  · exact .inr (.inr (hstore.mono (h₂.grows.trans h₃.grows)))

/-! ### A parked transaction -/

open NonceGate (Turn)
open Pipeline (workQueue fresh)

/-- Everything is endorsed. -/
abbrev SampleStep :=
  @Step (Pipeline Unit) Unit workQueue Flow.anyEndorsement sampleDecoders sampleSigner

abbrev SampleRun :=
  @Run (Pipeline Unit) Unit workQueue Flow.anyEndorsement sampleDecoders sampleSigner

/-- `transfer₁` waits for the first nonce. -/
def reading : Front (Pipeline Unit) :=
  { gate := ((start (fresh (ε := Unit)) 64 8 180).gate.admitTx account₀ transfer₁.tx 0).1
    queue := fresh
    calls := [{ sender := account₀, ref := 0, tx := transfer₁.tx }] }

def parkedFront : Front (Pipeline Unit) :=
  { gate := (reading.gate.admitSeeded 0 transfer₁.tx (some 0) 0).1, queue := fresh }

theorem run_reading : SampleRun (start fresh 64 8 180) [{}] reading :=
  .snoc .nil (.admitReads (@Turn.admitReads _ _ _ _ account₀ transfer₁.tx 0 _ rfl rfl))

theorem step_parked : ∃ eff, SampleStep reading eff parkedFront ∧
    transfer₁.tx.hash ∈ eff.accepted := by
  refine ⟨_, @Step.resume _ _ _ _ _ _ reading [] [] ⟨account₀, 0, transfer₁.tx, none⟩ (some 0) _ _ rfl
    (@Turn.resume _ _ _ _ _ _ 0 _ rfl), ?_⟩
  decide

/-- The store has a block with the first nonce. -/
def storedFront : Front (Pipeline Unit) where
  gate := parkedFront.gate
  queue := fresh
  store := (Chain.opened.handle sampleDecoders Chain.noTrie
    (Chain.blockOf 1 (Chain.carrier 1 .committed))).1.store
  block := (convertToDomain sampleDecoders (Chain.blockOf 1 (Chain.carrier 1 .committed))).toOption
  observing := [⟨account₀, 0⟩]

/-- `Observe` has released `transfer₁`. -/
def releasedFront : Front (Pipeline Unit) :=
  { storedFront with
    gate := (storedFront.gate.observeSender 1 account₀ 0).1
    queue := enqueueReleased workQueue fresh (storedFront.gate.observeSender 1 account₀ 0).2
    observing := [] }

theorem run_released : ∃ effs, SampleRun parkedFront effs releasedFront ∧
    Kept effs transfer₁.tx.hash := by
  have hstored : SampleStep parkedFront {} storedFront :=
    @Step.insert _ _ _ _ _ _ parkedFront (Chain.blockOf 1 (Chain.carrier 1 .committed)) _
      (bytesToHash []) emptyRootHash _ [⟨account₀, 0⟩] rfl rfl rfl (by decide)
  refine ⟨_, .snoc (.snoc .nil hstored)
    (.observe rfl (@Turn.observeSender _ _ _ _ _ _ 1 _ rfl)), ?_⟩
  rw [kept_snoc, kept_snoc]
  refine ⟨⟨nofun, Set.notMem_empty _⟩, ?_⟩
  rintro (hspent | hrefused)
  · revert hspent
    decide
  · revert hrefused
    decide

/-- The transaction is found before it is released and after that. -/
theorem transactionByHash_found_released :
    lookup workQueue sampleDecoders marshalTransfer sampleSigner parkedFront parkedFront releasedFront
        transfer₁.tx.hash ≠ .ok none ∧
      lookup workQueue sampleDecoders marshalTransfer sampleSigner releasedFront releasedFront
        releasedFront transfer₁.tx.hash ≠ .ok none := by
  obtain ⟨eff, hsent, haccepted⟩ := step_parked
  obtain ⟨effs, hreleased, hkept⟩ := run_released
  refine ⟨transactionByHash_found Pipeline.finding run_reading hsent haccepted .nil .nil hreleased
      nofun nofun,
    transactionByHash_found Pipeline.finding run_reading hsent haccepted hreleased .nil .nil ?_
      nofun⟩
  rwa [List.append_nil]

/-- It is missed if it is released between the questions to the queue and to the gate. -/
theorem missed_when_released :
    lookup workQueue sampleDecoders marshalTransfer sampleSigner parkedFront releasedFront releasedFront
      transfer₁.tx.hash = .ok none := by
  rfl

end Front

end Gateway

import FabricXEvm.Gateway.NonceGateRuns
import Mathlib.Data.Set.Function

/-!
# The books of the nonce gate

A parked transaction is in two places: under its sender and nonce, and in the index by hash.
`Books` says that the two agree, and that no sender has too much parked.  Every primitive of the
gate keeps it (`Books.park`, `Books.unpark`, and `Books.same` for those that park nothing), so
every critical section does.

The machine here is freer than the one of `NonceGateRuns`: a read of the store may return any
nonce, and any block may be observed.  Of the hash it is only used that two transactions that
are sent have different hashes.
-/

open Blocks Common

namespace Gateway

namespace NonceGate

/-! ## Two places of a parked transaction -/

/-- The limits of a gate never change. -/
structure SameLimits (g g' : NonceGate) : Prop where
  maxPerSender : g'.maxPerSender = g.maxPerSender
  maxSenders : g'.maxSenders = g.maxSenders
  ttl : g'.ttl = g.ttl

theorem SameLimits.refl (g : NonceGate) : SameLimits g g := ⟨rfl, rfl, rfl⟩

theorem SameLimits.trans {g g' g'' : NonceGate} (h : SameLimits g g') (h' : SameLimits g' g'') :
    SameLimits g g'' :=
  ⟨h'.maxPerSender.trans h.maxPerSender, h'.maxSenders.trans h.maxSenders, h'.ttl.trans h.ttl⟩

variable {sent : Set EthTx} {owner : EthTx → Option Bytes} {g g' : NonceGate} {A : Bytes}
  {ref : Nat} {e : Option SenderState}

/-- Under a sender and nonce there is a transaction of that sender and nonce.  The index has the
parked transactions.  No sender is over the limit. -/
structure Books (sent : Set EthTx) (owner : EthTx → Option Bytes) (g : NonceGate) : Prop where
  wf : g.Wf
  slot : ∀ {A n p}, (g.known A).parked.lookup n = some p →
    p.tx ∈ sent ∧ owner p.tx = some A ∧ p.tx.nonce = n
  index : ∀ {h tx}, g.byHash.lookup h = some tx ↔
    tx.hash = h ∧ ∃ A n p, (g.known A).parked.lookup n = some p ∧ p.tx = tx
  cap : ∀ A, (g.known A).parked.entries.length ≤ g.maxPerSender

/-- A section that parks and unparks nothing. -/
theorem Books.same (h : Books sent owner g) (hsets : Sets g g' A e)
    (hparked : (e.getD { sender := A }).parked = (g.known A).parked)
    (hhash : g'.byHash = g.byHash) (hmax : g'.maxPerSender = g.maxPerSender) :
    Books sent owner g' := by
  have hknown : ∀ B, (g'.known B).parked = (g.known B).parked := by
    intro B
    rw [hsets.known_eq]
    split
    next hB => rw [hB, hparked]
    next => rfl
  refine ⟨hsets.wf, fun hp => ?_, ?_, fun B => ?_⟩
  · rw [hknown] at hp
    exact h.slot hp
  · intro hash tx
    simp only [hhash, hknown]
    exact h.index
  · rw [hknown, hmax]
    exact h.cap B

/-- The place of a transaction follows from its hash. -/
theorem Books.place_inj (hsent : Set.InjOn EthTx.hash sent) (h : Books sent owner g)
    {A A' : Bytes} {n n' : Nat} {p p' : ParkedTx}
    (hp : (g.known A).parked.lookup n = some p) (hp' : (g.known A').parked.lookup n' = some p')
    (hhash : p.tx.hash = p'.tx.hash) : A = A' ∧ n = n' := by
  obtain ⟨hreal, howner, hnonce⟩ := h.slot hp
  obtain ⟨hreal', howner', hnonce'⟩ := h.slot hp'
  have htx := hsent hreal hreal' hhash
  rw [htx] at howner hnonce
  exact ⟨Option.some.inj (howner.symm.trans howner'), hnonce.symm.trans hnonce'⟩

theorem length_erase_le (m : FinMap Nat ParkedTx) (n : Nat) :
    (m.erase n).entries.length ≤ m.entries.length := by
  have h := (FinMap.keys_erase_sublist m n).length_le
  simpa [AList.keys, List.keys] using h

theorem length_insert_le (m : FinMap Nat ParkedTx) (n : Nat) (p : ParkedTx) {max : Nat}
    (hle : m.entries.length ≤ max) (hroom : m.lookup n = none → m.entries.length < max) :
    (m.insert n p).entries.length ≤ max := by
  cases hlookup : m.lookup n with
  | none =>
      rw [AList.entries_insert_of_notMem (AList.lookup_eq_none.mp hlookup), List.length_cons]
      exact hroom hlookup
  | some old =>
      have hlen := (FinMap.entries_perm_of_lookup hlookup).length_eq
      rw [AList.entries_insert, List.length_cons]
      change (m.erase n).entries.length + 1 ≤ max
      rw [List.length_cons] at hlen
      omega

theorem lookup_unpark (hg : g.Wf) (hA : g.entries.lookup A = some ref) (n : Nat) (B : Bytes)
    (k : Nat) : ((g.unpark ref n).1.known B).parked.lookup k =
      if B = A ∧ k = n then none else (g.known B).parked.lookup k := by
  rw [(unpark_sets hg hA n).known_eq]
  by_cases hB : B = A
  · subst hB
    rw [if_pos rfl, Option.getD_some, FinMap.lookup_erase_if, known_of_points hA]
    simp
  · simp [hB]

theorem byHash_unpark {n : Nat} {p : ParkedTx} (hp : (g.states ref).parked.lookup n = some p)
    (hash : Bytes) : (g.unpark ref n).1.byHash.lookup hash =
      if hash = p.tx.hash then none else g.byHash.lookup hash := by
  rw [NonceGate.unpark, hp]
  exact FinMap.lookup_erase_if _ _ _

theorem lookup_park (hg : g.Wf) (hA : g.entries.lookup A = some ref) (tx : EthTx) (now : Int)
    (B : Bytes) (k : Nat) : ((g.park ref tx now).known B).parked.lookup k =
      if B = A ∧ k = tx.nonce then some ⟨tx, now⟩ else (g.known B).parked.lookup k := by
  rw [(park_sets hg hA tx now).known_eq]
  by_cases hB : B = A
  · subst hB
    rw [if_pos rfl, Option.getD_some, FinMap.lookup_insert_if, known_of_points hA]
    simp
  · simp [hB]

/-- The transaction that was parked in the place leaves the index. -/
theorem byHash_park (hA : g.entries.lookup A = some ref) (tx : EthTx) (now : Int) (hash : Bytes) :
    (g.park ref tx now).byHash.lookup hash =
      if hash = tx.hash then some tx
      else if ∃ old, (g.known A).parked.lookup tx.nonce = some old ∧ old.tx.hash = hash then none
      else g.byHash.lookup hash := by
  rw [NonceGate.park, FinMap.lookup_insert_if, known_of_points hA]
  split
  next => rfl
  next =>
    cases hold : (g.states ref).parked.lookup tx.nonce with
    | none => simp
    | some old => simp [FinMap.lookup_erase_if, eq_comm]

theorem Books.unpark (hsent : Set.InjOn EthTx.hash sent) (h : Books sent owner g)
    (hA : g.entries.lookup A = some ref) (n : Nat) : Books sent owner (g.unpark ref n).1 := by
  have hsets := unpark_sets h.wf hA n
  have hself : g.known A = g.states ref := known_of_points hA
  cases hp : (g.states ref).parked.lookup n with
  | none =>
      rw [NonceGate.unpark, hp]
      exact h
  | some p =>
      have hpA : (g.known A).parked.lookup n = some p := by rw [hself]; exact hp
      refine ⟨hsets.wf, ?_, ?_, fun B => ?_⟩
      · intro B k q hq
        rw [lookup_unpark h.wf hA] at hq
        split at hq
        next => cases hq
        next => exact h.slot hq
      · intro hash tx
        rw [byHash_unpark hp]
        simp only [lookup_unpark h.wf hA]
        constructor
        · intro hin
          split at hin
          next => cases hin
          next hne =>
            obtain ⟨hhash, B, k, q, hq, hqtx⟩ := h.index.mp hin
            refine ⟨hhash, B, k, q, ?_, hqtx⟩
            rw [if_neg]
            · exact hq
            · rintro ⟨rfl, rfl⟩
              obtain rfl := Option.some.inj (hpA.symm.trans hq)
              exact hne (by rw [hqtx, hhash])
        · rintro ⟨hhash, B, k, q, hq, hqtx⟩
          split at hq
          next => cases hq
          next hplace =>
            rw [if_neg]
            · exact h.index.mpr ⟨hhash, B, k, q, hq, hqtx⟩
            · intro heq
              refine hplace (h.place_inj hsent hq hpA ?_)
              rw [hqtx, hhash, heq]
      · have hmax : (g.unpark ref n).1.maxPerSender = g.maxPerSender := by
          rw [NonceGate.unpark, hp]
          rfl
        rw [hsets.known_eq, hmax]
        split
        next hB =>
          rw [Option.getD_some]
          have hcap := h.cap A
          rw [hself] at hcap
          exact (length_erase_le _ _).trans hcap
        next => exact h.cap B

theorem Books.park (hsent : Set.InjOn EthTx.hash sent) (h : Books sent owner g)
    (hA : g.entries.lookup A = some ref) {tx : EthTx} (htx : tx ∈ sent) (howner : owner tx = some A)
    (hroom : (g.states ref).parked.lookup tx.nonce = none →
      (g.states ref).parked.entries.length < g.maxPerSender) (now : Int) :
    Books sent owner (g.park ref tx now) := by
  have hsets := park_sets h.wf hA tx now
  -- a transaction that is parked elsewhere has another hash
  have helse : ∀ {B k q}, (g.known B).parked.lookup k = some q → ¬ (B = A ∧ k = tx.nonce) →
      q.tx.hash ≠ tx.hash := by
    intro B k q hq hplace heq
    obtain ⟨hqsent, hqowner, hqnonce⟩ := h.slot hq
    have hsame := hsent hqsent htx heq
    rw [hsame] at hqowner hqnonce
    exact hplace ⟨Option.some.inj (hqowner.symm.trans howner), hqnonce.symm⟩
  refine ⟨hsets.wf, ?_, ?_, fun B => ?_⟩
  · intro B k q hq
    rw [lookup_park h.wf hA] at hq
    split at hq
    next hplace =>
      obtain rfl := Option.some.inj hq
      exact ⟨htx, hplace.1 ▸ howner, hplace.2.symm⟩
    next => exact h.slot hq
  · intro hash tx'
    rw [byHash_park hA]
    simp only [lookup_park h.wf hA]
    constructor
    · intro hin
      split at hin
      next hhash =>
        obtain rfl := Option.some.inj hin
        exact ⟨hhash.symm, A, tx.nonce, ⟨tx, now⟩, if_pos ⟨rfl, rfl⟩, rfl⟩
      next =>
        split at hin
        next => cases hin
        next hold =>
          obtain ⟨hhash, B, k, q, hq, hqtx⟩ := h.index.mp hin
          refine ⟨hhash, B, k, q, ?_, hqtx⟩
          rw [if_neg]
          · exact hq
          · rintro ⟨rfl, rfl⟩
            exact hold ⟨q, hq, by rw [hqtx, hhash]⟩
    · rintro ⟨hhash, B, k, q, hq, hqtx⟩
      split at hq
      next =>
        obtain rfl := Option.some.inj hq
        rw [if_pos (by rw [← hhash, ← hqtx]), ← hqtx]
      next hplace =>
        rw [if_neg, if_neg]
        · exact h.index.mpr ⟨hhash, B, k, q, hq, hqtx⟩
        · rintro ⟨old, hold, holdhash⟩
          exact hplace (h.place_inj hsent hq hold (by rw [hqtx, hhash, holdhash]))
        · intro heq
          exact helse hq hplace (by rw [hqtx, hhash, heq])
  · show ((g.park ref tx now).known B).parked.entries.length ≤ g.maxPerSender
    rw [hsets.known_eq]
    split
    next =>
      have hcap := h.cap A
      rw [known_of_points hA] at hcap
      exact length_insert_le _ _ _ hcap hroom
    next => exact h.cap B

/-! ## The sections -/

theorem Books.update (h : Books sent owner g) (hA : g.entries.lookup A = some ref)
    {f : SenderState → SenderState} (hsender : (f (g.states ref)).sender = (g.states ref).sender)
    (hparked : (f (g.states ref)).parked = (g.states ref).parked) :
    Books sent owner (g.update ref f) := by
  refine h.same (update_sets h.wf hA hsender) ?_ rfl rfl
  rw [Option.getD_some, hparked, known_of_points hA]

theorem acquire_frame (g : NonceGate) (A : Bytes) :
    (g.acquire A).1.byHash = g.byHash ∧ SameLimits g (g.acquire A).1 := by
  unfold acquire
  split <;> exact ⟨rfl, rfl, rfl, rfl⟩

theorem Books.acquire (h : Books sent owner g) (A : Bytes) : Books sent owner (g.acquire A).1 :=
  h.same (acquire_sets h.wf A).1 rfl (acquire_frame g A).1 (acquire_frame g A).2.maxPerSender

theorem release_frame (g : NonceGate) (ref : Nat) :
    (g.release ref).byHash = g.byHash ∧ SameLimits g (g.release ref) := by
  unfold release
  dsimp only
  split <;> exact ⟨rfl, rfl, rfl, rfl⟩

theorem eq_empty_of_length {m : FinMap Nat ParkedTx} (h : ¬ 0 < m.entries.length) : m = ∅ := by
  apply AList.ext
  exact List.length_eq_zero_iff.mp (Nat.eq_zero_of_not_pos h)

theorem Books.release (h : Books sent owner g) (hA : g.entries.lookup A = some ref) :
    Books sent owner (g.release ref) := by
  refine h.same (release_sets h.wf hA) ?_ (release_frame g ref).1 (release_frame g ref).2.maxPerSender
  rw [known_of_points hA, unpin]
  split
  next => rfl
  next hdrop =>
    rw [not_or, not_or] at hdrop
    exact (eq_empty_of_length hdrop.2.2).symm

theorem Books.unparkAll (hsent : Set.InjOn EthTx.hash sent) (h : Books sent owner g)
    (hA : g.entries.lookup A = some ref) (nonces : List Nat) :
    Books sent owner (g.unparkAll ref nonces) := by
  induction nonces generalizing g with
  | nil => exact h
  | cons n nonces ih =>
      exact ih (h.unpark hsent hA n) ((unpark_sets h.wf hA n).points hA fun _ => rfl)

theorem Books.settle (hsent : Set.InjOn EthTx.hash sent) (h : Books sent owner g)
    (hA : g.entries.lookup A = some ref) {tx : EthTx} (htx : tx ∈ sent) (howner : owner tx = some A)
    (now : Int) : Books sent owner (g.settle ref tx now).1 := by
  have hseen : Books sent owner (g.update ref fun ss => { ss with lastSeen := now }) :=
    h.update hA rfl rfl
  unfold NonceGate.settle
  dsimp only
  split
  next => exact hseen
  split
  next => exact hseen
  split
  next => exact hseen
  next hroom =>
    have hA' : (g.update ref fun ss => { ss with lastSeen := now }).entries.lookup A = some ref := hA
    refine hseen.park hsent hA' htx howner (fun hnone => ?_) now
    rw [hnone] at hroom
    simpa using hroom

theorem settle_frame (g : NonceGate) (ref : Nat) (tx : EthTx) (now : Int) :
    (g.settle ref tx now).1.entries = g.entries ∧ SameLimits g (g.settle ref tx now).1 := by
  unfold NonceGate.settle
  dsimp only
  split
  · exact ⟨rfl, rfl, rfl, rfl⟩
  · split
    · exact ⟨rfl, rfl, rfl, rfl⟩
    · split <;> exact ⟨rfl, rfl, rfl, rfl⟩

theorem unpark_frame (g : NonceGate) (ref n : Nat) :
    (g.unpark ref n).1.entries = g.entries ∧ SameLimits g (g.unpark ref n).1 := by
  unfold NonceGate.unpark
  split <;> exact ⟨rfl, rfl, rfl, rfl⟩

theorem unparkAll_frame (g : NonceGate) (ref : Nat) (nonces : List Nat) :
    (g.unparkAll ref nonces).entries = g.entries ∧ SameLimits g (g.unparkAll ref nonces) := by
  induction nonces generalizing g with
  | nil => exact ⟨rfl, .refl g⟩
  | cons n nonces ih =>
      obtain ⟨hentries, hlimits⟩ := unpark_frame g ref n
      obtain ⟨hentries', hlimits'⟩ := ih (g.unpark ref n).1
      exact ⟨hentries'.trans hentries, hlimits.trans hlimits'⟩

/-- A critical section that keeps the books and the limits. -/
structure Keeps (sent : Set EthTx) (owner : EthTx → Option Bytes) (g g' : NonceGate) : Prop where
  books : Books sent owner g'
  limits : SameLimits g g'

/-- The end of `Admit` with its `release`. -/
theorem Books.settle_release (hsent : Set.InjOn EthTx.hash sent) (h : Books sent owner g)
    (hA : g.entries.lookup A = some ref) {tx : EthTx} (htx : tx ∈ sent) (howner : owner tx = some A)
    (now : Int) : Keeps sent owner g ((g.settle ref tx now).1.release ref) := by
  obtain ⟨hentries, hlimits⟩ := settle_frame g ref tx now
  have hA' : (g.settle ref tx now).1.entries.lookup A = some ref := by rw [hentries]; exact hA
  exact ⟨(h.settle hsent hA htx howner now).release hA', hlimits.trans (release_frame _ ref).2⟩

theorem Books.admitTx (hsent : Set.InjOn EthTx.hash sent) (h : Books sent owner g) {tx : EthTx}
    (htx : tx ∈ sent) (howner : owner tx = some A) (now : Int) :
    Keeps sent owner g (g.admitTx A tx now).1 := by
  have hacquire := h.acquire A
  have hlimits := (acquire_frame g A).2
  have hA := (acquire_sets h.wf A).2
  unfold NonceGate.admitTx
  dsimp only
  split
  next => exact ⟨hacquire, hlimits⟩
  next =>
    have hend := hacquire.settle_release hsent hA htx howner now
    exact ⟨hend.books, hlimits.trans hend.limits⟩

theorem Books.admitSeeded (hsent : Set.InjOn EthTx.hash sent) (h : Books sent owner g)
    (hA : g.entries.lookup A = some ref) {tx : EthTx} (htx : tx ∈ sent) (howner : owner tx = some A)
    (seed : Option Nat) (now : Int) : Keeps sent owner g (g.admitSeeded ref tx seed now).1 := by
  cases seed with
  | none => exact ⟨h.release hA, (release_frame g ref).2⟩
  | some seed =>
      have hraise : Books sent owner (g.update ref fun ss =>
          { ss with next := raise ss.next seed }) := h.update hA rfl rfl
      have hlimits : SameLimits g (g.update ref fun ss =>
          { ss with next := raise ss.next seed }) := ⟨rfl, rfl, rfl⟩
      have hend := hraise.settle_release hsent hA htx howner now
      exact ⟨hend.books, hlimits.trans hend.limits⟩

theorem Books.observeSender (hsent : Set.InjOn EthTx.hash sent) (h : Books sent owner g)
    (now : Int) (A : Bytes) (n : Nat) : Keeps sent owner g (g.observeSender now A n).1 := by
  obtain ⟨hsets, hA⟩ := acquire_sets h.wf A
  have hacquire := h.acquire A
  have hlimits := (acquire_frame g A).2
  unfold NonceGate.observeSender
  dsimp only
  generalize (g.acquire A).1 = g₁ at hsets hA hacquire hlimits
  generalize (g.acquire A).2 = ref at hA
  have hraise : Books sent owner (g₁.update ref fun ss =>
      { ss with next := raise ss.next (nonceAfter n), lastSeen := now }) :=
    hacquire.update hA rfl rfl
  have hlimits₂ : SameLimits g (g₁.update ref fun ss =>
      { ss with next := raise ss.next (nonceAfter n), lastSeen := now }) := hlimits.trans ⟨rfl, rfl, rfl⟩
  have hA₂ : (g₁.update ref fun ss =>
      { ss with next := raise ss.next (nonceAfter n), lastSeen := now }).entries.lookup A =
        some ref := hA
  generalize g₁.update ref (fun ss =>
    { ss with next := raise ss.next (nonceAfter n), lastSeen := now }) = g₂ at hraise hlimits₂ hA₂
  generalize (g₂.states ref).next.getD 0 = next
  have hdrop := hraise.unparkAll hsent hA₂ ((g₂.states ref).parked.keys.filter (· < next))
  obtain ⟨hentries₃, hlimits₃⟩ :=
    unparkAll_frame g₂ ref ((g₂.states ref).parked.keys.filter (· < next))
  have hA₃ : (g₂.dropSpent ref next).entries.lookup A = some ref := by
    rw [NonceGate.dropSpent, hentries₃]
    exact hA₂
  have hunpark := hdrop.unpark hsent hA₃ next
  obtain ⟨hentries₄, hlimits₄⟩ := unpark_frame (g₂.dropSpent ref next) ref next
  have hA₄ : ((g₂.dropSpent ref next).unpark ref next).1.entries.lookup A = some ref := by
    rw [hentries₄]
    exact hA₃
  exact ⟨hunpark.release hA₄,
    hlimits₂.trans (hlimits₃.trans (hlimits₄.trans (release_frame _ ref).2))⟩

/-! ## The reaper -/

/-- Nothing parked for the sender is too old. -/
def Fresh (g : NonceGate) (now : Int) (A : Bytes) : Prop :=
  ∀ n p, (g.known A).parked.lookup n = some p → now - p.parkedAt ≤ g.ttl

theorem Books.expireSender (hsent : Set.InjOn EthTx.hash sent) (h : Books sent owner g) (now : Int)
    (hA : g.entries.lookup A = some ref) :
    Keeps sent owner g (g.expireSender now ref) ∧
      (g.expireSender now ref).entries = g.entries ∧ (g.expireSender now ref).Fresh now A ∧
      ∀ B, g.Fresh now B → (g.expireSender now ref).Fresh now B := by
  have hself : g.known A = g.states ref := known_of_points hA
  unfold NonceGate.expireSender
  dsimp only
  generalize hexpired : ((g.states ref).parked.entries.filter fun e =>
    g.ttl < now - e.2.parkedAt).map Sigma.fst = expired
  have hsets := unparkAll_sets h.wf hA expired
  obtain ⟨hentries, hlimits⟩ := unparkAll_frame g ref expired
  refine ⟨⟨h.unparkAll hsent hA expired, hlimits⟩, hentries, ?_, ?_⟩
  · intro n p hp
    rw [hsets.known_eq, if_pos rfl, Option.getD_some, lookup_eraseAll] at hp
    split at hp
    next => cases hp
    next hkept =>
      rw [hlimits.ttl]
      by_contra hold
      refine hkept ?_
      rw [← hexpired]
      refine List.mem_map.mpr ⟨⟨n, p⟩, List.mem_filter.mpr ⟨AList.mem_lookup_iff.mp hp, ?_⟩, rfl⟩
      exact decide_eq_true (Int.not_le.mp hold)
  · intro B hfresh n p hp
    rw [hlimits.ttl]
    rw [hsets.known_eq] at hp
    split at hp
    next hB =>
      rw [Option.getD_some, lookup_eraseAll] at hp
      split at hp
      next => cases hp
      next =>
        refine hfresh n p ?_
        rw [hB, hself]
        exact hp
    next => exact hfresh n p hp

theorem Books.expire (hsent : Set.InjOn EthTx.hash sent) (h : Books sent owner g) (now : Int) :
    Keeps sent owner g (g.expire now) ∧ (g.expire now).entries = g.entries ∧
      ∀ A, (g.expire now).Fresh now A := by
  have hfold : ∀ (es : List (Σ _ : Bytes, Nat)) (g : NonceGate), Books sent owner g →
      (∀ e ∈ es, g.entries.lookup e.1 = some e.2) →
      Keeps sent owner g (es.foldl (fun g e => g.expireSender now e.2) g) ∧
        (es.foldl (fun g e => g.expireSender now e.2) g).entries = g.entries ∧
        (∀ B, g.Fresh now B → (es.foldl (fun g e => g.expireSender now e.2) g).Fresh now B) ∧
        ∀ e ∈ es, (es.foldl (fun g e => g.expireSender now e.2) g).Fresh now e.1 := by
    intro es
    induction es with
    | nil => exact fun g hg _ => ⟨⟨hg, .refl g⟩, rfl, fun _ h => h, nofun⟩
    | cons e es ih =>
        intro g hg hes
        obtain ⟨hone, hentries, hself, hothers⟩ := hg.expireSender hsent now (hes e List.mem_cons_self)
        obtain ⟨hrest, hentries', hfresh, hdone⟩ := ih (g.expireSender now e.2) hone.books
          fun e' he' => by rw [hentries]; exact hes e' (List.mem_cons_of_mem _ he')
        refine ⟨⟨hrest.books, hone.limits.trans hrest.limits⟩, hentries'.trans hentries,
          fun B hB => hfresh B (hothers B hB), fun e' he' => ?_⟩
        rcases List.mem_cons.mp he' with rfl | he'
        · exact hfresh _ hself
        · exact hdone e' he'
  obtain ⟨hkeeps, hentries, _, hfresh⟩ := hfold g.entries.entries g h
    fun e he => AList.mem_lookup_iff.mpr he
  refine ⟨hkeeps, hentries, fun A => ?_⟩
  cases hA : g.entries.lookup A with
  | some ref => exact hfresh ⟨A, ref⟩ (AList.mem_lookup_iff.mp hA)
  | none =>
      intro n p hp
      have hnone : (g.expire now).entry A = none := by
        rw [entry, NonceGate.expire, hentries, hA]
        rfl
      rw [known, hnone] at hp
      cases hp

theorem older_isSome {o : Option Nat} {r : Nat} (h : o.isSome ∨ g.evictable r = true) :
    (g.older o r).isSome := by
  unfold older
  split
  next =>
    cases o with
    | none => rfl
    | some o =>
        dsimp only
        split <;> rfl
  next hnot => exact h.resolve_right hnot

theorem not_evictable_of_oldest {order : List Nat} (h : g.oldest order = none) :
    ∀ r ∈ order, g.evictable r = false := by
  have hfold : ∀ (order : List Nat) (o : Option Nat),
      (o.isSome ∨ ∃ r ∈ order, g.evictable r = true) → (order.foldl g.older o).isSome := by
    intro order
    induction order with
    | nil => exact fun o ho => ho.resolve_right nofun
    | cons r order ih =>
        rintro o (ho | ⟨r', hr', hev⟩)
        · exact ih _ (.inl (older_isSome (.inl ho)))
        · rcases List.mem_cons.mp hr' with rfl | hr'
          · exact ih _ (.inl (older_isSome (.inr hev)))
          · exact ih _ (.inr ⟨r', hr', hev⟩)
  intro r hr
  by_contra hev
  have hsome := hfold order none (.inr ⟨r, hr, Bool.not_eq_false _ ▸ hev⟩)
  rw [oldest] at h
  rw [h] at hsome
  cases hsome

/-- An entry that may be evicted has nothing parked. -/
theorem Books.evict (h : Books sent owner g) (hA : g.entries.lookup A = some ref)
    (hevictable : g.evictable ref = true) :
    Books sent owner { g with entries := g.entries.erase A } := by
  have hempty : (g.known A).parked = ∅ := by
    rw [known_of_points hA]
    simp only [evictable, Bool.and_eq_true, decide_eq_true_eq] at hevictable
    exact eq_empty_of_length (by omega)
  exact h.same (erase_sets h.wf A) hempty.symm rfl rfl

/-- What the loop of the reaper leaves. -/
structure Evicted (g g' : NonceGate) : Prop where
  states : g'.states = g.states
  sub : ∀ {A ref}, g'.entries.lookup A = some ref → g.entries.lookup A = some ref
  kept : ∀ {A ref}, g.entries.lookup A = some ref → g.evictable ref = false →
    g'.entries.lookup A = some ref
  bounded : g'.entries.entries.length ≤ g'.maxSenders ∨
    ∀ {A ref}, g'.entries.lookup A = some ref → g'.evictable ref = false

theorem Books.evicts (h : Books sent owner g) (hev : Evicts g g') :
    Keeps sent owner g g' ∧ Evicted g g' := by
  induction hev with
  | done hle => exact ⟨⟨h, .refl _⟩, rfl, fun h => h, fun h _ => h, .inl hle⟩
  | stuck _ hperm hnone =>
      refine ⟨⟨h, .refl _⟩, rfl, fun h => h, fun h _ => h, .inr fun {A ref} hA => ?_⟩
      refine not_evictable_of_oldest hnone ref (hperm.mem_iff.mpr ?_)
      exact List.mem_map.mpr ⟨⟨A, ref⟩, AList.mem_lookup_iff.mp hA, rfl⟩
  | @evict g g' order ref _ hperm holdest _ ih =>
      obtain ⟨hmem, hevictable⟩ := oldest_spec holdest
      obtain ⟨⟨A, ref'⟩, he, rfl⟩ := List.mem_map.mp (hperm.mem_iff.mp hmem)
      have hA : g.entries.lookup A = some ref' := AList.mem_lookup_iff.mpr he
      simp only [h.wf.sender hA] at ih
      obtain ⟨hkeeps, hevicted⟩ := ih (h.evict hA hevictable)
      have hlimits : SameLimits g { g with entries := g.entries.erase A } := ⟨rfl, rfl, rfl⟩
      refine ⟨⟨hkeeps.books, hlimits.trans hkeeps.limits⟩, hevicted.states, fun {B r} hB => ?_,
        fun {B r} hB hr => ?_, hevicted.bounded⟩
      · have hB' := hevicted.sub hB
        rw [FinMap.lookup_erase_if] at hB'
        split at hB'
        next => cases hB'
        next => exact hB'
      · refine hevicted.kept ?_ hr
        rw [FinMap.lookup_erase_if, if_neg]
        · exact hB
        · rintro rfl
          obtain rfl := Option.some.inj (hB.symm.trans hA)
          rw [hevictable] at hr
          cases hr

/-- The loop ends: each turn drops an entry. -/
theorem exists_evicts (h : Books sent owner g) : ∃ g', Evicts g g' := by
  obtain ⟨k, hk⟩ : ∃ k, g.entries.entries.length ≤ k := ⟨_, Nat.le_refl _⟩
  induction k generalizing g with
  | zero => exact ⟨g, .done (by omega)⟩
  | succ k ih =>
      by_cases hle : g.entries.entries.length ≤ g.maxSenders
      · exact ⟨g, .done hle⟩
      cases holdest : g.oldest (g.entries.entries.map Sigma.snd) with
      | none => exact ⟨g, .stuck (by omega) (.refl _) holdest⟩
      | some ref =>
          obtain ⟨hmem, hevictable⟩ := oldest_spec holdest
          obtain ⟨⟨A, ref'⟩, he, rfl⟩ := List.mem_map.mp hmem
          have hA : g.entries.lookup A = some ref' := AList.mem_lookup_iff.mpr he
          have hlen := (FinMap.entries_perm_of_lookup hA).length_eq
          rw [List.length_cons] at hlen
          obtain ⟨g', hg'⟩ := ih (h.evict hA hevictable) (by dsimp only; omega)
          rw [← h.wf.sender hA] at hg'
          exact ⟨g', .evict (by omega) (.refl _) holdest hg'⟩

/-! ## Interleavings -/

/-- The gate and the calls of `Admit` that are off the lock. -/
structure Desk where
  gate : NonceGate
  calls : List Call := []

namespace Desk

/-- The turns of the gate, for the transactions `sent`.  Each sender of a block is a turn of its
own, in any order. -/
inductive Step (d : Decoders) (signer : Signer) (sent : Set EthTx) : Desk → Desk → Prop where
  | admitTx {s : Desk} {A tx r gate} (htx : tx ∈ sent)
      (hturn : Turn d signer s.gate (.admitTx A tx r) gate) : Step d signer sent s { s with gate }
  | admitReads {s : Desk} {c gate} (htx : c.tx ∈ sent)
      (hturn : Turn d signer s.gate (.admitReads c) gate) :
      Step d signer sent s { gate, calls := s.calls ++ [c] }
  | resume {s : Desk} {pre post c seed r gate} (hcalls : s.calls = pre ++ c :: post)
      (hturn : Turn d signer s.gate (.resume c seed r) gate) :
      Step d signer sent s { gate, calls := pre ++ post }
  | observeSender {s : Desk} {A n tx gate}
      (hturn : Turn d signer s.gate (.observeSender A n tx) gate) :
      Step d signer sent s { s with gate }
  | prune {s : Desk} {now gate} (hturn : Turn d signer s.gate (.prune now) gate) :
      Step d signer sent s { s with gate }

/-- The states that any interleaving leads to, from an empty gate. -/
inductive Reachable (d : Decoders) (signer : Signer) (sent : Set EthTx)
    (maxPerSender maxSenders : Nat) (ttl : Int) : Desk → Prop where
  | start : Reachable d signer sent maxPerSender maxSenders ttl
      { gate := { maxPerSender, maxSenders, ttl } }
  | step {s s'} (h : Reachable d signer sent maxPerSender maxSenders ttl s)
      (hstep : Step d signer sent s s') : Reachable d signer sent maxPerSender maxSenders ttl s'

variable {d : Decoders} {signer : Signer} {sent : Set EthTx} {s s' : Desk} {A : Bytes}
  {e : Option SenderState}

/-- The calls of a sender. -/
def callsOf (calls : List Call) (A : Bytes) : Nat := calls.countP (·.sender = A)

/-- An entry that `k` calls hold.  Without a next nonce it is only a reservation. -/
structure Pinned (k : Nat) (e : Option SenderState) : Prop where
  refs : (e.elim 0 SenderState.refs) = k
  unknown : ∀ {ss}, e = some ss → ss.next = none → 0 < ss.refs ∧ ∀ n, ss.parked.lookup n = none

structure Inv (d : Decoders) (signer : Signer) (sent : Set EthTx) (s : Desk) : Prop where
  books : Books sent (d.sender signer) s.gate
  pinned : ∀ A, Pinned (callsOf s.calls A) (s.gate.entry A)
  calls : ∀ c ∈ s.calls, c.tx ∈ sent ∧ d.sender signer c.tx = some c.sender ∧
    s.gate.entries.lookup c.sender = some c.ref

theorem known_refs (g : NonceGate) (A : Bytes) :
    (g.known A).refs = (g.entry A).elim 0 SenderState.refs := by
  rw [known]
  cases g.entry A <;> rfl

/-- Nothing is parked for a sender without a next nonce. -/
theorem Inv.nothing_parked (h : Inv d signer sent s) (hA : s.gate.expected A = none) (n : Nat) :
    (s.gate.known A).parked.lookup n = none := by
  rw [expected] at hA
  rw [known]
  cases hentry : s.gate.entry A with
  | none => rfl
  | some ss =>
      rw [hentry] at hA
      exact ((h.pinned A).unknown hentry hA).2 n

/-- A section on one sender. -/
theorem Inv.of_sets (h : Inv d signer sent s) (hsets : Sets s.gate s'.gate A e)
    (hbooks : Books sent (d.sender signer) s'.gate)
    (hothers : ∀ B, B ≠ A → callsOf s'.calls B = callsOf s.calls B)
    (hself : Pinned (callsOf s'.calls A) e)
    (hcalls : ∀ c ∈ s'.calls, c ∈ s.calls ∨ c.tx ∈ sent ∧ d.sender signer c.tx = some c.sender ∧
      s'.gate.entries.lookup c.sender = some c.ref)
    (hheld : ∀ c ∈ s'.calls, c.sender = A → e.isSome) : Inv d signer sent s' where
  books := hbooks
  pinned B := by
    rw [hsets.entry_eq]
    split
    next hB =>
      rw [hB]
      exact hself
    next hB =>
      rw [hothers B hB]
      exact h.pinned B
  calls c hc := by
    rcases hcalls c hc with hold | hnew
    · obtain ⟨htx, hsender, hpoints⟩ := h.calls c hold
      exact ⟨htx, hsender, hsets.points hpoints (hheld c hc)⟩
    · exact hnew

theorem Inv.admitTx (h : Inv d signer sent s) {tx : EthTx} {now : Int} {gate : NonceGate}
    {ref : Nat} {r : AdmitResult} (hcall : s.gate.admitTx A tx now = (gate, ref, some r))
    (hbooks : Books sent (d.sender signer) gate) : Inv d signer sent { s with gate } := by
  obtain ⟨ss', N, _, hsets, hsettles, _⟩ := admit_known h.books.wf hcall
  refine h.of_sets hsets hbooks (fun _ _ => rfl) ⟨?_, ?_⟩ (fun c hc => .inl hc)
    (fun _ _ _ => rfl)
  · rw [Option.elim_some, hsettles.refs, known_refs]
    exact (h.pinned A).refs
  · rintro _ ⟨⟩ hnone
    cases hsettles.next.symm.trans hnone

theorem Inv.admitReads (h : Inv d signer sent s) {tx : EthTx} {now : Int} {gate : NonceGate}
    {ref : Nat} (htx : tx ∈ sent) (hsender : d.sender signer tx = some A)
    (hcall : s.gate.admitTx A tx now = (gate, ref, none))
    (hbooks : Books sent (d.sender signer) gate) :
    Inv d signer sent { gate, calls := s.calls ++ [{ sender := A, ref := ref, tx := tx }] } := by
  obtain ⟨hexpected, hsets, hpoints⟩ := admit_unknown h.books.wf hcall
  refine h.of_sets hsets hbooks (fun B hB => ?_) ⟨?_, ?_⟩ (fun c hc => ?_) (fun _ _ _ => rfl)
  · simp [callsOf, Ne.symm hB]
  · rw [Option.elim_some, NonceGate.pinned, known_refs, (h.pinned A).refs]
    simp [callsOf]
  · rintro _ ⟨⟩ _
    exact ⟨Nat.succ_pos _, h.nothing_parked hexpected⟩
  · rcases List.mem_append.mp hc with hold | hnew
    · exact .inl hold
    · obtain rfl := List.mem_singleton.mp hnew
      exact .inr ⟨htx, hsender, hpoints⟩

theorem Inv.resume (h : Inv d signer sent s) {pre post : List Call} {c : Call}
    {seed : Option Nat} {now : Int} {gate : NonceGate} {r : Option AdmitResult}
    (hcalls : s.calls = pre ++ c :: post)
    (hcall : s.gate.admitSeeded c.ref c.tx seed now = (gate, r))
    (hbooks : Books sent (d.sender signer) gate) :
    Inv d signer sent { gate, calls := pre ++ post } := by
  have hmem := mem_of_middle hcalls
  have hcount : ∀ B, callsOf s.calls B =
      callsOf (pre ++ post) B + if c.sender = B then 1 else 0 := countP_middle hcalls
  have hothers : ∀ B, B ≠ c.sender → callsOf (pre ++ post) B = callsOf s.calls B := by
    intro B hB
    rw [hcount B, if_neg (Ne.symm hB), Nat.add_zero]
  obtain ⟨_, _, hpoints⟩ := h.calls c (by simp [hcalls])
  have hrefs : (s.gate.known c.sender).refs - 1 = callsOf (pre ++ post) c.sender := by
    rw [known_refs, (h.pinned c.sender).refs, hcount, if_pos rfl, Nat.add_sub_cancel]
  cases seed with
  | some seed =>
      obtain ⟨ss', N, _, hsets, hsettles, _⟩ := admitSeeded_sets h.books.wf hpoints hcall
      refine h.of_sets hsets hbooks hothers ⟨?_, ?_⟩ (fun c' hc' => .inl (hmem c' hc'))
        (fun _ _ _ => rfl)
      · rw [Option.elim_some, hsettles.refs]
        exact hrefs
      · rintro _ ⟨⟩ hnone
        cases hsettles.next.symm.trans hnone
  | none =>
      have hsets := release_sets h.books.wf hpoints
      rw [← known_of_points hpoints] at hsets
      obtain ⟨rfl, _⟩ := Prod.mk.inj hcall
      refine h.of_sets hsets hbooks hothers ⟨?_, ?_⟩ (fun c' hc' => .inl (hmem c' hc'))
        (fun c' hc' hsame => ?_)
      · unfold unpin
        split
        next => exact hrefs
        next hdrop =>
          rw [← hrefs]
          exact (Nat.eq_zero_of_not_pos fun hpos => hdrop (.inl hpos)).symm
      · intro ss hss hnone
        unfold unpin at hss
        split at hss
        next hkeep =>
          obtain rfl := Option.some.inj hss
          have hparked := h.nothing_parked ((known_next _ _).symm.trans hnone)
          refine ⟨?_, hparked⟩
          rcases hkeep with hpos | hknown | hlen
          · exact hpos
          · rw [show (s.gate.known c.sender).next = none from hnone] at hknown
            cases hknown
          · obtain ⟨⟨n, p⟩, hp⟩ := List.exists_mem_of_length_pos hlen
            cases (hparked n).symm.trans (AList.mem_lookup_iff.mpr hp)
        next => cases hss
      · -- another call of the sender holds the entry
        have hpos : 0 < callsOf (pre ++ post) c.sender :=
          List.countP_pos_iff.mpr ⟨c', hc', by simp [hsame]⟩
        rw [unpin, if_pos (.inl (hrefs ▸ hpos))]
        rfl

theorem Inv.observeSender (h : Inv d signer sent s) {now : Int} {n : Nat} {gate : NonceGate}
    {tx : Option EthTx} (hcall : s.gate.observeSender now A n = (gate, tx))
    (hbooks : Books sent (d.sender signer) gate) : Inv d signer sent { s with gate } := by
  obtain ⟨ss', N, _, hsets, hnext, hrefs, _⟩ := observeSender_sets h.books.wf now A n
  rw [hcall] at hsets
  refine h.of_sets hsets hbooks (fun _ _ => rfl) ⟨?_, ?_⟩ (fun c hc => .inl hc) (fun _ _ _ => rfl)
  · rw [Option.elim_some, hrefs, known_refs]
    exact (h.pinned A).refs
  · rintro _ ⟨⟩ hnone
    cases hnext.symm.trans hnone

/-- An entry that a call holds stays. -/
theorem Inv.held (h : Inv d signer sent s) {c : Call} (hc : c ∈ s.calls) :
    s.gate.entries.lookup c.sender = some c.ref ∧ 0 < (s.gate.states c.ref).refs := by
  obtain ⟨_, _, hpoints⟩ := h.calls c hc
  have hrefs := (h.pinned c.sender).refs
  rw [entry_of_points hpoints, Option.elim_some] at hrefs
  rw [hrefs]
  exact ⟨hpoints, List.countP_pos_iff.mpr ⟨c, hc, by simp⟩⟩

theorem Inv.prunes (h : Inv d signer sent s) {gate : NonceGate} (hprunes : Prunes s.gate gate)
    (hbooks : Books sent (d.sender signer) gate) : Inv d signer sent { s with gate } := by
  have hkeep : ∀ c ∈ s.calls, gate.entries.lookup c.sender = some c.ref := fun c hc =>
    hprunes.points (h.held hc).1 (h.held hc).2.ne'
  refine ⟨hbooks, fun A => ⟨?_, ?_⟩, fun c hc => ?_⟩
  · cases hA : gate.entry A with
    | none =>
        refine (List.countP_eq_zero.mpr fun c hc hsender => ?_).symm
        have hpoints := entry_of_points (hkeep c hc)
        rw [of_decide_eq_true hsender, hA] at hpoints
        cases hpoints
    | some ss' =>
        obtain ⟨ss, hss, _, hrefs, _⟩ := hprunes.entry hA
        have hold := (h.pinned A).refs
        rw [hss] at hold
        exact hrefs.trans hold
  · intro ss' hA hnone
    obtain ⟨ss, hss, hnext, hrefs, hparked⟩ := hprunes.entry hA
    obtain ⟨hpos, hempty⟩ := (h.pinned A).unknown hss (hnext ▸ hnone)
    refine ⟨hrefs ▸ hpos, fun n => ?_⟩
    cases hn : ss'.parked.lookup n with
    | none => rfl
    | some p => cases (hempty n).symm.trans (hparked hn)
  · obtain ⟨htx, hsender, _⟩ := h.calls c hc
    exact ⟨htx, hsender, hkeep c hc⟩

theorem Inv.step (hsent : Set.InjOn EthTx.hash sent) (h : Inv d signer sent s)
    (hstep : Step d signer sent s s') : Inv d signer sent s' ∧ SameLimits s.gate s'.gate := by
  cases hstep with
  | admitTx htx hturn =>
      cases hturn with | @admitTx gate A tx now ref r hsender hcall =>
      have hkeeps := h.books.admitTx hsent htx hsender now
      rw [hcall] at hkeeps
      exact ⟨h.admitTx hcall hkeeps.books, hkeeps.limits⟩
  | admitReads htx hturn =>
      cases hturn with | @admitReads gate A tx now ref hsender hcall =>
      have hkeeps := h.books.admitTx hsent htx hsender now
      rw [hcall] at hkeeps
      exact ⟨h.admitReads htx hsender hcall hkeeps.books, hkeeps.limits⟩
  | @resume pre post c seed r gate hcalls hturn =>
      cases hturn with | @resume _ _ _ now _ hcall =>
      obtain ⟨htx, hsender, hpoints⟩ := h.calls c (by simp [hcalls])
      have hkeeps := h.books.admitSeeded hsent hpoints htx hsender seed now
      rw [hcall] at hkeeps
      exact ⟨h.resume hcalls hcall hkeeps.books, hkeeps.limits⟩
  | @observeSender A n tx gate hturn =>
      cases hturn with | @observeSender _ _ _ now _ hcall =>
      have hkeeps := h.books.observeSender hsent now A n
      rw [hcall] at hkeeps
      exact ⟨h.observeSender hcall hkeeps.books, hkeeps.limits⟩
  | @prune now gate hturn =>
      cases hturn with | prune hevicts =>
      have hexpire := (h.books.expire hsent now).1
      have hkeeps := (hexpire.books.evicts hevicts).1
      exact ⟨h.prunes (prunes_of_evicts h.books.wf hevicts) hkeeps.books,
        hexpire.limits.trans hkeeps.limits⟩

variable {maxPerSender maxSenders : Nat} {ttl : Int}

theorem Reachable.inv (hsent : Set.InjOn EthTx.hash sent)
    (h : Reachable d signer sent maxPerSender maxSenders ttl s) :
    Inv d signer sent s ∧ SameLimits { maxPerSender, maxSenders, ttl } s.gate := by
  induction h with
  | start =>
      refine ⟨⟨⟨⟨nofun, nofun⟩, nofun, ?_, fun A => Nat.zero_le _⟩, fun A => ⟨rfl, nofun⟩, nofun⟩, .refl _⟩
      intro hash tx
      exact ⟨nofun, fun ⟨_, _, _, _, hp, _⟩ => nomatch hp⟩
  | step _ hstep ih =>
      obtain ⟨hinv, hlimits⟩ := ih.1.step hsent hstep
      exact ⟨hinv, ih.2.trans hlimits⟩

/-- What the reaper leaves at any time: it ends, keeps what is parked or held, and leaves
nothing old.  Without a call off the lock the cache is within its cap, or all that is left has
something parked. -/
structure Reaps (s : Desk) (maxSenders : Nat) (ttl now : Int) : Prop where
  ends : ∃ gate, Evicts (s.gate.expire now) gate
  keeps : ∀ {gate A ss}, Evicts (s.gate.expire now) gate → (s.gate.expire now).entry A = some ss →
    (0 < ss.parked.entries.length ∨ ∃ c ∈ s.calls, c.sender = A) → gate.entry A = some ss
  fresh : ∀ {gate A ss n p}, Evicts (s.gate.expire now) gate → gate.entry A = some ss →
    ss.parked.lookup n = some p → now - p.parkedAt ≤ ttl
  bounded : ∀ {gate}, Evicts (s.gate.expire now) gate → s.calls = [] →
    gate.entries.entries.length ≤ maxSenders ∨
      ∀ {A ss}, gate.entry A = some ss → 0 < ss.parked.entries.length

theorem entry_eq_some_iff {g : NonceGate} {ss : SenderState} :
    g.entry A = some ss ↔ ∃ ref, g.entries.lookup A = some ref ∧ g.states ref = ss := by
  rw [entry, Option.map_eq_some_iff]

theorem Inv.reaps (hsent : Set.InjOn EthTx.hash sent) (h : Inv d signer sent s)
    (hlimits : SameLimits { maxPerSender, maxSenders, ttl } s.gate) (now : Int) :
    Reaps s maxSenders ttl now := by
  obtain ⟨hexpire, _, hfresh⟩ := h.books.expire hsent now
  refine ⟨exists_evicts hexpire.books, ?_, ?_, ?_⟩
  · intro gate A ss hevicts hA hkeep
    obtain ⟨ref, hpoints, rfl⟩ := entry_eq_some_iff.mp hA
    obtain ⟨_, hevicted⟩ := hexpire.books.evicts hevicts
    have hstays : (s.gate.expire now).evictable ref = false := by
      rw [evictable, Bool.and_eq_false_iff, decide_eq_false_iff_not, decide_eq_false_iff_not]
      rcases hkeep with hlen | ⟨c, hc, rfl⟩
      · exact .inr hlen.ne'
      · have hexpired := h.prunes (expire_prunes h.books.wf now) hexpire.books
        obtain ⟨hheld, hpos⟩ := hexpired.held hc
        obtain rfl := Option.some.inj (hpoints.symm.trans hheld)
        exact .inl hpos.ne'
    exact entry_eq_some_iff.mpr ⟨ref, hevicted.kept hpoints hstays, by rw [hevicted.states]⟩
  · intro gate A ss n p hevicts hA hp
    obtain ⟨ref, hpoints, rfl⟩ := entry_eq_some_iff.mp hA
    obtain ⟨_, hevicted⟩ := hexpire.books.evicts hevicts
    rw [hevicted.states, ← known_of_points (hevicted.sub hpoints)] at hp
    have hage := hfresh A n p hp
    rwa [hexpire.limits.ttl, hlimits.ttl] at hage
  · intro gate hevicts hnone
    obtain ⟨hkeeps, hevicted⟩ := hexpire.books.evicts hevicts
    have hafter := h.prunes (prunes_of_evicts h.books.wf hevicts) hkeeps.books
    refine hevicted.bounded.imp (fun hle => ?_) fun hstuck A ss hA => ?_
    · rwa [hkeeps.limits.maxSenders, hexpire.limits.maxSenders, hlimits.maxSenders] at hle
    · obtain ⟨ref, hpoints, rfl⟩ := entry_eq_some_iff.mp hA
      have hrefs := (hafter.pinned A).refs
      rw [show ({ s with gate } : Desk).gate.entry A = some (gate.states ref) from hA, hnone] at hrefs
      have hstays := hstuck hpoints
      rw [evictable, Bool.and_eq_false_iff, decide_eq_false_iff_not, decide_eq_false_iff_not] at hstays
      exact Nat.pos_of_ne_zero (hstays.resolve_left fun hnot => hnot hrefs)

/-- In every interleaving the index by hash has exactly the parked transactions, no sender has
more parked than it may, and the entry of a call off the lock is still there.  The reaper keeps
what is parked or held, and leaves nothing old.  When no call is off the lock, every sender has
a next nonce, and the reaper leaves the cache within its cap unless all entries have something
parked. -/
theorem Reachable.books_kept (hsent : Set.InjOn EthTx.hash sent)
    (h : Reachable d signer sent maxPerSender maxSenders ttl s) :
    (∀ hash tx, s.gate.byHash.lookup hash = some tx ↔ tx.hash = hash ∧
      ∃ A ss n p, s.gate.entry A = some ss ∧ ss.parked.lookup n = some p ∧ p.tx = tx) ∧
    (∀ A ss, s.gate.entry A = some ss → ss.parked.entries.length ≤ maxPerSender) ∧
    (∀ c ∈ s.calls, s.gate.entries.lookup c.sender = some c.ref) ∧
    (∀ now, Reaps s maxSenders ttl now) ∧
    (s.calls = [] → ∀ A ss, s.gate.entry A = some ss → ∃ N, ss.next = some N) := by
  obtain ⟨hinv, hlimits⟩ := h.inv hsent
  refine ⟨fun hash tx => ?_, fun A ss hA => ?_, fun c hc => (hinv.held hc).1,
    hinv.reaps hsent hlimits, fun hnone A ss hA => ?_⟩
  · rw [hinv.books.index]
    refine and_congr_right fun _ => ⟨?_, ?_⟩
    · rintro ⟨A, n, p, hp, htx⟩
      cases hA : s.gate.entry A with
      | none =>
          rw [known, hA] at hp
          cases hp
      | some ss =>
          rw [known_of_entry hA] at hp
          exact ⟨A, ss, n, p, hA, hp, htx⟩
    · rintro ⟨A, ss, n, p, hA, hp, htx⟩
      rw [← known_of_entry hA] at hp
      exact ⟨A, n, p, hp, htx⟩
  · have hcap := hinv.books.cap A
    rwa [known_of_entry hA, hlimits.maxPerSender] at hcap
  · cases hnext : ss.next with
    | some N => exact ⟨N, rfl⟩
    | none =>
        have hrefs := (hinv.pinned A).refs
        have hpos := ((hinv.pinned A).unknown hA hnext).1
        rw [hA, hnone] at hrefs
        exact absurd hrefs hpos.ne'

/-- The reservation of a call that reads the nonce of its sender. -/
def oneReads : NonceGate :=
  (admitTx { maxPerSender := 4, maxSenders := 1, ttl := 100 } account₀ transfer₂.tx 0).1

/-- The call read the nonce 0, and parked its transaction, which has the nonce 2. -/
def oneParked : Desk where
  gate := (oneReads.admitSeeded 0 transfer₂.tx (some 0) 0).1

theorem oneParked_reachable :
    Reachable sampleDecoders sampleSigner {transfer₂.tx} 4 1 100 oneParked := by
  have hreads : Reachable sampleDecoders sampleSigner {transfer₂.tx} 4 1 100
      ⟨oneReads, [⟨account₀, 0, transfer₂.tx, none⟩]⟩ :=
    Reachable.start.step (.admitReads (Set.mem_singleton _) (@Turn.admitReads _ _ _ _ _ _ 0 _ rfl rfl))
  exact hreads.step (@Step.resume _ _ _ _ [] [] _ (some 0) _ _ rfl (@Turn.resume _ _ _ _ _ _ 0 _ rfl))

theorem oneParked_books :
    Reachable sampleDecoders sampleSigner {transfer₂.tx} 4 1 100 oneParked ∧
      oneParked.gate.byHash.lookup transfer₂.tx.hash = some transfer₂.tx ∧
      ∃ A ss n p, oneParked.gate.entry A = some ss ∧ ss.parked.lookup n = some p ∧
        p.tx = transfer₂.tx := by
  have hbooks := oneParked_reachable.books_kept (Set.injOn_singleton _ _)
  have hindex : oneParked.gate.byHash.lookup transfer₂.tx.hash = some transfer₂.tx := by decide
  exact ⟨oneParked_reachable, hindex, ((hbooks.1 _ _).mp hindex).2⟩

end Desk

end NonceGate

end Gateway

import FabricXEvm.Gateway.NonceGateEntries

/-!
# Runs of the nonce gate

A `World` is the gate with the calls of `Admit` that went to read the store, the store's
nonces, and the blocks that are in the store and not yet observed.  `Step` is what can
happen next: a call starts, reads or ends, a block is committed, the oldest unobserved
block is observed, the reaper runs.

`Inv` is what holds in every state reached.  For one sender, with `O` its nonce as of the
observed blocks and `C` its nonce in the store, the cached next nonce `N` is between the
two, and a transaction is parked at or below `N` only while `O < N`: a seed ran ahead of
the observed blocks, and the block that will promote the transaction is still to come.
-/

open Blocks Common

namespace Gateway

namespace NonceGate

/-! ## The machine -/

/-- A transaction passed to the queue, with the sender's next nonce at that moment. -/
structure Pass where
  sender : Bytes
  nonce : Nat
  expected : Option Nat
deriving DecidableEq, Repr

structure World where
  gate : NonceGate
  calls : List Call := []
  /-- The nonces in the store. -/
  committed : Bytes → Nat
  /-- The blocks in the store that are not yet observed. -/
  pending : List (List Domain.Transaction) := []
  /-- The nonces as of the observed blocks. -/
  observed : Bytes → Nat
  /-- What was passed to the queue. -/
  passed : List Pass := []

/-- The nonces after a block: one above the highest valid nonce in it. -/
def after (d : Decoders) (nonces : Bytes → Nat) (txs : List Domain.Transaction) (A : Bytes) : Nat :=
  match (highest d txs).lookup A with
  | none => nonces A
  | some n => nonceAfter n

/-- What the end of `Admit` passes to the queue. -/
def handed (g : NonceGate) (A : Bytes) (tx : EthTx) (result : Option AdmitResult) : List Pass :=
  if result = some .enqueue then [⟨A, tx.nonce, g.expected A⟩] else []

namespace World

/-- One sender of `Observe`. -/
def observeSender (w : World) (now : Int) (A : Bytes) (n : Nat) : World :=
  let (gate, tx) := w.gate.observeSender now A n
  { w with
    gate
    observed := Function.update w.observed A (nonceAfter n)
    passed := w.passed ++ tx.toList.map fun tx => ⟨A, tx.nonce, gate.expected A⟩ }

/-- `Observe`, over the senders of the block in some order. -/
def observe (w : World) (now : Int) (order : List (Σ _ : Bytes, Nat)) : World :=
  order.foldl (fun w e => w.observeSender now e.1 e.2) w

end World

/-- What can happen. -/
inductive Step (d : Decoders) (signer : Signer) : World → World → Prop where
  | admitTx {w : World} {A : Bytes} {tx : EthTx} {gate : NonceGate} {r : AdmitResult} :
      Turn d signer w.gate (.admitTx A tx r) gate →
      Step d signer w { w with gate, passed := w.passed ++ gate.handed A tx r }
  | admitReads {w : World} {c : Call} {gate : NonceGate} :
      Turn d signer w.gate (.admitReads c) gate →
      Step d signer w { w with gate, calls := w.calls ++ [c] }
  /-- `NonceAt`, which may fail. -/
  | read {w : World} {pre post : List Call} {c : Call} (ok : Bool) :
      w.calls = pre ++ c :: post → c.seed = none →
      Step d signer w { w with
        calls := pre ++ { c with
          seed := some (if ok then some (w.committed c.sender) else none) } :: post }
  | resume {w : World} {pre post : List Call} {c : Call} {seed : Option Nat} {gate : NonceGate}
      {r : Option AdmitResult} : w.calls = pre ++ c :: post → c.seed = some seed →
      Turn d signer w.gate (.resume c seed r) gate →
      Step d signer w { w with
        gate, calls := pre ++ post, passed := w.passed ++ gate.handed c.sender c.tx r }
  /-- A block reaches the store.  A committed nonce only grows. -/
  | commit {w : World} (txs : List Domain.Transaction) :
      (∀ A, w.committed A ≤ after d w.committed txs A) →
      Step d signer w { w with
        committed := after d w.committed txs, pending := w.pending ++ [txs] }
  | observe {w : World} {txs : List Domain.Transaction} {rest : List (List Domain.Transaction)}
      {order : List (Σ _ : Bytes, Nat)} (now : Int) : w.pending = txs :: rest →
      order.Perm (highest d txs).entries →
      Step d signer w { w.observe now order with pending := rest }
  | prune {w : World} {now : Int} {gate : NonceGate} : Turn d signer w.gate (.prune now) gate →
      Step d signer w { w with gate }

/-- The states reached by steps that `ok` allows, from an empty gate. -/
inductive Reachable (d : Decoders) (signer : Signer) (ok : World → World → Prop) : World → Prop where
  | start (maxPerSender maxSenders : Nat) (ttl : Int) (committed : Bytes → Nat) :
      Reachable d signer ok
        { gate := { maxPerSender, maxSenders, ttl }, committed, observed := committed }
  | step {w w' : World} : Reachable d signer ok w → Step d signer w w' → ok w w' →
      Reachable d signer ok w'

variable {d : Decoders} {signer : Signer} {ok : World → World → Prop}

/-! ## The blocks still to be observed -/

/-- Every block moves the nonces forwards. -/
def Grows (d : Decoders) : (Bytes → Nat) → List (List Domain.Transaction) → Prop
  | _, [] => True
  | nonces, txs :: rest => (∀ A, nonces A ≤ after d nonces txs A) ∧ Grows d (after d nonces txs) rest

theorem Grows.le {nonces : Bytes → Nat} {blocks : List (List Domain.Transaction)}
    (h : Grows d nonces blocks) (A : Bytes) : nonces A ≤ blocks.foldl (after d) nonces A := by
  induction blocks generalizing nonces with
  | nil => exact Nat.le_refl _
  | cons txs rest ih => exact (h.1 A).trans (ih h.2)

theorem Grows.snoc {nonces : Bytes → Nat} {blocks : List (List Domain.Transaction)}
    (h : Grows d nonces blocks) {txs : List Domain.Transaction}
    (hlast : ∀ A, blocks.foldl (after d) nonces A ≤
      after d (blocks.foldl (after d) nonces) txs A) :
    Grows d nonces (blocks ++ [txs]) := by
  induction blocks generalizing nonces with
  | nil => exact ⟨hlast, trivial⟩
  | cons b rest ih => exact ⟨h.1, ih h.2 hlast⟩

/-- The store is ahead of the observed blocks by those still to be observed. -/
structure Ledger (d : Decoders) (w : World) : Prop where
  committed : w.committed = w.pending.foldl (after d) w.observed
  grows : Grows d w.observed w.pending

/-- The senders of a block, in any order, and their nonces after it. -/
theorem observed_observe (w : World) (now : Int) {order : List (Σ _ : Bytes, Nat)}
    (hnodup : order.NodupKeys) (A : Bytes) : (w.observe now order).observed A =
      match order.dlookup A with
      | none => w.observed A
      | some n => nonceAfter n := by
  induction order generalizing w with
  | nil => rfl
  | cons e order ih =>
      obtain ⟨hnot, hnodup⟩ := List.nodupKeys_cons.mp hnodup
      show ((w.observeSender now e.1 e.2).observe now order).observed A = _
      rw [ih _ hnodup]
      by_cases hA : e.1 = A
      · subst hA
        rw [List.dlookup_eq_none.mpr hnot, List.dlookup_cons_eq]
        simp [World.observeSender]
      · have hne : A ≠ e.1 := fun h => hA h.symm
        rw [List.dlookup_cons_ne _ e hne]
        simp [World.observeSender, Function.update_of_ne hne]

theorem nodupKeys_order {txs : List Domain.Transaction} {order : List (Σ _ : Bytes, Nat)}
    (hperm : order.Perm (highest d txs).entries) : order.NodupKeys :=
  (List.perm_nodupKeys hperm).mpr (highest d txs).nodupKeys

theorem observed_eq_after (w : World) (now : Int) {txs : List Domain.Transaction}
    {order : List (Σ _ : Bytes, Nat)} (hperm : order.Perm (highest d txs).entries) :
    (w.observe now order).observed = after d w.observed txs := by
  funext A
  rw [observed_observe w now (nodupKeys_order hperm) A]
  have hlookup : order.dlookup A = (highest d txs).lookup A :=
    List.perm_dlookup A (nodupKeys_order hperm) hperm
  rw [hlookup]
  rfl

/-- A property of the world that one sender of a block keeps, if the block moves the
sender's nonce forwards and is in the store, is kept by `Observe`. -/
theorem observe_rule {P : World → Prop} {now : Int}
    (hstep : ∀ {w : World} {A : Bytes} {n : Nat}, P w → w.observed A ≤ nonceAfter n →
      nonceAfter n ≤ w.committed A → P (w.observeSender now A n))
    {w : World} {order : List (Σ _ : Bytes, Nat)} (hnodup : order.NodupKeys)
    (horder : ∀ e ∈ order, w.observed e.1 ≤ nonceAfter e.2 ∧ nonceAfter e.2 ≤ w.committed e.1)
    (h : P w) : P (w.observe now order) := by
  induction order generalizing w with
  | nil => exact h
  | cons e order ih =>
      obtain ⟨hnot, hnodup⟩ := List.nodupKeys_cons.mp hnodup
      obtain ⟨hobserved, hcommitted⟩ := horder e (List.mem_cons_self ..)
      refine ih hnodup (fun e' he' => ?_) (hstep h hobserved hcommitted)
      have hne : e'.1 ≠ e.1 := fun heq => hnot (heq ▸ List.mem_keys_of_mem he')
      show Function.update w.observed e.1 _ e'.1 ≤ _ ∧ _ ≤ w.committed e'.1
      rw [Function.update_of_ne hne]
      exact horder e' (List.mem_cons_of_mem _ he')

/-- The blocks of the ledger are such. -/
theorem Ledger.order_bounds {w : World} (h : Ledger d w) {txs : List Domain.Transaction}
    {rest : List (List Domain.Transaction)} (hpending : w.pending = txs :: rest)
    {order : List (Σ _ : Bytes, Nat)} (hperm : order.Perm (highest d txs).entries) :
    ∀ e ∈ order, w.observed e.1 ≤ nonceAfter e.2 ∧ nonceAfter e.2 ≤ w.committed e.1 := by
  intro e he
  have hlookup : (highest d txs).lookup e.1 = some e.2 :=
    AList.mem_lookup_iff.mpr (hperm.mem_iff.mp he)
  have hafter : after d w.observed txs e.1 = nonceAfter e.2 := by
    unfold after
    rw [hlookup]
  obtain ⟨hgrow, hrest⟩ : Grows d w.observed (txs :: rest) := hpending ▸ h.grows
  refine ⟨hafter ▸ hgrow e.1, ?_⟩
  have := hrest.le e.1
  rw [hafter] at this
  rw [h.committed, hpending]
  exact this

/-! ## The invariant -/

/-- What is known of a sender that `k` calls hold. -/
structure EntryOk (k O C : Nat) (ss : SenderState) : Prop where
  refs : ss.refs = k
  key : ∀ {n p}, ss.parked.lookup n = some p → p.tx.nonce = n
  next : ∀ {n p}, ss.parked.lookup n = some p → ∃ N, ss.next = some N
  bounds : ∀ {N}, ss.next = some N → O ≤ N ∧ N ≤ C
  parked : ∀ {N n p}, ss.next = some N → ss.parked.lookup n = some p → N < n ∨ O < N

/-- A call holds the entry, and what it read is not older than the observed blocks as long
as no next nonce is cached. -/
structure CallOk (w : World) (c : Call) : Prop where
  points : w.gate.entries.lookup c.sender = some c.ref
  seed : ∀ {s}, c.seed = some (some s) → s ≤ w.committed c.sender ∧
    (w.gate.expected c.sender = none → w.observed c.sender ≤ s)

/-- The calls of a sender. -/
def World.callsOf (w : World) (A : Bytes) : Nat := w.calls.countP (·.sender = A)

structure Inv (w : World) : Prop where
  wf : w.gate.Wf
  entries : ∀ A, EntryOk (w.callsOf A) (w.observed A) (w.committed A) (w.gate.known A)
  calls : ∀ c ∈ w.calls, CallOk w c

variable {w w' : World} {A : Bytes} {e : Option SenderState} {k O C : Nat} {ss ss' : SenderState}

theorem EntryOk.fresh (hk : k = 0) : EntryOk k O C { sender := A } where
  refs := hk.symm
  key := nofun
  next := nofun
  bounds := nofun
  parked := nofun

theorem EntryOk.settles (h : EntryOk k O C ss) {N r : Nat} {tx : EthTx} (hO : O ≤ N) (hC : N ≤ C)
    (hN : ∀ M, ss.next = some M → M ≤ N) (hs : Settles { ss with refs := r } ss' N tx) :
    EntryOk r O C ss' where
  refs := hs.refs
  key := fun hp => by
    cases hs.parked hp with
    | inl hold => exact h.key hold
    | inr hnew =>
        obtain ⟨-, hn, htx⟩ := hnew
        rw [htx, hn]
  next := fun _ => ⟨N, hs.next⟩
  bounds := fun hM => by
    obtain rfl := Option.some.inj (hs.next.symm.trans hM)
    exact ⟨hO, hC⟩
  parked := fun {M n p} hM hp => by
    obtain rfl := Option.some.inj (hs.next.symm.trans hM)
    cases hs.parked hp with
    | inl hold =>
        -- A raise from `M` to `N` leaves `O ≤ M < N`.
        obtain ⟨M, hM⟩ := h.next hold
        have hle := hN M hM
        have := (h.bounds hM).1
        have := h.parked hM hold
        omega
    | inr hnew => exact .inl hnew.1

theorem Sets.known_eq {g g' : NonceGate} (h : Sets g g' A e) (B : Bytes) :
    g'.known B = if B = A then e.getD { sender := A } else g.known B := by
  rw [known, h.entry_eq]
  split
  next hBA =>
    subst hBA
    rfl
  next => rfl

theorem Sets.expected_eq {g g' : NonceGate} (h : Sets g g' A e) (B : Bytes) :
    g'.expected B = if B = A then e.bind SenderState.next else g.expected B := by
  rw [expected, h.entry_eq]
  split <;> rfl

/-- A section on one sender keeps the invariant. -/
theorem Inv.of_sets (h : Inv w) (hsets : Sets w.gate w'.gate A e)
    (hcommitted : w'.committed = w.committed)
    (hobserved : ∀ B, B ≠ A → w'.observed B = w.observed B)
    (hcallsOf : ∀ B, B ≠ A → w'.callsOf B = w.callsOf B)
    (hself : EntryOk (w'.callsOf A) (w'.observed A) (w.committed A) (e.getD { sender := A }))
    (hcalls : ∀ c ∈ w'.calls, c ∈ w.calls ∨ CallOk w' c)
    (hheld : ∀ c ∈ w'.calls, c.sender = A → e.isSome)
    (hunknown : e.bind SenderState.next = none →
      w.gate.expected A = none ∧ w'.observed A = w.observed A) : Inv w' where
  wf := hsets.wf
  entries := fun B => by
    rw [hsets.known_eq, hcommitted]
    split
    next hBA =>
      subst hBA
      exact hself
    next hBA =>
      rw [hcallsOf B hBA, hobserved B hBA]
      exact h.entries B
  calls := fun c hc => by
    cases hcalls c hc with
    | inr hnew => exact hnew
    | inl hold =>
        have hok := h.calls c hold
        refine ⟨hsets.points hok.points (hheld c hc), fun {s} hs => ?_⟩
        obtain ⟨hle, hge⟩ := hok.seed hs
        rw [hcommitted, hsets.expected_eq]
        refine ⟨hle, fun hnone => ?_⟩
        split at hnone
        next hcA =>
          obtain ⟨hexpected, hsame⟩ := hunknown hnone
          rw [hcA, hsame, ← hcA]
          exact hge (hcA ▸ hexpected)
        next hcA =>
          rw [hobserved _ hcA]
          exact hge hnone

/-! ### The steps -/

theorem EntryOk.withRefs (h : EntryOk k O C ss) (r : Nat) :
    EntryOk r O C { ss with refs := r } :=
  ⟨rfl, h.key, h.next, h.bounds, h.parked⟩

theorem Inv.bounds (h : Inv w) {N : Nat} (hN : w.gate.expected A = some N) :
    w.observed A ≤ N ∧ N ≤ w.committed A :=
  (h.entries A).bounds ((known_next w.gate A).trans hN)

theorem Inv.admitTx (h : Inv w) {tx : EthTx} {now : Int} {gate : NonceGate} {ref : Nat}
    {r : AdmitResult} (hcall : w.gate.admitTx A tx now = (gate, ref, some r)) (passed : List Pass) :
    Inv { w with gate, passed } := by
  obtain ⟨ss', N, hN, hsets, hsettles, -⟩ := admit_known h.wf hcall
  obtain ⟨hO, hC⟩ := h.bounds hN
  have hself : EntryOk (w.gate.known A).refs (w.observed A) (w.committed A) ss' := by
    refine (h.entries A).settles hO hC (fun M hM => ?_) hsettles
    rw [known_next, hN] at hM
    exact (Option.some.inj hM).ge
  rw [(h.entries A).refs] at hself
  refine h.of_sets hsets rfl (fun _ _ => rfl) (fun _ _ => rfl) hself (fun c hc => .inl hc)
    (fun _ _ _ => rfl) (fun hnone => ?_)
  exact nomatch hsettles.next.symm.trans hnone

theorem Inv.admitReads (h : Inv w) {tx : EthTx} {now : Int} {gate : NonceGate} {ref : Nat}
    (hcall : w.gate.admitTx A tx now = (gate, ref, none)) :
    Inv { w with gate, calls := w.calls ++ [⟨A, ref, tx, none⟩] } := by
  obtain ⟨hN, hsets, hpoints⟩ := admit_unknown h.wf hcall
  refine h.of_sets hsets rfl (fun _ _ => rfl) (fun B hB => ?_) ?_ (fun c hc => ?_)
    (fun _ _ _ => rfl) (fun _ => ⟨hN, rfl⟩)
  · simp [World.callsOf, Ne.symm hB]
  · have hcount : ({ w with gate, calls := w.calls ++ [⟨A, ref, tx, none⟩] } : World).callsOf A =
        (w.gate.known A).refs + 1 := by
      rw [(h.entries A).refs]
      simp [World.callsOf]
    rw [hcount]
    exact (h.entries A).withRefs _
  · cases List.mem_append.mp hc with
    | inl hold => exact .inl hold
    | inr hnew =>
        obtain rfl := List.mem_singleton.mp hnew
        exact .inr ⟨hpoints, nofun⟩

theorem Inv.read (h : Inv w) (hle : ∀ A, w.observed A ≤ w.committed A) {pre post : List Call}
    {c : Call} (hcalls : w.calls = pre ++ c :: post) (ok : Bool) :
    Inv { w with
      calls := pre ++ { c with
        seed := some (if ok then some (w.committed c.sender) else none) } :: post } where
  wf := h.wf
  entries := fun A => by
    have := h.entries A
    simp only [World.callsOf, hcalls, List.countP_append, List.countP_cons] at this ⊢
    exact this
  calls := fun c' hc' => by
    have hmem : ∀ c' ∈ pre ++ c :: post, CallOk w c' := hcalls ▸ h.calls
    simp only [List.mem_append, List.mem_cons] at hc' hmem
    obtain hpre | rfl | hpost := hc'
    · exact ⟨(hmem c' (.inl hpre)).points, (hmem c' (.inl hpre)).seed⟩
    · refine ⟨(hmem c (.inr (.inl rfl))).points, fun {s} hs => ?_⟩
      cases ok with
      | false => exact nomatch Option.some.inj hs
      | true =>
          obtain rfl := Option.some.inj (Option.some.inj hs)
          exact ⟨Nat.le_refl _, fun _ => hle c.sender⟩
    · exact ⟨(hmem c' (.inr (.inr hpost))).points, (hmem c' (.inr (.inr hpost))).seed⟩

/-- The calls of a sender without one of them. -/
theorem countP_middle {calls pre post : List Call} {c : Call} (hcalls : calls = pre ++ c :: post)
    (A : Bytes) : calls.countP (·.sender = A) =
      (pre ++ post).countP (·.sender = A) + if c.sender = A then 1 else 0 := by
  simp only [hcalls, List.countP_append, List.countP_cons, decide_eq_true_eq]
  omega

theorem mem_of_middle {calls pre post : List Call} {c : Call} (hcalls : calls = pre ++ c :: post) :
    ∀ c' ∈ pre ++ post, c' ∈ calls := by
  intro c' hc'
  simp only [hcalls, List.mem_append, List.mem_cons] at hc' ⊢
  tauto

/-- What is expected after a seed is between the observed and the committed nonce, and not below
what was expected before. -/
theorem Inv.seed_bounds (h : Inv w) {seed N : Nat} (hC : seed ≤ w.committed A)
    (hO : w.gate.expected A = none → w.observed A ≤ seed)
    (hN : N = max ((w.gate.expected A).getD seed) seed) :
    w.observed A ≤ N ∧ N ≤ w.committed A ∧ ∀ M, (w.gate.known A).next = some M → M ≤ N := by
  rw [known_next]
  cases hE : w.gate.expected A with
  | none =>
      simp only [hE, Option.getD_none, max_self] at hN
      subst hN
      exact ⟨hO hE, hC, nofun⟩
  | some M =>
      simp only [hE, Option.getD_some] at hN
      obtain ⟨hO, hC⟩ := h.bounds hE
      refine ⟨by omega, by omega, fun M' hM' => ?_⟩
      obtain rfl := Option.some.inj hM'
      omega

theorem Inv.resume (h : Inv w) {pre post : List Call} {c : Call} {seed : Option Nat} {now : Int}
    {gate : NonceGate} {r : Option AdmitResult} (hcalls : w.calls = pre ++ c :: post)
    (hseed : c.seed = some seed) (hcall : w.gate.admitSeeded c.ref c.tx seed now = (gate, r))
    (passed : List Pass) : Inv { w with gate, calls := pre ++ post, passed } := by
  have hmem : c ∈ w.calls := by simp [hcalls]
  have hc := h.calls c hmem
  have hentry := h.entries c.sender
  have hrefs : (w.gate.known c.sender).refs - 1 =
      (pre ++ post).countP (·.sender = c.sender) := by
    rw [hentry.refs, World.callsOf, countP_middle hcalls]
    simp
  have hothers : ∀ B, B ≠ c.sender →
      ({ w with gate, calls := pre ++ post, passed } : World).callsOf B = w.callsOf B := by
    intro B hB
    rw [World.callsOf, World.callsOf, countP_middle hcalls, if_neg (Ne.symm hB), Nat.add_zero]
  have hcalls' := mem_of_middle hcalls
  cases seed with
  | some seed =>
      obtain ⟨ss', N, hN, hsets, hsettles, -⟩ := admitSeeded_sets h.wf hc.points hcall
      obtain ⟨hseedC, hseedO⟩ := hc.seed hseed
      obtain ⟨hO, hC, hM⟩ := h.seed_bounds hseedC hseedO hN
      have hself := hentry.settles hO hC hM hsettles
      rw [hrefs] at hself
      refine h.of_sets hsets rfl (fun _ _ => rfl) hothers hself (fun c' hc' => .inl (hcalls' c' hc'))
        (fun _ _ _ => rfl) (fun hnone => ?_)
      exact nomatch hsettles.next.symm.trans hnone
  | none =>
      have hsets := release_sets h.wf hc.points
      have hstate : w.gate.known c.sender = w.gate.states c.ref :=
        known_of_points hc.points
      rw [← hstate] at hsets
      obtain ⟨rfl, -⟩ := Prod.mk.inj hcall
      refine h.of_sets hsets rfl (fun _ _ => rfl) hothers ?_ (fun c' hc' => .inl (hcalls' c' hc'))
        (fun c' hc' hsender => ?_) (fun hnone => ?_)
      · show EntryOk ((pre ++ post).countP (·.sender = c.sender)) _ _ _
        unfold unpin
        split
        next => exact hrefs ▸ hentry.withRefs _
        next hdrop => exact EntryOk.fresh (by omega)
      · -- Another call of the sender holds the entry.
        have hpos : 0 < (pre ++ post).countP (·.sender = c.sender) :=
          List.countP_pos_iff.mpr ⟨c', hc', by simp [hsender]⟩
        rw [unpin, if_pos (.inl (hrefs ▸ hpos))]
        rfl
      · refine ⟨?_, rfl⟩
        rw [← known_next]
        unfold unpin at hnone
        split at hnone
        next => exact hnone
        next hdrop =>
          cases hnext : (w.gate.known c.sender).next with
          | none => rfl
          | some N => simp [hnext] at hdrop

theorem Inv.observeSender (h : Inv w) (now : Int) {n : Nat} (hle : nonceAfter n ≤ w.committed A) :
    Inv (w.observeSender now A n) := by
  obtain ⟨ss', N, hN, hsets, hnext, hrefs, hparked, -⟩ := observeSender_sets h.wf now A n
  have hentry := h.entries A
  have hbounds : nonceAfter n ≤ N ∧ N ≤ w.committed A := by
    cases hE : w.gate.expected A with
    | none =>
        simp only [hE, Option.getD_none, max_self] at hN
        omega
    | some M =>
        simp only [hE, Option.getD_some] at hN
        have := (h.bounds hE).2
        omega
  have hself : EntryOk (w.callsOf A) (nonceAfter n) (w.committed A) ss' := by
    refine ⟨hrefs.trans hentry.refs, fun hp => hentry.key (hparked hp).1, fun _ => ⟨N, hnext⟩,
      fun hM => ?_, fun hM hp => ?_⟩
    · obtain rfl := Option.some.inj (hnext.symm.trans hM)
      exact hbounds
    · obtain rfl := Option.some.inj (hnext.symm.trans hM)
      exact .inl (hparked hp).2
  rw [World.observeSender]
  rcases hcall : w.gate.observeSender now A n with ⟨gate, tx⟩
  rw [hcall] at hsets
  refine h.of_sets hsets rfl (fun B hB => Function.update_of_ne hB _ _) (fun _ _ => rfl) ?_
    (fun c hc => .inl hc) (fun _ _ _ => rfl) (fun hnone => ?_)
  · show EntryOk (w.callsOf A) (Function.update w.observed A _ A) _ ss'
    rw [Function.update_self]
    exact hself
  · exact nomatch hnext.symm.trans hnone

theorem Inv.commit (h : Inv w) {committed : Bytes → Nat} (hle : ∀ A, w.committed A ≤ committed A)
    (pending : List (List Domain.Transaction)) : Inv { w with committed, pending } where
  wf := h.wf
  entries := fun A =>
    have hentry := h.entries A
    ⟨hentry.refs, hentry.key, hentry.next,
      fun hN => ⟨(hentry.bounds hN).1, (hentry.bounds hN).2.trans (hle A)⟩, hentry.parked⟩
  calls := fun c hc =>
    have hcall := h.calls c hc
    ⟨hcall.points, fun hs => ⟨(hcall.seed hs).1.trans (hle c.sender), (hcall.seed hs).2⟩⟩

theorem Inv.prunes (h : Inv w) {gate : NonceGate} (hprunes : Prunes w.gate gate) :
    Inv { w with gate } := by
  -- An entry with a call stays.
  have hkeep : ∀ c ∈ w.calls, gate.entries.lookup c.sender = some c.ref := by
    intro c hc
    have hpoints := (h.calls c hc).points
    refine hprunes.points hpoints ?_
    have hrefs := (h.entries c.sender).refs
    rw [known_of_points hpoints] at hrefs
    have hpos : 0 < w.callsOf c.sender := List.countP_pos_iff.mpr ⟨c, hc, by simp⟩
    omega
  refine ⟨hprunes.wf, fun A => ?_, fun c hc => ⟨hkeep c hc, fun {s} hs => ?_⟩⟩
  · cases hA : gate.entry A with
    | none =>
        have hnone : w.callsOf A = 0 := by
          apply List.countP_eq_zero.mpr
          intro c hc hsender
          have hpoints := entry_of_points (hkeep c hc)
          rw [of_decide_eq_true hsender, hA] at hpoints
          exact nomatch hpoints
        have hfresh : gate.known A = { sender := A } := by
          rw [known, hA]
          rfl
        show EntryOk (w.callsOf A) _ _ (gate.known A)
        rw [hfresh]
        exact EntryOk.fresh hnone
    | some ss' =>
        obtain ⟨ss, hss, hnext, hrefs, hparked⟩ := hprunes.entry hA
        have hentry := h.entries A
        rw [known_of_entry hss] at hentry
        show EntryOk (w.callsOf A) _ _ (gate.known A)
        rw [known_of_entry hA]
        exact ⟨hrefs.trans hentry.refs, fun hp => hentry.key (hparked hp),
          fun hp => hnext ▸ hentry.next (hparked hp), fun hN => hentry.bounds (hnext ▸ hN),
          fun hN hp => hentry.parked (hnext ▸ hN) (hparked hp)⟩
  · obtain ⟨hle, hge⟩ := (h.calls c hc).seed hs
    refine ⟨hle, fun hnone => hge ?_⟩
    obtain ⟨ss, hss, hnext, -⟩ := hprunes.entry (entry_of_points (hkeep c hc))
    have hstate : (gate.states c.ref).next = none := by
      have : gate.expected c.sender = (gate.states c.ref).next := by
        rw [expected, entry_of_points (hkeep c hc)]
        rfl
      exact this.symm.trans hnone
    rw [expected, hss]
    exact hnext.symm.trans hstate

theorem prunes_of_evicts {gate gate' : NonceGate} (hg : gate.Wf) {now : Int}
    (h : Evicts (gate.expire now) gate') : Prunes gate gate' :=
  (expire_prunes hg now).trans (evicts_prunes (expire_prunes hg now).wf h)

/-! ### The runs -/

theorem observe_frame (w : World) (now : Int) (order : List (Σ _ : Bytes, Nat)) :
    (w.observe now order).committed = w.committed ∧ (w.observe now order).pending = w.pending := by
  induction order generalizing w with
  | nil => exact ⟨rfl, rfl⟩
  | cons e order ih => exact ih (w.observeSender now e.1 e.2)

theorem Ledger.step (h : Ledger d w) (hstep : Step d signer w w') : Ledger d w' := by
  cases hstep with
  | admitTx => exact ⟨h.committed, h.grows⟩
  | admitReads => exact ⟨h.committed, h.grows⟩
  | read => exact ⟨h.committed, h.grows⟩
  | resume => exact ⟨h.committed, h.grows⟩
  | prune => exact ⟨h.committed, h.grows⟩
  | commit txs hgrow =>
      constructor
      · show after d w.committed txs = (w.pending ++ [txs]).foldl (after d) w.observed
        rw [List.foldl_append, ← h.committed]
        rfl
      · rw [h.committed] at hgrow
        exact h.grows.snoc hgrow
  | @observe txs rest order now hpending hperm =>
      have hcommitted := h.committed
      have hgrows := h.grows
      rw [hpending] at hcommitted hgrows
      constructor
      · show (w.observe now order).committed = rest.foldl (after d) (w.observe now order).observed
        rw [(observe_frame w now order).1, observed_eq_after w now hperm]
        exact hcommitted
      · show Grows d (w.observe now order).observed rest
        rw [observed_eq_after w now hperm]
        exact hgrows.2

theorem Ledger.le (h : Ledger d w) (A : Bytes) : w.observed A ≤ w.committed A := by
  rw [h.committed]
  exact h.grows.le A

theorem Inv.step (h : Inv w) (hledger : Ledger d w) (hstep : Step d signer w w') : Inv w' := by
  cases hstep with
  | admitTx hturn => cases hturn with | admitTx _ hcall => exact h.admitTx hcall _
  | admitReads hturn => cases hturn with | admitReads _ hcall => exact h.admitReads hcall
  | read ok hcalls _ => exact h.read hledger.le hcalls ok
  | resume hcalls hseed hturn =>
      cases hturn with | resume hcall => exact h.resume hcalls hseed hcall _
  | commit txs hgrow => exact h.commit hgrow _
  | prune hturn => cases hturn with | prune hevicts => exact h.prunes (prunes_of_evicts h.wf hevicts)
  | @observe txs rest order now hpending hperm =>
      have hafter := observe_rule (P := Inv) (fun hw _ hle => hw.observeSender now hle)
        (nodupKeys_order hperm) (hledger.order_bounds hpending hperm) h
      exact ⟨hafter.wf, hafter.entries, fun c hc =>
        ⟨(hafter.calls c hc).points, (hafter.calls c hc).seed⟩⟩

theorem reachable_inv (h : Reachable d signer ok w) : Inv w ∧ Ledger d w := by
  induction h with
  | start =>
      exact ⟨⟨⟨nofun, nofun⟩, fun A => EntryOk.fresh rfl, nofun⟩, ⟨rfl, trivial⟩⟩
  | step _ hstep _ ih => exact ⟨ih.1.step ih.2 hstep, ih.2.step hstep⟩

/-- Once every committed block has been observed, what is parked for a sender is above the
sender's next nonce, whatever reads are going on. -/
theorem parked_above_next (h : Reachable d signer ok w) (hobserved : w.pending = [])
    (hA : w.gate.entry A = some ss) {n : Nat} {p : ParkedTx} (hp : ss.parked.lookup n = some p) :
    ∃ N, ss.next = some N ∧ N < n := by
  obtain ⟨hinv, hledger⟩ := reachable_inv h
  have hentry := hinv.entries A
  rw [known_of_entry hA] at hentry
  obtain ⟨N, hN⟩ := hentry.next hp
  have hle := (hentry.bounds hN).2
  have hsame : w.committed = w.observed := by
    rw [hledger.committed, hobserved]
    rfl
  rw [hsame] at hle
  have := hentry.parked hN hp
  exact ⟨N, hN, by omega⟩

/-! ### A run -/

/-- A call that reads the store while nothing else happens. -/
def World.admitAlone (w : World) (tx : EthTx) (A : Bytes) (now : Int) : World :=
  let (gate, ref, _) := w.gate.admitTx A tx now
  let (gate, r) := gate.admitSeeded ref tx (some (w.committed A)) now
  { w with gate, calls := [], passed := w.passed ++ gate.handed A tx r }

theorem Reachable.admitAlone (h : Reachable d signer ok w) (tx : EthTx) (A : Bytes) (now : Int)
    (hok : ∀ {w₁ w₂}, Reachable d signer ok w₁ → w₁.pending = w.pending → ok w₁ w₂)
    (hsender : d.sender signer tx = some A) (hcalls : w.calls = [])
    (hreads : (w.gate.admitTx A tx now).2.2 = none) :
    Reachable d signer ok (w.admitAlone tx A now) := by
  rcases hcall : w.gate.admitTx A tx now with ⟨gate, ref, result⟩
  rw [hcall] at hreads
  obtain rfl : result = none := hreads
  have h₁ := h.step (.admitReads (.admitReads hsender hcall)) (hok h rfl)
  have hcalls₁ : w.calls ++ [⟨A, ref, tx, none⟩] = [] ++ ⟨A, ref, tx, none⟩ :: [] := by
    simp [hcalls]
  have h₂ := h₁.step (.read true hcalls₁ rfl) (hok h₁ rfl)
  rcases hseeded : gate.admitSeeded ref tx (some (w.committed A)) now with ⟨gate', r⟩
  have h₃ := h₂.step (@Step.resume d signer _ [] [] ⟨A, ref, tx, some (some (w.committed A))⟩ _
    gate' r rfl rfl (.resume hseeded)) (hok h₂ rfl)
  have hworld : w.admitAlone tx A now =
      { w with gate := gate', calls := [], passed := w.passed ++ gate'.handed A tx r } := by
    simp only [World.admitAlone, hcall, hseeded]
  rw [hworld]
  exact h₃

/-- The oldest unobserved block is observed. -/
def World.observeFirst (w : World) (now : Int) (order : List (Σ _ : Bytes, Nat)) : World :=
  { w.observe now order with pending := w.pending.tail }

theorem Reachable.observeFirst (h : Reachable d signer ok w) (now : Int)
    (order : List (Σ _ : Bytes, Nat)) {txs : List Domain.Transaction}
    {rest : List (List Domain.Transaction)} (hpending : w.pending = txs :: rest)
    (horder : order = (highest d txs).entries) (hok : ok w (w.observeFirst now order)) :
    Reachable d signer ok (w.observeFirst now order) := by
  have hstep := @Step.observe d signer w txs rest order now hpending (.of_eq horder)
  have hworld : w.observeFirst now order = { w.observe now order with pending := rest } := by
    rw [World.observeFirst, hpending]
    rfl
  rw [hworld] at hok ⊢
  exact h.step hstep hok

/-- The nonce gate of a new chain. -/
def World.new (maxSenders : Nat) : World where
  gate := { maxPerSender := 4, maxSenders, ttl := 100 }
  committed _ := 0
  observed _ := 0

def World.commit (w : World) (txs : List Domain.Transaction) : World :=
  { w with committed := after sampleDecoders w.committed txs, pending := w.pending ++ [txs] }

/-- A call seeds the gate from a block that is not yet observed, and parks. -/
def parkedRun : World :=
  (((World.new 1).commit [minedTx transfer₀]).admitAlone transfer₂.tx account₀ 0).observeFirst 0
    [⟨account₀, 0⟩]

theorem parkedRun_reachable :
    Reachable sampleDecoders sampleSigner (fun _ _ => True) parkedRun := by
  have h₀ : Reachable sampleDecoders sampleSigner (fun _ _ => True) (World.new 1) := .start ..
  have h₁ : Reachable sampleDecoders sampleSigner (fun _ _ => True)
      ((World.new 1).commit [minedTx transfer₀]) := h₀.step (.commit _ fun _ => Nat.zero_le _) trivial
  have h₂ := h₁.admitAlone transfer₂.tx account₀ 0 (fun _ _ => trivial) rfl rfl rfl
  exact h₂.observeFirst 0 [⟨account₀, 0⟩] rfl (by decide) trivial

theorem parked_above_next_run : parkedRun.pending = [] ∧
    ∃ ss p, parkedRun.gate.entry account₀ = some ss ∧ ss.parked.lookup 2 = some p ∧
      ∃ N, ss.next = some N ∧ N < 2 := by
  have hpoints : parkedRun.gate.entries.lookup account₀ = some 0 := by decide
  have hparked : (parkedRun.gate.states 0).parked.lookup 2 = some ⟨transfer₂.tx, 0⟩ := by decide
  exact ⟨rfl, _, _, entry_of_points hpoints, hparked,
    parked_above_next parkedRun_reachable rfl (entry_of_points hpoints) hparked⟩

end NonceGate

end Gateway

import FabricXEvm.Gateway.NonceGateRuns

/-!
# The order in which the nonce gate hands transactions over

A sender's next nonce only moves forwards while its entry is cached, so what is passed to
the queue is in nonce order.  Eviction forgets how far it got.  An `Admit` can seed the
entry from blocks that are not yet observed; if the entry is then evicted, and recreated by
the first of those blocks, the next nonce is back behind what was passed
(`eviction_turns_back`).

With an entry evicted only when its next nonce is not ahead of the observed blocks, the
order holds: `passed_in_order`.
-/

open Blocks Common

namespace Gateway

namespace NonceGate

variable {d : Decoders} {signer : Signer} {ok : World → World → Prop} {w w' : World} {A : Bytes}

/-- What was passed had the sender's next nonce, and the nonces of a sender do not
decrease. -/
structure InOrder (w : World) : Prop where
  expected : ∀ p ∈ w.passed, p.expected = some p.nonce
  sorted : w.passed.Pairwise fun p q => p.sender = q.sender → p.nonce ≤ q.nonce

/-- A next nonce that is forgotten is not ahead of the observed blocks. -/
def EvictsObserved (w w' : World) : Prop :=
  ∀ A N, w.gate.expected A = some N → w'.gate.expected A = none → N ≤ w.observed A

/-- How far a sender got. -/
def World.reached (w : World) (A : Bytes) : Nat := (w.gate.expected A).getD (w.observed A)

/-- Nothing was passed that is ahead of its sender. -/
structure Ordered (w : World) : Prop where
  inOrder : InOrder w
  below : ∀ p ∈ w.passed, p.nonce ≤ w.reached p.sender

theorem Ordered.of_reached (h : Ordered w) (hpassed : w'.passed = w.passed)
    (hreached : ∀ A, w.reached A ≤ w'.reached A) : Ordered w' where
  inOrder := ⟨hpassed ▸ h.inOrder.expected, hpassed ▸ h.inOrder.sorted⟩
  below := fun p hp => (h.below p (hpassed ▸ hp)).trans (hreached p.sender)

/-- What is passed with the next nonce goes after what was passed before. -/
theorem Ordered.pass (h : Ordered w) (hreached : ∀ B, w.reached B ≤ w'.reached B) {new : List Pass}
    (hpassed : w'.passed = w.passed ++ new) (hshort : new.length ≤ 1)
    (hnew : ∀ p ∈ new, p.expected = some p.nonce ∧ w'.gate.expected p.sender = some p.nonce ∧
      w.reached p.sender ≤ p.nonce) : Ordered w' := by
  refine ⟨⟨?_, ?_⟩, ?_⟩
  · intro p hp
    rw [hpassed] at hp
    cases List.mem_append.mp hp with
    | inl hold => exact h.inOrder.expected p hold
    | inr hp => exact (hnew p hp).1
  · rw [hpassed, List.pairwise_append]
    refine ⟨h.inOrder.sorted, ?_, ?_⟩
    · match new, hshort with
      | [], _ => exact .nil
      | [p], _ => exact List.pairwise_singleton ..
    · intro p hp q hq hsender
      have := h.below p hp
      rw [hsender] at this
      exact this.trans (hnew q hq).2.2
  · intro p hp
    rw [hpassed] at hp
    cases List.mem_append.mp hp with
    | inl hold => exact (h.below p hold).trans (hreached p.sender)
    | inr hp =>
        rw [World.reached, (hnew p hp).2.1]
        exact Nat.le_refl _

/-! ## The steps -/

/-- A section on `A` that leaves it with the next nonce `N`. -/
theorem Ordered.of_sets (h : Ordered w) {ss : SenderState} {N : Nat}
    (hsets : Sets w.gate w'.gate A (some ss)) (hN : ss.next = some N)
    (hobserved : ∀ B, B ≠ A → w'.observed B = w.observed B) (hle : w.reached A ≤ N)
    {new : List Pass} (hpassed : w'.passed = w.passed ++ new) (hshort : new.length ≤ 1)
    (hnew : ∀ p ∈ new, p = ⟨A, N, some N⟩) : Ordered w' := by
  have hexpected : w'.gate.expected A = some N := by
    rw [hsets.expected_eq, if_pos rfl]
    exact hN
  refine h.pass (fun B => ?_) hpassed hshort (fun p hp => ?_)
  · by_cases hB : B = A
    · rw [hB, World.reached, World.reached, hexpected]
      exact hle
    · rw [World.reached, World.reached, hsets.expected_eq, if_neg hB, hobserved B hB]
  · obtain rfl := hnew p hp
    exact ⟨rfl, hexpected, hle⟩

theorem handed_spec {g : NonceGate} {tx : EthTx} {r : Option AdmitResult} {N : Nat}
    (hN : g.expected A = some N) (hr : r = some .enqueue → tx.nonce = N) :
    (g.handed A tx r).length ≤ 1 ∧ ∀ p ∈ g.handed A tx r, p = ⟨A, N, some N⟩ := by
  unfold handed
  split
  next henq =>
    refine ⟨Nat.le_refl _, fun p hp => ?_⟩
    rw [List.mem_singleton.mp hp, hr henq, hN]
  next => exact ⟨Nat.zero_le _, nofun⟩

theorem Sets.expected_self {g g' : NonceGate} {ss : SenderState} (h : Sets g g' A (some ss)) :
    g'.expected A = ss.next := by
  rw [h.expected_eq, if_pos rfl]
  rfl

theorem Ordered.observeSender (h : Ordered w) (hinv : Inv w) (now : Int) {n : Nat}
    (hle : w.observed A ≤ nonceAfter n) : Ordered (w.observeSender now A n) := by
  obtain ⟨ss', N, hN, hsets, hnext, -, -, htx⟩ := observeSender_sets hinv.wf now A n
  have hpassed : (w.observeSender now A n).passed =
      w.passed ++ (w.gate.observeSender now A n).2.toList.map fun tx =>
        ⟨A, tx.nonce, (w.gate.observeSender now A n).1.expected A⟩ := rfl
  refine h.of_sets hsets hnext (fun B hB => Function.update_of_ne hB _ _) ?_ hpassed ?_ ?_
  · rw [World.reached, hN]
    cases w.gate.expected A with
    | none => simpa using hle
    | some M => simp
  · rw [List.length_map]
    cases (w.gate.observeSender now A n).2 <;> simp
  · intro p hp
    obtain ⟨tx, htx', rfl⟩ := List.mem_map.mp hp
    rw [htx] at htx'
    obtain ⟨q, hq, rfl⟩ := Option.map_eq_some_iff.mp (Option.mem_toList.mp htx')
    rw [hsets.expected_self, hnext, (hinv.entries A).key hq]

theorem Ordered.resume (h : Ordered w) (hinv : Inv w) {pre post : List Call} {c : Call}
    {seed : Option Nat} {now : Int} {gate : NonceGate} {r : Option AdmitResult}
    (hcalls : w.calls = pre ++ c :: post) (hseed : c.seed = some seed)
    (hcall : w.gate.admitSeeded c.ref c.tx seed now = (gate, r)) :
    Ordered { w with
      gate, calls := pre ++ post, passed := w.passed ++ gate.handed c.sender c.tx r } := by
  have hc := hinv.calls c (by simp [hcalls])
  cases seed with
  | some seed =>
      obtain ⟨ss', N, hN, hsets, hsettles, henq⟩ := admitSeeded_sets hinv.wf hc.points hcall
      obtain ⟨hshort, hnew⟩ := handed_spec (hsets.expected_self.trans hsettles.next) henq
      refine h.of_sets hsets hsettles.next (fun _ _ => rfl) ?_ rfl hshort hnew
      rw [World.reached, hN]
      cases hE : w.gate.expected c.sender with
      | none => simpa using (hc.seed hseed).2 hE
      | some M => simp
  | none =>
      -- An entry that is dropped had no next nonce.
      obtain ⟨rfl, rfl⟩ := Prod.mk.inj hcall
      refine h.of_reached (List.append_nil _) fun B => ?_
      rw [World.reached, World.reached, (release_sets hinv.wf hc.points).expected_eq]
      split
      next hB =>
        have hstate : w.gate.expected B = (w.gate.states c.ref).next := by
          rw [hB, expected, entry_of_points hc.points]
          rfl
        rw [hstate]
        unfold unpin
        split
        next => exact Nat.le_refl _
        next hdrop =>
          cases hnext : (w.gate.states c.ref).next with
          | none => exact Nat.le_refl _
          | some N => simp [hnext] at hdrop
      next => exact Nat.le_refl _

theorem Ordered.prunes (h : Ordered w) {gate : NonceGate} (hprunes : Prunes w.gate gate)
    (hok : EvictsObserved w { w with gate }) : Ordered { w with gate } := by
  refine h.of_reached rfl fun B => ?_
  show w.reached B ≤ (gate.expected B).getD (w.observed B)
  cases hB : gate.entry B with
  | none =>
      have hgone : gate.expected B = none := by
        rw [expected, hB]
        rfl
      rw [hgone, World.reached]
      cases hN : w.gate.expected B with
      | none => exact Nat.le_refl _
      | some N => exact hok B N hN hgone
  | some ss' =>
      obtain ⟨ss, hss, hnext, -⟩ := hprunes.entry hB
      have hsame : gate.expected B = w.gate.expected B := by
        rw [expected, expected, hB, hss]
        exact hnext
      rw [hsame, World.reached]

theorem Ordered.step (h : Ordered w) (hinv : Inv w) (hledger : Ledger d w)
    (hstep : Step d signer w w') (hok : EvictsObserved w w') : Ordered w' := by
  cases hstep with
  | admitTx hturn =>
      cases hturn with | admitTx _ hcall =>
      obtain ⟨ss', N, hN, hsets, hsettles, henq⟩ := admit_known hinv.wf hcall
      obtain ⟨hshort, hnew⟩ := handed_spec (hsets.expected_self.trans hsettles.next)
        (fun hr => henq (Option.some.inj hr))
      refine h.of_sets hsets hsettles.next (fun _ _ => rfl) ?_ rfl hshort hnew
      rw [World.reached, hN]
      exact Nat.le_refl _
  | admitReads hturn =>
      cases hturn with | admitReads _ hcall =>
      obtain ⟨hN, hsets, -⟩ := admit_unknown hinv.wf hcall
      refine h.of_reached rfl fun B => ?_
      rw [World.reached, World.reached, hsets.expected_eq]
      split
      next hB =>
        have hpinned : (some (w.gate.pinned B)).bind SenderState.next = none := by
          rw [hB]
          exact (known_next w.gate _).trans hN
        rw [← hB, hpinned, hB, hN]
      next => exact Nat.le_refl _
  | read => exact h.of_reached rfl fun _ => Nat.le_refl _
  | resume hcalls hseed hturn =>
      cases hturn with | resume hcall =>
      exact h.resume hinv hcalls hseed hcall
  | commit => exact h.of_reached rfl fun _ => Nat.le_refl _
  | prune hturn =>
      cases hturn with | prune hevicts =>
      exact h.prunes (prunes_of_evicts hinv.wf hevicts) hok
  | @observe txs rest order now hpending hperm =>
      have hafter := observe_rule (P := fun w => Inv w ∧ Ordered w)
        (fun hw hO hC => ⟨hw.1.observeSender now hC, hw.2.observeSender hw.1 now hO⟩)
        (nodupKeys_order hperm) (hledger.order_bounds hpending hperm) ⟨hinv, h⟩
      exact hafter.2.of_reached rfl fun _ => Nat.le_refl _

/-- In a run that forgets no next nonce which is ahead of the observed blocks, what is
passed to the queue has its sender's next nonce, and the nonces of a sender do not
decrease. -/
theorem passed_in_order (h : Reachable d signer EvictsObserved w) : InOrder w := by
  have hordered : Ordered w := by
    induction h with
    | start => exact ⟨⟨nofun, .nil⟩, nofun⟩
    | step hw hstep hok ih =>
        obtain ⟨hinv, hledger⟩ := reachable_inv hw
        exact ih.step hinv hledger hstep hok
  exact hordered.inOrder

/-! ### Runs with an eviction -/

/-- When every block is observed, nothing that is forgotten is ahead. -/
theorem evictsObserved_of_settled (h : Reachable d signer ok w) (hpending : w.pending = []) :
    EvictsObserved w w' := by
  intro A N hN _
  obtain ⟨hinv, hledger⟩ := reachable_inv h
  have hle := (hinv.bounds hN).2
  rw [hledger.committed, hpending] at hle
  exact hle

theorem evictsObserved_of_empty (h : w.gate.entries.entries = []) : EvictsObserved w w' := by
  intro A N hN _
  have hempty : w.gate.entries = ∅ := AList.ext h
  simp [expected, entry, hempty] at hN

/-- A call that finds the next nonce. -/
def World.admitKnown (w : World) (tx : EthTx) (A : Bytes) (now : Int) : World :=
  let (gate, _, r) := w.gate.admitTx A tx now
  { w with gate, passed := w.passed ++ gate.handed A tx r }

theorem Reachable.admitKnown (h : Reachable d signer ok w) (tx : EthTx) (A : Bytes) (now : Int)
    (hok : ok w (w.admitKnown tx A now)) (hsender : d.sender signer tx = some A) {r : AdmitResult}
    (hr : (w.gate.admitTx A tx now).2.2 = some r) :
    Reachable d signer ok (w.admitKnown tx A now) := by
  rcases hcall : w.gate.admitTx A tx now with ⟨gate, ref, result⟩
  rw [hcall] at hr
  obtain rfl : result = some r := hr
  have hworld : w.admitKnown tx A now =
      { w with gate, passed := w.passed ++ gate.handed A tx (some r) } := by
    simp only [World.admitKnown, hcall]
  rw [hworld] at hok ⊢
  exact h.step (.admitTx (.admitTx hsender hcall)) hok

/-- The entry behind a pointer is evicted. -/
def World.evict (w : World) (ref : Nat) (now : Int) : World :=
  let gate := w.gate.expire now
  { w with gate := { gate with entries := gate.entries.erase (gate.states ref).sender } }

theorem Reachable.evict (h : Reachable d signer ok w) (ref : Nat) (now : Int)
    (hok : ok w (w.evict ref now))
    (hover : (w.gate.expire now).maxSenders < (w.gate.expire now).entries.entries.length)
    (holdest : (w.gate.expire now).oldest ((w.gate.expire now).entries.entries.map Sigma.snd) =
      some ref)
    (hdone : (w.evict ref now).gate.entries.entries.length ≤ (w.evict ref now).gate.maxSenders) :
    Reachable d signer ok (w.evict ref now) :=
  h.step (.prune (.prune (.evict hover (.refl _) holdest (.done hdone)))) hok

/-- The entry of a sender is evicted between its first two transactions. -/
def evictedRun : World :=
  (((((World.new 0).admitAlone transfer₀.tx account₀ 0).evict 0 1).commit
    [minedTx transfer₀]).observeFirst 2 [⟨account₀, 0⟩]).admitKnown transfer₁.tx account₀ 3

theorem evictedRun_reachable : Reachable sampleDecoders sampleSigner EvictsObserved evictedRun := by
  have h₀ : Reachable sampleDecoders sampleSigner EvictsObserved (World.new 0) := .start ..
  have h₁ := h₀.admitAlone transfer₀.tx account₀ 0
    (fun hw hpending => evictsObserved_of_settled hw hpending) rfl rfl rfl
  have h₂ := h₁.evict 0 1 (evictsObserved_of_settled h₁ rfl) (by decide) (by decide) (by decide)
  have h₃ := h₂.step (.commit [minedTx transfer₀] fun _ => Nat.zero_le _)
    (evictsObserved_of_settled h₂ rfl)
  have h₄ := h₃.observeFirst 2 [⟨account₀, 0⟩] rfl (by decide)
    (evictsObserved_of_empty (by decide))
  exact h₄.admitKnown transfer₁.tx account₀ 3 (evictsObserved_of_settled h₄ rfl) rfl rfl

theorem passed_in_order_run :
    evictedRun.passed = [⟨account₀, 0, some 0⟩, ⟨account₀, 1, some 1⟩] ∧
      InOrder evictedRun :=
  ⟨by decide, passed_in_order evictedRun_reachable⟩

theorem grows_of_entries {nonces : Bytes → Nat} {txs : List Domain.Transaction}
    (h : ∀ e ∈ (highest d txs).entries, nonces e.1 ≤ nonceAfter e.2) (A : Bytes) :
    nonces A ≤ after d nonces txs A := by
  unfold after
  cases hA : (highest d txs).lookup A with
  | none => exact Nat.le_refl _
  | some n => exact h ⟨A, n⟩ (AList.mem_lookup_iff.mp hA)

/-- Nonces 0 and 1 of a sender are committed and not yet observed when nonce 2 is passed.
The sender is evicted, and comes back with the block of nonce 0. -/
def turnedBack : World :=
  ((((((World.new 1).commit [minedTx transfer₀]).commit [minedTx transfer₁]).admitAlone transfer₂.tx
    account₀ 0).admitAlone other₀.tx account₁ 1).evict 0 2
    |>.observeFirst 3 [⟨account₀, 0⟩]).admitKnown transfer₁.tx account₀ 4

theorem eviction_turns_back :
    Reachable sampleDecoders sampleSigner (fun _ _ => True) turnedBack ∧
      turnedBack.passed = [⟨account₀, 2, some 2⟩, ⟨account₁, 0, some 0⟩,
        ⟨account₀, 1, some 1⟩] ∧ ¬ InOrder turnedBack := by
  have hpassed : turnedBack.passed = [⟨account₀, 2, some 2⟩, ⟨account₁, 0, some 0⟩,
      ⟨account₀, 1, some 1⟩] := by decide
  refine ⟨?_, hpassed, fun h => ?_⟩
  · have h₀ : Reachable sampleDecoders sampleSigner (fun _ _ => True) (World.new 1) := .start ..
    have h₁ := h₀.step (.commit [minedTx transfer₀] fun _ => Nat.zero_le _) trivial
    have h₂ := h₁.step (.commit [minedTx transfer₁] (grows_of_entries (by decide))) trivial
    have h₃ := h₂.admitAlone transfer₂.tx account₀ 0 (fun _ _ => trivial) rfl rfl rfl
    have h₄ := h₃.admitAlone other₀.tx account₁ 1 (fun _ _ => trivial) rfl rfl rfl
    have h₅ := h₄.evict 0 2 trivial (by decide) (by decide) (by decide)
    have h₆ := h₅.observeFirst 3 [⟨account₀, 0⟩] rfl (by decide) trivial
    exact h₆.admitKnown transfer₁.tx account₀ 4 trivial rfl rfl
  · have hsorted := h.sorted
    rw [hpassed] at hsorted
    exact absurd hsorted (by decide)

end NonceGate

end Gateway

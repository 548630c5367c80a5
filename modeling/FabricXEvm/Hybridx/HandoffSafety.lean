import Mathlib.Data.List.Range
import FabricXEvm.Hybridx.Handoff

/-!
# The handoff is safe

In every interleaving the two paths dispatch disjoint sets of blocks, in increasing
order, and are never inside the handlers at the same time.  Notification starts exactly
where delivery stopped, and neither of the two panics that guard the protocol is reached.

The invariant has five phases.  Delivery is not yet seeded; it is seeded and owns the
claim; notification has claimed a block and waits for the one before it; notification
has switched; or notification was interrupted while it waited.  In the last phase the
claim is orphaned.  Delivery finds its next block claimed and turns itself off, and a
later batch waits for a block nobody dispatches.
-/

open Blocks

namespace Hybridx

/-! ## How far delivery is -/

/-- Delivery has claimed the `k` blocks from `s` on. -/
inductive Progress (s k : Nat) (dispatched : Int) : Shim → Prop where
  | seeding (hk : k = 0) (hlt : s < 2 ^ 63) (hd : dispatched = minInt64) :
      Progress s k dispatched ⟨.publishSeed, s, false, true⟩
  | idle (hd : dispatched = s + k - 1) : Progress s k dispatched ⟨.idle, s + k, false, true⟩
  | claiming (hlt : s + k < 2 ^ 63) (hd : dispatched = s + k - 1) :
      Progress s k dispatched ⟨.claim, s + k, false, true⟩
  | dispatching {j} (hk : k = j + 1) (hlt : s + j < 2 ^ 63) (hd : dispatched = s + j - 1) :
      Progress s k dispatched ⟨.dispatch, s + j, false, true⟩
  | publishing {j} (hk : k = j + 1) (hlt : s + j < 2 ^ 63) (hd : dispatched = s + j - 1) :
      Progress s k dispatched ⟨.publish, s + j, false, true⟩
  | disabled {n} (hd : dispatched = s + k - 1) : Progress s k dispatched ⟨.idle, n, true, true⟩

namespace Progress

variable {s k : Nat} {dispatched : Int} {shim : Shim}

/-- Delivery never publishes a block it has not claimed. -/
theorem dispatched_lt (hp : Progress s k dispatched shim) : dispatched < s + k := by
  cases hp with
  | seeding hk hlt hd => rw [hd, minInt64]; omega
  | idle hd => omega
  | claiming _ hd => omega
  | dispatching hk _ hd => omega
  | publishing hk _ hd => omega
  | disabled hd => omega

/-- Once the last block it claimed is published, delivery is outside the handlers. -/
theorem pc_of_published (hp : Progress s k dispatched shim) (hd : dispatched = s + k - 1) :
    shim.pc = .idle ∨ shim.pc = .claim := by
  cases hp with
  | seeding hk hlt hmin => rw [hmin, minInt64] at hd; omega
  | idle => exact .inl rfl
  | claiming => exact .inr rfl
  | dispatching hk _ hd' => omega
  | publishing hk _ hd' => omega
  | disabled => exact .inl rfl

theorem pc_ne_panicked (hp : Progress s k dispatched shim) : shim.pc ≠ .panicked := by
  cases hp <;> simp

end Progress

namespace Hybrid

variable {s k : Nat} {h : Hybrid}

/-- A new `Handle` does not move the atomics. -/
theorem deliver_progress (hp : Progress s k h.dispatched h.shim) (hidle : h.shim.pc = .idle)
    (hlt : h.shim.block < 2 ^ 63) :
    ∃ shim, h.deliver = { h with shim := shim } ∧ Progress s k h.dispatched shim ∧
      shim.off = h.shim.off := by
  obtain ⟨claimed, dispatched, shim, gate, stopped, log⟩ := h
  cases hp with
  | seeding => cases hidle
  | idle hd => exact ⟨_, rfl, .claiming hlt hd, rfl⟩
  | claiming => cases hidle
  | dispatching => cases hidle
  | publishing => cases hidle
  | disabled hd => exact ⟨_, rfl, .disabled hd, rfl⟩

/-- A step of delivery when the block after its last one is claimed by notification: it
finishes what it has and turns itself off. -/
theorem deliveryStep_claimed (hp : Progress s k h.dispatched h.shim) (hc : (s + k : Int) ≤ h.claimed) :
    ∃ d shim, h.deliveryStep = { h with dispatched := d, shim := shim } ∧ Progress s k d shim ∧
      (h.dispatched = s + k - 1 → d = s + k - 1) := by
  obtain ⟨claimed, dispatched, shim, gate, stopped, log⟩ := h
  cases hp with
  | seeding hk hlt hd =>
      subst hk
      refine ⟨_, _, rfl, .claiming hlt ?_, fun h => ?_⟩
      all_goals rw [int64_of_lt hlt]; simp
  | idle hd => exact ⟨_, _, rfl, .idle hd, id⟩
  | claiming hlt hd =>
      have hne : claimed ≠ int64 (s + k) - 1 := by
        rw [int64_of_lt hlt]
        push_cast
        dsimp only at hc
        omega
      exact ⟨_, _, if_neg hne, .disabled hd, id⟩
  | dispatching hk hlt hd => exact ⟨_, _, rfl, .publishing hk hlt hd, id⟩
  | @publishing j hk hlt hd =>
      subst hk
      have hpub : (int64 (s + j) : Int) = s + (j + 1 : Nat) - 1 := by
        rw [int64_of_lt hlt]
        push_cast
        omega
      exact ⟨_, _, rfl, .idle hpub, fun _ => hpub⟩
  | disabled hd => exact ⟨_, _, rfl, .disabled hd, id⟩

/-- A step of delivery when it owns the claim: it claims its next block or moves on with
the last one. -/
theorem deliveryStep_owner (hp : Progress s k h.dispatched h.shim) (hon : h.shim.off = false)
    (hc : h.claimed = s + k - 1) :
    (∃ d shim, h.deliveryStep = { h with dispatched := d, shim := shim } ∧ Progress s k d shim ∧
      shim.off = false) ∨
    (∃ shim, h.deliveryStep =
        { h with claimed := s + k, shim := shim, log := h.log ++ [(.delivery, s + k)] } ∧
      Progress s (k + 1) h.dispatched shim ∧ shim.off = false) := by
  obtain ⟨claimed, dispatched, shim, gate, stopped, log⟩ := h
  cases hp with
  | seeding hk hlt hd =>
      subst hk
      refine .inl ⟨_, _, rfl, .claiming hlt ?_, rfl⟩
      rw [int64_of_lt hlt]
      simp
  | idle hd => exact .inl ⟨_, _, rfl, .idle hd, rfl⟩
  | claiming hlt hd =>
      have heq : claimed = int64 (s + k) - 1 := by
        rw [int64_of_lt hlt]
        push_cast
        exact hc
      refine .inr ⟨⟨.dispatch, s + k, false, true⟩, ?_, .dispatching rfl hlt hd, rfl⟩
      refine (if_pos heq).trans ?_
      simp [int64_of_lt hlt]
  | dispatching hk hlt hd => exact .inl ⟨_, _, rfl, .publishing hk hlt hd, rfl⟩
  | @publishing j hk hlt hd =>
      subst hk
      refine .inl ⟨_, _, rfl, .idle ?_, rfl⟩
      rw [int64_of_lt hlt]
      push_cast
      omega
  | disabled => cases hon

/-! ## The phases -/

/-- The log of delivery's first `k` blocks. -/
def delivered (s k : Nat) : List (Path × Nat) := (List.range' s k).map fun n => (.delivery, n)

def notified (ns : List Nat) : List (Path × Nat) := ns.map fun n => (.notification, n)

theorem delivered_succ (s k : Nat) :
    delivered s (k + 1) = delivered s k ++ [(.delivery, s + k)] := by
  simp [delivered, List.range'_concat]

/-- Notification has claimed nothing in the current call. -/
def Quiet (g : Gate) : Prop :=
  g.switched = false ∧ (g.pc = .idle ∨ g.pc = .claim ∧ ∃ batch, g.batch = some batch ∧
    batch.blockNumber < 2 ^ 63)

/-- Notification has claimed the block `c` and waits for the one before it. -/
def Waiting (g : Gate) (c : Nat) : Prop :=
  g.switched = false ∧ (g.pc = .reach ∨ g.pc = .poll) ∧
    ∃ batch, g.batch = some batch ∧ batch.blockNumber = c ∧ c < 2 ^ 63

inductive Inv (s : Nat) (h : Hybrid) : Prop where
  | unseeded (hshim : h.shim = ⟨.idle, s, false, false⟩ ∨
        h.shim = ⟨.seed, s, false, false⟩ ∧ s < 2 ^ 63)
      (hc : h.claimed = minInt64) (hd : h.dispatched = minInt64) (hgate : Quiet h.gate)
      (hlog : h.log = [])
  | delivering {k : Nat} (hp : Progress s k h.dispatched h.shim) (hon : h.shim.off = false)
      (hc : h.claimed = s + k - 1) (hgate : Quiet h.gate) (hlog : h.log = delivered s k)
  | waiting {k : Nat} (hp : Progress s k h.dispatched h.shim) (hc : h.claimed = s + k)
      (hgate : Waiting h.gate (s + k)) (hlog : h.log = delivered s k)
  | stopping {k : Nat} (hp : Progress s k h.dispatched h.shim) (hc : h.claimed = s + k)
      (hd : h.dispatched = s + k - 1) (hpc : h.gate.pc = .stop) (hoff : h.gate.switched = false)
      {batch : AllTxBatch} (hbatch : h.gate.batch = some batch) (hnum : batch.blockNumber = s + k)
      (hlog : h.log = delivered s k)
  | switched {k : Nat} {rest : List Nat} (hp : Progress s k h.dispatched h.shim) (hc : h.claimed = s + k)
      (hd : h.dispatched = s + k - 1) (hsw : h.gate.switched = true)
      (hpc : h.gate.pc = .idle ∨ h.gate.pc = .dispatch)
      (hlog : h.log = delivered s k ++ notified ((s + k) :: rest))
      (hsorted : ((s + k) :: rest).Pairwise (· < ·))
      {last : AllTxBatch} (hbatch : h.gate.batch = some last)
      (hlast : ∀ n ∈ (s + k) :: rest, n ≤ last.blockNumber)
  | orphaned {k c : Nat} (hp : Progress s k h.dispatched h.shim) (hc : h.claimed = c)
      (hge : s + k ≤ c) (hgate : Quiet h.gate ∨ s + k < c ∧ Waiting h.gate c)
      (hlog : h.log = delivered s k)

theorem Inv.start (s : Nat) : Inv s (start s) :=
  .unseeded (.inl rfl) rfl rfl ⟨rfl, .inl rfl⟩ rfl

/-! ## One step keeps the phase or moves to the next -/

theorem Inv.deliver (hinv : Inv s h) (hidle : h.shim.pc = .idle) (hlt : h.shim.block < 2 ^ 63) :
    Inv s h.deliver := by
  cases hinv with
  | unseeded hshim hc hd hgate hlog =>
      rcases hshim with hshim | ⟨hshim, _⟩
      · have hdeliver : h.deliver = { h with shim.pc := .seed } := by
          simp [Hybrid.deliver, hshim]
        rw [hdeliver]
        rw [hshim] at hlt
        exact .unseeded (.inr ⟨by simp [hshim], hlt⟩) hc hd hgate hlog
      · simp [hshim] at hidle
  | delivering hp hon hc hgate hlog =>
      obtain ⟨shim, heq, hp', hoff⟩ := deliver_progress hp hidle hlt
      rw [heq]
      exact .delivering hp' (hoff.trans hon) hc hgate hlog
  | waiting hp hc hgate hlog =>
      obtain ⟨shim, heq, hp', _⟩ := deliver_progress hp hidle hlt
      rw [heq]
      exact .waiting hp' hc hgate hlog
  | stopping hp hc hd hpc hoff hbatch hnum hlog =>
      obtain ⟨shim, heq, hp', _⟩ := deliver_progress hp hidle hlt
      rw [heq]
      exact .stopping hp' hc hd hpc hoff hbatch hnum hlog
  | switched hp hc hd hsw hpc hlog hsorted hbatch hlast =>
      obtain ⟨shim, heq, hp', _⟩ := deliver_progress hp hidle hlt
      rw [heq]
      exact .switched hp' hc hd hsw hpc hlog hsorted hbatch hlast
  | orphaned hp hc hge hgate hlog =>
      obtain ⟨shim, heq, hp', _⟩ := deliver_progress hp hidle hlt
      rw [heq]
      exact .orphaned hp' hc hge hgate hlog

theorem Inv.deliveryStep (hinv : Inv s h) : Inv s h.deliveryStep := by
  cases hinv with
  | unseeded hshim hc hd hgate hlog =>
      rcases hshim with hshim | ⟨hshim, hlt⟩
      · have hstep : h.deliveryStep = h := by simp [Hybrid.deliveryStep, hshim]
        rw [hstep]
        exact .unseeded (.inl hshim) hc hd hgate hlog
      · -- The sentinel is still there, so the seed goes in.
        have hstep : h.deliveryStep =
            { h with claimed := s - 1, shim := ⟨.publishSeed, s, false, true⟩ } := by
          simp [Hybrid.deliveryStep, hshim, hc, int64_of_lt hlt]
        rw [hstep]
        exact .delivering (k := 0) (.seeding rfl hlt hd) rfl (by simp) hgate hlog
  | delivering hp hon hc hgate hlog =>
      rcases deliveryStep_owner hp hon hc with ⟨d, shim, heq, hp', hon'⟩ | ⟨shim, heq, hp', hon'⟩
      · rw [heq]
        exact .delivering hp' hon' hc hgate hlog
      · rw [heq]
        refine .delivering hp' hon' ?_ hgate ?_
        · push_cast
          omega
        · rw [delivered_succ, ← hlog]
  | waiting hp hc hgate hlog =>
      obtain ⟨d, shim, heq, hp', _⟩ := deliveryStep_claimed hp hc.ge
      rw [heq]
      exact .waiting hp' hc hgate hlog
  | stopping hp hc hd hpc hoff hbatch hnum hlog =>
      obtain ⟨d, shim, heq, hp', hd'⟩ := deliveryStep_claimed hp hc.ge
      rw [heq]
      exact .stopping hp' hc (hd' hd) hpc hoff hbatch hnum hlog
  | switched hp hc hd hsw hpc hlog hsorted hbatch hlast =>
      obtain ⟨d, shim, heq, hp', hd'⟩ := deliveryStep_claimed hp hc.ge
      rw [heq]
      exact .switched hp' hc (hd' hd) hsw hpc hlog hsorted hbatch hlast
  | orphaned hp hc hge hgate hlog =>
      obtain ⟨d, shim, heq, hp', _⟩ := deliveryStep_claimed hp (by rw [hc]; exact_mod_cast hge)
      rw [heq]
      exact .orphaned hp' hc hge hgate hlog

theorem Quiet.receive {g : Gate} {batch : AllTxBatch} (hg : Quiet g)
    (hlt : batch.blockNumber < 2 ^ 63) :
    Quiet { g with pc := .claim, batch := some batch } :=
  ⟨hg.1, .inr ⟨rfl, batch, rfl, hlt⟩⟩

/-- Before the switch a new batch is only compared with the claim. -/
theorem receive_of_not_switched {batch : AllTxBatch} (hsw : h.gate.switched = false) :
    h.receive batch = { h with gate := { h.gate with pc := .claim, batch := some batch } } := by
  simp [Hybrid.receive, hsw]

theorem Inv.receive {batch : AllTxBatch} (hinv : Inv s h) (hidle : h.gate.pc = .idle)
    (hlt : batch.blockNumber < 2 ^ 63)
    (hnext : ∀ last, h.gate.batch = some last → last.blockNumber < batch.blockNumber) :
    Inv s (h.receive batch) := by
  cases hinv with
  | unseeded hshim hc hd hgate hlog =>
      rw [receive_of_not_switched hgate.1]
      exact .unseeded hshim hc hd (hgate.receive hlt) hlog
  | delivering hp hon hc hgate hlog =>
      rw [receive_of_not_switched hgate.1]
      exact .delivering hp hon hc (hgate.receive hlt) hlog
  | waiting hp hc hgate hlog => simp [Waiting, hidle] at hgate
  | stopping hp hc hd hpc hoff hbatch hnum hlog => simp [hidle] at hpc
  | @switched k rest hp hc hd hsw hpc hlog hsorted last hbatch hlast =>
      have hreceive : h.receive batch =
          { h with
            gate := { h.gate with pc := .dispatch, batch := some batch }
            log := h.log ++ [(.notification, batch.blockNumber)] } := by
        simp [Hybrid.receive, Hybrid.dispatchBatch, hsw]
      have hnew : ∀ n ∈ (s + k) :: rest, n < batch.blockNumber := fun n hn =>
        (hlast n hn).trans_lt (hnext last hbatch)
      have hlog' : h.log ++ [(.notification, batch.blockNumber)] =
          delivered s k ++ notified ((s + k) :: (rest ++ [batch.blockNumber])) := by
        simp [hlog, notified]
      rw [hreceive]
      refine .switched hp hc hd hsw (.inr rfl) hlog' ?_ rfl ?_
      · rw [← List.cons_append, List.pairwise_append]
        exact ⟨hsorted, List.pairwise_singleton .., by simpa using hnew⟩
      · rw [← List.cons_append]
        intro n hn
        rcases List.mem_append.mp hn with hn | hn
        · exact (hnew n hn).le
        · exact (List.mem_singleton.mp hn).le
  | orphaned hp hc hge hgate hlog =>
      rcases hgate with hgate | ⟨_, hgate⟩
      · rw [receive_of_not_switched hgate.1]
        exact .orphaned hp hc hge (.inl (hgate.receive hlt)) hlog
      · simp [Waiting, hidle] at hgate

/-- A step of a gate that has claimed nothing: it claims the block after the claim, or
drops its batch. -/
theorem gateStep_quiet (hgate : Quiet h.gate) :
    (∃ pc, h.gateStep = { h with gate.pc := pc } ∧ Quiet { h.gate with pc := pc }) ∨
    (∃ n : Nat, h.claimed = n - 1 ∧
      h.gateStep = { h with claimed := n, gate.pc := .reach } ∧
      Waiting { h.gate with pc := .reach } n) := by
  obtain ⟨claimed, dispatched, shim, ⟨pc, batch, switched⟩, stopped, log⟩ := h
  obtain ⟨hsw, hpc | ⟨hpc, b, hb, hlt⟩⟩ := hgate
  · obtain rfl : pc = .idle := hpc
    refine .inl ⟨.idle, ?_, hsw, .inl rfl⟩
    cases batch <;> rfl
  · obtain rfl : pc = .claim := hpc
    obtain rfl : batch = some b := hb
    by_cases hc : claimed = int64 b.blockNumber - 1
    · refine .inr ⟨b.blockNumber, ?_, ?_, hsw, .inl rfl, b, rfl, rfl, hlt⟩
      · rw [← int64_of_lt hlt]
        exact hc
      · refine (if_pos hc).trans ?_
        simp [int64_of_lt hlt]
    · exact .inl ⟨.idle, if_neg hc, hsw, .inl rfl⟩

/-- A step of a gate that waits: it goes on waiting unless delivery has reached the
block before its own. -/
theorem gateStep_waiting {c : Nat} (hgate : Waiting h.gate c) (hlt : h.dispatched < c) :
    h.dispatched = c - 1 ∧ h.gateStep = { h with gate.pc := .stop } ∨
    h.dispatched ≠ c - 1 ∧ h.gateStep = { h with gate.pc := .poll } ∧
      Waiting { h.gate with pc := .poll } c := by
  obtain ⟨hsw, hpc, batch, hb, hn, hc⟩ := hgate
  have hstep : h.gateStep = h.deliveryReached (int64 batch.blockNumber - 1) := by
    rcases hpc with hpc | hpc <;> simp [Hybrid.gateStep, hb, hpc]
  rw [hstep, hn, int64_of_lt hc, Hybrid.deliveryReached, if_neg (by omega)]
  by_cases hd : h.dispatched = c - 1
  · exact .inl ⟨hd, if_pos hd⟩
  · exact .inr ⟨hd, if_neg hd, hsw, .inr rfl, batch, hb, hn, hc⟩

theorem Inv.gateStep (hinv : Inv s h) : Inv s h.gateStep := by
  cases hinv with
  | unseeded hshim hc hd hgate hlog =>
      rcases gateStep_quiet hgate with ⟨pc, heq, hgate'⟩ | ⟨n, hn, _⟩
      · rw [heq]
        exact .unseeded hshim hc hd hgate' hlog
      · -- No block comes after the sentinel.
        rw [hc, minInt64] at hn
        omega
  | @delivering k hp hon hc hgate hlog =>
      rcases gateStep_quiet hgate with ⟨pc, heq, hgate'⟩ | ⟨n, hn, heq, hgate'⟩
      · rw [heq]
        exact .delivering hp hon hc hgate' hlog
      · obtain rfl : n = s + k := by omega
        rw [heq]
        exact .waiting hp (by simp) hgate' hlog
  | @waiting k hp hc hgate hlog =>
      have hlt : h.dispatched < (s + k : Nat) := by
        push_cast
        exact hp.dispatched_lt
      rcases gateStep_waiting hgate hlt with ⟨hd, heq⟩ | ⟨_, heq, hgate'⟩
      · obtain ⟨hsw, _, batch, hb, hn, _⟩ := hgate
        rw [heq]
        exact .stopping hp hc (by push_cast at hd; exact hd) rfl hsw hb hn hlog
      · rw [heq]
        exact .waiting hp hc hgate' hlog
  | @stopping k hp hc hd hpc hoff batch hbatch hnum hlog =>
      have hstep : h.gateStep =
          { h with
            deliveryStopped := true
            gate := { h.gate with pc := .dispatch, switched := true }
            log := h.log ++ [(.notification, s + k)] } := by
        simp [Hybrid.gateStep, hbatch, hpc, Hybrid.dispatchBatch, hnum]
      have hlog' : h.log ++ [(.notification, s + k)] = delivered s k ++ notified [s + k] := by
        simp [hlog, notified]
      rw [hstep]
      exact .switched hp hc hd rfl (.inr rfl) hlog' (List.pairwise_singleton ..) hbatch
        (by simp [hnum])
  | switched hp hc hd hsw hpc hlog hsorted hbatch hlast =>
      have hstep : h.gateStep = { h with gate.pc := .idle } := by
        obtain ⟨claimed, dispatched, shim, ⟨pc, batch, switched⟩, stopped, log⟩ := h
        obtain rfl : batch = _ := hbatch
        rcases hpc with hpc | hpc
        · obtain rfl : pc = .idle := hpc
          rfl
        · obtain rfl : pc = .dispatch := hpc
          rfl
      rw [hstep]
      exact .switched hp hc hd hsw (.inl rfl) hlog hsorted hbatch hlast
  | @orphaned k c hp hc hge hgate hlog =>
      rcases hgate with hgate | ⟨hlt, hgate⟩
      · rcases gateStep_quiet hgate with ⟨pc, heq, hgate'⟩ | ⟨n, hn, heq, hgate'⟩
        · rw [heq]
          exact .orphaned hp hc hge (.inl hgate') hlog
        · rw [heq]
          exact .orphaned hp rfl (by omega) (.inr ⟨by omega, hgate'⟩) hlog
      · -- Nobody dispatches the block before `c`.
        have hdisp := hp.dispatched_lt
        rcases gateStep_waiting hgate (by omega) with ⟨hd, _⟩ | ⟨_, heq, hgate'⟩
        · omega
        · rw [heq]
          exact .orphaned hp hc hge (.inr ⟨hlt, hgate'⟩) hlog

theorem Inv.interrupt (hinv : Inv s h) (hpc : h.gate.pc = .poll ∨ h.gate.pc = .dispatch) :
    Inv s h.interrupt := by
  cases hinv with
  | unseeded _ _ _ hgate _ => rcases hpc with hpc | hpc <;> simp [Quiet, hpc] at hgate
  | delivering _ _ _ hgate _ => rcases hpc with hpc | hpc <;> simp [Quiet, hpc] at hgate
  | waiting hp hc hgate hlog =>
      exact .orphaned hp (by rw [show h.interrupt.claimed = h.claimed from rfl, hc]; push_cast; rfl)
        le_rfl (.inl ⟨hgate.1, .inl rfl⟩) hlog
  | stopping _ _ _ hstop _ _ _ _ => rcases hpc with hpc | hpc <;> simp [hpc] at hstop
  | switched hp hc hd hsw _ hlog hsorted hbatch hlast =>
      exact .switched hp hc hd hsw (.inl rfl) hlog hsorted hbatch hlast
  | orphaned hp hc hge hgate hlog =>
      have hsw : h.gate.switched = false := by
        rcases hgate with hgate | ⟨_, hgate⟩ <;> exact hgate.1
      exact .orphaned hp hc hge (.inl ⟨hsw, .inl rfl⟩) hlog

theorem Inv.step {h' : Hybrid} (hinv : Inv s h) (hstep : Step h h') : Inv s h' := by
  cases hstep with
  | deliver hidle hlt => exact hinv.deliver hidle hlt
  | delivery => exact hinv.deliveryStep
  | receive batch hidle hlt hnext => exact hinv.receive hidle hlt hnext
  | notification => exact hinv.gateStep
  | interrupt hpc => exact hinv.interrupt hpc

theorem Reachable.inv (hrun : Reachable s h) : Inv s h := by
  induction hrun with
  | start => exact .start s
  | step _ hstep ih => exact ih.step hstep

/-! ## What a step does to the log -/

theorem gate_deliver (h : Hybrid) : h.deliver.gate = h.gate ∧ h.deliver.log = h.log := by
  unfold Hybrid.deliver
  split
  · exact ⟨rfl, rfl⟩
  · split <;> exact ⟨rfl, rfl⟩

theorem Inv.log_deliveryStep (hinv : Inv s h) :
    h.deliveryStep.gate = h.gate ∧
      (h.deliveryStep.log = h.log ∨
        h.gate.switched = false ∧
          ∃ k, h.log = delivered s k ∧ h.deliveryStep.log = delivered s (k + 1)) := by
  cases hinv with
  | unseeded hshim hc =>
      rcases hshim with hshim | ⟨hshim, _⟩
      · simp [Hybrid.deliveryStep, hshim]
      · simp [Hybrid.deliveryStep, hshim, hc]
  | @delivering k hp hon hc hgate hlog =>
      rcases deliveryStep_owner hp hon hc with ⟨d, shim, heq, _⟩ | ⟨shim, heq, _⟩
      · rw [heq]
        exact ⟨rfl, .inl rfl⟩
      · rw [heq]
        exact ⟨rfl, .inr ⟨hgate.1, k, hlog, by rw [delivered_succ, ← hlog]⟩⟩
  | waiting hp hc =>
      obtain ⟨d, shim, heq, _⟩ := deliveryStep_claimed hp hc.ge
      rw [heq]
      exact ⟨rfl, .inl rfl⟩
  | stopping hp hc =>
      obtain ⟨d, shim, heq, _⟩ := deliveryStep_claimed hp hc.ge
      rw [heq]
      exact ⟨rfl, .inl rfl⟩
  | switched hp hc =>
      obtain ⟨d, shim, heq, _⟩ := deliveryStep_claimed hp hc.ge
      rw [heq]
      exact ⟨rfl, .inl rfl⟩
  | orphaned hp hc hge =>
      obtain ⟨d, shim, heq, _⟩ := deliveryStep_claimed hp (by rw [hc]; exact_mod_cast hge)
      rw [heq]
      exact ⟨rfl, .inl rfl⟩

/-- A step of the gate leaves the log alone, except for the switch. -/
theorem gateStep_cases (h : Hybrid) :
    (∃ claimed pc, h.gateStep = { h with claimed := claimed, gate.pc := pc } ∧
      (h.gate.pc = .idle → pc = .idle)) ∨
    ∃ batch, h.gate.pc = .stop ∧ h.gate.batch = some batch ∧ h.gateStep =
      { h with
        deliveryStopped := true
        gate := { h.gate with pc := .dispatch, switched := true }
        log := h.log ++ [(.notification, batch.blockNumber)] } := by
  obtain ⟨claimed, dispatched, shim, ⟨pc, batch, switched⟩, stopped, log⟩ := h
  cases batch with
  | none => exact .inl ⟨_, pc, rfl, id⟩
  | some batch =>
      cases pc with
      | idle => exact .inl ⟨_, .idle, rfl, id⟩
      | claim =>
          left
          dsimp only [Hybrid.gateStep]
          split
          · exact ⟨_, .reach, rfl, nofun⟩
          · exact ⟨_, .idle, rfl, nofun⟩
      | reach =>
          left
          dsimp only [Hybrid.gateStep, Hybrid.deliveryReached]
          split_ifs <;> exact ⟨_, _, rfl, nofun⟩
      | poll =>
          left
          dsimp only [Hybrid.gateStep, Hybrid.deliveryReached]
          split_ifs <;> exact ⟨_, _, rfl, nofun⟩
      | stop => exact .inr ⟨batch, rfl, rfl, rfl⟩
      | dispatch => exact .inl ⟨_, .idle, rfl, nofun⟩
      | panicked => exact .inl ⟨_, .panicked, rfl, nofun⟩

/-- The gate is about to switch at the block after delivery's last one. -/
theorem Inv.of_stop (hinv : Inv s h) (hpc : h.gate.pc = .stop) :
    ∃ k batch, h.gate.batch = some batch ∧ batch.blockNumber = s + k ∧
      h.gate.switched = false ∧ h.log = delivered s k := by
  cases hinv with
  | unseeded _ _ _ hq _ => simp [Quiet, hpc] at hq
  | delivering _ _ _ hq _ => simp [Quiet, hpc] at hq
  | waiting _ _ hw _ => simp [Waiting, hpc] at hw
  | @stopping k _ _ _ _ hoff batch hbatch hnum hlog => exact ⟨k, batch, hbatch, hnum, hoff, hlog⟩
  | switched _ _ _ _ hsw => simp [hpc] at hsw
  | orphaned _ _ _ hq _ => simp [Quiet, Waiting, hpc] at hq

theorem Inv.switched_of_dispatch (hinv : Inv s h) (hpc : h.gate.pc = .dispatch) :
    h.gate.switched = true := by
  cases hinv with
  | unseeded _ _ _ hq _ => simp [Quiet, hpc] at hq
  | delivering _ _ _ hq _ => simp [Quiet, hpc] at hq
  | waiting _ _ hw _ => simp [Waiting, hpc] at hw
  | stopping _ _ _ hstop => simp [hpc] at hstop
  | switched _ _ _ hsw => exact hsw
  | orphaned _ _ _ hq _ => simp [Quiet, Waiting, hpc] at hq

/-- After the switch no dispatched block is above the last batch. -/
theorem Inv.le_batch (hinv : Inv s h) (hsw : h.gate.switched = true) :
    ∃ batch, h.gate.batch = some batch ∧ ∀ n ∈ h.log.map Prod.snd, n ≤ batch.blockNumber := by
  cases hinv with
  | unseeded _ _ _ hq _ => simp [Quiet, hsw] at hq
  | delivering _ _ _ hq _ => simp [Quiet, hsw] at hq
  | waiting _ _ hw _ => simp [Waiting, hsw] at hw
  | stopping _ _ _ _ hoff => simp [hsw] at hoff
  | @switched k rest _ _ _ _ _ hlog _ last hbatch hlast =>
      refine ⟨last, hbatch, fun n hn => ?_⟩
      have hnums : h.log.map Prod.snd = List.range' s k ++ (s + k) :: rest := by
        simp [hlog, delivered, notified, Function.comp_def]
      rw [hnums] at hn
      rcases List.mem_append.mp hn with hn | hn
      · have hlt := (List.mem_range'_1.mp hn).2
        have hle := hlast (s + k) (List.mem_cons_self ..)
        omega
      · exact hlast n hn
  | orphaned _ _ _ hq _ => simp [Quiet, Waiting, hsw] at hq

/-! ## Safety -/

/-- The blocks a path has dispatched, oldest first. -/
def blocksOf (path : Path) (log : List (Path × Nat)) : List Nat :=
  (log.filter fun d => d.1 = path).map Prod.snd

/-- Delivery dispatches an interval of blocks and notification goes on where it ends. -/
theorem Inv.log_eq (hinv : Inv s h) :
    ∃ k ns, h.log = delivered s k ++ notified ns ∧ ns.Pairwise (· < ·) ∧
      (ns.head? = none ∨ ns.head? = some (s + k)) := by
  cases hinv with
  | unseeded _ _ _ _ hlog => exact ⟨0, [], hlog, .nil, .inl rfl⟩
  | @delivering k _ _ _ _ hlog => exact ⟨k, [], by simpa [notified] using hlog, .nil, .inl rfl⟩
  | @waiting k _ _ _ hlog => exact ⟨k, [], by simpa [notified] using hlog, .nil, .inl rfl⟩
  | @stopping k _ _ _ _ _ _ _ _ hlog =>
      exact ⟨k, [], by simpa [notified] using hlog, .nil, .inl rfl⟩
  | @switched k rest _ _ _ _ _ hlog hsorted => exact ⟨k, _, hlog, hsorted, .inr rfl⟩
  | @orphaned k _ _ _ _ _ hlog => exact ⟨k, [], by simpa [notified] using hlog, .nil, .inl rfl⟩

theorem blocksOf_delivery (s k : Nat) (ns : List Nat) :
    blocksOf .delivery (delivered s k ++ notified ns) = List.range' s k := by
  simp [blocksOf, delivered, notified, List.filter_map, Function.comp_def]

theorem blocksOf_notification (s k : Nat) (ns : List Nat) :
    blocksOf .notification (delivered s k ++ notified ns) = ns := by
  simp [blocksOf, delivered, notified, List.filter_map, Function.comp_def]

theorem Inv.blocks_increase (hinv : Inv s h) : (h.log.map Prod.snd).Pairwise (· < ·) := by
  obtain ⟨k, ns, hlog, hsorted, hhead⟩ := hinv.log_eq
  have hnums : h.log.map Prod.snd = List.range' s k ++ ns := by
    simp [hlog, delivered, notified, Function.comp_def]
  rw [hnums, List.pairwise_append]
  refine ⟨List.pairwise_lt_range', hsorted, fun m hm n hn => ?_⟩
  -- Every block of notification is at least its first one, which is `s + k`.
  have hle : s + k ≤ n := by
    cases ns with
    | nil => cases hn
    | cons first rest =>
        obtain rfl : first = s + k := by simpa using hhead
        rcases List.mem_cons.mp hn with rfl | hn
        · exact le_rfl
        · exact (List.rel_of_pairwise_cons hsorted hn).le
  have hlt := (List.mem_range'_1.mp hm).2
  omega

theorem Inv.not_overlapping (hinv : Inv s h) :
    ¬ (h.shim.pc = .dispatch ∧ h.gate.pc = .dispatch) := by
  rintro ⟨hshim, hgate⟩
  cases hinv with
  | unseeded _ _ _ hq _ => simp [Quiet, hgate] at hq
  | delivering _ _ _ hq _ => simp [Quiet, hgate] at hq
  | waiting _ _ hw _ => simp [Waiting, hgate] at hw
  | stopping _ _ _ hpc => simp [hgate] at hpc
  | switched hp _ hd =>
      rcases hp.pc_of_published hd with hpc | hpc <;> simp [hshim] at hpc
  | orphaned _ _ _ hq _ => simp [Quiet, Waiting, hgate] at hq

theorem Inv.not_panicked (hinv : Inv s h) :
    h.shim.pc ≠ .panicked ∧ h.gate.pc ≠ .panicked := by
  cases hinv with
  | unseeded hshim _ _ hq _ =>
      refine ⟨?_, fun hpc => by simp [Quiet, hpc] at hq⟩
      rcases hshim with hshim | ⟨hshim, _⟩ <;> simp [hshim]
  | delivering hp _ _ hq _ => exact ⟨hp.pc_ne_panicked, fun hpc => by simp [Quiet, hpc] at hq⟩
  | waiting hp _ hw _ => exact ⟨hp.pc_ne_panicked, fun hpc => by simp [Waiting, hpc] at hw⟩
  | stopping hp _ _ hstop => exact ⟨hp.pc_ne_panicked, fun hpc => by simp [hpc] at hstop⟩
  | switched hp _ _ _ hsw => exact ⟨hp.pc_ne_panicked, fun hpc => by simp [hpc] at hsw⟩
  | orphaned hp _ _ hq _ =>
      exact ⟨hp.pc_ne_panicked, fun hpc => by simp [Quiet, Waiting, hpc] at hq⟩

/-- The handoff is safe in every interleaving: no block is dispatched by both paths, the
blocks increase, the paths do not overlap, notification's first block is delivery's next
one, and neither goroutine panics. -/
theorem handoff_safe (hrun : Reachable s h) :
    (∀ n, ¬ ((.delivery, n) ∈ h.log ∧ (.notification, n) ∈ h.log)) ∧
      (h.log.map Prod.snd).Pairwise (· < ·) ∧
      ¬ (h.shim.pc = .dispatch ∧ h.gate.pc = .dispatch) ∧
      (∀ n, (blocksOf .notification h.log).head? = some n →
        blocksOf .delivery h.log = [] ∧ n = s ∨
          ∃ last, (blocksOf .delivery h.log).getLast? = some last ∧ n = last + 1) ∧
      h.shim.pc ≠ .panicked ∧ h.gate.pc ≠ .panicked := by
  have hinv := hrun.inv
  refine ⟨?_, hinv.blocks_increase, hinv.not_overlapping, ?_, hinv.not_panicked⟩
  · rintro n ⟨hd, hn⟩
    -- Both entries have the number `n`, but the numbers are all different.
    have hnodup : (h.log.map Prod.snd).Nodup := hinv.blocks_increase.imp Nat.ne_of_lt
    have heq := List.inj_on_of_nodup_map hnodup hd hn rfl
    simp at heq
  · intro n hn
    obtain ⟨k, ns, hlog, _, hhead⟩ := hinv.log_eq
    rw [hlog, blocksOf_notification] at hn
    rw [hlog, blocksOf_delivery]
    obtain rfl : n = s + k := by
      rcases hhead with hhead | hhead <;> rw [hhead] at hn
      · cases hn
      · exact (Option.some.inj hn).symm
    cases k with
    | zero => exact .inl ⟨rfl, rfl⟩
    | succ k => exact .inr ⟨s + k, by simp [List.range'_concat], rfl⟩

/-- Delivery dispatches block 5, and notification takes over at block 6. -/
def takeover : Hybrid :=
  ((start 5).deliver.deliveryStep.deliveryStep.deliveryStep.deliveryStep.deliveryStep.receive
    ⟨6, []⟩).gateStep.gateStep.gateStep

theorem handoff_safe_takeover :
    takeover.log = [(.delivery, 5), (.notification, 6)] ∧
      (takeover.log.map Prod.snd).Pairwise (· < ·) ∧ takeover.gate.pc ≠ .panicked := by
  have h₀ : Reachable 5 (start 5).deliver := .step .start (.deliver rfl (by decide))
  have h₁ := (((((h₀.step (.delivery _)).step (.delivery _)).step (.delivery _)).step
    (.delivery _)).step (.delivery _)).step
    (.receive ⟨6, []⟩ rfl (by decide) (fun _ hlast => nomatch hlast))
  have h₂ : Reachable 5 takeover :=
    ((h₁.step (.notification _)).step (.notification _)).step (.notification _)
  obtain ⟨-, hsorted, -, -, -, hpanic⟩ := handoff_safe h₂
  exact ⟨by decide, hsorted, hpanic⟩

end Hybrid

end Hybridx

import FabricXEvm.Hybridx.HandoffSafety

/-!
# Restarts of the notification stream

The handoff together with its environment: a ledger that grows, delivery that offers its
blocks one after the other, and a notification stream that may break at any moment and
is restarted by `Start`.  A stream offers the blocks committed after it was opened, in
order; it may leave out a block without transactions of the namespace.  When a stream
breaks, the `HandleBatch` it was in has its context cancelled.  It is noticed in the polling
loop, and by the handlers, which may then give up on the block.  A new stream is opened
only after the last `HandleBatch` has returned.

Before the switch a restart is harmless: delivery still offers every block, or the claim
is orphaned and nothing is dispatched any more.  After the switch nothing fills the gap
between two streams (`restart_leaves_hole`).  There are no holes in a run whose streams,
once notification has taken over, are reopened only when every block that carries an EVM
transaction has been dispatched (`no_holes_of_caught_up`).
-/

open Blocks Common

namespace Hybridx

/-- The system and its environment. -/
structure Net where
  hybrid : Hybrid
  /-- The committed blocks are those below. -/
  height : Nat
  /-- The next block the open stream looks at, `none` while there is no stream. -/
  stream : Option Nat := none
  /-- The blocks whose dispatch by notification was cancelled. -/
  aborted : List Nat := []
deriving DecidableEq, Repr

/-- The committed block `n` carries an EVM transaction.  `ledger` gives the transactions
of the namespace. -/
def CarriesEVM (ledger : Nat → List Transaction) (n : Nat) : Prop :=
  ∃ tx ∈ ledger n, (evmTx tx).isSome

namespace Net

/-- `Start` at a height of the ledger; `first` is delivery's first block. -/
def start (first height : Nat) : Net where
  hybrid := Hybrid.start first
  height := height

def blocks (net : Net) : List Nat := net.hybrid.log.map Prod.snd

/-- Block `m` has been dispatched, and not given up. -/
def Dispatched (net : Net) (m : Nat) : Prop := m ∈ net.blocks ∧ m ∉ net.aborted

/-- One step.  Block numbers are below `2 ^ 63`. -/
inductive Step (ledger : Nat → List Transaction) : Net → Net → Prop where
  | commit {net} (hlt : net.height < 2 ^ 63) :
      Step ledger net { net with height := net.height + 1 }
  | deliver {net} (hidle : net.hybrid.shim.pc = .idle) (hlt : net.hybrid.shim.block < net.height) :
      Step ledger net { net with hybrid := net.hybrid.deliver }
  | delivery (net) : Step ledger net { net with hybrid := net.hybrid.deliveryStep }
  | offer {net c} (hopen : net.stream = some c) (hlt : c < net.height)
      (hidle : net.hybrid.gate.pc = .idle) :
      Step ledger net
        { net with hybrid := net.hybrid.receive ⟨c, ledger c⟩, stream := some (c + 1) }
  | leaveOut {net c} (hopen : net.stream = some c) (hlt : c < net.height)
      (hnone : ledger c = []) : Step ledger net { net with stream := some (c + 1) }
  | notification (net) : Step ledger net { net with hybrid := net.hybrid.gateStep }
  | breakStream (net) : Step ledger net { net with stream := none }
  | cancelWait {net} (hbroken : net.stream = none) (hpc : net.hybrid.gate.pc = .poll) :
      Step ledger net { net with hybrid := net.hybrid.interrupt }
  | cancelDispatch {net batch} (hbroken : net.stream = none)
      (hpc : net.hybrid.gate.pc = .dispatch) (hbatch : net.hybrid.gate.batch = some batch) :
      Step ledger net
        { net with
          hybrid := net.hybrid.interrupt
          aborted := net.aborted ++ [batch.blockNumber] }
  | reconnect {net} (hbroken : net.stream = none) (hidle : net.hybrid.gate.pc = .idle) :
      Step ledger net { net with stream := some net.height }

inductive Reachable (ledger : Nat → List Transaction) (first : Nat) : Net → Prop where
  | start (height) (hle : height ≤ 2 ^ 63) : Reachable ledger first (start first height)
  | step {net net'} (hrun : Reachable ledger first net) (hstep : Step ledger net net') :
      Reachable ledger first net'

/-- Whenever a block has been dispatched to the handlers, every earlier block that carries
an EVM transaction, from delivery's first block on, has been dispatched before it. -/
def NoHoles (ledger : Nat → List Transaction) (first : Nat) (net : Net) : Prop :=
  ∀ before path n after, net.hybrid.log = before ++ (path, n) :: after →
    (path = .delivery ∨ CarriesEVM ledger n) →
    ∀ m, first ≤ m → m < n → CarriesEVM ledger m →
      m ∈ before.map Prod.snd ∧ m ∉ net.aborted

/-- Every committed block that carries an EVM transaction has been dispatched. -/
def CaughtUp (ledger : Nat → List Transaction) (first : Nat) (net : Net) : Prop :=
  ∀ m, first ≤ m → m < net.height → CarriesEVM ledger m → net.Dispatched m

/-- The runs in which a stream opened after the switch misses nothing. -/
inductive CaughtUpRun (ledger : Nat → List Transaction) (first : Nat) : Net → Prop where
  | start (height) (hle : height ≤ 2 ^ 63) : CaughtUpRun ledger first (start first height)
  | step {net net'} (hrun : CaughtUpRun ledger first net) (hstep : Step ledger net net')
      (hcond : net.stream = none → net'.stream ≠ none → net.hybrid.gate.switched = true →
        CaughtUp ledger first net) : CaughtUpRun ledger first net'

/-! ## The invariant of a run without holes -/

variable {ledger : Nat → List Transaction} {first : Nat} {net net' : Net}

/-- A stream that offers blocks has missed none that carries an EVM transaction: what it
has passed is dispatched, or not yet needed because delivery still runs. -/
structure Inv (ledger : Nat → List Transaction) (first : Nat) (net : Net) : Prop where
  hybrid : Hybrid.Inv first net.hybrid
  height_le : net.height ≤ 2 ^ 63
  cursor_le : ∀ c, net.stream = some c → c ≤ net.height
  batch_lt : ∀ batch, net.hybrid.gate.batch = some batch →
    batch.blockNumber < net.height ∧ ∀ c, net.stream = some c → batch.blockNumber < c
  /-- Between the batch being handled and the stream there are only left-out blocks. -/
  between : net.hybrid.gate.pc ≠ .idle → ∀ batch, net.hybrid.gate.batch = some batch →
    ∀ c, net.stream = some c → ∀ m, batch.blockNumber < m → m < c → ¬ CarriesEVM ledger m
  complete : net.hybrid.gate.switched = true → ∀ c, net.stream = some c →
    ∀ m, first ≤ m → m < c → CarriesEVM ledger m → net.Dispatched m
  unaborted : net.hybrid.gate.switched = false → net.aborted = []
  aborted_le : ∀ a ∈ net.aborted, ∃ batch, net.hybrid.gate.batch = some batch ∧
    a ≤ batch.blockNumber
  covered : ∀ n ∈ net.blocks, ∀ m, first ≤ m → m < n → CarriesEVM ledger m → net.Dispatched m

theorem Inv.start {height : Nat} (hle : height ≤ 2 ^ 63) : Inv ledger first (start first height) where
  hybrid := .start first
  height_le := hle
  cursor_le := nofun
  batch_lt := nofun
  between h := absurd rfl h
  complete := nofun
  unaborted _ := rfl
  aborted_le := nofun
  covered := nofun

/-- The blocks delivery has dispatched are all the blocks of an interval. -/
theorem mem_delivered {k m : Nat} (hge : first ≤ m) (hlt : m < first + k) :
    m ∈ (Hybrid.delivered first k).map Prod.snd := by
  simp only [Hybrid.delivered, List.map_map, Function.comp_def, List.map_id']
  exact List.mem_range'_1.mpr ⟨hge, hlt⟩

theorem not_carriesEVM {m : Nat} (hnone : ledger m = []) : ¬ CarriesEVM ledger m := by
  rintro ⟨tx, htx, _⟩
  simp [hnone] at htx

/-- A step that keeps the gate, the log and the environment. -/
theorem Inv.of_frame {h : Hybrid} (hinv : Inv ledger first net) (hhybrid : Hybrid.Inv first h)
    (hgate : h.gate = net.hybrid.gate) (hlog : h.log = net.hybrid.log) :
    Inv ledger first { net with hybrid := h } where
  hybrid := hhybrid
  height_le := hinv.height_le
  cursor_le := hinv.cursor_le
  batch_lt := by dsimp only; rw [hgate]; exact hinv.batch_lt
  between := by dsimp only; rw [hgate]; exact hinv.between
  complete := by
    simp only [Dispatched, blocks]
    rw [hgate, hlog]
    exact hinv.complete
  unaborted := by dsimp only; rw [hgate]; exact hinv.unaborted
  aborted_le := by dsimp only; rw [hgate]; exact hinv.aborted_le
  covered := by
    simp only [Dispatched, blocks]
    rw [hlog]
    exact hinv.covered

/-- Delivery dispatches its next block before the switch, when nothing was aborted. -/
theorem Inv.delivery (hinv : Inv ledger first net) :
    Inv ledger first { net with hybrid := net.hybrid.deliveryStep } := by
  obtain ⟨hgate, hlog | ⟨hoff, k, hlog, hlog'⟩⟩ := hinv.hybrid.log_deliveryStep
  · exact hinv.of_frame hinv.hybrid.deliveryStep hgate hlog
  · refine ⟨hinv.hybrid.deliveryStep, hinv.height_le, hinv.cursor_le, ?_, ?_, ?_, ?_, ?_, ?_⟩
    · dsimp only; rw [hgate]; exact hinv.batch_lt
    · dsimp only; rw [hgate]; exact hinv.between
    · dsimp only; rw [hgate, hoff]; exact nofun
    · dsimp only; rw [hgate]; exact hinv.unaborted
    · dsimp only; rw [hgate]; exact hinv.aborted_le
    · intro n hn m hge hlt _
      refine ⟨?_, by simp [hinv.unaborted hoff]⟩
      simp only [blocks] at hn ⊢
      rw [hlog'] at hn ⊢
      have hle : n < first + (k + 1) := by
        simp only [Hybrid.delivered, List.map_map, Function.comp_def, List.map_id'] at hn
        exact (List.mem_range'_1.mp hn).2
      exact mem_delivered hge (hlt.trans hle)

/-- A batch before the switch is compared with the claim only. -/
theorem Inv.offer_before {c : Nat} (hinv : Inv ledger first net) (hlt : c < net.height)
    (hhybrid : Hybrid.Inv first (net.hybrid.receive ⟨c, ledger c⟩))
    (hoff : net.hybrid.gate.switched = false) :
    Inv ledger first
      { net with hybrid := net.hybrid.receive ⟨c, ledger c⟩, stream := some (c + 1) } := by
  rw [Hybrid.receive_of_not_switched hoff] at hhybrid ⊢
  refine ⟨hhybrid, hinv.height_le, ?_, ?_, ?_, ?_, hinv.unaborted, ?_, hinv.covered⟩
  · intro c' hc'
    obtain rfl := Option.some.inj hc'
    exact hlt
  · intro batch hbatch
    obtain rfl := Option.some.inj hbatch
    refine ⟨hlt, fun c' hc' => ?_⟩
    obtain rfl := Option.some.inj hc'
    exact Nat.lt_succ_self c
  · intro _ batch hbatch c' hc' m hm hm'
    obtain rfl := Option.some.inj hbatch
    obtain rfl := Option.some.inj hc'
    exact absurd hm' (Nat.not_lt_of_ge hm)
  · dsimp only
    rw [hoff]
    exact nofun
  · dsimp only
    rw [hinv.unaborted hoff]
    exact nofun

/-- After the switch the batch is dispatched. -/
theorem Inv.offer_after {c : Nat} (hinv : Inv ledger first net) (hopen : net.stream = some c)
    (hlt : c < net.height) (hhybrid : Hybrid.Inv first (net.hybrid.receive ⟨c, ledger c⟩))
    (hsw : net.hybrid.gate.switched = true) :
    Inv ledger first
      { net with hybrid := net.hybrid.receive ⟨c, ledger c⟩, stream := some (c + 1) } := by
  have hreceive : net.hybrid.receive ⟨c, ledger c⟩ =
      { net.hybrid with
        gate := { net.hybrid.gate with pc := .dispatch, batch := some ⟨c, ledger c⟩ }
        log := net.hybrid.log ++ [(.notification, c)] } := by
    simp [Hybrid.receive, Hybrid.dispatchBatch, hsw]
  rw [hreceive] at hhybrid ⊢
  have hnew : ∀ a ∈ net.aborted, a < c := by
    intro a ha
    obtain ⟨batch, hbatch, hle⟩ := hinv.aborted_le a ha
    exact hle.trans_lt ((hinv.batch_lt batch hbatch).2 c hopen)
  -- What the stream passed is dispatched, and now `c` is too.
  have hdone : ∀ m, first ≤ m → m < c + 1 → CarriesEVM ledger m →
      m ∈ (net.hybrid.log ++ [(Path.notification, c)]).map Prod.snd ∧ m ∉ net.aborted := by
    intro m hge hm hevm
    rw [List.map_append, List.mem_append]
    rcases Nat.lt_succ_iff_lt_or_eq.mp hm with hm | rfl
    · obtain ⟨hin, ha⟩ := hinv.complete hsw c hopen m hge hm hevm
      exact ⟨.inl hin, ha⟩
    · exact ⟨.inr (by simp), fun ha => (hnew m ha).false⟩
  refine ⟨hhybrid, hinv.height_le, ?_, ?_, ?_, ?_, hinv.unaborted, ?_, ?_⟩
  · intro c' hc'
    obtain rfl := Option.some.inj hc'
    exact hlt
  · intro batch hbatch
    obtain rfl := Option.some.inj hbatch
    refine ⟨hlt, fun c' hc' => ?_⟩
    obtain rfl := Option.some.inj hc'
    exact Nat.lt_succ_self c
  · intro _ batch hbatch c' hc' m hm hm'
    obtain rfl := Option.some.inj hbatch
    obtain rfl := Option.some.inj hc'
    exact absurd hm' (Nat.not_lt_of_ge hm)
  · intro _ c' hc' m hge hm hevm
    obtain rfl := Option.some.inj hc'
    exact hdone m hge hm hevm
  · intro a ha
    exact ⟨_, rfl, (hnew a ha).le⟩
  · intro n hn m hge hm hevm
    have hle : n ≤ c := by
      simp only [blocks, List.map_append, List.mem_append] at hn
      rcases hn with hn | hn
      · obtain ⟨batch, hbatch, hall⟩ := hinv.hybrid.le_batch hsw
        exact ((hall n hn).trans_lt ((hinv.batch_lt batch hbatch).2 c hopen)).le
      · exact (List.mem_singleton.mp hn).le
    exact hdone m hge (by omega) hevm

theorem Inv.leaveOut {c : Nat} (hinv : Inv ledger first net) (hopen : net.stream = some c)
    (hlt : c < net.height) (hnone : ledger c = []) :
    Inv ledger first { net with stream := some (c + 1) } := by
  have hnext : ∀ {m}, m < c + 1 → CarriesEVM ledger m → m < c := by
    intro m hm hevm
    refine lt_of_le_of_ne (Nat.le_of_lt_succ hm) ?_
    rintro rfl
    exact not_carriesEVM hnone hevm
  refine ⟨hinv.hybrid, hinv.height_le, ?_, ?_, ?_, ?_, hinv.unaborted, hinv.aborted_le,
    hinv.covered⟩
  · intro c' hc'
    obtain rfl := Option.some.inj hc'
    exact hlt
  · intro batch hbatch
    obtain ⟨hheight, hcursor⟩ := hinv.batch_lt batch hbatch
    refine ⟨hheight, fun c' hc' => ?_⟩
    obtain rfl := Option.some.inj hc'
    exact (hcursor c hopen).trans (Nat.lt_succ_self c)
  · intro hpc batch hbatch c' hc' m hm hm' hevm
    obtain rfl := Option.some.inj hc'
    exact hinv.between hpc batch hbatch c hopen m hm (hnext hm' hevm) hevm
  · intro hsw c' hc' m hge hm hevm
    obtain rfl := Option.some.inj hc'
    exact hinv.complete hsw c hopen m hge (hnext hm hevm) hevm

/-- A step of the gate other than the switch. -/
theorem Inv.gate_moves {claimed : Int} {pc : GatePC} (hinv : Inv ledger first net)
    (hhybrid : Hybrid.Inv first { net.hybrid with claimed := claimed, gate.pc := pc })
    (hidle : net.hybrid.gate.pc = .idle → pc = .idle) :
    Inv ledger first
      { net with hybrid := { net.hybrid with claimed := claimed, gate.pc := pc } } :=
  ⟨hhybrid, hinv.height_le, hinv.cursor_le, hinv.batch_lt,
    fun hpc => hinv.between fun h => hpc (hidle h), hinv.complete, hinv.unaborted,
    hinv.aborted_le, hinv.covered⟩

/-- The switch: delivery has dispatched everything below the batch, and the stream has
passed nothing else that matters. -/
theorem Inv.switch {batch : AllTxBatch} (hinv : Inv ledger first net)
    (hpc : net.hybrid.gate.pc = .stop) (hbatch : net.hybrid.gate.batch = some batch)
    (hstep : net.hybrid.gateStep =
      { net.hybrid with
        deliveryStopped := true
        gate := { net.hybrid.gate with pc := .dispatch, switched := true }
        log := net.hybrid.log ++ [(.notification, batch.blockNumber)] }) :
    Inv ledger first { net with hybrid := net.hybrid.gateStep } := by
  have hhybrid := hinv.hybrid.gateStep
  rw [hstep] at hhybrid ⊢
  obtain ⟨k, batch', hbatch', hnum, hoff, hlog⟩ := hinv.hybrid.of_stop hpc
  obtain rfl := Option.some.inj (hbatch.symm.trans hbatch')
  have hnone := hinv.unaborted hoff
  have hdone : ∀ m, first ≤ m → m ≤ batch.blockNumber →
      m ∈ (net.hybrid.log ++ [(Path.notification, batch.blockNumber)]).map Prod.snd ∧
        m ∉ net.aborted := by
    intro m hge hle
    refine ⟨?_, by simp [hnone]⟩
    rw [List.map_append, List.mem_append, hlog]
    rcases Nat.lt_or_eq_of_le hle with hm | rfl
    · exact .inl (mem_delivered hge (hnum ▸ hm))
    · exact .inr (by simp)
  refine ⟨hhybrid, hinv.height_le, hinv.cursor_le, hinv.batch_lt, fun _ => ?_, ?_, nofun, ?_, ?_⟩
  · exact hinv.between (by rw [hpc]; exact nofun)
  · intro _ c hc m hge hm hevm
    by_cases hle : m ≤ batch.blockNumber
    · exact hdone m hge hle
    · have hbetween := hinv.between (by rw [hpc]; exact nofun) batch hbatch c hc m
      exact absurd hevm (hbetween (Nat.lt_of_not_le hle) hm)
  · dsimp only
    rw [hnone]
    exact nofun
  · intro n hn m hge hm _
    refine hdone m hge (hm.le.trans ?_)
    simp only [blocks, List.map_append, List.mem_append] at hn
    rcases hn with hn | hn
    · rw [hlog, Hybrid.delivered, List.map_map, Function.comp_def, List.map_id'] at hn
      have hlt := (List.mem_range'_1.mp hn).2
      omega
    · exact (List.mem_singleton.mp hn).le

theorem Inv.notification (hinv : Inv ledger first net) :
    Inv ledger first { net with hybrid := net.hybrid.gateStep } := by
  rcases Hybrid.gateStep_cases net.hybrid with ⟨claimed, pc, heq, hidle⟩ | ⟨batch, hpc, hb, heq⟩
  · have hhybrid := hinv.hybrid.gateStep
    rw [heq] at hhybrid ⊢
    exact hinv.gate_moves hhybrid hidle
  · exact hinv.switch hpc hb heq

theorem Inv.breakStream (hinv : Inv ledger first net) :
    Inv ledger first { net with stream := none } :=
  ⟨hinv.hybrid, hinv.height_le, nofun, fun batch hb => ⟨(hinv.batch_lt batch hb).1, nofun⟩,
    fun _ _ _ => nofun, fun _ => nofun, hinv.unaborted, hinv.aborted_le, hinv.covered⟩

/-- An aborted block is the last one dispatched, so no later block misses it yet. -/
theorem Inv.cancelDispatch {batch : AllTxBatch} (hinv : Inv ledger first net)
    (hbroken : net.stream = none) (hpc : net.hybrid.gate.pc = .dispatch)
    (hbatch : net.hybrid.gate.batch = some batch) :
    Inv ledger first
      { net with
        hybrid := net.hybrid.interrupt
        aborted := net.aborted ++ [batch.blockNumber] } := by
  have hsw := hinv.hybrid.switched_of_dispatch hpc
  refine ⟨hinv.hybrid.interrupt (.inr hpc), hinv.height_le, hinv.cursor_le, hinv.batch_lt,
    fun h => absurd rfl h, ?_, ?_, ?_, ?_⟩
  · intro _ c hc
    rw [hbroken] at hc
    cases hc
  · intro hoff
    rw [show net.hybrid.interrupt.gate.switched = net.hybrid.gate.switched from rfl, hsw] at hoff
    cases hoff
  · intro a ha
    rcases List.mem_append.mp ha with ha | ha
    · exact hinv.aborted_le a ha
    · exact ⟨batch, hbatch, (List.mem_singleton.mp ha).le⟩
  · intro n hn m hge hm hevm
    obtain ⟨hin, ha⟩ := hinv.covered n hn m hge hm hevm
    refine ⟨hin, fun hmem => ?_⟩
    rcases List.mem_append.mp hmem with hmem | hmem
    · exact ha hmem
    · obtain ⟨last, hlast, hall⟩ := hinv.hybrid.le_batch hsw
      obtain rfl := Option.some.inj (hbatch.symm.trans hlast)
      obtain rfl := List.mem_singleton.mp hmem
      exact absurd (hall n hn) (Nat.not_le_of_lt hm)

theorem Inv.reconnect (hinv : Inv ledger first net) (hidle : net.hybrid.gate.pc = .idle)
    (hcond : net.hybrid.gate.switched = true → CaughtUp ledger first net) :
    Inv ledger first { net with stream := some net.height } := by
  refine ⟨hinv.hybrid, hinv.height_le, ?_, ?_, fun h => absurd hidle h, ?_, hinv.unaborted,
    hinv.aborted_le, hinv.covered⟩
  · intro c hc
    exact (Option.some.inj hc).ge
  · intro batch hb
    have hlt := (hinv.batch_lt batch hb).1
    refine ⟨hlt, fun c hc => ?_⟩
    obtain rfl := Option.some.inj hc
    exact hlt
  · intro hsw c hc
    obtain rfl := Option.some.inj hc
    exact hcond hsw

theorem Inv.step (hinv : Inv ledger first net) (hstep : Step ledger net net')
    (hcond : net.stream = none → net'.stream ≠ none → net.hybrid.gate.switched = true →
      CaughtUp ledger first net) : Inv ledger first net' := by
  cases hstep with
  | commit hlt =>
      exact ⟨hinv.hybrid, hlt, fun c hc => (hinv.cursor_le c hc).trans (Nat.le_succ _),
        fun batch hb => ⟨(hinv.batch_lt batch hb).1.trans (Nat.lt_succ_self _),
          (hinv.batch_lt batch hb).2⟩,
        hinv.between, hinv.complete, hinv.unaborted, hinv.aborted_le, hinv.covered⟩
  | deliver hidle hlt =>
      obtain ⟨hgate, hlog⟩ := Hybrid.gate_deliver net.hybrid
      exact hinv.of_frame (hinv.hybrid.deliver hidle (hlt.trans_le hinv.height_le)) hgate hlog
  | delivery => exact hinv.delivery
  | @offer c hopen hlt hidle =>
      have hhybrid : Hybrid.Inv first (net.hybrid.receive ⟨c, ledger c⟩) :=
        hinv.hybrid.receive hidle (hlt.trans_le hinv.height_le)
          fun last hlast => (hinv.batch_lt last hlast).2 c hopen
      cases hsw : net.hybrid.gate.switched with
      | false => exact hinv.offer_before hlt hhybrid hsw
      | true => exact hinv.offer_after hopen hlt hhybrid hsw
  | leaveOut hopen hlt hnone => exact hinv.leaveOut hopen hlt hnone
  | notification => exact hinv.notification
  | breakStream => exact hinv.breakStream
  | cancelWait hbroken hpc =>
      exact hinv.gate_moves (hinv.hybrid.interrupt (.inl hpc)) fun _ => rfl
  | cancelDispatch hbroken hpc hbatch => exact hinv.cancelDispatch hbroken hpc hbatch
  | reconnect hbroken hidle => exact hinv.reconnect hidle (hcond hbroken nofun)

theorem CaughtUpRun.inv (hrun : CaughtUpRun ledger first net) : Inv ledger first net := by
  induction hrun with
  | start height hle => exact .start hle
  | step _ hstep hcond ih => exact ih.step hstep hcond

/-- In a run whose streams, after the switch, are opened only when every block that
carries an EVM transaction has been dispatched, there are no holes. -/
theorem no_holes_of_caught_up (hrun : CaughtUpRun ledger first net) : NoHoles ledger first net := by
  intro before path n after hlog _ m hge hlt hevm
  have hinv := hrun.inv
  have hin : n ∈ net.blocks := by simp [blocks, hlog]
  obtain ⟨hm, ha⟩ := hinv.covered n hin m hge hlt hevm
  refine ⟨?_, ha⟩
  -- The log increases, so a smaller block is before `n`.
  have hsorted := hinv.hybrid.blocks_increase
  simp only [blocks, hlog, List.map_append, List.map_cons] at hm hsorted
  rcases List.mem_append.mp hm with hm | hm
  · exact hm
  · rw [List.pairwise_append, List.pairwise_cons] at hsorted
    rcases List.mem_cons.mp hm with rfl | hm
    · exact absurd hlt (lt_irrefl _)
    · exact absurd (hsorted.2.1.1 m hm) (Nat.lt_asymm hlt)

/-! ## A restart after the switch -/

theorem CaughtUpRun.reachable (hrun : CaughtUpRun ledger first net) :
    Reachable ledger first net := by
  induction hrun with
  | start height hle => exact .start height hle
  | step _ hstep _ ih => exact ih.step hstep

/-- Before the switch every step is allowed. -/
theorem CaughtUpRun.before (hrun : CaughtUpRun ledger first net) (hstep : Step ledger net net')
    (hoff : net.hybrid.gate.switched = false) : CaughtUpRun ledger first net' :=
  hrun.step hstep fun _ _ hsw => absurd (hoff.symm.trans hsw) nofun

/-- Every block carries an EVM transaction. -/
def everyEVM : Nat → List Transaction := fun n =>
  [{ id := [UInt8.ofNat n], eventName := proposalTypeEVMTx, inputArgs := [transfer₀.raw] }]

/-- Delivery has dispatched block 0, and notification took over at block 1. -/
def switchedNet : Net where
  hybrid :=
    { claimed := 1
      dispatched := 0
      shim := { block := 1, seeded := true }
      gate := { batch := some ⟨1, everyEVM 1⟩, switched := true }
      deliveryStopped := true
      log := [(.delivery, 0), (.notification, 1)] }
  height := 2
  stream := some 2

theorem run_switchedNet : CaughtUpRun everyEVM 0 switchedNet := by
  have h₀ := (@CaughtUpRun.start everyEVM 0 1 (by decide)).before (.deliver rfl (by decide)) rfl
  have h₁ := ((((h₀.before (.delivery _) rfl).before (.delivery _) rfl).before (.delivery _)
    rfl).before (.delivery _) rfl).before (.delivery _) rfl
  have h₂ := ((h₁.before (.reconnect rfl rfl) rfl).before (.commit (by decide)) rfl).before
    (.offer rfl (by decide) rfl) rfl
  have h₃ := ((h₂.before (.notification _) rfl).before (.notification _) rfl).before
    (.notification _) rfl
  exact h₃.step (.notification _) nofun

/-- A stream that is reopened at once misses nothing. -/
theorem no_holes_of_caught_up_reopened :
    NoHoles everyEVM 0 { switchedNet with stream := some 2 } := by
  have h₁ := run_switchedNet.step (.breakStream _) fun _ h => absurd rfl h
  refine no_holes_of_caught_up (h₁.step (.reconnect rfl rfl) fun _ _ _ m _ hm _ => ?_)
  have hm : m < 2 := hm
  unfold Dispatched
  interval_cases m <;> decide

/-- Block 2 is committed between two streams, and block 3 is offered by the new one. -/
def holeNet : Net :=
  { switchedNet with
    hybrid := switchedNet.hybrid.receive ⟨3, everyEVM 3⟩
    height := 4
    stream := some 4 }

theorem restart_leaves_hole :
    Reachable everyEVM 0 holeNet ∧ ¬ NoHoles everyEVM 0 holeNet := by
  constructor
  · have h₁ := (run_switchedNet.reachable.step (.breakStream _)).step (.commit (by decide))
    exact ((h₁.step (.reconnect rfl rfl)).step (.commit (by decide))).step
      (.offer rfl (by decide) rfl)
  · intro hholes
    have hcarries (n : Nat) : CarriesEVM everyEVM n := ⟨_, List.mem_singleton_self _, rfl⟩
    have hmem := (hholes [(.delivery, 0), (.notification, 1)] .notification 3 [] rfl
      (.inr (hcarries 3)) 2 (by decide) (by decide) (hcarries 2)).1
    exact absurd hmem (by decide)

end Net

end Hybridx

import FabricXEvm.Hybridx.Notification

/-!
# The handoff from delivery to notification

Two goroutines feed one chain of handlers.  Delivery calls `deliveryShim.Handle` on
consecutive blocks; the notification stream calls `notifGate.HandleBatch` on batches
with increasing block numbers.  They share two atomics.  `claimed` is the highest block
either has claimed, and a block is claimed by a compare-and-swap from its predecessor.
`dispatched` is the highest block delivery has finished.

The model is a step machine.  `deliveryStep` and `gateStep` are one atomic step of
each goroutine: everything between two accesses of an atomic, a call of the handlers
or a return.  `Step` interleaves them and adds what the environment does: it starts a
`Handle` or a `HandleBatch` when the last one has returned, and it may cancel the
context of a `HandleBatch` that waits for delivery or is inside the handlers, as a broken
stream does.
-/

open Blocks

namespace Hybridx

/-- `math.MinInt64`, the value of both atomics before delivery's first block. -/
def minInt64 : Int := -2 ^ 63

/-! ## The two goroutines -/

/-- Where delivery is in `deliveryShim.Handle`. -/
inductive ShimPC where
  /-- Between two calls. -/
  | idle
  /-- Before the compare-and-swap that installs the seed. -/
  | seed
  /-- Before the store that publishes the seed. -/
  | publishSeed
  /-- Before the compare-and-swap that claims the block. -/
  | claim
  /-- Inside the handlers. -/
  | dispatch
  /-- Before the store that publishes the block. -/
  | publish
  | panicked
deriving DecidableEq, Repr

structure Shim where
  pc : ShimPC := .idle
  /-- The block of the call, or of the next one. -/
  block : Nat
  off : Bool := false
  seeded : Bool := false
deriving DecidableEq, Repr

/-- Where notification is in `notifGate.HandleBatch`. -/
inductive GatePC where
  /-- Between two calls. -/
  | idle
  /-- Before the compare-and-swap that claims the block. -/
  | claim
  /-- Before the first load of `dispatched`. -/
  | reach
  /-- In the polling loop, where a cancelled context is noticed. -/
  | poll
  /-- Before delivery is stopped. -/
  | stop
  /-- Inside `dispatchBatch`. -/
  | dispatch
  | panicked
deriving DecidableEq, Repr

structure Gate where
  pc : GatePC := .idle
  /-- The batch of the call, or of the last one. -/
  batch : Option AllTxBatch := none
  switched : Bool := false
deriving DecidableEq, Repr

/-- The two paths into the handlers. -/
inductive Path where
  | delivery
  | notification
deriving DecidableEq, Repr

structure Hybrid where
  claimed : Int := minInt64
  dispatched : Int := minInt64
  shim : Shim
  gate : Gate := {}
  /-- Delivery's context is cancelled. -/
  deliveryStopped : Bool := false
  /-- The blocks dispatched so far, oldest first. -/
  log : List (Path × Nat) := []
deriving DecidableEq, Repr

namespace Hybrid

/-- `Start`, with the number of the first block delivery will offer. -/
def start (first : Nat) : Hybrid where
  shim := { block := first }

/-! ## Steps of delivery -/

/-- `Handle` is called with the next block. -/
def deliver (h : Hybrid) : Hybrid :=
  if h.shim.off then { h with shim.block := h.shim.block + 1 }
  else if h.shim.seeded then { h with shim.pc := .claim }
  else { h with shim.pc := .seed }

/-- One step of `Handle` on block `n`. -/
def deliveryStep (h : Hybrid) : Hybrid :=
  let n := int64 h.shim.block
  match h.shim.pc with
  | .idle => h
  | .seed =>
      if h.claimed = minInt64 then
        { h with claimed := n - 1, shim.pc := .publishSeed, shim.seeded := true }
      else { h with shim.pc := .panicked, shim.seeded := true }
  | .publishSeed => { h with dispatched := n - 1, shim.pc := .claim }
  | .claim =>
      if h.claimed = n - 1 then
        { h with
          claimed := n
          shim.pc := .dispatch
          log := h.log ++ [(.delivery, h.shim.block)] }
      else { h with shim.pc := .idle, shim.block := h.shim.block + 1, shim.off := true }
  | .dispatch => { h with shim.pc := .publish }
  | .publish =>
      { h with dispatched := n, shim.pc := .idle, shim.block := h.shim.block + 1 }
  | .panicked => h

/-! ## Steps of notification -/

/-- `dispatchBatch` is entered. -/
def dispatchBatch (h : Hybrid) (batch : AllTxBatch) : Hybrid :=
  { h with gate.pc := .dispatch, log := h.log ++ [(.notification, batch.blockNumber)] }

/-- `HandleBatch` is called. -/
def receive (h : Hybrid) (batch : AllTxBatch) : Hybrid :=
  let h := { h with gate.batch := some batch }
  if h.gate.switched then h.dispatchBatch batch else { h with gate.pc := .claim }

/-- `deliveryReached`, and what `waitForDelivery` does with the answer. -/
def deliveryReached (h : Hybrid) (upTo : Int) : Hybrid :=
  if upTo < h.dispatched then { h with gate.pc := .panicked }
  else if h.dispatched = upTo then { h with gate.pc := .stop }
  else { h with gate.pc := .poll }

/-- One step of `HandleBatch`. -/
def gateStep (h : Hybrid) : Hybrid :=
  match h.gate.batch with
  | none => h
  | some batch =>
    let n := int64 batch.blockNumber
    match h.gate.pc with
    | .idle => h
    | .claim =>
        if h.claimed = n - 1 then { h with claimed := n, gate.pc := .reach }
        else { h with gate.pc := .idle }
    | .reach => h.deliveryReached (n - 1)
    | .poll => h.deliveryReached (n - 1)
    | .stop =>
        { h with deliveryStopped := true, gate.switched := true }.dispatchBatch batch
    | .dispatch => { h with gate.pc := .idle }
    | .panicked => h

/-- The context of the running `HandleBatch` is cancelled and noticed: it returns. -/
def interrupt (h : Hybrid) : Hybrid := { h with gate.pc := .idle }

/-! ## Runs -/

/-- One step of the system, from a state in which the goroutine that moves is not
between two calls, or of the environment.  Block numbers are below `2 ^ 63`. -/
inductive Step : Hybrid → Hybrid → Prop where
  | deliver {h} (hidle : h.shim.pc = .idle) (hlt : h.shim.block < 2 ^ 63) : Step h h.deliver
  | delivery (h) : Step h h.deliveryStep
  | receive {h} (batch) (hidle : h.gate.pc = .idle) (hlt : batch.blockNumber < 2 ^ 63)
      (hnext : ∀ last, h.gate.batch = some last → last.blockNumber < batch.blockNumber) :
      Step h (h.receive batch)
  | notification (h) : Step h h.gateStep
  | interrupt {h} (hpc : h.gate.pc = .poll ∨ h.gate.pc = .dispatch) : Step h h.interrupt

/-- The states of a run in which delivery's first block is `first`. -/
inductive Reachable (first : Nat) : Hybrid → Prop where
  | start : Reachable first (start first)
  | step {h h'} (hrun : Reachable first h) (hstep : Step h h') : Reachable first h'

end Hybrid

end Hybridx

import FabricXEvm.Events

/-!
# Batches of the notification stream

The committer's notification stream delivers the committed transactions of a block as a
batch.  `AllTxBatchDispatcher` keeps the EVM transactions of a batch and assembles a
block from them; a batch without any is dropped.  The stream carries no block header,
so the hashes are made from the block numbers.
-/

open Blocks Common

namespace Hybridx

structure AllTxBatch where
  blockNumber : Nat
  events : List Transaction
deriving DecidableEq, Repr

/-- A 32-byte big-endian hash-shaped placeholder. -/
def blockNumberHash (n : Nat) : Bytes := List.replicate 24 0 ++ BigEndian.encode 8 n

namespace AllTxBatch

def evmTxs (batch : AllTxBatch) : List Transaction :=
  batch.events.filter fun tx => (evmTx tx).isSome

/-- The block `AllTxBatchDispatcher.HandleBatch` passes to the handlers at time `now`,
`none` when it dispatches nothing. -/
def block (batch : AllTxBatch) (now : Int) : Option Block :=
  if batch.evmTxs.length = 0 then none
  else some
    { number := batch.blockNumber
      hash := blockNumberHash batch.blockNumber
      parentHash := blockNumberHash (batch.blockNumber - 1)
      timestamp := now
      transactions := batch.evmTxs }

end AllTxBatch

end Hybridx

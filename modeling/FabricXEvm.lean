import FabricXEvm.Lib.BigEndian
import FabricXEvm.Lib.Comp
import FabricXEvm.Lib.UndoLog
import FabricXEvm.Lib.ListMap
import FabricXEvm.Lib.OrderedStore
import FabricXEvm.Lib.Uvarint
import FabricXEvm.Lib.Table
import FabricXEvm.Lib.Loops
import FabricXEvm.Lib.FinMap
import FabricXEvm.Lib.RecentWrites
import FabricXEvm.Lib.Ring
import FabricXEvm.Lib.Assign
import FabricXEvm.Lib.Channels
import FabricXEvm.Blocks
import FabricXEvm.Execution.Keys
import FabricXEvm.Execution.AccessList
import FabricXEvm.Execution.StateDB
import FabricXEvm.Execution.Operations
import FabricXEvm.Execution.Journal
import FabricXEvm.Execution.Footprint
import FabricXEvm.Execution.Result
import FabricXEvm.Execution.ReadSet
import FabricXEvm.Execution.StoreView
import FabricXEvm.Execution.Invariant
import FabricXEvm.Execution.Observe
import FabricXEvm.Execution.Revert
import FabricXEvm.Execution.World
import FabricXEvm.Execution.WorldSteps
import FabricXEvm.Execution.WorldRuns
import FabricXEvm.Execution.Writes
import FabricXEvm.Execution.WriteIndex
import FabricXEvm.Execution.Executor
import FabricXEvm.Execution.Frames
import FabricXEvm.Execution.Nonce
import FabricXEvm.Execution.Endorsement
import FabricXEvm.Storage.LightKVS
import FabricXEvm.Storage.Commit
import FabricXEvm.Storage.Replay
import FabricXEvm.Storage.Serial
import FabricXEvm.Storage.WorldLedger
import FabricXEvm.Storage.PebbleFormat
import FabricXEvm.Storage.RecordDecoding
import FabricXEvm.Storage.PebbleKVS
import FabricXEvm.Storage.KeyLayout
import FabricXEvm.Storage.PebbleTables
import FabricXEvm.Storage.Reference
import FabricXEvm.Storage.History
import FabricXEvm.Storage.PebbleCommit
import FabricXEvm.Storage.PebbleRuns
import FabricXEvm.Storage.PebbleWindow
import FabricXEvm.Storage.RevertibleLightKVS
import FabricXEvm.Storage.Parity
import FabricXEvm.Storage.Redelivery
import FabricXEvm.Storage.Rewind
import FabricXEvm.Storage.RewindVersions
import FabricXEvm.Storage.Recall
import FabricXEvm.Storage.Isolation
import FabricXEvm.Events
import FabricXEvm.Hybridx.Notification
import FabricXEvm.Hybridx.Handoff
import FabricXEvm.Hybridx.HandoffSafety
import FabricXEvm.Hybridx.Restart
import FabricXEvm.Gateway.Store
import FabricXEvm.Gateway.Chain
import FabricXEvm.Gateway.Records
import FabricXEvm.Gateway.RemoteEndorsers
import FabricXEvm.Gateway.Links
import FabricXEvm.Gateway.Inserts
import FabricXEvm.Gateway.ChainOnce
import FabricXEvm.Gateway.ChainReplay
import FabricXEvm.Gateway.Logs
import FabricXEvm.Gateway.Receipts
import FabricXEvm.Gateway.Primer
import FabricXEvm.Gateway.ReceiptParity
import FabricXEvm.Gateway.ReceiptRuns
import FabricXEvm.Gateway.LiveFilters
import FabricXEvm.Gateway.Positions
import FabricXEvm.Gateway.FilterPolling
import FabricXEvm.Gateway.Heads
import FabricXEvm.Endorser.Calls
import FabricXEvm.Endorser.Remote
import FabricXEvm.Endorser.Execute
import FabricXEvm.Gateway.EstimateGas
import FabricXEvm.Gateway.Trie
import FabricXEvm.Gateway.TrieParity
import FabricXEvm.Hybridx.Paths
import FabricXEvm.Hybridx.SameRows
import FabricXEvm.Hybridx.SameEffect
import FabricXEvm.Gateway.DepGraphQueue
import FabricXEvm.Gateway.DepGraphPipeline
import FabricXEvm.Gateway.DepGraphNodes
import FabricXEvm.Gateway.DepGraphConflicts
import FabricXEvm.Gateway.EndorsementReuse
import FabricXEvm.Gateway.NonceGate
import FabricXEvm.Gateway.NonceGateEntries
import FabricXEvm.Gateway.NonceGateRuns
import FabricXEvm.Gateway.NonceGateOrder
import FabricXEvm.Gateway.NonceGateBooks
import FabricXEvm.Gateway.TxFence
import FabricXEvm.Gateway.Shutdown
import FabricXEvm.Gateway.SnapshotStore
import FabricXEvm.Gateway.EvmSnapshots
import FabricXEvm.Gateway.TxQueue
import FabricXEvm.Gateway.TxQueueV2
import FabricXEvm.Gateway.TxQueueV2Links
import FabricXEvm.Gateway.TxQueueV2Runs
import FabricXEvm.Gateway.TxQueueV2Service
import FabricXEvm.Gateway.Submission
import FabricXEvm.Gateway.ReusedEndorsements
import FabricXEvm.Gateway.FanOut
import FabricXEvm.Gateway.SerialReceipts
import FabricXEvm.Gateway.NodeStores
import FabricXEvm.Gateway.Visibility
import FabricXEvm.Baseline.Diff
import FabricXEvm.Baseline.GoTest

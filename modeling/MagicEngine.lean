import MagicEngine.Base
import MagicEngine.Encoding
import MagicEngine.Transaction
import MagicEngine.Lib.Codec
import MagicEngine.View.Frame
import MagicEngine.View.Content
import MagicEngine.View.Layout
import MagicEngine.View.Canonical
import MagicEngine.View.Safety
import MagicEngine.View.Resolved
import MagicEngine.Account.Mode
import MagicEngine.Account.Shared
import MagicEngine.Account.Sequence
import MagicEngine.Svm.Preparation
import MagicEngine.Svm.InvokeContext
import MagicEngine.Svm.Invocation
import MagicEngine.Svm.Program
import MagicEngine.Svm.Processing
import MagicEngine.Svm.Scopes
import MagicEngine.Svm.Frames
import MagicEngine.Svm.Compose
import MagicEngine.Svm.Trace
import MagicEngine.Svm.Effect
import MagicEngine.Svm.DeclaredWrites
import MagicEngine.Svm.Engine
import MagicEngine.Svm.Simulation
import MagicEngine.Lib.ConflictOrder
import MagicEngine.Lib.Transition
import MagicEngine.Sequencer.OrderingTable
import MagicEngine.Sequencer.Epoch
import MagicEngine.Sequencer.Frontier
import MagicEngine.Sequencer.Drain
import MagicEngine.Sequencer.Execution
import MagicEngine.Lib.Regions
import MagicEngine.Lib.DupTable
import MagicEngine.Lib.Storage
import MagicEngine.Lib.Schedule
import MagicEngine.Store.Span
import MagicEngine.Image.Layout
import MagicEngine.Image.Borrowed
import MagicEngine.Image.Spans
import MagicEngine.Image.Mutators
import MagicEngine.Image.Rounds
import MagicEngine.Image.Reads
import MagicEngine.Store.Cow
import MagicEngine.Store.Persisted
import MagicEngine.Store.AccountsDb
import MagicEngine.Store.WellFormed
import MagicEngine.Store.Prepared
import MagicEngine.Store.Progress
import MagicEngine.Store.Allocator
import MagicEngine.Store.Batch
import MagicEngine.Store.Atomicity
import MagicEngine.Store.Partition
import MagicEngine.Store.Defrag
import MagicEngine.Store.Packing
import MagicEngine.Store.Layout
import MagicEngine.Store.Relocation
import MagicEngine.Store.Compaction
import MagicEngine.Store.Space
import MagicEngine.Store.Backends
import MagicEngine.Store.Readers
import MagicEngine.Store.Draining
import MagicEngine.Ledger.Entry
import MagicEngine.Keeper.Cache
import MagicEngine.Keeper.Admission
import MagicEngine.Ledger.Appender
import MagicEngine.Ledger.Retention
import MagicEngine.Ledger.Sealing
import MagicEngine.Node.Accounts
import MagicEngine.Store.Programs
import MagicEngine.Node.Startup
import MagicEngine.Node.Recovery
import MagicEngine.Node.Mismatch
import MagicEngine.Node.Lifecycle
import MagicEngine.Node.Stream
import MagicEngine.Node.Stores
import MagicEngine.Node.Chain
import MagicEngine.Node.Baseline
import MagicEngine.Replicator.Signing
import MagicEngine.Processor.Sysvars
import MagicEngine.Processor.Pool
import MagicEngine.Processor.Coherence
import MagicEngine.Processor.Simulator
import MagicEngine.Node.Restoration
import MagicEngine.Keeper.Reset
import MagicEngine.Keeper.Leases
import MagicEngine.Keeper.MissingAccounts
import MagicEngine.Keeper.Subscribers
import MagicEngine.Keeper.Subscriptions
import MagicEngine.Keeper.Delivery
import MagicEngine.Lib.Reader
import MagicEngine.Replicator.Ingest
import MagicEngine.Ledger.Bounds
import MagicEngine.Nucleus.Shutdown

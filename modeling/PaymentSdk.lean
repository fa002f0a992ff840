import PaymentSdk.Lib.Prog
import PaymentSdk.Lib.Triple
import PaymentSdk.Lib.Traced
import PaymentSdk.Lib.Failover
import PaymentSdk.Lib.Store
import PaymentSdk.Lib.BigEndian
import PaymentSdk.Lib.Base58
import PaymentSdk.Lib.Hex
import PaymentSdk.Lib.Checked
import PaymentSdk.Lib.Fields
import PaymentSdk.Lib.Framing
import PaymentSdk.Lib.ByteOrder
import PaymentSdk.Lib.Utf8
import PaymentSdk.Lib.Word
import PaymentSdk.Lib.Transaction
import PaymentSdk.Lib.Scan
import PaymentSdk.Lib.StableSort
import PaymentSdk.Lib.Interleave
import PaymentSdk.Lib.Run
import PaymentSdk.Lib.Task
import PaymentSdk.Lib.Table
import PaymentSdk.Lib.Window
import PaymentSdk.Base.Block
import PaymentSdk.Base.Decimal
import PaymentSdk.Base.Rational
import PaymentSdk.Base.Atomic
import PaymentSdk.Base.Numeral
import PaymentSdk.Base.Json
import PaymentSdk.Base.JsonNumber
import PaymentSdk.Indexing.Value
import PaymentSdk.Indexing.Observation
import PaymentSdk.Indexing.BlockAddition
import PaymentSdk.Indexing.Admission
import PaymentSdk.Storage.Codec
import PaymentSdk.Storage.Frames
import PaymentSdk.Storage.Backend
import PaymentSdk.Storage.Refinement
import PaymentSdk.Storage.Paging
import PaymentSdk.Storage.Versions
import PaymentSdk.Redb.Keys
import PaymentSdk.Redb.KeySpace
import PaymentSdk.Redb.Record
import PaymentSdk.Redb.Repository.Spec
import PaymentSdk.Redb.Repository.Runs
import PaymentSdk.Redb.Repository.Optimistic
import PaymentSdk.Redb.Repository.Branch
import PaymentSdk.Redb.Repository.Rollback
import PaymentSdk.Redb.Repository.Concurrent
import PaymentSdk.Redb.Repository.Journal
import PaymentSdk.Redb.Repository.Pages
import PaymentSdk.Redb.History
import PaymentSdk.Redb.Depth
import PaymentSdk.Redb.Listing
import PaymentSdk.Postgres.Rows
import PaymentSdk.Indexing.StoredAmount
import PaymentSdk.Postgres.Repository
import PaymentSdk.Postgres.Spec
import PaymentSdk.Postgres.Rollback
import PaymentSdk.Postgres.Read
import PaymentSdk.Postgres.Listing
import PaymentSdk.Admission.Spec
import PaymentSdk.Admission.Exclusion
import PaymentSdk.Admission.Selection
import PaymentSdk.Sync.Spec
import PaymentSdk.Sync.Integrity
import PaymentSdk.Sync.Reconcile
import PaymentSdk.Sync.Chain
import PaymentSdk.Sync.Independence
import PaymentSdk.Sync.Isolation
import PaymentSdk.Sync.Composer
import PaymentSdk.Registration.Spec
import PaymentSdk.Registration.Coherence
import PaymentSdk.Registration.Replacement
import PaymentSdk.Registration.Freshness
import PaymentSdk.Registration.Birthday
import PaymentSdk.Registration.Refinement
import PaymentSdk.Wallets.Sender
import PaymentSdk.Wallets.Spec
import PaymentSdk.Wallets.Atomicity
import PaymentSdk.Wallets.Restore
import PaymentSdk.Wallets.Restart
import PaymentSdk.Wallets.Snapshot
import PaymentSdk.Bitcoin.Block
import PaymentSdk.Bitcoin.Utxos
import PaymentSdk.Bitcoin.Source
import PaymentSdk.Bitcoin.Interpreter
import PaymentSdk.Bitcoin.Changes
import PaymentSdk.Bitcoin.Delivered
import PaymentSdk.Bitcoin.Admitted
import PaymentSdk.Bitcoin.Enrichment
import PaymentSdk.Bitcoin.Balance
import PaymentSdk.Bitcoin.Fee
import PaymentSdk.Bitcoin.Amounts
import PaymentSdk.Bitcoin.Build
import PaymentSdk.Bitcoin.Selection
import PaymentSdk.Bitcoin.Grouped
import PaymentSdk.Bitcoin.Contributions
import PaymentSdk.Bitcoin.Refusals
import PaymentSdk.Bitcoin.Snapshot
import PaymentSdk.Sync.Readable
import PaymentSdk.Sync.Readiness
import PaymentSdk.Sync.Service
import PaymentSdk.JsonRpc.Http
import PaymentSdk.Solana.Keys
import PaymentSdk.Solana.Rpc
import PaymentSdk.Solana.Source
import PaymentSdk.Solana.Preparation
import PaymentSdk.Solana.Sufficiency
import PaymentSdk.Solana.Submission
import PaymentSdk.Solana.World
import PaymentSdk.Solana.Exclusive
import PaymentSdk.Solana.Dispatch
import PaymentSdk.Solana.Outcome
import PaymentSdk.Solana.Prepared
import PaymentSdk.Solana.Absence
import PaymentSdk.Api.Closing
import PaymentSdk.Api.Shutdown
import PaymentSdk.Solana.Overspending
import PaymentSdk.Solana.Slots
import PaymentSdk.Solana.Acquisition
import PaymentSdk.Solana.Interpreter
import PaymentSdk.Solana.Conservation
import PaymentSdk.Ethereum.Transaction
import PaymentSdk.Ethereum.TransactionId
import PaymentSdk.Ethereum.Address
import PaymentSdk.Ethereum.Model
import PaymentSdk.Ethereum.Interpreter
import PaymentSdk.Ethereum.Recorded
import PaymentSdk.Ethereum.Filter
import PaymentSdk.Ethereum.Retrieval
import PaymentSdk.Ethereum.Wire
import PaymentSdk.Ethereum.Coordinator.State
import PaymentSdk.Ethereum.Coordinator.Spec
import PaymentSdk.Ethereum.Requirements
import PaymentSdk.Ethereum.Coordinator.Balances
import PaymentSdk.Ethereum.Coordinator.Invariant
import PaymentSdk.Ethereum.Coordinator.Acts
import PaymentSdk.Ethereum.Coordinator.Nonce
import PaymentSdk.Ethereum.Coordinator.Order
import PaymentSdk.Ethereum.Coordinator.Blocking
import PaymentSdk.Ethereum.Batch
import PaymentSdk.Ethereum.Report
import PaymentSdk.Ethereum.Snapshot
import PaymentSdk.Sync.Admitted
import PaymentSdk.Wallets.Restoration
import PaymentSdk.Bitcoin.Ceiling
import PaymentSdk.Ethereum.Rpc
import PaymentSdk.Ethereum.Preflight
import PaymentSdk.Ethereum.Tokens
import PaymentSdk.Ethereum.Broadcast
import PaymentSdk.Lib.Base64
import PaymentSdk.Api.Cursor

import Tsc.Go.ByteString
import Tsc.Go.Calendar
import Tsc.Go.Outcome
import Tsc.Go.CursorLoop
import Tsc.Go.Word
import Tsc.Go.Time
import Tsc.Kv.KeyedList
import Tsc.Kv.KeyedSteps
import Tsc.Kv.Store
import Tsc.Kv.Paging
import Tsc.Kv.StoreTotal
import Tsc.Kv.Weigh
import Tsc.Sdk.Bech32
import Tsc.Sdk.Math
import Tsc.Release.Plan
import Tsc.Lockup.Types
import Tsc.Lockup.LockList
import Tsc.Lockup.Ledger
import Tsc.Lockup.AddressStore
import Tsc.Lockup.DateStore
import Tsc.Lockup.Delegations
import Tsc.Lockup.MsgServer
import Tsc.Lockup.Encoding
import Tsc.Lockup.Runs
import Tsc.Lockup.Invariants
import Tsc.Lockup.TotalLocked
import Tsc.Lockup.ActiveLocks
import Tsc.Lockup.Backing
import Tsc.Lockup.Horizon
import Tsc.Lockup.Extending
import Tsc.Lockup.Composition
import Tsc.Lockup.Distribution
import Tsc.Lockup.Genesis
import Tsc.Lockup.SendRestriction
import Tsc.Lockup.LockQueries
import Tsc.Lockup.Locking
import Tsc.Lockup.Marks
import Tsc.Lockup.MultiSend
import Tsc.Lockup.QueueScans
import Tsc.Staking.Keeper
import Tsc.Staking.Accounting
import Tsc.Staking.Moves
import Tsc.Staking.Hooks
import Tsc.Staking.Tx
import Tsc.Staking.Delegating
import Tsc.Staking.Routes
import Tsc.Distro.Types
import Tsc.Distro.Schedule
import Tsc.Distro.Defined
import Tsc.Distro.Periods
import Tsc.Distro.Distributable
import Tsc.Distro.MsgServer
import Tsc.Distro.SupplyCap
import Tsc.Distro.Authorization
import Tsc.LegacyTx.Wire
import Tsc.LegacyTx.Decoder
import Tsc.LegacyTx.WholeFields
import Tsc.LegacyTx.FieldReader
import Tsc.LegacyTx.AnyReaders
import Tsc.LegacyTx.Complete
import Tsc.LegacyTx.Convert
import Tsc.LegacyTx.Encoder
import Tsc.LegacyTx.Rounds
import Tsc.LegacyTx.Total
import Tsc.LegacyTx.Proto
import Tsc.LegacyTx.RoundTrip
import Tsc.LegacyTx.Fallback
import Tsc.LegacyTx.FieldOrder
import Tsc.Precompiles.Lockup
import Tsc.Precompiles.Queries
import Tsc.Staking.Chain
import Tsc.Staking.Solvency
import Tsc.Gogo.Buffer
import Tsc.Gogo.Message
import Tsc.Sdk.IntText
import Tsc.Lockup.LockCodec
import Tsc.Lockup.Events
import Tsc.Precompiles.Contract
import Tsc.Kv.Footprint
import Tsc.Lockup.Isolation
import Tsc.Sdk.Dec
import Tsc.Sdk.Abi
import Tsc.Sdk.Hex
import Tsc.Staking.Shares
import Tsc.Staking.Unslashed
import Tsc.Precompiles.LockupAbi
import Tsc.Precompiles.Calls

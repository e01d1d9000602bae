import CloveDb.Lib.Table
import CloveDb.Lib.Bytes
import CloveDb.Lib.OrderedCode
import CloveDb.Lib.Decimal
import CloveDb.Lib.FlatFile
import CloveDb.Lib.CrashProg
import CloveDb.Lib.Runs
import CloveDb.Lib.JsonObject
import CloveDb.Lib.NumberedName
import CloveDb.Units
import CloveDb.Fields.Value
import CloveDb.Fields.Codec
import CloveDb.Fields.Extract
import CloveDb.Fields.Order
import CloveDb.Query.Eval
import CloveDb.Indexes.Varint
import CloveDb.Indexes.Trigram
import CloveDb.Indexes.TrigramStore
import CloveDb.Indexes.Builder
import CloveDb.Indexes.TrigramBuild
import CloveDb.Indexes.Format
import CloveDb.Indexes.Rows
import CloveDb.Indexes.Maintain
import CloveDb.Indexes.Planner
import CloveDb.Indexes.Execution
import CloveDb.Indexes.Values
import CloveDb.Indexes.Denote
import CloveDb.Indexes.LeafSound
import CloveDb.Journal.Change
import CloveDb.Journal.Store
import CloveDb.Journal.Unique
import CloveDb.Journal.KeyIndex
import CloveDb.Journal.Log
import CloveDb.Journal.Follower
import CloveDb.Journal.Writes
import CloveDb.Journal.Emits
import CloveDb.Journal.Replay
import CloveDb.Journal.Constraints
import CloveDb.Journal.Checked
import CloveDb.Encrypted.Layout
import CloveDb.Encrypted.Sealed
import CloveDb.Encrypted.Header
import CloveDb.Encrypted.HeaderTear
import CloveDb.Repository.Cache
import CloveDb.Schema.Chain
import CloveDb.Schema.Runner
import CloveDb.Schema.Transfer
import CloveDb.Schema.Stopped
import CloveDb.Backup.Store
import CloveDb.Backup.Base64
import CloveDb.Backup.Codec
import CloveDb.Backup.Operations
import CloveDb.Backup.Race
import CloveDb.Backup.Bulk
import CloveDb.Schema.History
import CloveDb.FieldCrypto.Keys
import CloveDb.FieldCrypto.Carried
import CloveDb.FieldCrypto.KeyChain
import CloveDb.FieldCrypto.RowCodec
import CloveDb.FieldCrypto.Search
import CloveDb.Query.Page
import CloveDb.FieldCrypto.Filters
import CloveDb.FieldCrypto.Parts
import CloveDb.FieldCrypto.PartSearch
import CloveDb.Backup.BulkFailure
import CloveDb.Lib.Digits
import CloveDb.Fields.Numeral
import CloveDb.Query.Sum
import CloveDb.Fields.Navigate
import CloveDb.Journal.Retention
import CloveDb.Journal.Calls
import CloveDb.Journal.Bookkeeping
import CloveDb.Lib.Smallest
import CloveDb.Indexes.Ordered
import CloveDb.Indexes.OrderedSound
import CloveDb.FieldChange.Plan
import CloveDb.FieldChange.Rewrite
import CloveDb.FieldChange.Analyze
import CloveDb.FieldChange.RowSteps
import CloveDb.FieldChange.Feasible
import CloveDb.FieldChange.Accepted
import CloveDb.FieldChange.Reversible
import CloveDb.Repository.Slots
import CloveDb.Backup.Names
import CloveDb.Journal.Identity
import CloveDb.Query.PointLookup
import CloveDb.Journal.LastWrite
import CloveDb.Indexes.Replayed
import CloveDb.Journal.Made
import CloveDb.FieldCrypto.B64
import CloveDb.FieldCrypto.Slots
import CloveDb.Upgrade.Creation
import CloveDb.Lib.Metered
import CloveDb.Indexes.RecordRuns
import CloveDb.Lib.SizedText
import CloveDb.FieldCrypto.Domains
import CloveDb.FieldCrypto.KeysFile
import CloveDb.Lib.WeighedQueue
import CloveDb.Query.PlanCache
import CloveDb.Upgrade.BackupNormalize

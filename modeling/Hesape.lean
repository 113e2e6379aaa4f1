import Hesape.Sql.Clauses
import Hesape.Sql.Text
import Hesape.Sql.Syntax
import Hesape.Sql.Semantics
import Hesape.Sql.Isolation
import Hesape.Sql.KeyMap
import Hesape.Sql.Write
import Hesape.Sql.Entail
import Hesape.Query.Value
import Hesape.Query.Builder
import Hesape.Query.Operators
import Hesape.Query.Wrap
import Hesape.Query.CompileWhere
import Hesape.Query.CompileSelect
import Hesape.Query.Fluent
import Hesape.Query.Validate
import Hesape.Query.Subqueries
import Hesape.Query.Scope
import Hesape.Query.Calls
import Hesape.Query.ScopeSpec
import Hesape.Query.Settle
import Hesape.Query.Structured
import Hesape.Query.Tenancy
import Hesape.Query.CompileWrite
import Hesape.Query.WriteTenancy
import Hesape.Query.Callbacks
import Hesape.Sql.Alignment
import Hesape.Routing.Wildcards
import Hesape.Run.Reach
import Hesape.Text.Segments
import Hesape.Cache.Table
import Hesape.Onetime.Codes
import Hesape.Onetime.Moves
import Hesape.Onetime.Records
import Hesape.Onetime.Spending
import Hesape.Onetime.Guessing
import Hesape.Text.Digits
import Hesape.Cache.FileEntry
import Hesape.Cache.FileLock
import Hesape.Run.Effect
import Hesape.Cache.Store
import Hesape.Text.Like
import Hesape.Text.Glob
import Hesape.Cache.Stores
import Hesape.Cache.OneMap
import Hesape.Cache.Counting
import Hesape.Cache.Memoized
import Hesape.Sql.Rebind
import Hesape.Sql.Sent
import Hesape.Sql.Spelling
import Hesape.Query.Splice
import Hesape.Query.Spelling
import Hesape.Query.Rebinding
import Hesape.Query.InsertRows
import Hesape.Query.TenantKeys
import Hesape.Query.LikeBinding
import Hesape.Order.Keyset
import Hesape.Query.Cursor
import Hesape.Query.CursorWalk
import Hesape.Queue.Database
import Hesape.Queue.Leases
import Hesape.Queue.Eligible
import Hesape.Redis.Store
import Hesape.Queue.Redis
import Hesape.Queue.Places
import Hesape.Queue.Generations
import Hesape.Bus.Batch
import Hesape.Bus.Chain
import Hesape.Bus.Counters
import Hesape.Bus.Links
import Hesape.Queue.Worker
import Hesape.Queue.Settlement
import Hesape.Queue.Reporting
import Hesape.Cache.Locks
import Hesape.Codes.Base
import Hesape.Scheduling.Loop
import Hesape.Scheduling.Mutex
import Hesape.Scheduling.Tasks
import Hesape.Scheduling.Windows
import Hesape.Session.SignedOut
import Hesape.Webhook.Attempts
import Hesape.Webhook.Receive
import Hesape.Webhook.Signature
import Hesape.Webhook.Signed
import Hesape.Webhook.Waiting
import Hesape.Account.Passwords
import Hesape.Account.Replaced
import Hesape.Account.Factors
import Hesape.Auth.Budgets
import Hesape.Auth.Guesses
import Hesape.Filesystem.Confined
import Hesape.Filesystem.Laws
import Hesape.Limiters.Concurrency
import Hesape.Limiters.Duration
import Hesape.Limiters.Quota
import Hesape.Limiters.Slots
import Hesape.Migrations.Migrator
import Hesape.Migrations.Truth
import Hesape.Model.EagerLoad

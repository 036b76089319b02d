import Marketplace.Core.Machine
import Marketplace.Core.Rows
import Marketplace.Core.Procs
import Marketplace.Core.JsObject
import Marketplace.Auth.Tokens
import Marketplace.Auth.Service
import Marketplace.Auth.Revocation
import Marketplace.Auth.Sweep
import Marketplace.Auth.Steps
import Marketplace.Auth.Rotation
import Marketplace.Files.Policy
import Marketplace.Files.Storage
import Marketplace.Files.Service
import Marketplace.Files.Effects
import Marketplace.Files.Allowlist
import Marketplace.Files.Completed
import Marketplace.Files.Reports
import Marketplace.Files.Answers
import Marketplace.Files.Identity
import Marketplace.Core.Pages
import Marketplace.Files.Parts
import Marketplace.Files.Plan
import Marketplace.Files.Resume
import Marketplace.Files.Orphans
import Marketplace.Files.Finished
import Marketplace.Files.Download
import Marketplace.Files.IntentRetry
import Marketplace.Core.Sql
import Marketplace.Core.Ledger
import Marketplace.Orders.Requests
import Marketplace.Orders.Service
import Marketplace.Orders.Steps
import Marketplace.Orders.Book
import Marketplace.Orders.Invariant
import Marketplace.Orders.Preservation
import Marketplace.Orders.Conservation
import Marketplace.Orders.Events
import Marketplace.Orders.Keys
import Marketplace.Orders.Retry
import Marketplace.Orders.Race
import Marketplace.Orders.Create
import Marketplace.Orders.Deadlock
import Marketplace.Auth.Locks
import Marketplace.Auth.Deadlock
import Marketplace.Core.Json
import Marketplace.Outbox.RelaySafety
import Marketplace.Outbox.Work
import Marketplace.Outbox.Codec
import Marketplace.Core.Utf8
import Marketplace.Core.JsonText
import Marketplace.Core.JsonRoundTrip
import Marketplace.Outbox.Wire
import Marketplace.Outbox.Outcomes
import Marketplace.Outbox.Handlers
import Marketplace.Core.Batches
import Marketplace.Outbox.Retention
import Marketplace.Core.UniqueReading
import Marketplace.Core.JsString
import Marketplace.Contract.Json
import Marketplace.Contract.Cursor
import Marketplace.Contract.Orders
import Marketplace.Core.Substring
import Marketplace.Core.UnitText
import Marketplace.RawHttp.Lengths
import Marketplace.RawHttp.RoundTrip
import Marketplace.Outbox.Receipts
import Marketplace.Outbox.Marks
import Marketplace.Outbox.Handover
import Marketplace.Outbox.Backpressure
import Marketplace.Pipeline
import Marketplace.RateLimit.Exact
import Marketplace.Core.Expiring
import Marketplace.Cache.Exclusive
import Marketplace.Cdn.Coherent
import Marketplace.Cdn.Assets
import Marketplace.Cdn.Conditional
import Marketplace.Auth.Password
import Marketplace.Jobs.ExactlyOnce
import Marketplace.Sse.Agreement
import Marketplace.Orders.Answered
import Marketplace.Lists.Limits
import Marketplace.Session.Rolling
import Marketplace.Session.Cookie
import Marketplace.Core.Snapshot
import Marketplace.Retry.Serialization
import Marketplace.Retry.Debit
import Marketplace.Retry.Finish
import Marketplace.K8s.Serve
import Marketplace.K8s.Migrations
import Marketplace.K8s.Drain
import Marketplace.Auth.Keys
import Marketplace.Auth.KeyRotation
import Marketplace.Auth.LoggedOut
import Marketplace.Auth.Serial
import Marketplace.Orders.Rows
import Marketplace.Live.Gateway
import Marketplace.Live.Access
import Marketplace.Live.Rooms
import Marketplace.Core.Groups
import Marketplace.Sales.Card
import Marketplace.Sales.Report
import Marketplace.Cache.Fresh
import Marketplace.Sales.Cached

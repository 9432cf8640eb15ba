import Rollcall.Backend
import Rollcall.Backoff
import Rollcall.Balancer
import Rollcall.Config
import Rollcall.Config.Reader
import Rollcall.Decimal.Integer
import Rollcall.Decimal.Shortest
import Rollcall.Endpoint
import Rollcall.Error
import Rollcall.Etcd.Client
import Rollcall.Etcd.Server
import Rollcall.Feed
import Rollcall.Json.Basic
import Rollcall.Json.Numeral
import Rollcall.Json.Reader
import Rollcall.Json.Variant
import Rollcall.Json.Writer
import Rollcall.Key
import Rollcall.Membership
import Rollcall.Memory
import Rollcall.Mismatch
import Rollcall.Node
import Rollcall.Node.Codec
import Rollcall.Picker
import Rollcall.Pool
import Rollcall.Pool.Trial
import Rollcall.Proofs.Channels
import Rollcall.Proofs.Etcd.Calls
import Rollcall.Proofs.Etcd.Counter
import Rollcall.Proofs.Etcd.Counting
import Rollcall.Proofs.Etcd.Forwarding
import Rollcall.Proofs.Etcd.Keeping
import Rollcall.Proofs.Etcd.Leases
import Rollcall.Proofs.Etcd.Source
import Rollcall.Proofs.Etcd.Watching
import Rollcall.Proofs.Json.Written
import Rollcall.Proofs.Key
import Rollcall.Proofs.Membership.Following
import Rollcall.Proofs.Membership.Grouping
import Rollcall.Proofs.Memory.Renewals
import Rollcall.Proofs.Memory.Schedule
import Rollcall.Proofs.Memory.Stopping
import Rollcall.Proofs.Memory.Watching
import Rollcall.Proofs.Node.Written
import Rollcall.Proofs.Registry.Calls
import Rollcall.Proofs.Store.Backlog
import Rollcall.Proofs.Store.Delivery
import Rollcall.Proofs.Store.History
import Rollcall.Proofs.Store.Listing
import Rollcall.Proofs.Store.Update
import Rollcall.Proofs.Table
import Rollcall.Proofs.Text
import Rollcall.Provider
import Rollcall.Registry
import Rollcall.Resolver
import Rollcall.Scripted
import Rollcall.Seconds
import Rollcall.Session.Arrange
import Rollcall.Session.Basic
import Rollcall.Session.Cache
import Rollcall.Session.Call
import Rollcall.Session.Clock
import Rollcall.Session.Discovery
import Rollcall.Session.Registration
import Rollcall.Session.Reply
import Rollcall.Session.Resolution
import Rollcall.Session.Run
import Rollcall.Store
import Rollcall.Table
import Rollcall.Target
import Rollcall.Text.Blank
import Rollcall.Text.Invisible
import Rollcall.Text.Quoted
import Rollcall.Text.Utf8
import Rollcall.Time
import Rollcall.Toml.Basic
import Rollcall.Toml.Number
import Rollcall.Toml.Quoted
import Rollcall.Toml.Reader
import Rollcall.Watch
import Rollcall.Proofs.Registry.Loading
import Rollcall.Proofs.Registry.Publishing
import Rollcall.Proofs.Store.Replay
import Rollcall.Proofs.Memory.ChangeLog
import Rollcall.Proofs.Memory.Counters
import Rollcall.Proofs.Registry.Numbering
import Rollcall.Proofs.Session.Resolving
import Rollcall.Proofs.Store.Snapshot
import Rollcall.Proofs.Backend.Ledger
import Rollcall.Proofs.Membership.Recovering
import Rollcall.Proofs.Feed.Updating
import Rollcall.Proofs.Memory.Sweeping
import Rollcall.Proofs.Registry.Lasting
import Rollcall.Proofs.Backend.Agreement
import Rollcall.Proofs.Balancing
import Rollcall.Proofs.Pool.Safety
import Rollcall.Proofs.Resolver.Overtaking
import Rollcall.Proofs.Membership.Reloading
import Rollcall.Proofs.Pool.Dialing
import Rollcall.Proofs.Registry.Copies
import Rollcall.Proofs.Registry.Forgetting
import Rollcall.Proofs.Node.SubServices
import Rollcall.Proofs.Membership.Selecting
import Rollcall.Proofs.Target.Written
import Rollcall.Proofs.Resolver.Naming
import Rollcall.Proofs.Picker.Turns
import Rollcall.Proofs.Memory.Querying
import Rollcall.Proofs.Memory.Limits
import Rollcall.Proofs.Memory.Starting
import Rollcall.Proofs.Toml.Document
import Rollcall.Proofs.Toml.Value
import Rollcall.Proofs.Config.Schema
import Rollcall.Proofs.Config.Settings

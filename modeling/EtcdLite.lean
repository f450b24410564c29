import EtcdLite.Lib.UnorderedMap
import EtcdLite.Lib.Run
import EtcdLite.Lib.Replay
import EtcdLite.Lib.Refinement
import EtcdLite.Lib.Handlers
import EtcdLite.Lib.Fairness
import EtcdLite.Lib.PrefixRange
import EtcdLite.Lib.LeasedMap
import EtcdLite.Model.Proto
import EtcdLite.Model.KVStore
import EtcdLite.Model.LeaseManager
import EtcdLite.Model.WatchManager
import EtcdLite.Model.Server
import EtcdLite.Model.KVService
import EtcdLite.Model.WatchService
import EtcdLite.Model.LeaseService
import EtcdLite.Model.MaintenanceService
import EtcdLite.Model.Requests
import EtcdLite.Kv.RangeQuery
import EtcdLite.Kv.Effects
import EtcdLite.Kv.Books
import EtcdLite.Kv.Ranges
import EtcdLite.Kv.Paging
import EtcdLite.Kv.History
import EtcdLite.Kv.Standing
import EtcdLite.Kv.TxnSequential
import EtcdLite.Kv.Guards
import EtcdLite.Lease.Index
import EtcdLite.Lease.System
import EtcdLite.Kv.Deletion
import EtcdLite.Lease.Leased
import EtcdLite.Lease.RevokeEffect
import EtcdLite.Lease.Revocation
import EtcdLite.Lease.Expiry
import EtcdLite.Lease.History
import EtcdLite.Lease.Necessity
import EtcdLite.Kv.Answers
import EtcdLite.Kv.Headers
import EtcdLite.Kv.Versions
import EtcdLite.Watch.Delivery
import EtcdLite.Watch.Operations
import EtcdLite.Watch.Replay
import EtcdLite.Watch.Writes
import EtcdLite.Watch.System
import EtcdLite.Watch.Orderly
import EtcdLite.Watch.Life
import EtcdLite.Watch.Protocol
import EtcdLite.Watch.Once
import EtcdLite.Watch.Gap
import EtcdLite.Watch.Lifetime
import EtcdLite.Watch.Isolation
import EtcdLite.Watch.Notifications
import EtcdLite.Watch.DeleteOrder
import EtcdLite.Watch.Observed
import EtcdLite.Lib.Locks
import EtcdLite.Lib.Sections
import EtcdLite.Threads.Programs
import EtcdLite.Threads.Alone
import EtcdLite.Threads.Deadlock
import EtcdLite.Threads.Sections
import EtcdLite.Threads.Serial
import EtcdLite.Threads.LeaseIndex
import EtcdLite.Threads.Registry
import EtcdLite.Threads.Writers
import EtcdLite.Threads.Atomic
import EtcdLite.Threads.LiveWrites
import EtcdLite.Lease.ExpiryEffect
import EtcdLite.Lease.Reading
import EtcdLite.Lease.KeepAlives
import EtcdLite.Lease.Requests
import EtcdLite.Kv.PrevKv
import EtcdLite.Spec.Etcd
import EtcdLite.Spec.Refinement
import EtcdLite.Model.Handlers
import EtcdLite.Spec.Linearizable
import EtcdLite.Kv.TxnComplete
import EtcdLite.Kv.Idle
import EtcdLite.Kv.AllKeys
import EtcdLite.Watch.LiveEvents
import EtcdLite.Watch.Received
import EtcdLite.Watch.Resuming
import EtcdLite.Model.Process
import EtcdLite.Process.Stages
import EtcdLite.Process.Safety
import EtcdLite.Process.Fair
import EtcdLite.Process.Rounds
import EtcdLite.Process.Shutdown
import EtcdLite.Process.Expiration
import EtcdLite.Lib.Progress
import EtcdLite.Threads.Progress

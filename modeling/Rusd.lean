import Rusd.Lib.OrdMap
import Rusd.Lib.Bytes
import Rusd.Lib.Exec
import Rusd.Storage.KeyValue
import Rusd.Storage.Index
import Rusd.Storage.Backend
import Rusd.Storage.Mvcc
import Rusd.Storage.RevKeys
import Rusd.Storage.Latest
import Rusd.Storage.Reference
import Rusd.Storage.Reached
import Rusd.Storage.Compaction
import Rusd.Storage.Restart
import Rusd.Lib.Utf8
import Rusd.Api.Command
import Rusd.Api.KvService
import Rusd.Api.RoundTrip
import Rusd.Api.Replica
import Rusd.Api.TxnRace
import Rusd.Api.LeaseKeys
import Rusd.Lib.Machine
import Rusd.Lib.Quorum
import Rusd.Raft.Log
import Rusd.Raft.DurableLog
import Rusd.Raft.State
import Rusd.Raft.Node
import Rusd.Raft.Cluster
import Rusd.Raft.NodeStep
import Rusd.Raft.Snapshot
import Rusd.Raft.LogShape
import Rusd.Raft.Election
import Rusd.Raft.History
import Rusd.Raft.Replication
import Rusd.Raft.ReplicationStep
import Rusd.Raft.StateMachineSafety
import Rusd.Raft.CommittedPrefix
import Rusd.Raft.LeaderPointer
import Rusd.Raft.Waiters
import Rusd.Api.Forwarding
import Rusd.Raft.Redelivery
import Rusd.Raft.ProposeRace
import Rusd.Raft.Voter
import Rusd.Raft.TermOrder
import Rusd.Raft.Restart
import Rusd.Raft.IndexOrder
import Rusd.Raft.ElectedTerm
import Rusd.Server.Deployment
import Rusd.Server.Acknowledge
import Rusd.Server.ExactlyOnce
import Rusd.Server.Replicas
import Rusd.Server.SnapshotLabel
import Rusd.Lib.Channel
import Rusd.Watch.Hub
import Rusd.Watch.Stream
import Rusd.Watch.Service
import Rusd.Watch.CatchUp
import Rusd.Api.Script
import Rusd.Api.HeaderRevision
import Rusd.Storage.PutSteps
import Rusd.Lib.SharedCounter
import Rusd.Storage.PutRace
import Rusd.Storage.RangeSteps
import Rusd.Storage.SnapshotRead
import Rusd.Storage.Snapshot
import Rusd.Storage.Coherence
import Rusd.Storage.Alike
import Rusd.Raft.CommitRule
import Rusd.Raft.WholeLog
import Rusd.Raft.SnapshotCluster
import Rusd.Raft.MatchIndex
import Rusd.Raft.MatchIndexStep
import Rusd.Raft.MatchIndexRun
import Rusd.Storage.Resume
import Rusd.Storage.Transfer
import Rusd.Storage.LiveSnapshot
import Rusd.Storage.CallLog
import Rusd.Storage.WatchEvents
import Rusd.Watch.Transaction
import Rusd.Watch.Registry
import Rusd.Watch.Streams
import Rusd.Lib.PriorityQueue
import Rusd.Lease.Manager
import Rusd.Lease.Bookkeeping
import Rusd.Lease.Expiry
import Rusd.Lib.Locks
import Rusd.Lease.Locks
import Rusd.Lease.AutoAssigned
import Rusd.Lib.Tables
import Rusd.Auth.Store
import Rusd.Auth.Login
import Rusd.Auth.Permission
import Rusd.Storage.InUse
import Rusd.Api.LeaseCleanup
import Rusd.Api.TxnRange
import Rusd.Api.FollowerDelete
import Rusd.Api.TxnReads
import Rusd.Watch.Delivery
import Rusd.Storage.Chronicle
import Rusd.Lib.StableSort
import Rusd.Api.RangeOrder
import Rusd.Api.Intervals
import Rusd.Api.PrevKvs
import Rusd.Storage.Pagination
import Rusd.Lib.Faults
import Rusd.Storage.FailedWrites
import Rusd.Server.FailedRestore
import Rusd.Storage.SnapshotFormat
import Rusd.Api.Maintenance
import Rusd.Raft.TermDiscipline
import Rusd.Raft.Backtracking
import Rusd.Raft.Compaction
import Rusd.Raft.SentRequests
import Rusd.Lib.Text
import Rusd.Lib.Roster
import Rusd.Server.InitialCluster
import Rusd.Server.Bootstrap
import Rusd.Membership.Manager
import Rusd.Membership.Quorums
import Rusd.Lease.TimeToLive
import Rusd.Lib.Duration
import Rusd.Raft.ElectionTimeout
import Rusd.Raft.Timers
import Rusd.Raft.CommitWait
import Rusd.Lib.Checked
import Rusd.Storage.Bounds
import Rusd.Storage.Compactor
import Rusd.Storage.IndexHistory
import Rusd.Api.SnapshotStream
import Rusd.Auth.Changes
import Rusd.Server.Administration
import Rusd.Server.Validity
import Rusd.Server.WatchedReplicas

import KvRaft.Lib.OrdMap
import KvRaft.Lib.Bytes
import KvRaft.Lib.Batch
import KvRaft.Err
import KvRaft.Store
import KvRaft.Shmevent.Catalog
import KvRaft.Shmevent.Payload
import KvRaft.Logrecord.Key
import KvRaft.Kvfsm.Apply
import KvRaft.Kvfsm.Plan
import KvRaft.Kvfsm.Recovery
import KvRaft.Encoding.Json
import KvRaft.Kvfsm.Txn
import KvRaft.Kvfsm.Grants
import KvRaft.Kvfsm.Invites
import KvRaft.Logrecord.Record
import KvRaft.Encoding.Text
import KvRaft.Lib.Effect
import KvRaft.Shmevent.Event
import KvRaft.Daemon.Members
import KvRaft.Daemon.Acl
import KvRaft.Daemon.Handle
import KvRaft.Daemon.Dispatch
import KvRaft.Daemon.Forward
import KvRaft.Daemon.Reads
import KvRaft.Daemon.Bookkeeping
import KvRaft.Daemon.Join
import KvRaft.Daemon.Settings
import KvRaft.Daemon.Confirmed
import KvRaft.Daemon.Registry
import KvRaft.Daemon.Submit
import KvRaft.Daemon.Stranger
import KvRaft.Kvctl.Catalog
import KvRaft.Kvctl.Dispatch
import KvRaft.Daemon.Append
import KvRaft.Kvctl.Immutable
import KvRaft.Ipc.Protocol
import KvRaft.Ipc.ExactlyOnce
import KvRaft.Daemon.Sync
import KvRaft.Daemon.Lockstep
import KvRaft.Web.Learner
import KvRaft.Lib.Word
import KvRaft.Web.Commit
import KvRaft.Web.Entries
import KvRaft.Web.Prefix
import KvRaft.Web.SameMachine
import KvRaft.Lib.Msgpack
import KvRaft.Lib.Scan
import KvRaft.Web.Msgpack
import KvRaft.Web.Wire
import KvRaft.Web.Framing
import KvRaft.Kvfsm.Faults
import KvRaft.Kvfsm.Cascade
import KvRaft.Encoding.Utf8
import KvRaft.Kvctl.Permission
import KvRaft.Kvfsm.Caps
import KvRaft.Kvfsm.GroupNames
import KvRaft.Daemon.Specs
import KvRaft.Web.Catalog
import KvRaft.Web.Votes
import KvRaft.Chandata
import KvRaft.Daemon.Replies
import KvRaft.Logrecord.Order
import KvRaft.Kvctl.Dispatcher
import KvRaft.Kvctl.Queue
import KvRaft.Kvctl.History
import KvRaft.Daemon.Lifetime
import KvRaft.Daemon.Retry
import KvRaft.Daemon.Redeem
import KvRaft.Daemon.Learners
import KvRaft.Daemon.ReadBack
import KvRaft.Ipc.Abandon
import KvRaft.Ipc.Patient
import KvRaft.Logrecord.Range
import KvRaft.Web.Logrecord
import KvRaft.Daemon.InviteRecord
import KvRaft.Daemon.TxnLimits
import KvRaft.Kvctl.ScanRange
import KvRaft.Web.Snapshot
import KvRaft.Web.Install
import KvRaft.Web.Panics
import KvRaft.Web.Unknown
import KvRaft.Daemon.Deletable
import KvRaft.Lib.TokenBucket
import KvRaft.Daemon.Quota
import KvRaft.Daemon.Channels
import KvRaft.Web.Matching
import KvRaft.Web.Replies
import KvRaft.Lib.Filepath
import KvRaft.Lib.FileSystem
import KvRaft.Kvctl.Backup
import KvRaft.Kvctl.Restore
import KvRaft.Lib.Majority
import KvRaft.Lib.LeaderLog
import KvRaft.Lib.LeaderLogSafety
import KvRaft.Lib.LeaderLogCatchUp
import KvRaft.Raft.Configuration
import KvRaft.Raft.Commitment
import KvRaft.Raft.State
import KvRaft.Raft.Election
import KvRaft.Raft.Replication
import KvRaft.Raft.System
import KvRaft.Raft.LogFacts
import KvRaft.Raft.Simulation
import KvRaft.Raft.Tracking
import KvRaft.Raft.ElectionProof
import KvRaft.Raft.FollowerProof
import KvRaft.Raft.LeaderProof
import KvRaft.Raft.RoutineProof
import KvRaft.Raft.Refinement
import KvRaft.Raft.Safety
import KvRaft.Raft.Replicas

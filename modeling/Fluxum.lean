import Fluxum.Lib.Runs
import Fluxum.Lib.OrdMap
import Fluxum.Lib.Bytes
import Fluxum.Lib.Outcome
import Fluxum.Lib.Mirror
import Fluxum.Lib.Quorum
import Fluxum.Lib.Comparable
import Fluxum.Pager.PoolSafety
import Fluxum.CommitLog.Repair
import Fluxum.Store.Refinement
import Fluxum.ReplicaSet.Fencing
import Fluxum.ReplicaSet.Completeness
import Fluxum.ReplicaSet.Streamers
import Fluxum.ReplicaSet.EpochFile
import Fluxum.Lib.Lex
import Fluxum.Query.Transparency
import Fluxum.Query.NaturalOrder
import Fluxum.Client.Union
import Fluxum.Client.Optimistic
import Fluxum.View.Views
import Fluxum.Shard.Globals
import Fluxum.Store.Canonical
import Fluxum.Crdt.Text
import Fluxum.Crdt.Edits
import Fluxum.Pager.PoolProgress
import Fluxum.Store.Counters
import Fluxum.Store.Uniqueness
import Fluxum.CommitLog.Truncation
import Fluxum.CommitLog.Lineage
import Fluxum.Store.AsOf
import Fluxum.Checkpoint.Retention
import Fluxum.Store.Decimal
import Fluxum.Blob.Index
import Fluxum.Pager.PageFile
import Fluxum.Subscription.Membership
import Fluxum.Subscription.SendBuffer
import Fluxum.Server.ConnGuard
import Fluxum.Server.ReadRequest
import Fluxum.Server.Rotation

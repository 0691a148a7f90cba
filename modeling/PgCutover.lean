import PgCutover.PgStat.TransactionalDrops
import PgCutover.PgStat.Reports
import PgCutover.PgStat.EntryRefRuns
import PgCutover.Sequence.Nextval
import PgCutover.Pglz.RoundTrip
import PgCutover.BlkRefTable.RoundTrip
import PgCutover.IncrBackup.Chain
import PgCutover.Prepqual.Canonicalize
import PgCutover.Like.Escape
import PgCutover.IntSet.Iterate
import PgCutover.Transam.CommitTree
import PgCutover.LogicalRep.RoundTrip
import PgCutover.Hash.GrowthRuns
import PgCutover.Replication.LogicalSlot
import PgCutover.Replication.ApplyFeedback
import PgCutover.Replication.SyncRep
import PgCutover.Replication.SlotRetention
import PgCutover.Replication.ReserveWal
import PgCutover.Storage.LWLockWakeup
import PgCutover.Ipc.ProcSignalWait
import PgCutover.Sync.Durability
import PgCutover.Ipc.SInvalDelivery
import PgCutover.Workload.ErrorRate
import PgCutover.Environment.Ssh
import PgCutover.Environment.LinearGrader
import PgCutover.Environment.ItemsHash
import PgCutover.Environment.RegressionRuns
import PgCutover.Environment.Excerpt
import PgCutover.Privileges.Chains
import PgCutover.Knapsack
import PgCutover.Gin.PostingList

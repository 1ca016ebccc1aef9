import InClusterStorage.Blob.PackTable
import InClusterStorage.Controller.ChunkSizes
import InClusterStorage.Controller.DependentRows
import InClusterStorage.Controller.ExclusiveHolds
import InClusterStorage.Controller.FailedRestore
import InClusterStorage.Controller.FileTimes
import InClusterStorage.Controller.InodeNumbers
import InClusterStorage.Controller.LinkCounts
import InClusterStorage.Controller.OpenBarrier
import InClusterStorage.Controller.OpenHandles
import InClusterStorage.Controller.Overwrite
import InClusterStorage.Controller.RemovedFiles
import InClusterStorage.Controller.SnapshotNames
import InClusterStorage.Controller.SnapshotPages
import InClusterStorage.Controller.SnapshotReads
import InClusterStorage.Controller.SyncWaiters
import InClusterStorage.Controller.TruncateBesideSync
import InClusterStorage.Controller.UnlinkedData
import InClusterStorage.Daemon.ExclusiveLocal
import InClusterStorage.Daemon.Reproduced
import InClusterStorage.Erofs.Directory
import InClusterStorage.Node.CommittedMarks
import InClusterStorage.Node.Dentries
import InClusterStorage.Node.Generations
import InClusterStorage.Node.RemovedFiles
import InClusterStorage.Node.UncoveredBytes
import InClusterStorage.Sds.Statistics
import InClusterStorage.Sds.WriterRestarts
import InClusterStorage.Wal.Buffer.AppendCalls
import InClusterStorage.Wal.Buffer.FailedWrites
import InClusterStorage.Wal.Buffer.PositionReuse
import InClusterStorage.Wal.Buffer.Sealing
import InClusterStorage.Wal.Buffer.TailNeverSkips
import InClusterStorage.Wal.Client.Appends
import InClusterStorage.Wal.Client.HelloAck
import InClusterStorage.Wal.Client.ReplicationSafety
import InClusterStorage.Wal.SegmentRecovery

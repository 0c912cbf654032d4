import DedupBlockFS.BatchedRemoval
import DedupBlockFS.Batching
import DedupBlockFS.Concurrent.Conservation
import DedupBlockFS.Concurrent.FineLinearization
import DedupBlockFS.Concurrent.Integrity
import DedupBlockFS.Concurrent.OneAtATime
import DedupBlockFS.Concurrent.Progress
import DedupBlockFS.Concurrent.RoundTrip
import DedupBlockFS.Concurrent.SamePath
import DedupBlockFS.Concurrent.Schedules
import DedupBlockFS.Concurrent.Snapshots
import DedupBlockFS.GroupedFlush
import DedupBlockFS.Lib.LittleEndian
import DedupBlockFS.Namespace.Aliases
import DedupBlockFS.Namespace.Truncation
import DedupBlockFS.Persistence.Crash
import DedupBlockFS.Persistence.Images
import DedupBlockFS.Persistence.Remount
import DedupBlockFS.Persistence.ShortWrites
import DedupBlockFS.Persistence.SubIndex
import DedupBlockFS.Persistence.Unbuffered
import DedupBlockFS.Sequential.CounterWidth
import DedupBlockFS.Sequential.ExactBytes
import DedupBlockFS.Sequential.FailedCalls
import DedupBlockFS.Sequential.Reclamation
import DedupBlockFS.Sequential.StorageFirst
import DedupBlockFS.SortedRead

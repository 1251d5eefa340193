import Elsm.Lib.FlatTree
import Elsm.Lib.Bisect
import Elsm.Lib.SortedList
import Elsm.Lib.ReadOrder
import Elsm.Lib.Transition
import Elsm.Format.Comparator
import Elsm.Format.InternalKey
import Elsm.Format.Coding
import Elsm.Merkle.BuildTable
import Elsm.Merkle.Completeness
import Elsm.Version.Files
import Elsm.Version.Builder
import Elsm.Version.Compaction
import Elsm.Version.CompactionWork
import Elsm.Table.Builder
import Elsm.Db.MemTable
import Elsm.Db.State
import Elsm.Db.Stored
import Elsm.Db.Invariant
import Elsm.Db.Compacting
import Elsm.Db.Computed
import Elsm.Db.Disjoint
import Elsm.Db.Recency
import Elsm.Db.Get
import Elsm.Db.History
import Elsm.Version.Recover
import Elsm.Db.Recorded
import Elsm.Db.Reopen
import Elsm.Merkle.Verify
import Elsm.Db.Proven
import Elsm.Db.Crash
import Elsm.Db.GroupCommit
import Elsm.Db.SyncWrites
import Elsm.Db.Serving
import Elsm.Db.ReadView
import Elsm.Db.ForcedFlush
import Elsm.Env.Children
import Elsm.Lib.Stream
import Elsm.Log.Reader
import Elsm.Log.Framed
import Elsm.Log.Records
import Elsm.Log.Reuse
import Elsm.Db.LogReplay
import Elsm.Version.Manifest
import Elsm.Version.Untrusted
import Elsm.Db.Background
import Elsm.Db.Obsolete
import Elsm.Version.Encode
import Elsm.Lib.CrashFs
import Elsm.Log.Torn
import Elsm.Version.Commit
import Elsm.Version.Listing
import Elsm.Version.Atomic
import Elsm.Version.CommitRuns
import Elsm.Lib.Cursor
import Elsm.Table.Merger
import Elsm.Db.DbIter
import Elsm.Table.TwoLevel
import Elsm.Db.Scan
import Elsm.Db.Iterators
import Elsm.Version.Compacted
import Elsm.Version.Grandparents
import Elsm.Merkle.Binding
import Elsm.Db.Copies
import Elsm.Db.Capacity
import Elsm.Db.ArenaBlocks
import Elsm.Db.ManualRequest
import Elsm.Db.Ownership
import Elsm.Db.TableReads
import Elsm.Db.Repair
import Elsm.Log.Truncated
import Elsm.Log.Damage
import Elsm.Lib.Reading
import Elsm.Version.EditBytes
import Elsm.Env.RandomAccess
import Elsm.Table.Format
import Elsm.Table.Block
import Elsm.Table.BlockBounds
import Elsm.Table.BlockCursor
import Elsm.Table.BlockRoundTrip
import Elsm.Table.FilterBlock
import Elsm.Table.Table
import Elsm.Table.Opening
import Elsm.Table.Writer
import Elsm.Table.RoundTrip
import Elsm.Table.BlockCache
import Elsm.Db.TableHandles
import Elsm.Table.Bloom

import Mmdb.Types
import Mmdb.Wal.Record
import Mmdb.Wal.Writer
import Mmdb.Wal.Reader
import Mmdb.Wal.Recovery
import Mmdb.Lib.Except
import Mmdb.Manifest.Version
import Mmdb.Manifest.VersionSet
import Mmdb.Lib.Buckets
import Mmdb.Lib.Sort
import Mmdb.Manifest.Apply
import Mmdb.Manifest.Replay
import Mmdb.Compaction.Leveled
import Mmdb.Compaction.Drain
import Mmdb.Iterator.Merge
import Mmdb.Iterator.DbIter
import Mmdb.Iterator.Bidi
import Mmdb.Lib.ByteOrder
import Mmdb.Iterator.Keys
import Mmdb.Lib.LittleEndian
import Mmdb.Manifest.EditCodec
import Mmdb.Sst.Format
import Mmdb.Lib.BinarySearch
import Mmdb.Sst.Block
import Mmdb.Sst.BlockBuilder
import Mmdb.Sst.Filter
import Mmdb.Lib.SegmentTree
import Mmdb.Iterator.RangeDel
import Mmdb.Iterator.MergeHeap
import Mmdb.Iterator.RangeTracker
import Mmdb.Lib.LinkChain
import Mmdb.Memtable.SkipListImpl
import Mmdb.Memtable.MemTable
import Mmdb.Memtable.Cursor
import Mmdb.Lib.Saturate
import Mmdb.Compaction.Overlap
import Mmdb.Lib.Panic
import Mmdb.Sst.BlockChecked
import Mmdb.Sst.FormatChecked
import Mmdb.Manifest.EditChecked
import Mmdb.Db.WalReplay
import Mmdb.Db.Get
import Mmdb.Db.Write
import Mmdb.Db.Recovery
import Mmdb.Lib.Scan
import Mmdb.Sst.TableBuilder
import Mmdb.Compaction.SubCompaction
import Mmdb.Compaction.Survivors
import Mmdb.Compaction.MergeLoop
import Mmdb.Compaction.Visibility
import Mmdb.Lib.BinaryHeap
import Mmdb.Iterator.MergeDrain
import Mmdb.Compaction.Merger

import HedgeDB.Run
import HedgeDB.KeyedList
import HedgeDB.NextFit
import HedgeDB.Regions
import HedgeDB.PermitChain
import HedgeDB.KWayMerge
import HedgeDB.BinarySearch
import HedgeDB.LinkedPath
import HedgeDB.Types
import HedgeDB.Skiplist
import HedgeDB.Sst
import HedgeDB.IndexOps
import HedgeDB.MergeUtils
import HedgeDB.Merge
import HedgeDB.Compaction
import HedgeDB.CompactionPicking
import HedgeDB.Backpressure
import HedgeDB.CommitChain
import HedgeDB.Levels
import HedgeDB.PartitionInvariant
import HedgeDB.LevelOrder
import HedgeDB.Tombstones
import HedgeDB.LastLevel
import HedgeDB.Database
import HedgeDB.Lsm
import HedgeDB.Arena
import HedgeDB.ArenaWords
import HedgeDB.PageAlignedBuffer
import HedgeDB.IoCtx
import HedgeDB.Wal
import HedgeDB.Replay
import HedgeDB.Recovery
import HedgeDB.Restart
import HedgeDB.Interleave
import HedgeDB.RwSync
import HedgeDB.Memtable
import HedgeDB.FlushChain
import HedgeDB.FlushOrder
import HedgeDB.TableSwitch
import HedgeDB.PutOnce
import HedgeDB.TableFlush
import HedgeDB.TableOrder
import HedgeDB.ReadYourWrites
import HedgeDB.Instances
import HedgeDB.RangeIterator
import HedgeDB.RangeScan
import HedgeDB.ScanEnds
import HedgeDB.CursorRange
import HedgeDB.Quiescent
import HedgeDB.ScanPartition
import HedgeDB.ConcurrentSkiplist
import HedgeDB.SkiplistRuns
import HedgeDB.ByteCodec
import HedgeDB.Varint
import HedgeDB.VarintWords
import HedgeDB.Block
import HedgeDB.BlockRoundTrip
import HedgeDB.BlockFind
import HedgeDB.BlockSpace
import HedgeDB.Manifest
import HedgeDB.PartitionFiles
import HedgeDB.ManifestWrites
import HedgeDB.WalReset
import HedgeDB.WalFile
import HedgeDB.WalReplay
import HedgeDB.WalCodec
import HedgeDB.BlockWriter
import HedgeDB.SstLookup
import HedgeDB.StreamPages
import HedgeDB.Paging
import HedgeDB.SstReads
import HedgeDB.PageRange
import HedgeDB.FlushFiles
import HedgeDB.SstNames
import HedgeDB.PutStorable
import HedgeDB.PutLoop
import HedgeDB.KeyRouting
import HedgeDB.OwnedHeap
import HedgeDB.KeyStorage
import HedgeDB.KeyOwnership
import HedgeDB.CircularRuns
import HedgeDB.QuotientFilter
import HedgeDB.FilterInsert
import HedgeDB.SstFilter
import HedgeDB.SstImage
import HedgeDB.SstLoad

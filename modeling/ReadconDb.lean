import ReadconDb.Library.OrderedTable
import ReadconDb.Library.Outcome
import ReadconDb.Library.Binning
import ReadconDb.Library.Blocks
import ReadconDb.Library.Extents
import ReadconDb.FrameCodec
import ReadconDb.UnitsCanon
import ReadconDb.Corpus
import ReadconDb.Select
import ReadconDb.CookedSoa
import ReadconDb.Topology
import ReadconDb.Ingest
import ReadconDb.Maintain
import ReadconDb.Effects
import ReadconDb.Coherence
import ReadconDb.Store
import ReadconDb.Annotation
import ReadconDb.Ranges
import ReadconDb.Sharding
import ReadconDb.TopologyHistory
import ReadconDb.Rooted
import ReadconDb.Dedup
import ReadconDb.Migration
import ReadconDb.CanonicalDump
import ReadconDb.Archive
import ReadconDb.MemoryIngest
import ReadconDb.Decoding
import ReadconDb.CookedCodec
import ReadconDb.MpiWire
import ReadconDb.Streaming
import ReadconDb.MapGrowth
import ReadconDb.DirectoryIngest
import ReadconDb.Joining
import ReadconDb.ShardDrain
import ReadconDb.Copying
import ReadconDb.Splitting
import ReadconDb.HashFile
import ReadconDb.MpiCounts
import ReadconDb.MpiRead
import ReadconDb.MpiExport
import ReadconDb.MpiTables
import ReadconDb.MpiBatch
import ReadconDb.MpiExchange
import ReadconDb.MpiGather
import ReadconDb.MpiLoop
import ReadconDb.Library.Utf8Scan
import ReadconDb.AnsiScan
import ReadconDb.Library.Lexicographic
import ReadconDb.KeyOrder
import ReadconDb.Library.Scatter
import ReadconDb.ArchiveFetch
import ReadconDb.Library.Slots
import ReadconDb.PackQuery
import ReadconDb.Library.Words
import ReadconDb.UnitExpr
import ReadconDb.UnitRewrite
import ReadconDb.Relabel
import ReadconDb.MpiParse
import ReadconDb.MpiDrain
import ReadconDb.MpiEngine
import ReadconDb.MpiRows
import ReadconDb.MpiStaging
import ReadconDb.MpiSerial
import ReadconDb.MpiSessions
import ReadconDb.MpiRefines
import ReadconDb.TopologySearch
import ReadconDb.Unpacking
import ReadconDb.HandleRuns
import ReadconDb.MpiHistory

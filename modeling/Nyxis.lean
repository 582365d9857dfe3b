import Nyxis.Lib.Outcome
import Nyxis.Lib.Bytes
import Nyxis.Lib.Bits
import Nyxis.Lib.Runs
import Nyxis.Lib.Safe
import Nyxis.Lib.Ranks
import Nyxis.Format
import Nyxis.Schema
import Nyxis.Column
import Nyxis.Compact.Schema
import Nyxis.Compact.Tail
import Nyxis.Compact.Plan
import Nyxis.Reader
import Nyxis.Lib.Ranges
import Nyxis.Layout
import Nyxis.ReaderOpen
import Nyxis.StoredTable
import Nyxis.PaxPages
import Nyxis.PaxStream
import Nyxis.PaxFile
import Nyxis.ColumnarFile
import Nyxis.MissingCells
import Nyxis.Compact.Record
import Nyxis.Compact.Cells
import Nyxis.Compact.Dense
import Nyxis.Compact.DenseWalk
import Nyxis.Compact.DenseOffsets
import Nyxis.Compact.Sparse
import Nyxis.Writer
import Nyxis.Object
import Nyxis.RowRecord
import Nyxis.Decoder
import Nyxis.DecoderTotal
import Nyxis.Acceptance
import Nyxis.SlotLookup
import Nyxis.RowGetters
import Nyxis.PackedRecord
import Nyxis.Source
import Nyxis.Compiler
import Nyxis.Compiled
import Nyxis.WrittenSchema
import Nyxis.RecordFrames
import Nyxis.Calls
import Nyxis.SlotWrites
import Nyxis.ObjectFile
import Nyxis.CallRecords
import Nyxis.OffsetTables
import Nyxis.StreamFile
import Nyxis.RowFile
import Nyxis.JsonOut
import Nyxis.CompiledRoot
import Nyxis.CompiledPaths
import Nyxis.Query
import Nyxis.ReaderSafe
import Nyxis.StreamReader
import Nyxis.StreamPrefix
import Nyxis.DecodedCells
import Nyxis.Wal
import Nyxis.SpanRecord
import Nyxis.WalCrash
import Nyxis.SegmentReader
import Nyxis.SealedSpans
import Nyxis.SegmentFile
import Nyxis.TraceCli
import Nyxis.Lib.Locks
import Nyxis.PrefetchLocks
import Nyxis.Import
import Nyxis.Inferred
import Nyxis.ImportAbsence
import Nyxis.ImportRecords
import Nyxis.ImportValues
import Nyxis.Exports
import Nyxis.NarrowWidths
import Nyxis.Compact.TailIndex
import Nyxis.ValuePool
import Nyxis.Registry
import Nyxis.PageFraming
import Nyxis.PaxStreamReader
import Nyxis.StreamAgrees
import Nyxis.SparseRecord
import Nyxis.RecordReads
import Nyxis.CompactFile
import Nyxis.CompactAgrees
import Nyxis.PageCache
import Nyxis.PageRanges
import Nyxis.InferenceOrder
import Nyxis.XmlIn
import Nyxis.OptionalKeys
import Nyxis.PrefetchOffsets
import Nyxis.Lib.Recency
import Nyxis.Viewport
import Nyxis.Warmup
import Nyxis.WalRebuild
import Nyxis.SpanEncoder
import Nyxis.Temporal
import Nyxis.Lexer
import Nyxis.Parser
import Nyxis.Printed
import Nyxis.Literals
import Nyxis.Lib.Calendar
import Nyxis.Instants
import Nyxis.ListValues
import Nyxis.Links
import Nyxis.DecodedRecords
import Nyxis.MacroText
import Nyxis.Macros
import Nyxis.PageSearch
import Nyxis.Lib.FirstSeen
import Nyxis.FieldRows
import Nyxis.AccessRuns
import Nyxis.ColReduce
import Nyxis.ColSum
import Nyxis.BatchOffsets
import Nyxis.PresenceMasks
import Nyxis.RowObject
import Nyxis.SlotResolvers
import Nyxis.Transposed
import Nyxis.XmlTexts
import Nyxis.Lib.Csv
import Nyxis.CsvRows
import Nyxis.Lib.Buckets
import Nyxis.SpanSearch
import Nyxis.Selections
import Nyxis.SourceRecords
import Nyxis.StatsFiles
import Nyxis.Tailing
import Nyxis.CsvPipeline

import Nyxis.Decoder
import Nyxis.ReaderOpen

/-!
# Wal — the write-ahead log of spans

A log is a header (`walHeader`) followed by one v1.2 object for each span.  `SpanWal.append` encodes a
span with the row writer and keeps its data sector, `recover` scans the objects to rebuild the index,
`seal` writes the indexed spans to a `.nxb` segment.
-/

namespace Nyxis

open Lib Lib.Outcome

/-- WAL magic `NXSW`. -/
def MAGIC_WAL : ℕ := 0x5753584E
def WAL_VERSION : ℕ := 0x0100
def WAL_FLAG_SCHEMA_EMBEDDED : ℕ := 0x0001
/-- 10 MB OOM guard. -/
def MAX_RECORD_BYTES : ℕ := 10 * 1024 * 1024

/-- Identity and position of one record. -/
structure WalEntry where
  traceId : ℕ
  spanId : UInt64
  offset : ℕ
  deriving DecidableEq, Repr

structure SpanFields where
  traceIdHi : Int64
  traceIdLo : Int64
  spanId : Int64
  parentSpanId : Option Int64
  name : String
  service : String
  startTimeNs : Int64
  durationNs : Int64
  statusCode : Int64
  payload : Option Bytes
  deriving DecidableEq, Repr

def SPAN_KEYS : List String :=
  ["trace_id_hi", "trace_id_lo", "span_id", "parent_span_id", "name", "service", "start_time_ns",
    "duration_ns", "status_code", "payload"]

def SPAN_SIGILS : List UInt8 :=
  [SIGIL_INT, SIGIL_INT, SIGIL_INT, SIGIL_INT, SIGIL_STR, SIGIL_STR, SIGIL_TIME, SIGIL_INT, SIGIL_INT,
    SIGIL_BINARY]

/-- The 128-bit trace id from its two halves. -/
def traceIdOf (hi lo : UInt64) : ℕ := hi.toNat * 2 ^ 64 + lo.toNat

def SpanFields.traceId (s : SpanFields) : ℕ := traceIdOf s.traceIdHi.toUInt64 s.traceIdLo.toUInt64

/-! ## Records -/

def writeParent (w : NxsWriter) : Option Int64 → Res NxsWriter
  | some p => w.writeI64 3 p
  | none => w.writeNull 3

def writePayload (w : NxsWriter) : Option Bytes → Res NxsWriter
  | some payload => w.writeBytes 9 payload
  | none => .ok w

/-- Write one span as an object; `append` and `seal` do so alike. -/
def writeSpan (w : NxsWriter) (s : SpanFields) : Res NxsWriter := do
  let w := w.beginObject
  let w ← w.writeI64 0 s.traceIdHi
  let w ← w.writeI64 1 s.traceIdLo
  let w ← w.writeI64 2 s.spanId
  let w ← writeParent w s.parentSpanId
  let w ← w.writeStr 4 s.name
  let w ← w.writeStr 5 s.service
  let w ← w.writeTime 6 s.startTimeNs
  let w ← w.writeI64 7 s.durationNs
  let w ← w.writeI64 8 s.statusCode
  let w ← writePayload w s.payload
  w.endObject

/-- Behind `n` NUL-terminated names. -/
def skipNames (d : Bytes) : ℕ → ℕ → ℕ
  | 0, pos => pos
  | n + 1, pos => skipNames d n (pos + nonNul (d.drop pos) + 1)

/-- The data sector of a complete `.nxb` buffer. -/
def extractDataSector (nxb : Bytes) : Res Bytes := do
  ensure (¬ nxb.length < 32) .outOfBounds
  let preambleTail ← readLE nxb 16 8
  let tailPtr ←
    if preambleTail = 0 then do
      ensure (¬ nxb.length < 44) .outOfBounds
      readLE nxb (nxb.length - 12) 8
    else .ok preambleTail
  ensure (¬ tailPtr > nxb.length) .outOfBounds
  ensure (¬ 32 + 2 > nxb.length) .outOfBounds
  let keyCount ← readLE nxb 32 2
  let pos := align8 (skipNames nxb keyCount (34 + keyCount))
  ensure (¬ pos > tailPtr) .outOfBounds
  range nxb pos tailPtr

/-- The record of a span. -/
def spanRecord (s : SpanFields) : Res Bytes := do
  let w ← writeSpan (NxsWriter.new SPAN_KEYS) s
  let nxb ← w.finish
  extractDataSector nxb.bytes

/-! ## The log -/

/-- The schema in the header of a log, every sigil the default one. -/
def walSchemaBytes : Bytes :=
  padTo 8 (leBytes 2 SPAN_KEYS.length ++ List.replicate SPAN_KEYS.length SIGIL_STR ++
    strTable SPAN_KEYS)

def walHeader : Bytes :=
  leBytes 4 MAGIC_WAL ++ leBytes 2 WAL_VERSION ++ leBytes 2 WAL_FLAG_SCHEMA_EMBEDDED ++
    leBytes 4 walSchemaBytes.length ++ walSchemaBytes

/-- The part of a log that is in memory, its write buffer aside. -/
structure SpanWal where
  index : List WalEntry
  recordCount : ℕ
  /-- Offset of the first record. -/
  dataStart : ℕ
  currentOffset : ℕ
  deriving DecidableEq, Repr

/-- A log just opened; of an existing file the offset is not known before `recover`. -/
def SpanWal.opened (fileExists : Bool) : SpanWal :=
  let dataStart := 8 + 4 + walSchemaBytes.length
  ⟨[], 0, dataStart, if fileExists then 0 else dataStart⟩

/-- Append a span: the new state, and the bytes handed to the write buffer. -/
def SpanWal.append (wal : SpanWal) (s : SpanFields) : Res (SpanWal × Bytes) := do
  let record ← spanRecord s
  let entry := ⟨s.traceId, s.spanId.toUInt64, wal.currentOffset⟩
  .ok (⟨wal.index ++ [entry], wal.recordCount + 1, wal.dataStart,
    wal.currentOffset + record.length⟩, record)

/-! ## Recovery -/

/-- The `i64` of a slot, as the `u64` with its bits. -/
def readSlot (obj : Bytes) (bits : List Bool) (tableStart slot : ℕ) : Opt UInt64 := do
  ensure (bits.getD slot false = true) ()
  let idx := (bits.take slot).count true
  let entry := tableStart + idx * 2
  ensure (¬ entry + 2 > obj.length) ()
  let rel ← readLE obj entry 2
  ensure (¬ rel + 8 > obj.length) ()
  let n ← readLE obj rel 8
  .ok (UInt64.ofNat n)

/-- Trace id and span id of a raw object; its mask may have 17 bytes. -/
def extractTraceSpanId (obj : Bytes) : Opt (ℕ × UInt64) := do
  let (bits, tableStart) ← readMask obj 17 8 []
  ensure (¬ tableStart + bits.count true * 2 > obj.length) ()
  let hi ← readSlot obj bits tableStart 0
  let lo ← readSlot obj bits tableStart 1
  let spanId ← readSlot obj bits tableStart 2
  .ok (traceIdOf hi lo, spanId)

/-- Walk the records from `pos` on: index entries and record count.  The walk ends at the first
position that holds no whole record; the first argument bounds the number of records. -/
def scanRecords (d : Bytes) : ℕ → ℕ → List WalEntry × ℕ
  | 0, _ => ([], 0)
  | fuel + 1, pos =>
    if pos + 8 > d.length then ([], 0)
    else
      let objLen := leNat ((d.drop (pos + 4)).take 4)
      if leNat ((d.drop pos).take 4) ≠ MAGIC_OBJ then ([], 0)
      else if objLen < 8 ∨ objLen > MAX_RECORD_BYTES ∨ pos + objLen > d.length then ([], 0)
      else
        let obj := (d.drop pos).take objLen
        let entry := match extractTraceSpanId obj with
          | .ok (traceId, spanId) => [⟨traceId, spanId, pos⟩]
          | _ => []
        let (index, count) := scanRecords d fuel (pos + objLen)
        (entry ++ index, count + 1)

/-- Rebuild the index by scanning the log file `d`. -/
def SpanWal.recover (wal : SpanWal) (d : Bytes) : Res SpanWal := do
  ensure (8 ≤ d.length) (.ioError "failed to fill whole buffer")
  let magic ← readLE d 0 4
  ensure (magic = MAGIC_WAL) .badMagic
  ensure (12 ≤ d.length) (.ioError "failed to fill whole buffer")
  let schemaLen ← readLE d 8 4
  let (index, count) := scanRecords d (d.length + 1) (12 + schemaLen)
  .ok { wal with index := index, recordCount := count, currentOffset := d.length }

/-! ## Sealing -/

/-- A field of an object by name. -/
def findField {α : Type} (fields : List (String × DecodedValue)) (name : String)
    (f : DecodedValue → Option α) : Option α :=
  fields.findSome? fun field => if field.1 = name then f field.2 else none

def DecodedValue.asInt : DecodedValue → Option Int64
  | .int v | .time v => some v
  | _ => none

def DecodedValue.asStr : DecodedValue → Option String
  | .str s => some s
  | _ => none

def DecodedValue.asBinary : DecodedValue → Option Bytes
  | .binary b => some b
  | _ => none

def DecodedValue.asNull : DecodedValue → Option Unit
  | .null => some ()
  | _ => none

/-- A zero parent is no parent. -/
def parentOf (fields : List (String × DecodedValue)) : Option Int64 :=
  if (findField fields "parent_span_id" DecodedValue.asNull).isSome then none
  else (findField fields "parent_span_id" DecodedValue.asInt).filter (· ≠ 0)

/-- The fields of a span; without a trace id or a span id there is none. -/
def spanOfFields (fields : List (String × DecodedValue)) : Option SpanFields := do
  let hi ← findField fields "trace_id_hi" DecodedValue.asInt
  let lo ← findField fields "trace_id_lo" DecodedValue.asInt
  let spanId ← findField fields "span_id" DecodedValue.asInt
  return {
    traceIdHi := hi
    traceIdLo := lo
    spanId := spanId
    parentSpanId := parentOf fields
    name := (findField fields "name" DecodedValue.asStr).getD ""
    service := (findField fields "service" DecodedValue.asStr).getD ""
    startTimeNs := (findField fields "start_time_ns" DecodedValue.asInt).getD 0
    durationNs := (findField fields "duration_ns" DecodedValue.asInt).getD 0
    statusCode := (findField fields "status_code" DecodedValue.asInt).getD 0
    payload := findField fields "payload" DecodedValue.asBinary }

/-- The span in an object, where it can be decoded. -/
def decodeSpanObject (obj : Bytes) : Outcome NxsError (Option SpanFields) :=
  match decodeRecordAt obj 0 SPAN_KEYS SPAN_SIGILS with
  | .ok fields => .ok (spanOfFields fields)
  | .err _ => .ok none
  | .panic => .panic

/-- Replay one indexed record of the log file `d`; a record that cannot be decoded is left out. -/
def replayEntry (d : Bytes) (w : NxsWriter) (entry : WalEntry) : Res NxsWriter := do
  let hdr := (d.drop entry.offset).take 8
  ensure (hdr.length = 8) (.ioError "failed to fill whole buffer")
  let objLen ← readLE hdr 4 4
  -- `obj_buf[0..8]` of a shorter buffer panics
  demand (8 ≤ objLen)
  let rest := (d.drop (entry.offset + 8)).take (objLen - 8)
  ensure (rest.length = objLen - 8) (.ioError "failed to fill whole buffer")
  let span ← decodeSpanObject (hdr ++ rest)
  match span with
  | some s => writeSpan w s
  | none => .ok w

structure SealReport where
  records : ℕ
  bytesWritten : ℕ
  deriving DecidableEq, Repr

/-- The segment that `seal` writes from the log file `d`, and its report. -/
def SpanWal.seal (wal : SpanWal) (d : Bytes) : Res (Slice × SealReport) := do
  let w ← wal.index.foldlM (replayEntry d) (NxsWriter.new SPAN_KEYS)
  let nxb ← w.finish
  .ok (nxb, ⟨wal.recordCount, nxb.bytes.length⟩)

end Nyxis

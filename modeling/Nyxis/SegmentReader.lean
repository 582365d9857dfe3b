import Nyxis.Wal

/-!
# SegmentReader — queries over sealed segments and a live log

A segment is indexed when it is loaded: each entry of its tail-index is decoded for its trace id.
-/

namespace Nyxis

open Lib Lib.Outcome

/-- A span as the queries return it. -/
structure Span where
  traceId : ℕ
  spanId : UInt64
  parentSpanId : Option UInt64
  name : String
  service : String
  startTimeNs : Int64
  durationNs : Int64
  statusCode : Int64
  payload : Option Bytes
  deriving DecidableEq, Repr

/-! ## Fields -/

def extractTraceId (fields : List (String × DecodedValue)) : Option ℕ := do
  let hi ← findField fields "trace_id_hi" DecodedValue.asInt
  let lo ← findField fields "trace_id_lo" DecodedValue.asInt
  return traceIdOf hi.toUInt64 lo.toUInt64

def fieldsToSpan (fields : List (String × DecodedValue)) : Option Span := do
  let traceId ← extractTraceId fields
  let spanId ← findField fields "span_id" DecodedValue.asInt
  return {
    traceId := traceId
    spanId := spanId.toUInt64
    parentSpanId := (parentOf fields).map Int64.toUInt64
    name := (findField fields "name" DecodedValue.asStr).getD ""
    service := (findField fields "service" DecodedValue.asStr).getD ""
    startTimeNs := (findField fields "start_time_ns" DecodedValue.asInt).getD 0
    durationNs := (findField fields "duration_ns" DecodedValue.asInt).getD 0
    statusCode := (findField fields "status_code" DecodedValue.asInt).getD 0
    payload := findField fields "payload" DecodedValue.asBinary }

/-! ## Segments -/

structure SealedSegment where
  data : Slice
  /-- Trace id and absolute offset of each record, in the order of the tail-index. -/
  index : List (ℕ × ℕ)
  keys : List String
  sigils : List UInt8

/-- The offsets in the entries of a tail-index; the first argument bounds their number. -/
def tailOffsets (d : Bytes) (tailEnd : ℕ) : ℕ → ℕ → Res (List ℕ)
  | 0, _ => .ok []
  | fuel + 1, pos =>
    if pos + 10 ≤ tailEnd then do
      let absOff ← readLE d (pos + 2) 8
      let rest ← tailOffsets d tailEnd fuel (pos + 10)
      .ok (absOff :: rest)
    else .ok []

/-- The index entry of the record at `absOff`, where it has a trace id. -/
def indexEntry (d : Bytes) (keys : List String) (sigils : List UInt8) (absOff : ℕ) :
    Res (Option (ℕ × ℕ)) := do
  let stop ← usizeAdd absOff 8
  if stop ≤ d.length then do
    let fields ← orEmpty (decodeRecordAt d absOff keys sigils)
    .ok ((extractTraceId fields).map fun traceId => (traceId, absOff))
  else .ok none

def SealedSegment.load (file : Slice) : Res SealedSegment := do
  let decoded ← decode file
  let d := file.bytes
  let offsets ← tailOffsets d (d.length - 12) d.length decoded.tailStart
  let entries ← offsets.mapM (indexEntry d decoded.keys decoded.keySigils)
  .ok ⟨file, entries.filterMap id, decoded.keys, decoded.keySigils⟩

def SealedSegment.decodeSpanAt (seg : SealedSegment) (absOff : ℕ) : Res Span := do
  let fields ← decodeRecordAt seg.data.bytes absOff seg.keys seg.sigils
  okOr (ofOption (fieldsToSpan fields)) .outOfBounds

/-- A result that is kept where it is `Ok`. -/
def keepOk {α : Type} : Res α → Res (Option α)
  | .ok a => .ok (some a)
  | .err _ => .ok none
  | .panic => .panic

/-- The spans of a trace in a segment. -/
def SealedSegment.spansOf (seg : SealedSegment) (traceId : ℕ) : Res (List Span) := do
  let spans ← (seg.index.filter fun e => e.1 == traceId).mapM fun e => keepOk (seg.decodeSpanAt e.2)
  .ok (spans.filterMap id)

/-! ## The live log -/

/-- A log as it was when the reader was opened, with the bytes of its file. -/
structure WalReader where
  wal : SpanWal
  data : Bytes

def decodeSpanFromRaw (d : Bytes) (offset : ℕ) : Res (Option Span) := do
  let stop ← usizeAdd offset 4
  if stop > d.length then .ok none
  else do
    let magic ← readLE d offset 4
    if magic ≠ MAGIC_OBJ then .ok none
    else do
      let fields ← keepOk (decodeRecordAt d offset SPAN_KEYS SPAN_SIGILS)
      .ok (fields.bind fieldsToSpan)

def WalReader.spansOf (wr : WalReader) (traceId : ℕ) : Res (List Span) := do
  let entries := wr.wal.index.filter fun e => e.traceId == traceId
  let spans ← entries.mapM fun e => decodeSpanFromRaw wr.data e.offset
  .ok (spans.filterMap id)

/-! ## Readers -/

/-- A file of the directory that a reader is opened on, by its extension. -/
inductive DirEntry where
  | nxb (name : String) (file : Slice)
  | nxsw (file : Bytes)
  | other

structure SegmentReader where
  /-- Name and contents of each segment, sorted by name. -/
  segments : List (String × SealedSegment)
  wal : Option WalReader

/-- One file; of several logs the last one is kept. -/
def readEntry (acc : List (String × SealedSegment) × Option Bytes) :
    DirEntry → Res (List (String × SealedSegment) × Option Bytes)
  | .nxb name file => do
    let seg ← SealedSegment.load file
    .ok (acc.1 ++ [(name, seg)], acc.2)
  | .nxsw file => .ok (acc.1, some file)
  | .other => .ok acc

def openWal : Option Bytes → Res (Option WalReader)
  | none => .ok none
  | some d => do
    let wal ← (SpanWal.opened true).recover d
    .ok (some ⟨wal, d⟩)

namespace SegmentReader

/-- `SegmentReader::open`; `openDir` because `open` is a keyword. -/
def openDir (entries : List DirEntry) : Res SegmentReader := do
  let (segments, walFile) ← entries.foldlM readEntry ([], none)
  let wal ← openWal walFile
  .ok ⟨segments.mergeSort fun a b => decide (a.1 ≤ b.1), wal⟩

/-- All spans of a trace, sorted by their start. -/
def findByTrace (r : SegmentReader) (traceId : ℕ) : Res (List Span) := do
  let sealedSpans ← r.segments.mapM fun seg => seg.2.spansOf traceId
  let walSpans ← match r.wal with
    | some wr => wr.spansOf traceId
    | none => .ok []
  .ok ((sealedSpans.flatten ++ walSpans).mergeSort fun a b => decide (a.startTimeNs ≤ b.startTimeNs))

/-- The number of records in the indices of the segments. -/
def sealedRecords (r : SegmentReader) : ℕ := (r.segments.map fun seg => seg.2.index.length).sum

end SegmentReader

end Nyxis

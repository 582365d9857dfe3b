import Nyxis.Compact.Record
import Nyxis.Layout

/-!
# Writer — the row-layout writer

`NxsWriter` appends one object for every record to its buffer: `beginObject` reserves the header,
the typed write methods append values and note their offsets, `endObject` patches the header.  With
compact options it collects the cells instead, and `finish` encodes them once the schema is known.
`finishRow` writes a list of rows.
-/

namespace Nyxis

open Lib Lib.Outcome

/-- The object that is being written. -/
structure Frame where
  start : ℕ
  bitmask : Bytes
  offsetTable : List ℕ
  lastSlot : ℤ
  needsSort : Bool
  slotOffsets : List (ℕ × ℕ)
  compactCells : List (ℕ × CompactCell)
  deriving DecidableEq, Repr

/-- A writer over the keys of a schema; the innermost open object is the first frame. -/
structure NxsWriter where
  keys : List String
  buf : Bytes
  frames : List Frame
  recordOffsets : List ℕ
  slotSigils : List UInt8
  compact : Option CompactOptions
  intMin : List Int64
  intMax : List Int64
  stringCols : List (List String)
  pendingRecords : List (List (ℕ × CompactCell))
  deriving DecidableEq, Repr

/-- `Schema::bitmask_bytes`: a bitmask byte for every seven slots. -/
def bitmaskLen (n : ℕ) : ℕ := max ((n + 6) / 7) 1

/-- A LEB128 bitmask without any slot set. -/
def emptyBitmask (n : ℕ) : Bytes := List.replicate (bitmaskLen n - 1) 0x80 ++ [0]

/-- A sort by slot.  `sort_unstable_by_key` leaves open in which order the entries of one slot come. -/
structure SlotSort where
  sort : List (ℕ × ℕ) → List (ℕ × ℕ)
  perm : ∀ l, (sort l).Perm l
  sorted : ∀ l, (sort l).Pairwise fun a b => a.1 ≤ b.1

/-- The sort that keeps the order of the entries of one slot. -/
def SlotSort.stable : SlotSort where
  sort := fun l => l.mergeSort fun a b => decide (a.1 ≤ b.1)
  perm := fun l => List.mergeSort_perm l _
  sorted := fun l => by
    have h : (l.mergeSort fun a b => decide (a.1 ≤ b.1)).Pairwise fun a b => decide (a.1 ≤ b.1) = true :=
      List.pairwise_mergeSort (fun a b c hab hbc => by
        rw [decide_eq_true_iff] at *
        exact Nat.le_trans hab hbc)
      (fun a b => by
        rw [Bool.or_eq_true, decide_eq_true_iff, decide_eq_true_iff]
        exact Nat.le_total a.1 b.1) l
    exact h.imp fun hab => of_decide_eq_true hab

/-- `buf[off..off + seg.len()].copy_from_slice(seg)`. -/
def patch (buf : Bytes) (off : ℕ) (seg : Bytes) : Res Bytes := do
  demand (off + seg.length ≤ buf.length)
  .ok (buf.take off ++ seg ++ buf.drop (off + seg.length))

/-- What a write does to the sigils of the slots. -/
def noteSigil (sigils : List UInt8) (slot : ℕ) (sigil : UInt8) : List UInt8 :=
  let cur := sigils.getD slot 0
  if cur = 0 ∨ (cur = SIGIL_NULL ∧ sigil ≠ SIGIL_NULL) then sigils.set slot sigil else sigils

namespace NxsWriter

def withCompact (keys : List String) (compact : Option CompactOptions) : NxsWriter where
  keys := keys
  buf := []
  frames := []
  recordOffsets := []
  slotSigils := List.replicate keys.length 0
  compact := compact
  intMin := List.replicate keys.length Int64.maxValue
  intMax := List.replicate keys.length Int64.minValue
  stringCols := List.replicate keys.length []
  pendingRecords := []

def new (keys : List String) : NxsWriter := withCompact keys none

/-! ## Objects -/

def beginObject (w : NxsWriter) : NxsWriter :=
  let start := w.buf.length
  match w.compact with
  | some _ => { w with frames := ⟨start, [], [], -1, false, [], []⟩ :: w.frames }
  | none =>
    let offsets := if w.frames.isEmpty then w.recordOffsets ++ [start % 2 ^ 32] else w.recordOffsets
    let bitmask := emptyBitmask w.keys.length
    let header := leBytes 4 MAGIC_OBJ ++ leBytes 4 0 ++ bitmask ++ zeros (w.keys.length * 2)
    { w with
      buf := w.buf ++ padTo 8 header
      frames := ⟨start, bitmask, [], -1, false, [], []⟩ :: w.frames
      recordOffsets := offsets }

/-- The offset table of a closed object, in slot order. -/
def frameOffsets (sorter : SlotSort) (frame : Frame) : Res (List ℕ) :=
  if frame.needsSort then
    (sorter.sort frame.slotOffsets).mapM fun e => do
      let rel ← usizeSub e.2 frame.start
      .ok (rel % 65536)
  else .ok frame.offsetTable

def endObjectBy (sorter : SlotSort) (w : NxsWriter) : Res NxsWriter :=
  match w.frames with
  | [] => .panic
  | frame :: frames =>
    match w.compact with
    | some _ =>
      .ok { w with frames := frames, pendingRecords := w.pendingRecords ++ [frame.compactCells] }
    | none => do
      let totalLen := w.buf.length - frame.start
      let buf ← patch w.buf (frame.start + 4) (leBytes 4 totalLen)
      let buf ← patch buf (frame.start + 8) frame.bitmask
      let tableStart := frame.start + 8 + frame.bitmask.length
      let offsets ← frameOffsets sorter frame
      let buf ← patch buf tableStart (offsets.flatMap (leBytes 2))
      let usedBytes := frame.offsetTable.length * 2
      let buf ← patch buf (tableStart + usedBytes) (zeros (w.keys.length * 2 - usedBytes))
      .ok { w with buf := buf, frames := frames }

def endObject (w : NxsWriter) : Res NxsWriter := w.endObjectBy SlotSort.stable

/-! ## Values -/

/-- The first sigil of a slot stays, except that any sigil replaces `^`. -/
def markSlotSigil (w : NxsWriter) (slot : ℕ) (sigil : UInt8) : NxsWriter :=
  let cur := w.slotSigils.getD slot 0
  if cur = 0 ∨ (cur = SIGIL_NULL ∧ sigil ≠ SIGIL_NULL) then
    { w with slotSigils := w.slotSigils.set slot sigil }
  else w

theorem markSlotSigil_eq (w : NxsWriter) (slot : ℕ) (sigil : UInt8) :
    w.markSlotSigil slot sigil = { w with slotSigils := noteSigil w.slotSigils slot sigil } := by
  rw [markSlotSigil, noteSigil]
  split <;> rfl

/-- Note that the value of `slot` comes next. -/
def markSlot (w : NxsWriter) (slot : ℕ) : Res NxsWriter :=
  match w.frames with
  | [] => .panic
  | frame :: frames => do
    let byte ← index frame.bitmask (slot / 7)
    let rel := (w.buf.length - frame.start) % 65536
    .ok { w with frames := { frame with
      bitmask := frame.bitmask.set (slot / 7) (byte ||| UInt8.ofNat (2 ^ (slot % 7)))
      offsetTable := frame.offsetTable ++ [rel]
      lastSlot := slot
      needsSort := frame.needsSort || decide ((slot : ℤ) < frame.lastSlot)
      slotOffsets := frame.slotOffsets ++ [(slot, w.buf.length % 2 ^ 32)] } :: frames }

def pushCompact (w : NxsWriter) (slot : ℕ) (cell : CompactCell) : NxsWriter :=
  match w.frames with
  | [] => w
  | frame :: frames =>
    { w with frames := { frame with compactCells := frame.compactCells ++ [(slot, cell)] } :: frames }

/-- Append a value to the open object. -/
def writeBytesAt (w : NxsWriter) (slot : ℕ) (bytes : Bytes) : Res NxsWriter := do
  let w ← w.markSlot slot
  .ok { w with buf := w.buf ++ bytes }

/-- A value that a compact writer keeps as a cell. -/
def writeCell (w : NxsWriter) (slot : ℕ) (cell : CompactCell) (bytes : Bytes) : Res NxsWriter :=
  if w.compact.isSome then .ok (w.pushCompact slot cell) else w.writeBytesAt slot bytes

/-- `write_i64` also keeps the range of each slot. -/
def noteInt (w : NxsWriter) (slot : ℕ) (v : Int64) : NxsWriter :=
  { w with
    intMin := w.intMin.set slot (min (w.intMin.getD slot 0) v)
    intMax := w.intMax.set slot (max (w.intMax.getD slot 0) v) }

/-- `write_str` also keeps the strings of each slot. -/
def noteStr (w : NxsWriter) (slot : ℕ) (v : String) : NxsWriter :=
  { w with stringCols := w.stringCols.set slot (w.stringCols.getD slot [] ++ [v]) }

/-- A length-prefixed value, padded to eight bytes. -/
def prefixed (b : Bytes) : Bytes := padTo 8 (leBytes 4 b.length ++ b)

theorem prefixed_size (b : Bytes) : (prefixed b).length = 4 + b.length + padLen 8 (4 + b.length) := by
  rw [prefixed, padTo_length, List.length_append, leBytes_length]

def writeI64 (w : NxsWriter) (slot : ℕ) (v : Int64) : Res NxsWriter :=
  ((w.markSlotSigil slot SIGIL_INT).noteInt slot v).writeCell slot (.i64 v) (i64Bytes v)

def writeF64 (w : NxsWriter) (slot : ℕ) (v : F64) : Res NxsWriter :=
  (w.markSlotSigil slot SIGIL_FLOAT).writeCell slot (.f64 v) (f64Bytes v)

def writeBool (w : NxsWriter) (slot : ℕ) (v : Bool) : Res NxsWriter :=
  (w.markSlotSigil slot SIGIL_BOOL).writeCell slot (.bool v) ((if v then 1 else 0) :: zeros 7)

def writeTime (w : NxsWriter) (slot : ℕ) (v : Int64) : Res NxsWriter :=
  (w.markSlotSigil slot SIGIL_TIME).writeCell slot (.time v) (i64Bytes v)

/-- Unlike the other values, a null is written out under compact options too. -/
def writeNull (w : NxsWriter) (slot : ℕ) : Res NxsWriter :=
  (w.markSlotSigil slot SIGIL_NULL).writeBytesAt slot (zeros 8)

def writeStr (w : NxsWriter) (slot : ℕ) (v : String) : Res NxsWriter :=
  ((w.markSlotSigil slot SIGIL_STR).noteStr slot v).writeCell slot (.str v) (prefixed (utf8 v))

def writeBytes (w : NxsWriter) (slot : ℕ) (v : Bytes) : Res NxsWriter :=
  (w.markSlotSigil slot SIGIL_BINARY).writeBytesAt slot (prefixed v)

/-- A list value: header, element sigil, count, and eight bytes for each element. -/
def listBytes (sigil : UInt8) (elems : List Bytes) : Bytes :=
  leBytes 4 MAGIC_LIST ++ leBytes 4 (16 + elems.length * 8) ++ [sigil] ++ leBytes 4 elems.length ++ zeros 3 ++
    elems.flatten

def writeListI64 (w : NxsWriter) (slot : ℕ) (values : List Int64) : Res NxsWriter :=
  (w.markSlotSigil slot 0x4C).writeBytesAt slot (listBytes SIGIL_INT (values.map i64Bytes))

def writeListF64 (w : NxsWriter) (slot : ℕ) (values : List F64) : Res NxsWriter :=
  (w.markSlotSigil slot 0x4C).writeBytesAt slot (listBytes SIGIL_FLOAT (values.map f64Bytes))

/-! ## The file -/

/-- The schema of a compact file, from what the writer has seen. -/
def buildExtendedSchema (w : NxsWriter) (opts : CompactOptions) : ExtendedSchema :=
  let sigils := w.slotSigils.map schemaSigil
  let widths := if opts.narrowCells then inferNarrowWidths sigils w.intMin w.intMax
    else List.replicate sigils.length 0
  let (attrs, pool) := if opts.keywordPromotion then
      scanKeywordPromotion sigils w.stringCols opts.keywordMaxRatio opts.keywordMinRecords
    else (List.replicate sigils.length 0, [])
  let widths := if opts.narrowCells then
      widths.mapIdx fun i width => if hasFlag (attrs.getD i 0).toNat FIELD_ATTR_PROMOTED then 2 else width
    else widths
  let attrs := if opts.u16StringLengths then scanU16StringLengths sigils w.stringCols attrs else attrs
  ⟨w.keys, sigils, widths, attrs, pool⟩

/-- The encoded records one after the other, and where each of them starts. -/
def encodePending (ext : ExtendedSchema) (opts : CompactOptions) :
    List (List (ℕ × CompactCell)) → Bytes → Res (Bytes × List ℕ)
  | [], data => .ok (data, [])
  | cells :: rest, data => do
    let obj ← expect (encodeCompactRecord cells ext opts)
    let (out, offsets) ← encodePending ext opts rest (data ++ obj)
    .ok (out, data.length % 2 ^ 32 :: offsets)

/-- Entry count, an entry of key id and offset for each record, and the footer. -/
def tailIndexRecords (absOffsets : List ℕ) (tailPtr : ℕ) : Bytes :=
  leBytes 4 absOffsets.length ++
    absOffsets.zipIdx.flatMap (fun e => leBytes 2 e.2 ++ leBytes 8 e.1) ++
    leBytes 8 tailPtr ++ leBytes 4 MAGIC_FOOTER

/-- The file around a data sector with records at the given offsets. -/
def sealRow (version flags : ℕ) (schemaBytes data tail : Bytes) : Res Slice :=
  Slice.ofBytes (preamble version flags (murmur3_64 schemaBytes) 0 ++ schemaBytes ++ data ++ tail)

def finish (w : NxsWriter) : Res Slice := do
  demand (w.frames = []) -- a `debug_assert!`
  match w.compact with
  | none =>
    let schemaBytes := buildSchema w.keys w.slotSigils
    let start := 32 + schemaBytes.length
    let tailPtr := start + w.buf.length
    sealRow VERSION FLAG_SCHEMA_EMBEDDED schemaBytes w.buf
      (tailIndexRecords (w.recordOffsets.map (start + ·)) tailPtr)
  | some opts => do
    let flags := FLAG_SCHEMA_EMBEDDED ||| opts.preambleFlags
    let ext := w.buildExtendedSchema opts
    let schemaBytes := Nyxis.buildExtendedSchema ext opts.preambleFlags
    let (data, offsets) ← encodePending ext opts w.pendingRecords []
    let data := padTo 8 data
    let start := 32 + schemaBytes.length
    let tailPtr := start + data.length
    let absOffsets := offsets.map (start + ·)
    let tail ← if opts.deltaTail then
        expect (buildDeltaTailIndex absOffsets tailPtr opts.deltaBlockSize)
      else .ok (tailIndexRecords absOffsets tailPtr)
    sealRow opts.version flags schemaBytes data tail

end NxsWriter

/-! ## Rows -/

/-- One cell of a row; slots are `u16`. -/
def writeRowCell (w : NxsWriter) (fi : ℕ) (cell : Cell) : Res NxsWriter :=
  let slot := fi % 65536
  match cell with
  | .absent => .ok w
  | .null => w.writeNull slot
  | .i64 v => w.writeI64 slot v
  | .f64 v => w.writeF64 slot v
  | .bool v => w.writeBool slot v
  | .time v => w.writeTime slot v
  | .str v => w.writeStr slot v
  | .binary _ => .err .unsupportedFieldType

def writeRow (w : NxsWriter) (row : RecordRow) : Res NxsWriter := do
  let w ← row.cells.zipIdx.foldlM (fun w c => writeRowCell w c.2 c.1) w.beginObject
  w.endObject

def finishRow (keys : List String) (rows : List RecordRow) (compact : Option CompactOptions) :
    Res Slice := do
  let w ← rows.foldlM writeRow (NxsWriter.withCompact keys compact)
  w.finish

end Nyxis

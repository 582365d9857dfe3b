import Nyxis.Object

/-!
# RowRecord — the v1.2 records of a row writer

A row writer opens an object, writes the cells of a row into ascending slots and closes the object.
`Wrote` is what it holds in between.

* `writeRow_ok`: a row leaves the object of its cells behind the bytes that were there.
* `writeRows_ok`: the rows of a table leave their objects one after the other.
-/

namespace Nyxis

open Lib Lib.Outcome
open NxsWriter (prefixed)

/-! ## Writing cells -/

/-- A writer `w` becomes `w'` by opening an object behind `base` and writing cells into slots below
`next`. -/
structure Wrote (w w' : NxsWriter) (base : Bytes) (cells : List (ℕ × Bytes)) (next : ℕ)
    (sigils : List UInt8) : Prop where
  writing : Writing w' base cells
  below : ∀ c ∈ cells, c.1 < next
  keys : w'.keys = w.keys
  recordOffsets : w'.recordOffsets = w.recordOffsets ++ [w.buf.length % 2 ^ 32]
  slotSigils : w'.slotSigils = sigils

/-- `w₁` is `w` with the sigil of a value noted, and what else is kept of the value. -/
structure Noted (w w₁ : NxsWriter) (slot : ℕ) (sigil : UInt8) : Prop where
  keys : w₁.keys = w.keys
  compact : w₁.compact = w.compact
  buf : w₁.buf = w.buf
  frames : w₁.frames = w.frames
  recordOffsets : w₁.recordOffsets = w.recordOffsets
  slotSigils : w₁.slotSigils = noteSigil w.slotSigils slot sigil

namespace Wrote

variable {w w' : NxsWriter} {base : Bytes} {cells : List (ℕ × Bytes)} {next slot : ℕ}
  {sigils : List UInt8}

theorem put (h : Wrote w w' base cells next sigils) {w₁ : NxsWriter} {sigil : UInt8}
    (hnoted : Noted w' w₁ slot sigil) (hnext : next ≤ slot)
    (hslot : slot / 7 < bitmaskLen w.keys.length) (bytes : Bytes) :
    ∃ w'', w₁.writeBytesAt slot bytes = .ok w'' ∧
      Wrote w w'' base (cells ++ [(slot, bytes)]) (slot + 1) (noteSigil sigils slot sigil) := by
  have hw₁ := h.writing.of_same hnoted.keys hnoted.compact hnoted.buf hnoted.frames
  have hfit : slot / 7 < bitmaskLen w₁.keys.length := by
    rw [hnoted.keys, h.keys]
    exact hslot
  obtain ⟨w'', hw'', hwriting, hsame, hsig⟩ := hw₁.mark hfit (fun c hc => (h.below c hc).trans_le hnext) bytes
  refine ⟨w'', hw'', hwriting, ?_, ?_, ?_, ?_⟩
  · intro c hc
    rcases List.mem_append.mp hc with hc | hc
    · have := h.below c hc
      omega
    · rw [List.mem_singleton.mp hc]
      exact Nat.lt_succ_self slot
  · rw [hsame.keys, hnoted.keys, h.keys]
  · rw [hsame.recordOffsets, hnoted.recordOffsets, h.recordOffsets]
  · rw [hsig, hnoted.slotSigils, h.slotSigils]

/-- A writer without compact options appends the bytes of a value. -/
theorem writeCell_plain {w₁ : NxsWriter} (h : w₁.compact = none) (slot : ℕ) (cell : CompactCell) (bytes : Bytes) :
    w₁.writeCell slot cell bytes = w₁.writeBytesAt slot bytes := by
  rw [NxsWriter.writeCell, h]
  rfl

theorem writeI64 (h : Wrote w w' base cells next sigils) (hnext : next ≤ slot)
    (hslot : slot / 7 < bitmaskLen w.keys.length) (v : Int64) :
    ∃ w'', w'.writeI64 slot v = .ok w'' ∧
      Wrote w w'' base (cells ++ [(slot, i64Bytes v)]) (slot + 1) (noteSigil sigils slot SIGIL_INT) := by
  rw [NxsWriter.writeI64, NxsWriter.markSlotSigil_eq, writeCell_plain]
  · exact h.put (by constructor <;> rfl) hnext hslot _
  · exact h.writing.plain

theorem writeTime (h : Wrote w w' base cells next sigils) (hnext : next ≤ slot)
    (hslot : slot / 7 < bitmaskLen w.keys.length) (v : Int64) :
    ∃ w'', w'.writeTime slot v = .ok w'' ∧
      Wrote w w'' base (cells ++ [(slot, i64Bytes v)]) (slot + 1) (noteSigil sigils slot SIGIL_TIME) := by
  rw [NxsWriter.writeTime, NxsWriter.markSlotSigil_eq, writeCell_plain]
  · exact h.put (by constructor <;> rfl) hnext hslot _
  · exact h.writing.plain

theorem writeF64 (h : Wrote w w' base cells next sigils) (hnext : next ≤ slot)
    (hslot : slot / 7 < bitmaskLen w.keys.length) (v : F64) :
    ∃ w'', w'.writeF64 slot v = .ok w'' ∧
      Wrote w w'' base (cells ++ [(slot, f64Bytes v)]) (slot + 1) (noteSigil sigils slot SIGIL_FLOAT) := by
  rw [NxsWriter.writeF64, NxsWriter.markSlotSigil_eq, writeCell_plain]
  · exact h.put (by constructor <;> rfl) hnext hslot _
  · exact h.writing.plain

theorem writeBool (h : Wrote w w' base cells next sigils) (hnext : next ≤ slot)
    (hslot : slot / 7 < bitmaskLen w.keys.length) (v : Bool) :
    ∃ w'', w'.writeBool slot v = .ok w'' ∧
      Wrote w w'' base (cells ++ [(slot, (if v then 1 else 0) :: zeros 7)]) (slot + 1)
        (noteSigil sigils slot SIGIL_BOOL) := by
  rw [NxsWriter.writeBool, NxsWriter.markSlotSigil_eq, writeCell_plain]
  · exact h.put (by constructor <;> rfl) hnext hslot _
  · exact h.writing.plain

theorem writeNull (h : Wrote w w' base cells next sigils) (hnext : next ≤ slot)
    (hslot : slot / 7 < bitmaskLen w.keys.length) :
    ∃ w'', w'.writeNull slot = .ok w'' ∧
      Wrote w w'' base (cells ++ [(slot, zeros 8)]) (slot + 1) (noteSigil sigils slot SIGIL_NULL) := by
  rw [NxsWriter.writeNull, NxsWriter.markSlotSigil_eq]
  exact h.put (by constructor <;> rfl) hnext hslot _

theorem writeStr (h : Wrote w w' base cells next sigils) (hnext : next ≤ slot)
    (hslot : slot / 7 < bitmaskLen w.keys.length) (v : String) :
    ∃ w'', w'.writeStr slot v = .ok w'' ∧
      Wrote w w'' base (cells ++ [(slot, prefixed (utf8 v))]) (slot + 1)
        (noteSigil sigils slot SIGIL_STR) := by
  rw [NxsWriter.writeStr, NxsWriter.markSlotSigil_eq, writeCell_plain]
  · exact h.put (by constructor <;> rfl) hnext hslot _
  · exact h.writing.plain

theorem writeBytes (h : Wrote w w' base cells next sigils) (hnext : next ≤ slot)
    (hslot : slot / 7 < bitmaskLen w.keys.length) (v : Bytes) :
    ∃ w'', w'.writeBytes slot v = .ok w'' ∧
      Wrote w w'' base (cells ++ [(slot, prefixed v)]) (slot + 1)
        (noteSigil sigils slot SIGIL_BINARY) := by
  rw [NxsWriter.writeBytes, NxsWriter.markSlotSigil_eq]
  exact h.put (by constructor <;> rfl) hnext hslot _

end Wrote

/-! ## Rows -/

/-- The bytes of a cell's value, of one that has a value in a row file. -/
def Cell.rowBytes : Cell → Option Bytes
  | .absent => none
  | .null => some (zeros 8)
  | .i64 v => some (i64Bytes v)
  | .f64 v => some (f64Bytes v)
  | .bool v => some ((if v then 1 else 0) :: zeros 7)
  | .time v => some (i64Bytes v)
  | .str v => some (prefixed (utf8 v))
  | .binary _ => none

/-- The slots of some cells, the first of them at `fi`, with the bytes of their values. -/
def cellValues : ℕ → List Cell → List (ℕ × Bytes)
  | _, [] => []
  | fi, c :: cells => (c.rowBytes.elim [] fun b => [(fi, b)]) ++ cellValues (fi + 1) cells

/-- The object that a row is written as. -/
def rowValues (row : RecordRow) : List (ℕ × Bytes) := cellValues 0 row.cells

/-- The sigils of the slots once some cells are written, the first of them at `fi`. -/
def noteCells : ℕ → List Cell → List UInt8 → List UInt8
  | _, [], sigils => sigils
  | fi, c :: cells, sigils => noteCells (fi + 1) cells (if c = .absent then sigils else noteSigil sigils fi c.sigil)

theorem div_lt_bitmaskLen {slot n : ℕ} (h : slot < n) : slot / 7 < bitmaskLen n := by
  unfold bitmaskLen
  omega

namespace Wrote

variable {w w' : NxsWriter} {base : Bytes} {values : List (ℕ × Bytes)} {next fi : ℕ} {sigils : List UInt8}

theorem skip (h : Wrote w w' base values next sigils) (hnext : next ≤ fi) : Wrote w w' base values fi sigils :=
  ⟨h.writing, fun c hc => (h.below c hc).trans_le hnext, h.keys, h.recordOffsets, h.slotSigils⟩

/-- Writing a cell of a row. -/
theorem writeRowCell (h : Wrote w w' base values next sigils) (hnext : next ≤ fi) (hfi : fi < w.keys.length)
    (hlen : w.keys.length < 65536) {c : Cell} (hbin : ∀ b, c ≠ .binary b) :
    ∃ w'', writeRowCell w' fi c = .ok w'' ∧
      Wrote w w'' base (values ++ c.rowBytes.elim [] fun b => [(fi, b)]) (fi + 1)
        (if c = .absent then sigils else noteSigil sigils fi c.sigil) := by
  have hslot := div_lt_bitmaskLen hfi
  have hmod : fi % 65536 = fi := Nat.mod_eq_of_lt (by omega)
  unfold Nyxis.writeRowCell
  rw [hmod]
  cases c with
  | absent =>
    refine ⟨w', rfl, ?_⟩
    rw [Cell.rowBytes, Option.elim_none, List.append_nil, if_pos rfl]
    exact h.skip (hnext.trans (Nat.le_succ fi))
  | null => exact h.writeNull hnext hslot
  | i64 v => exact h.writeI64 hnext hslot v
  | f64 v => exact h.writeF64 hnext hslot v
  | bool v => exact h.writeBool hnext hslot v
  | time v => exact h.writeTime hnext hslot v
  | str v => exact h.writeStr hnext hslot v
  | binary b => exact absurd rfl (hbin b)

/-- Writing the cells of a row from `fi` on. -/
theorem writeCells (hlen : w.keys.length < 65536) : ∀ {cells : List Cell} {w' : NxsWriter} {values : List (ℕ × Bytes)}
    {fi : ℕ} {sigils : List UInt8}, Wrote w w' base values fi sigils → fi + cells.length ≤ w.keys.length →
    (∀ c ∈ cells, ∀ b, c ≠ .binary b) →
      ∃ w'', (cells.zipIdx fi).foldlM (fun w c => Nyxis.writeRowCell w c.2 c.1) w' = .ok w'' ∧
        Wrote w w'' base (values ++ cellValues fi cells) (fi + cells.length) (noteCells fi cells sigils)
  | [], w', values, fi, sigils, h, _, _ => by
    refine ⟨w', rfl, ?_⟩
    rw [cellValues, List.append_nil]
    exact h
  | c :: cells, w', values, fi, sigils, h, hfit, hbin => by
    rw [List.length_cons] at hfit
    obtain ⟨w₁, hw₁, h₁⟩ := h.writeRowCell (Nat.le_refl fi) (by omega) hlen (hbin c List.mem_cons_self)
    obtain ⟨w₂, hw₂, h₂⟩ := writeCells hlen h₁ (by omega) fun c' hc' => hbin c' (List.mem_cons_of_mem c hc')
    refine ⟨w₂, ?_, ?_⟩
    · rw [List.zipIdx_cons, List.foldlM_cons, hw₁, ok_bind, hw₂]
    · rw [cellValues, noteCells, ← List.append_assoc, List.length_cons, show fi + (cells.length + 1) = fi + 1 + cells.length by omega]
      exact h₂

end Wrote

/-- A row has no cell behind the keys and no binary one. -/
structure RowFits (keys : List String) (row : RecordRow) : Prop where
  length : row.cells.length ≤ keys.length
  notBinary : ∀ c ∈ row.cells, ∀ b, c ≠ .binary b

/-- A row writer between two objects. -/
structure RowWriter (keys : List String) (w : NxsWriter) : Prop where
  plain : w.compact = none
  frames : w.frames = []
  keys : w.keys = keys

theorem RowWriter.new (keys : List String) : RowWriter keys (NxsWriter.withCompact keys none) := ⟨rfl, rfl, rfl⟩

theorem cellValues_length : ∀ (fi : ℕ) (cells : List Cell), (cellValues fi cells).length ≤ cells.length
  | _, [] => Nat.le_refl 0
  | fi, c :: cells => by
    have ih := cellValues_length (fi + 1) cells
    rw [cellValues, List.length_append, List.length_cons]
    cases c.rowBytes with
    | none =>
      rw [Option.elim_none, List.length_nil]
      omega
    | some b =>
      rw [Option.elim_some, List.length_singleton]
      omega

/-- Writing a row appends its object. -/
theorem writeRow_ok {keys : List String} {w : NxsWriter} {row : RecordRow} (h : RowWriter keys w)
    (hlen : keys.length < 65536) (hrow : RowFits keys row) :
    ∃ w', writeRow w row = .ok w' ∧ RowWriter keys w' ∧
      w'.buf = w.buf ++ objectBytes keys.length (rowValues row) ∧
      w'.recordOffsets = w.recordOffsets ++ [w.buf.length % 2 ^ 32] ∧
      w'.slotSigils = noteCells 0 row.cells w.slotSigils := by
  have hkeys := h.keys
  obtain ⟨hopen, hkeys', hoffsets⟩ := Writing.begin_object h.plain h.frames
  have hsig : w.beginObject.slotSigils = w.slotSigils := by
    rw [NxsWriter.beginObject, h.plain]
  have h0 : Wrote w w.beginObject w.buf [] 0 w.slotSigils :=
    ⟨hopen, fun c hc => absurd hc List.not_mem_nil, hkeys', hoffsets, hsig⟩
  have hfit := hrow.length
  obtain ⟨w₁, hw₁, h₁⟩ := Wrote.writeCells (by rwa [hkeys]) h0 (by rw [hkeys]; omega) hrow.notBinary
  have hcount := cellValues_length 0 row.cells
  obtain ⟨w₂, hw₂, hbuf, hframes, hsame, hsigils⟩ := h₁.writing.close (by
    rw [h₁.keys, hkeys]
    exact hcount.trans hfit)
  refine ⟨w₂, ?_, ⟨hsame.compact.trans h₁.writing.plain, hframes, ?_⟩, ?_, ?_, ?_⟩
  · rw [writeRow, hw₁, ok_bind, hw₂]
  · rw [hsame.keys, h₁.keys, hkeys]
  · rw [hbuf, h₁.keys, hkeys]
    rfl
  · rw [hsame.recordOffsets, h₁.recordOffsets]
  · rw [hsigils, h₁.slotSigils]

/-! ## Tables -/

/-- The objects of some rows. -/
def rowsBytes (n : ℕ) (rows : List RecordRow) : Bytes := rows.flatMap fun row => objectBytes n (rowValues row)

/-- Where objects of the given lengths start, the first of them at `pos`. -/
def startsFrom : ℕ → List ℕ → List ℕ
  | _, [] => []
  | pos, len :: lens => pos :: startsFrom (pos + len) lens

/-- Where the objects of some rows start. -/
def rowStarts (n : ℕ) (rows : List RecordRow) : List ℕ :=
  startsFrom 0 (rows.map fun row => objectLen n (rowValues row))

theorem startsFrom_append : ∀ (lens lens' : List ℕ) (pos : ℕ),
    startsFrom pos (lens ++ lens') = startsFrom pos lens ++ startsFrom (pos + lens.sum) lens'
  | [], _, _ => rfl
  | len :: lens, lens', pos => by
    rw [List.cons_append, startsFrom, startsFrom, startsFrom_append lens lens', List.cons_append, List.sum_cons,
      Nat.add_assoc]

@[simp] theorem startsFrom_length : ∀ (lens : List ℕ) (pos : ℕ), (startsFrom pos lens).length = lens.length
  | [], _ => rfl
  | len :: lens, pos => by
    rw [startsFrom, List.length_cons, List.length_cons, startsFrom_length lens]

theorem startsFrom_getElem? {lens : List ℕ} {i : ℕ} (pos : ℕ) (hi : i < lens.length) :
    (startsFrom pos lens)[i]? = some (pos + (lens.take i).sum) := by
  induction lens generalizing pos i with
  | nil => exact absurd hi (Nat.not_lt_zero i)
  | cons len lens ih =>
    cases i with
    | zero => rfl
    | succ i =>
      rw [startsFrom, List.getElem?_cons_succ, ih (pos + len) (by simpa using hi), List.take_succ_cons, List.sum_cons,
        Nat.add_assoc]

theorem rowValues_length {keys : List String} {row : RecordRow} (h : RowFits keys row) :
    (rowValues row).length ≤ keys.length :=
  (cellValues_length 0 row.cells).trans h.length

theorem rowsBytes_length {keys : List String} {rows : List RecordRow} (h : ∀ row ∈ rows, RowFits keys row) :
    (rowsBytes keys.length rows).length = (rows.map fun row => objectLen keys.length (rowValues row)).sum := by
  rw [rowsBytes, List.length_flatMap]
  congr 1
  exact List.map_congr_left fun row hrow => objectBytes_length (rowValues_length (h row hrow))

/-- The writer of a v1.2 table once its rows are written. -/
structure WroteRows (keys : List String) (w : NxsWriter) (rows : List RecordRow) : Prop where
  writer : RowWriter keys w
  buf : w.buf = rowsBytes keys.length rows
  recordOffsets : w.recordOffsets = (rowStarts keys.length rows).map (· % 2 ^ 32)
  slotSigils : w.slotSigils = rows.foldl (fun sigils row => noteCells 0 row.cells sigils) (List.replicate keys.length 0)

theorem WroteRows.new (keys : List String) : WroteRows keys (NxsWriter.withCompact keys none) [] :=
  ⟨RowWriter.new keys, rfl, rfl, rfl⟩

theorem WroteRows.concat {keys : List String} {w : NxsWriter} {rows : List RecordRow} {row : RecordRow}
    (h : WroteRows keys w rows) (hlen : keys.length < 65536) (hrows : ∀ row ∈ rows, RowFits keys row)
    (hrow : RowFits keys row) : ∃ w', writeRow w row = .ok w' ∧ WroteRows keys w' (rows ++ [row]) := by
  obtain ⟨w', hw', hwriter, hbuf, hoffsets, hsigils⟩ := writeRow_ok h.writer hlen hrow
  refine ⟨w', hw', hwriter, ?_, ?_, ?_⟩
  · rw [hbuf, h.buf, rowsBytes, rowsBytes, List.flatMap_append, List.flatMap_singleton]
  · rw [hoffsets, h.recordOffsets, h.buf, rowsBytes_length hrows, rowStarts, rowStarts, List.map_append,
      startsFrom_append, List.map_append, Nat.zero_add]
    rfl
  · rw [hsigils, h.slotSigils, List.foldl_append]
    rfl

/-- The rows of a table leave their objects one after the other. -/
theorem writeRows_ok {keys : List String} (hlen : keys.length < 65536) : ∀ {rows before : List RecordRow} {w : NxsWriter},
    WroteRows keys w before → (∀ row ∈ before, RowFits keys row) → (∀ row ∈ rows, RowFits keys row) →
      ∃ w', rows.foldlM writeRow w = .ok w' ∧ WroteRows keys w' (before ++ rows)
  | [], before, w, h, _, _ => by
    refine ⟨w, rfl, ?_⟩
    rw [List.append_nil]
    exact h
  | row :: rows, before, w, h, hbefore, hrows => by
    have hrow := hrows row List.mem_cons_self
    obtain ⟨w₁, hw₁, h₁⟩ := h.concat hlen hbefore hrow
    have hall : ∀ r ∈ before ++ [row], RowFits keys r := by
      intro r hr
      rcases List.mem_append.mp hr with hr | hr
      · exact hbefore r hr
      · rw [List.mem_singleton.mp hr]
        exact hrow
    obtain ⟨w₂, hw₂, h₂⟩ := writeRows_ok hlen h₁ hall fun r hr => hrows r (List.mem_cons_of_mem row hr)
    refine ⟨w₂, ?_, ?_⟩
    · rw [List.foldlM_cons, hw₁, ok_bind, hw₂]
    · rw [List.append_assoc, List.singleton_append] at h₂
      exact h₂

/-- The entries of a tail-index. -/
def tailEntries (absOffsets : List ℕ) : Bytes :=
  absOffsets.zipIdx.flatMap fun e => leBytes 2 e.2 ++ leBytes 8 e.1

theorem tailEntries_length (absOffsets : List ℕ) :
    (tailEntries absOffsets).length = absOffsets.length * 10 := by
  rw [tailEntries, length_flatMap_const (w := 10), List.length_zipIdx]
  intro e _
  simp

theorem tailIndexRecords_eq (absOffsets : List ℕ) (tailPtr : ℕ) :
    NxsWriter.tailIndexRecords absOffsets tailPtr = leBytes 4 absOffsets.length ++
      tailEntries absOffsets ++ leBytes 8 tailPtr ++ leBytes 4 MAGIC_FOOTER := rfl

end Nyxis

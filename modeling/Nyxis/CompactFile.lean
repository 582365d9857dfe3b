import Nyxis.Compact.TailIndex
import Nyxis.RecordReads
import Nyxis.RowFile
import Nyxis.ValuePool

/-!
# CompactFile — the compact files of a table

`finishRow` with compact options keeps the cells of each row, derives the columns from all of them, and encodes a
record for each row.

* `writeRows_kept`: what the writer has kept.
* `finish_compact_opens`: the file is opened, and each record is found.
* `compact_rows_read`: the getters give back the cells of the rows whose records fit.
-/

namespace Nyxis

open Lib Lib.Outcome

/-! ## The writer -/

/-- What a compact writer keeps of a cell. -/
def Cell.kept : Cell → Option CompactCell
  | .i64 v => some (.i64 v)
  | .f64 v => some (.f64 v)
  | .bool v => some (.bool v)
  | .time v => some (.time v)
  | .str v => some (.str v)
  | .null | .binary _ | .absent => none

/-- What it keeps of some cells, the first of them in slot `fi`. -/
def keptCells (fi : ℕ) (cells : List Cell) : List (ℕ × CompactCell) :=
  (cells.zipIdx fi).filterMap fun c => c.1.kept.map fun v => (c.2, v)

theorem keptCells_cons (fi : ℕ) (c : Cell) (cells : List Cell) :
    keptCells fi (c :: cells) = c.kept.elim [] (fun v => [(fi, v)]) ++ keptCells (fi + 1) cells := by
  rw [keptCells, List.zipIdx_cons, List.filterMap_cons]
  cases c.kept with
  | none => rfl
  | some v => rfl

/-- A compact writer with an open object that holds these cells. -/
structure Keeping (opts : CompactOptions) (keys : List String) (pending : List (List (ℕ × CompactCell))) (w : NxsWriter)
    (cells : List (ℕ × CompactCell)) (sigils : List UInt8) : Prop where
  compact : w.compact = some opts
  keys_eq : w.keys = keys
  frames : ∃ f, w.frames = [f] ∧ f.compactCells = cells
  pending_eq : w.pendingRecords = pending
  slotSigils : w.slotSigils = sigils

section

variable {opts : CompactOptions} {keys : List String} {pending : List (List (ℕ × CompactCell))} {w w' : NxsWriter}
  {cells : List (ℕ × CompactCell)} {sigils : List UInt8}

theorem Keeping.writeCell (h : Keeping opts keys pending w cells sigils) {slot : ℕ} {cell : CompactCell} {bytes : Bytes}
    (hw : w.writeCell slot cell bytes = .ok w') : Keeping opts keys pending w' (cells ++ [(slot, cell)]) sigils := by
  obtain ⟨f, hf, hcells⟩ := h.frames
  rw [NxsWriter.writeCell, h.compact, if_pos (by rfl), NxsWriter.pushCompact, hf] at hw
  cases hw
  exact ⟨h.compact, h.keys_eq, ⟨_, rfl, congrArg (· ++ [(slot, cell)]) hcells⟩, h.pending_eq, h.slotSigils⟩

theorem Keeping.noteInt (h : Keeping opts keys pending w cells sigils) (slot : ℕ) (v : Int64) :
    Keeping opts keys pending (w.noteInt slot v) cells sigils :=
  ⟨h.compact, h.keys_eq, h.frames, h.pending_eq, h.slotSigils⟩

theorem Keeping.noteStr (h : Keeping opts keys pending w cells sigils) (slot : ℕ) (v : String) :
    Keeping opts keys pending (w.noteStr slot v) cells sigils :=
  ⟨h.compact, h.keys_eq, h.frames, h.pending_eq, h.slotSigils⟩

theorem Keeping.markSlotSigil (h : Keeping opts keys pending w cells sigils) (slot : ℕ) (sigil : UInt8) :
    Keeping opts keys pending (w.markSlotSigil slot sigil) cells (noteSigil sigils slot sigil) := by
  rw [NxsWriter.markSlotSigil_eq]
  exact ⟨h.compact, h.keys_eq, h.frames, h.pending_eq, by rw [h.slotSigils]⟩

/-- A cell of one of the five kinds is kept. -/
theorem Keeping.writeRowCell (h : Keeping opts keys pending w cells sigils) {fi : ℕ} (hfi : fi < 65536) {c : Cell}
    (hc : c = .absent ∨ c.sigil ∈ [SIGIL_INT, SIGIL_FLOAT, SIGIL_BOOL, SIGIL_TIME, SIGIL_STR])
    (hw : writeRowCell w fi c = .ok w') : Keeping opts keys pending w' (cells ++ c.kept.elim [] (fun v => [(fi, v)]))
      (if c = .absent then sigils else noteSigil sigils fi c.sigil) := by
  unfold Nyxis.writeRowCell at hw
  rw [Nat.mod_eq_of_lt hfi] at hw
  cases c with
  | absent =>
    cases hw
    rw [if_pos rfl, Cell.kept, Option.elim_none, List.append_nil]
    exact h
  | null => exact absurd (hc.resolve_left Cell.noConfusion) (show SIGIL_NULL ∉ _ by decide)
  | binary b => exact absurd (hc.resolve_left Cell.noConfusion) (show SIGIL_BINARY ∉ _ by decide)
  | i64 v =>
    rw [if_neg Cell.noConfusion]
    exact ((h.markSlotSigil fi SIGIL_INT).noteInt fi v).writeCell hw
  | str v =>
    rw [if_neg Cell.noConfusion]
    exact ((h.markSlotSigil fi SIGIL_STR).noteStr fi v).writeCell hw
  | f64 v =>
    rw [if_neg Cell.noConfusion]
    exact (h.markSlotSigil fi SIGIL_FLOAT).writeCell hw
  | bool v =>
    rw [if_neg Cell.noConfusion]
    exact (h.markSlotSigil fi SIGIL_BOOL).writeCell hw
  | time v =>
    rw [if_neg Cell.noConfusion]
    exact (h.markSlotSigil fi SIGIL_TIME).writeCell hw

theorem Keeping.writeCells : ∀ {row : List Cell} {fi : ℕ} {w : NxsWriter} {cells : List (ℕ × CompactCell)} {sigils : List UInt8},
    Keeping opts keys pending w cells sigils → fi + row.length ≤ 65536 →
      (∀ c ∈ row, c = .absent ∨ c.sigil ∈ [SIGIL_INT, SIGIL_FLOAT, SIGIL_BOOL, SIGIL_TIME, SIGIL_STR]) →
      (row.zipIdx fi).foldlM (fun w c => Nyxis.writeRowCell w c.2 c.1) w = .ok w' →
        Keeping opts keys pending w' (cells ++ keptCells fi row) (noteCells fi row sigils)
  | [], fi, w, cells, sigils, h, _, _, hw => by
    cases hw
    rw [keptCells, List.zipIdx_nil, List.filterMap_nil, List.append_nil]
    exact h
  | c :: row, fi, w, cells, sigils, h, hlen, hrow, hw => by
    rw [List.length_cons] at hlen
    rw [List.zipIdx_cons, List.foldlM_cons] at hw
    obtain ⟨w₁, hw₁, hw⟩ := bind_eq_ok.mp hw
    have h₁ := h.writeRowCell (by omega) (hrow c List.mem_cons_self) hw₁
    rw [keptCells_cons, noteCells, ← List.append_assoc]
    exact h₁.writeCells (by omega) (fun c' hc' => hrow c' (List.mem_cons_of_mem c hc')) hw

/-- A compact writer once these rows are written. -/
structure KeptRows (opts : CompactOptions) (keys : List String) (w : NxsWriter) (rows : List RecordRow) : Prop where
  compact : w.compact = some opts
  keys_eq : w.keys = keys
  frames : w.frames = []
  pending_eq : w.pendingRecords = rows.map fun row => keptCells 0 row.cells
  slotSigils : w.slotSigils = tableSigils keys rows

theorem KeptRows.new (opts : CompactOptions) (keys : List String) :
    KeptRows opts keys (NxsWriter.withCompact keys (some opts)) [] := ⟨rfl, rfl, rfl, rfl, rfl⟩

theorem KeptRows.writeRow {rows : List RecordRow} (h : KeptRows opts keys w rows) {row : RecordRow}
    (hlen : row.cells.length ≤ 65536)
    (hrow : ∀ c ∈ row.cells, c = .absent ∨ c.sigil ∈ [SIGIL_INT, SIGIL_FLOAT, SIGIL_BOOL, SIGIL_TIME, SIGIL_STR])
    (hw : writeRow w row = .ok w') : KeptRows opts keys w' (rows ++ [row]) := by
  obtain ⟨w₁, hcells, hend⟩ := bind_eq_ok.mp hw
  have hopen : Keeping opts keys w.pendingRecords w.beginObject [] w.slotSigils := by
    rw [NxsWriter.beginObject, h.compact]
    exact ⟨rfl, h.keys_eq, ⟨_, congrArg _ h.frames, rfl⟩, rfl, rfl⟩
  have hkeep := hopen.writeCells (by omega) hrow hcells
  obtain ⟨f, hf, hkept⟩ := hkeep.frames
  rw [NxsWriter.endObject, NxsWriter.endObjectBy, hf, hkeep.compact] at hend
  cases hend
  refine ⟨rfl, hkeep.keys_eq, rfl, ?_, ?_⟩
  · rw [hkeep.pending_eq, h.pending_eq, hkept, List.map_append]
    rfl
  · rw [hkeep.slotSigils, h.slotSigils, tableSigils, tableSigils, List.foldl_append]
    rfl

theorem writeRows_kept : ∀ {rows before : List RecordRow} {w : NxsWriter}, KeptRows opts keys w before →
    (∀ row ∈ rows, row.cells.length ≤ 65536) →
    (∀ row ∈ rows, ∀ c ∈ row.cells, c = .absent ∨ c.sigil ∈ [SIGIL_INT, SIGIL_FLOAT, SIGIL_BOOL, SIGIL_TIME, SIGIL_STR]) →
      rows.foldlM writeRow w = .ok w' → KeptRows opts keys w' (before ++ rows)
  | [], before, w, h, _, _, hw => by
    cases hw
    rw [List.append_nil]
    exact h
  | row :: rows, before, w, h, hlen, hrows, hw => by
    rw [List.foldlM_cons] at hw
    obtain ⟨w₁, hw₁, hw⟩ := bind_eq_ok.mp hw
    have h₁ := h.writeRow (hlen row List.mem_cons_self) (hrows row List.mem_cons_self) hw₁
    have h₂ := writeRows_kept h₁ (fun r hr => hlen r (List.mem_cons_of_mem row hr))
      (fun r hr => hrows r (List.mem_cons_of_mem row hr)) hw
    rwa [List.append_assoc] at h₂

end

/-! ## The columns -/

section

variable {w : NxsWriter} {opts : CompactOptions}

theorem infer_length (sigils : List UInt8) (mins maxs : List Int64) : (inferNarrowWidths sigils mins maxs).length = sigils.length := by
  rw [inferNarrowWidths, List.length_map, List.length_range]

theorem scan_length (sigils : List UInt8) (vals : List (List String)) (maxRatio : F64) (minRecords : ℕ) :
    (scanKeywordPromotion sigils vals maxRatio minRecords).1.length = sigils.length := by
  rw [scanKeywordPromotion]
  dsimp only
  split
  · exact List.length_replicate
  · rw [List.length_map, List.length_range]

theorem scanU16_length (sigils : List UInt8) (vals : List (List String)) (attrs : List UInt8) :
    (scanU16StringLengths sigils vals attrs).length = attrs.length := by
  rw [scanU16StringLengths, List.length_map, List.length_range]

/-- There is a width and an attribute byte for each slot. -/
theorem buildExtendedSchema_lengths (w : NxsWriter) (opts : CompactOptions) :
    (w.buildExtendedSchema opts).widths.length = w.slotSigils.length ∧
      (w.buildExtendedSchema opts).fieldAttrs.length = w.slotSigils.length := by
  rw [NxsWriter.buildExtendedSchema]
  dsimp only
  constructor
  · split <;> simp [infer_length]
  · split <;> split <;> simp [scan_length, scanU16_length]

/-- Only string columns are promoted. -/
theorem buildExtendedSchema_promoted (w : NxsWriter) (opts : CompactOptions) {fi : ℕ}
    (h : (w.buildExtendedSchema opts).isPromoted fi = true) : (w.buildExtendedSchema opts).sigil fi = SIGIL_STR := by
  cases hopts : opts.keywordPromotion with
  | true => exact promotedColumns_sigil (((buildExtendedSchema_scanned w opts hopts).isPromoted fi).mp h)
  | false =>
    have hnone : hasFlag ((List.replicate (w.slotSigils.map schemaSigil).length (0 : UInt8)).getD fi 0).toNat FIELD_ATTR_PROMOTED =
        false := by
      rw [List.getD_eq_getElem?_getD, List.getElem?_replicate]
      split <;> rfl
    rw [ExtendedSchema.isPromoted, NxsWriter.buildExtendedSchema, hopts] at h
    dsimp only at h
    rw [if_neg Bool.false_ne_true] at h
    split at h
    · rw [scanU16StringLengths_promoted, hnone] at h
      cases h
    · rw [hnone] at h
      cases h

theorem buildExtendedSchema_columns (hslots : w.slotSigils.length = w.keys.length) :
    WrittenColumns (w.buildExtendedSchema opts) opts where
  lengths := by
    show (w.slotSigils.map schemaSigil).length = w.keys.length
    rw [List.length_map, hslots]
  promoted := fun fi h => buildExtendedSchema_promoted w opts h
  widths := by
    intro hopts fi
    rw [NxsWriter.buildExtendedSchema, hopts]
    dsimp only
    rw [if_neg Bool.false_ne_true, if_neg Bool.false_ne_true, List.getD_eq_getElem?_getD, List.getElem?_replicate]
    split <;> rfl

/-- The block of the widths is read back, whether it was written or not. -/
theorem blockBytes_widths (hslots : w.slotSigils.length = w.keys.length) :
    blockBytes w.keys.length (w.buildExtendedSchema opts).widths (hasFlag opts.preambleFlags FLAG_NARROW_CELLS) =
      (w.buildExtendedSchema opts).widths := by
  have hflag : hasFlag opts.preambleFlags FLAG_NARROW_CELLS = opts.narrowCells :=
    (bare_of_opts (w.buildExtendedSchema opts) opts).2.1
  rw [hflag]
  cases hopts : opts.narrowCells with
  | true => exact blockBytes_of_length ((buildExtendedSchema_lengths w opts).1.trans hslots)
  | false =>
    rw [blockBytes, if_neg Bool.false_ne_true, NxsWriter.buildExtendedSchema, hopts]
    dsimp only
    rw [if_neg Bool.false_ne_true, if_neg Bool.false_ne_true, List.length_map, hslots]

end

/-- A plan goes by the flags of the options only. -/
theorem plan_embedded (sch : ExtendedSchema) (flags : ℕ) :
    RowCellPlan.new sch (FLAG_SCHEMA_EMBEDDED ||| flags) = RowCellPlan.new sch flags := by
  have hbare : RowCellPlan.bare sch (FLAG_SCHEMA_EMBEDDED ||| flags) = RowCellPlan.bare sch flags := by
    rw [RowCellPlan.bare, RowCellPlan.bare, hasFlag_embedded _ _ (by decide), hasFlag_embedded _ _ (by decide),
      hasFlag_embedded _ _ (by decide), hasFlag_embedded _ _ (by decide)]
  rw [RowCellPlan.new, RowCellPlan.new, hbare]

/-! ## Opening -/

/-- A row file that is opened, with records at these positions. -/
structure RowOpened (r : Reader) (d : Bytes) (flags : ℕ) (keys : List String) (ext : Option ExtendedSchema)
    (plan : Option RowCellPlan) (starts : List ℕ) : Prop where
  data : r.data = d
  flags_eq : r.flags = flags
  keys_eq : r.keys = keys
  ext_eq : r.extSchema = ext
  plan_eq : r.cellPlan = plan
  layout : r.layout = .row
  recordCount : r.recordCount = starts.length
  record : ∀ i off, starts[i]? = some off → r.record i = .ok off

section

variable {d schema data pre : Bytes} {version ptr : ℕ} {opts : CompactOptions} {starts : List ℕ}
  (h : Framed d version (FLAG_SCHEMA_EMBEDDED ||| opts.preambleFlags) 0 schema (data ++ (pre ++ leBytes 8 ptr)))
  (hd : d.length < 2 ^ 63) (hptr : ptr = 32 + schema.length + data.length) (hcount : starts.length < 2 ^ 32)
  (hstarts : ∀ o ∈ starts, o < 2 ^ 64)

include h hd hptr in
/-- A compact file is opened by its tail-index. -/
theorem openTail_compact (keys : List String) (sigils : List UInt8) (ext : Option ExtendedSchema) (plan : Option RowCellPlan) :
    Reader.openTail d (FLAG_SCHEMA_EMBEDDED ||| opts.preambleFlags) 0 keys sigils ext plan =
      if opts.deltaTail then (do
        let layout ← parseDeltaTailLayout d ptr
        .ok ⟨d, FLAG_SCHEMA_EMBEDDED ||| opts.preambleFlags, keys, sigils, ext, plan, layout.recordCount, ptr, some layout, .row,
          [], []⟩)
      else (do
        let recordCount ← readLE d ptr 4
        .ok ⟨d, FLAG_SCHEMA_EMBEDDED ||| opts.preambleFlags, keys, sigils, ext, plan, recordCount, ptr + 4, none, .row, [], []⟩) := by
  obtain ⟨hcol, hpax⟩ := preambleFlags_layout opts
  obtain ⟨hrowTail, hend⟩ := h.rowTailPtr_eq hd hptr
  rw [rowTailPtr, if_pos h.words.2.2] at hrowTail
  rw [Reader.openTail]
  dsimp only
  rw [if_neg (by rw [hcol]; exact Bool.false_ne_true), if_neg (by rw [hpax]; exact Bool.false_ne_true), if_pos rfl,
    ensure_of (by omega), ok_bind, readLE_word (by omega) hd, ok_bind, hrowTail, ensure_of (by omega), ok_bind, deltaTail_flag]

include h hd hptr hcount hstarts

/-- A tail-index with an entry for each record. -/
theorem opens_entries (hoff : opts.deltaTail = false)
    (htail : NxsWriter.tailIndexRecords starts ptr = pre ++ leBytes 8 ptr ++ leBytes 4 MAGIC_FOOTER) (keys : List String)
    (sigils : List UInt8) (ext : Option ExtendedSchema) (plan : Option RowCellPlan) :
    ∃ r, Reader.openTail d (FLAG_SCHEMA_EMBEDDED ||| opts.preambleFlags) 0 keys sigils ext plan = .ok r ∧
      RowOpened r d (FLAG_SCHEMA_EMBEDDED ||| opts.preambleFlags) keys ext plan starts := by
  have hat := h.rest_at
  rw [List.append_assoc, at_append, ← hptr] at hat
  have htable := hat.2
  rw [← htail] at htable
  have hcountAt := htable
  rw [NxsWriter.tailIndexRecords, List.append_assoc, List.append_assoc, at_append] at hcountAt
  have hopen : Reader.openTail d (FLAG_SCHEMA_EMBEDDED ||| opts.preambleFlags) 0 keys sigils ext plan =
      .ok ⟨d, FLAG_SCHEMA_EMBEDDED ||| opts.preambleFlags, keys, sigils, ext, plan, starts.length, ptr + 4, none, .row, [], []⟩ := by
    rw [openTail_compact h hd hptr, hoff, if_neg Bool.false_ne_true, readLE_leBytes hcountAt.1 (by omega) hd, ok_bind]
  refine ⟨_, hopen, rfl, rfl, rfl, rfl, rfl, rfl, rfl, fun i off hi => ?_⟩
  have hlt := (List.getElem?_eq_some_iff.mp hi).1
  have hentry := tailIndexRecords_entry htable hi
  have hle := hentry.le
  rw [leBytes_length] at hle
  rw [Reader.record, ensure_of (Nat.not_le_of_lt hlt), ok_bind, if_pos rfl, Reader.rowRecordOffset]
  dsimp only
  rw [usizeMul_of (by omega), ok_bind, usizeAdd_of (by omega), ok_bind, usizeAdd_of (by omega), ok_bind]
  exact getLE_leBytes hentry (hstarts off (List.mem_of_getElem? hi)) hd

/-- A tail-index with an anchor for each block. -/
theorem opens_blocks (hon : opts.deltaTail = true)
    (htail : buildDeltaTailIndex starts ptr opts.deltaBlockSize = .ok (pre ++ leBytes 8 ptr ++ leBytes 4 MAGIC_FOOTER))
    (hbs : opts.deltaBlockSize < 2 ^ 32) (hfound : DeltasFound starts opts.deltaBlockSize) (keys : List String)
    (sigils : List UInt8) (ext : Option ExtendedSchema) (plan : Option RowCellPlan) :
    ∃ r, Reader.openTail d (FLAG_SCHEMA_EMBEDDED ||| opts.preambleFlags) 0 keys sigils ext plan = .ok r ∧
      RowOpened r d (FLAG_SCHEMA_EMBEDDED ||| opts.preambleFlags) keys ext plan starts := by
  have hend := (h.rowTailPtr_eq hd hptr).2
  have hat := h.rest_at
  rw [List.append_assoc, at_append, ← hptr] at hat
  -- the file up to the tail-index
  obtain ⟨front, post, hsplit, hfront⟩ := hat.2
  have hpost : post = [] := by
    have hlen := congrArg List.length hsplit
    simp only [List.length_append, leBytes_length] at hlen
    exact List.length_eq_zero_iff.mp (by omega)
  rw [hpost, List.append_nil] at hsplit
  have hbuilt : buildDeltaTailIndex starts front.length opts.deltaBlockSize =
      .ok (pre ++ leBytes 8 ptr ++ leBytes 4 MAGIC_FOOTER) := by
    rw [hfront]
    exact htail
  have hreads : TailReads d front.length starts (builtLayout starts front.length opts.deltaBlockSize) :=
    @reads_of_deltasFound _ _ _ _ ⟨d, hd⟩ hbuilt hsplit hstarts hbs hcount hfound
  have hopen : Reader.openTail d (FLAG_SCHEMA_EMBEDDED ||| opts.preambleFlags) 0 keys sigils ext plan =
      .ok ⟨d, FLAG_SCHEMA_EMBEDDED ||| opts.preambleFlags, keys, sigils, ext, plan, starts.length, ptr,
        some (builtLayout starts ptr opts.deltaBlockSize), .row, [], []⟩ := by
    rw [openTail_compact h hd hptr, hon, if_pos rfl, parseDeltaTailLayout_build hd htail hat.2, ok_bind]
    exact congrArg _ (by rw [builtLayout, Nat.mod_eq_of_lt hcount])
  refine ⟨_, hopen, rfl, rfl, rfl, rfl, rfl, rfl, rfl, fun i off hi => ?_⟩
  have hlt := (List.getElem?_eq_some_iff.mp hi).1
  have hoffset := hreads.offset i off hi
  rw [hfront] at hoffset
  rw [Reader.record, ensure_of (Nat.not_le_of_lt hlt), ok_bind, if_pos rfl, Reader.rowRecordOffset]
  dsimp only
  rw [hoffset, toOpt_ok]

end

/-- Positions from a start on. -/
theorem startsFrom_shift (lens : List ℕ) (pos : ℕ) : startsFrom pos lens = (startsFrom 0 lens).map (pos + ·) := by
  refine List.ext_getElem? fun i => ?_
  by_cases hi : i < lens.length
  · rw [List.getElem?_map, startsFrom_getElem? pos hi, startsFrom_getElem? 0 hi, Nat.zero_add, Option.map_some]
  · rw [List.getElem?_eq_none (by rw [startsFrom_length]; omega),
      List.getElem?_eq_none (by rw [List.length_map, startsFrom_length]; omega)]

/-- Where the records of a file start. -/
def fileStarts (w : NxsWriter) (records : List Bytes) : List ℕ :=
  startsFrom (32 + w.schemaBytes.length) (records.map List.length)

theorem fileStarts_getElem? {w : NxsWriter} {records : List Bytes} {i : ℕ} (hi : i < records.length) :
    (fileStarts w records)[i]? = some (32 + w.schemaBytes.length + (records.take i).flatten.length) := by
  rw [fileStarts, startsFrom_getElem? _ (by rwa [List.length_map]), List.length_flatten, List.map_take]

/-- What a compact file needs to be opened with all its records found. -/
structure FileFits (w : NxsWriter) (opts : CompactOptions) (records : List Bytes) : Prop where
  pool : PoolFits (w.buildExtendedSchema opts).valuePool
  attrs : hasFlag opts.preambleFlags FLAG_V13_COMPACT_MASK = false → ∀ fi, (w.buildExtendedSchema opts).fieldAttrs.getD fi 0 = 0
  count : records.length < 2 ^ 32
  near : ∀ i < records.length, (records.take i).flatten.length < 2 ^ 32
  deltas : opts.deltaTail = true → DeltasFound (fileStarts w records) opts.deltaBlockSize

/-- A compact file is opened with its columns and their plan, or, where no option has a flag, as a file of v1.2. -/
def CompactOpened (r : Reader) (d : Bytes) (keys : List String) (sch : ExtendedSchema) (opts : CompactOptions)
    (starts : List ℕ) : Prop :=
  ∃ flags, hasFlag flags FLAG_DENSE_FRAMES = opts.denseFrames ∧
    (RowOpened r d flags keys (some sch) (some (RowCellPlan.new sch opts.preambleFlags)) starts ∨
      (hasFlag opts.preambleFlags FLAG_V13_COMPACT_MASK = false ∧ RowOpened r d flags keys none none starts))

/-- A compact file is opened, and each of its records is found. -/
theorem finish_compact_opens {w : NxsWriter} {opts : CompactOptions} {records : List Bytes} {file : Slice}
    (hcompact : w.compact = some opts)
    (hrecords : List.Forall₂ (fun cells record => encodeCompactRecord cells (w.buildExtendedSchema opts) opts = .ok record)
      w.pendingRecords records)
    (hfile : w.finish = .ok file) (hslots : w.slotSigils.length = w.keys.length) (hmany : w.keys.length ≤ 256)
    (hnul : ∀ k ∈ w.keys, NulFree k) (hbs : opts.deltaBlockSize < 2 ^ 32) (hfits : FileFits w opts records) :
    ∃ r, Reader.new file = .ok r ∧ CompactOpened r file.bytes w.keys (w.buildExtendedSchema opts) opts (fileStarts w records) := by
  have hsmall := file.small
  obtain ⟨data, offsets, pre, start, ptr, hpending, hstart, hptr, hframed, htail⟩ := finish_compact_parts hcompact hfile
  rw [encodePending_of hrecords, List.nil_append, List.length_nil] at hpending
  cases hpending
  have hlen := hframed.length
  have hschema : 32 + w.schemaBytes.length = start := by
    rw [hstart, NxsWriter.schemaBytes, hcompact]
  have hnear : (startsFrom 0 (records.map List.length)).map (· % 2 ^ 32) = startsFrom 0 (records.map List.length) := by
    refine (List.map_congr_left fun o ho => ?_).trans (List.map_id _)
    obtain ⟨i, hi⟩ := List.getElem?_of_mem ho
    have hlt := (List.getElem?_eq_some_iff.mp hi).1
    rw [startsFrom_length, List.length_map] at hlt
    rw [startsFrom_getElem? 0 (by rwa [List.length_map]), Option.some.injEq, Nat.zero_add, ← List.map_take,
      ← List.length_flatten] at hi
    rw [← hi]
    exact Nat.mod_eq_of_lt (hfits.near i hlt)
  have hstarts : (((startsFrom 0 (records.map List.length)).map (· % 2 ^ 32)).map (start + ·)) = fileStarts w records := by
    rw [hnear, fileStarts, hschema]
    exact (startsFrom_shift _ _).symm
  rw [hstarts] at htail
  have hfar : ∀ o ∈ fileStarts w records, o < 2 ^ 64 := by
    intro o ho
    obtain ⟨i, hi⟩ := List.getElem?_of_mem ho
    have hlt := (List.getElem?_eq_some_iff.mp hi).1
    rw [fileStarts, startsFrom_length, List.length_map] at hlt
    rw [fileStarts_getElem? hlt, Option.some.injEq] at hi
    have := hfits.near i hlt
    omega
  have hcount : (fileStarts w records).length < 2 ^ 32 := by
    rw [fileStarts, startsFrom_length, List.length_map]
    exact hfits.count
  have hopens : ∀ keys sigils ext plan, ∃ r,
      Reader.openTail file.bytes (FLAG_SCHEMA_EMBEDDED ||| opts.preambleFlags) 0 keys sigils ext plan = .ok r ∧
        RowOpened r file.bytes (FLAG_SCHEMA_EMBEDDED ||| opts.preambleFlags) keys ext plan (fileStarts w records) := by
    intro keys sigils ext plan
    cases hdelta : opts.deltaTail with
    | true =>
      rw [if_pos hdelta] at htail
      exact opens_blocks hframed hsmall (by omega) hcount hfar hdelta htail hbs (hfits.deltas hdelta) keys sigils ext plan
    | false =>
      rw [if_neg (by rw [hdelta]; exact Bool.false_ne_true)] at htail
      exact opens_entries hframed hsmall (by omega) hcount hfar hdelta htail keys sigils ext plan
  obtain ⟨hcol, hpax⟩ := preambleFlags_layout opts
  have hv13 := hasFlag_embedded FLAG_V13_COMPACT_MASK opts.preambleFlags (by decide)
  have hnew := Reader.new_file hframed.bytes hframed.flags_lt hframed.tail_lt (validatePreambleFlags_row hcol hpax)
    (hasFlag_or_self _ _ (by decide))
  have hdense : hasFlag (FLAG_SCHEMA_EMBEDDED ||| opts.preambleFlags) FLAG_DENSE_FRAMES = opts.denseFrames :=
    (hasFlag_embedded _ _ (by decide)).trans (bare_denseAllowed (w.buildExtendedSchema opts) opts)
  have hcols : WrittenColumns (w.buildExtendedSchema opts) opts := buildExtendedSchema_columns hslots
  cases hwire : hasFlag opts.preambleFlags FLAG_V13_COMPACT_MASK with
  | true =>
    have hparse := parse_buildExtendedSchema hsmall hframed.schema_at (by decide)
      (hasFlag_embedded FLAG_NARROW_CELLS opts.preambleFlags (by decide)) hv13 hmany hcols.lengths hnul hfits.pool.count
      hfits.pool.nulFree
    have hwidths : blockBytes (w.buildExtendedSchema opts).keys.length (w.buildExtendedSchema opts).widths
        (hasFlag opts.preambleFlags FLAG_NARROW_CELLS) = (w.buildExtendedSchema opts).widths := blockBytes_widths hslots
    have hattrs : blockBytes (w.buildExtendedSchema opts).keys.length (w.buildExtendedSchema opts).fieldAttrs true =
        (w.buildExtendedSchema opts).fieldAttrs :=
      blockBytes_of_length ((buildExtendedSchema_lengths w opts).2.trans hslots)
    rw [if_pos (hv13.trans hwire), hparse, ok_bind, hwire, hwidths, hattrs] at hnew
    obtain ⟨r, hr, hopened⟩ := hopens w.keys (w.buildExtendedSchema opts).sigils (some (w.buildExtendedSchema opts))
      (some (RowCellPlan.new (w.buildExtendedSchema opts) opts.preambleFlags))
    rw [← plan_embedded] at hr
    exact ⟨r, hnew.trans hr, _, hdense, Or.inl hopened⟩
  | false =>
    have hbasic : At file.bytes 32 (buildSchema w.keys w.slotSigils) := by
      have hat := hframed.schema_at
      have hsigils : schemaSigils w.keys.length w.slotSigils = (w.buildExtendedSchema opts).sigils := by
        rw [schemaSigils, ← hslots]
        refine List.ext_getElem (by simp [NxsWriter.buildExtendedSchema]) fun i hi hi' => ?_
        simp only [NxsWriter.buildExtendedSchema, List.getElem_map, List.getElem_range, List.getD_eq_getElem?_getD]
        rw [List.getElem?_eq_getElem (by simpa using hi), Option.getD_some]
      rw [buildExtendedSchema_eq, hwire, poolBlock] at hat
      rw [buildSchema, hsigils]
      split at hat
      · exact (at_append.mp (at_append.mp (at_append.mp hat).1).1).1
      · rw [padTo] at hat
        exact (at_append.mp (at_append.mp (at_append.mp (at_append.mp (at_append.mp hat).1).1).1).1).1
    rw [if_neg (by rw [hv13, hwire]; exact Bool.false_ne_true),
      parseSchema_buildSchema hsmall hbasic (by decide) (by omega) hnul, ok_bind] at hnew
    obtain ⟨r, hr, hopened⟩ := hopens _ _ _ _
    exact ⟨r, hnew.trans hr, _, hdense, Or.inr ⟨hwire, hopened⟩⟩

/-! ## The cells of a row -/

/-- The cells kept of a row. -/
theorem mem_keptRow {row : RecordRow} {s : ℕ} {v : CompactCell} :
    (s, v) ∈ keptCells 0 row.cells ↔ (row.cell s).kept = some v := by
  rw [keptCells, List.mem_filterMap, RecordRow.cell, List.getD_eq_getElem?_getD]
  constructor
  · rintro ⟨⟨c, i⟩, hin, hkept⟩
    obtain ⟨v', hv, heq⟩ := Option.map_eq_some_iff.mp hkept
    cases heq
    rw [List.mem_zipIdx_iff_getElem?.mp hin]
    exact hv
  · intro hkept
    cases hget : row.cells[s]? with
    | none =>
      rw [hget] at hkept
      cases hkept
    | some c =>
      rw [hget] at hkept
      exact ⟨(c, s), List.mem_zipIdx_iff_getElem?.mpr hget, Option.map_eq_some_iff.mpr ⟨v, hkept, rfl⟩⟩

theorem kept_sigil {c : Cell} {v : CompactCell} (h : c.kept = some v) :
    v.sigil = c.sigil ∧ v ≠ .null ∧ (∀ idx, v ≠ .keyword idx) ∧ c ≠ .absent := by
  cases c with
  | null | binary b | absent => cases h
  | i64 _ | f64 _ | bool _ | time _ | str _ =>
    cases h
    exact ⟨rfl, CompactCell.noConfusion, fun _ => CompactCell.noConfusion, Cell.noConfusion⟩

/-- The row as the encoder gets it. -/
theorem TypedTable.cellRow {keys : List String} {kinds : List UInt8} {rows : List RecordRow} (h : TypedTable keys kinds rows)
    {w : NxsWriter} {opts : CompactOptions} (hw : KeptRows opts keys w rows) (hmany : keys.length ≤ 256) {row : RecordRow}
    (hrow : row ∈ rows) : CellRow (keptCells 0 row.cells) (w.buildExtendedSchema opts) := by
  have hlt : ∀ c ∈ keptCells 0 row.cells, c.1 < keys.length := by
    intro c hc
    have hkept := mem_keptRow.mp hc
    by_contra hge
    have hcells := h.length row hrow
    rw [RecordRow.cell, List.getD_eq_default _ _ (by omega)] at hkept
    cases hkept
  refine ⟨fun c hc => by have := hlt c hc; omega, fun c hc _ => Or.inr ?_, fun c hc idx hidx => ?_⟩
  · obtain ⟨hsig, -, -, hcell⟩ := kept_sigil (mem_keptRow.mp hc)
    obtain ⟨hnoted, h0⟩ := h.noted hrow (hlt c hc) hcell
    have hlen : c.1 < w.slotSigils.length := by
      rw [hw.slotSigils, tableSigils_length]
      exact hlt c hc
    show c.2.sigil = (w.slotSigils.map schemaSigil).getD c.1 0
    rw [List.getD_eq_getElem?_getD, List.getElem?_map, List.getElem?_eq_getElem hlen, Option.map_some, Option.getD_some, hsig]
    rw [← hw.slotSigils, List.getD_eq_getElem?_getD, List.getElem?_eq_getElem hlen, Option.getD_some] at hnoted
    rw [hnoted, schemaSigil, if_neg h0]
  · exact absurd hidx ((kept_sigil (mem_keptRow.mp hc)).2.2.1 idx)

/-- A slot has the value that is kept of its cell. -/
theorem hasValue_kept {row : RecordRow} (hlen : row.cells.length ≤ 65536) {fi : ℕ} {v : CompactCell}
    (h : (row.cell fi).kept = some v) : HasValue (keptCells 0 row.cells) fi v := by
  have hslots : ∀ c ∈ keptCells 0 row.cells, c.1 < 65536 := by
    intro c hc
    have hkept := mem_keptRow.mp hc
    by_contra hge
    rw [RecordRow.cell, List.getD_eq_default _ _ (by omega)] at hkept
    cases hkept
  have hin : ∃ c ∈ keptCells 0 row.cells, c.1 = fi := ⟨(fi, v), mem_keptRow.mpr h, rfl⟩
  obtain ⟨c, hc, rfl, hat⟩ := cellAt_mem hslots hin
  have hkept := mem_keptRow.mp hc
  rw [h, Option.some.injEq] at hkept
  rw [← hkept] at hat
  exact ⟨hin, hat, (kept_sigil h).2.1⟩

/-! ## The getters -/

/-- The getters of the record at `off` return the value of a slot's cell, and nothing for an absent one. -/
def Reader.SlotReads (r : Reader) (off slot : ℕ) : Cell → Prop
  | .absent => r.rowGetI64 off slot = none' ∧ r.rowGetF64 off slot = none' ∧ r.rowGetBool off slot = none' ∧
      r.rowGetStr off slot = none'
  | .i64 v | .time v => r.rowGetI64 off slot = .ok v
  | .f64 v => r.rowGetF64 off slot = .ok v
  | .bool v => r.rowGetBool off slot = .ok v
  | .str v => r.rowGetStr off slot = .ok v
  | .null | .binary _ => True

theorem Reader.SlotReads.reads {r : Reader} {i off slot : ℕ} {key : String} {c : Cell} (h : r.SlotReads off slot c)
    (hlayout : r.layout = .row) (hrecord : r.record i = .ok off) (hslot : r.slot key = .ok slot) : r.Reads i key c := by
  have hi64 : r.i64At i key = r.rowGetI64 off slot := by
    rw [Reader.i64At, hrecord, ok_bind, Reader.getI64, hslot, ok_bind, hlayout]
  have hf64 : r.f64At i key = r.rowGetF64 off slot := by
    rw [Reader.f64At, hrecord, ok_bind, Reader.getF64, hslot, ok_bind, hlayout]
  have hbool : r.boolAt i key = r.rowGetBool off slot := by
    rw [Reader.boolAt, hrecord, ok_bind, Reader.getBool, hslot, ok_bind, hlayout]
  have hstr : r.strAt i key = r.rowGetStr off slot := by
    rw [Reader.strAt, hrecord, ok_bind, Reader.getStr, hslot, ok_bind, hlayout]
  cases c with
  | absent => exact ⟨hi64.trans h.1, hf64.trans h.2.1, hbool.trans h.2.2.1, hstr.trans h.2.2.2⟩
  | i64 v | time v => exact hi64.trans h
  | f64 v => exact hf64.trans h
  | bool v => exact hbool.trans h
  | str v => exact hstr.trans h
  | null | binary b => trivial

section

variable {r : Reader} {offset fi : ℕ} {record : Bytes} {row : RecordRow} {sch : ExtendedSchema} {opts : CompactOptions}
  (h : RecordAt r offset record (keptCells 0 row.cells) sch opts) (hlen : row.cells.length ≤ 65536)
  (hpacked : opts.denseFrames = false → ∀ fi, (RowCellPlan.new sch opts.preambleFlags).isPacked fi = false)
  (hfits : RecordFits (keptCells 0 row.cells) sch opts) (hfi : fi < sch.keys.length)

include h hlen hpacked hfits hfi

/-- The cell of a slot of a record that fits is read back. -/
theorem RecordAt.slotReads : r.SlotReads offset fi (row.cell fi) := by
  have hreads : ∀ v, (row.cell fi).kept = some v → r.ReadsExact offset fi v := fun v hkept =>
    ((record_reads h).1 hfits fi hfi v (hasValue_kept hlen hkept)).2
  cases hcell : row.cell fi with
  | null | binary b => trivial
  | absent =>
    have hnone : ¬ ∃ c ∈ keptCells 0 row.cells, c.1 = fi := by
      rintro ⟨c, hc, rfl⟩
      have hkept := mem_keptRow.mp hc
      rw [hcell] at hkept
      cases hkept
    exact (h.reads_absent hfi hnone fun hno => hpacked hno fi).2
  | i64 v => exact hreads (.i64 v) (by rw [hcell]; rfl)
  | time v => exact hreads (.time v) (by rw [hcell]; rfl)
  | bool v => exact hreads (.bool v) (by rw [hcell]; rfl)
  | str v => exact hreads (.str v) (by rw [hcell]; rfl)
  | f64 v => exact hreads (.f64 v) (by rw [hcell]; rfl)

end

/-! ## Files without a flag -/

/-- The flags of the options. -/
theorem anyFlag_eq (opts : CompactOptions) : hasFlag opts.preambleFlags FLAG_V13_COMPACT_MASK =
    (opts.denseFrames || opts.packedBools || opts.narrowCells || opts.deltaTail || opts.denseWireReorder) := by
  unfold CompactOptions.preambleFlags
  cases opts.denseFrames <;> cases opts.packedBools <;> cases opts.narrowCells <;> cases opts.deltaTail <;>
    cases opts.denseWireReorder <;> decide

/-- Without flags and attributes the bytes of a cell are those of v1.2. -/
theorem appendBytes_plain {sch : ExtendedSchema} {plan : RowCellPlan} {fi : ℕ} {c : Cell} {v : CompactCell} {bytes : Bytes}
    (hkept : c.kept = some v) (hbool : plan.packedBools = false) (hnarrow : plan.narrow = false)
    (hattrs : sch.fieldAttrs.getD fi 0 = 0) (h : appendBytes sch plan fi v = .ok bytes) : c.rowBytes = some bytes := by
  have hwidth : planWidth sch plan fi = 8 := by rw [planWidth, hnarrow, if_neg Bool.false_ne_true]
  have hown : sch.isPromoted fi = false := by
    rw [ExtendedSchema.isPromoted, hattrs]
    rfl
  have hpre : sch.strLenPrefix fi = 4 := by
    rw [ExtendedSchema.strLenPrefix, hown, ExtendedSchema.isU16Len, hattrs]
    rfl
  cases c with
  | null | binary b | absent => cases hkept
  | i64 v =>
    cases hkept
    rw [appendBytes, hwidth] at h
    exact congrArg _ (Outcome.ok.inj h)
  | f64 v =>
    cases hkept
    rw [appendBytes, hwidth] at h
    exact congrArg _ (Outcome.ok.inj h)
  | bool v =>
    cases hkept
    rw [appendBytes, hbool, if_neg Bool.false_ne_true] at h
    exact congrArg _ (Outcome.ok.inj h)
  | time v =>
    cases hkept
    exact congrArg _ (Outcome.ok.inj h)
  | str s =>
    cases hkept
    rw [appendBytes, hown, if_neg Bool.false_ne_true, hpre, strBytes, if_neg (by decide)] at h
    obtain ⟨_, -, h⟩ := bind_eq_ok.mp h
    cases h
    rw [Cell.rowBytes, NxsWriter.prefixed, padTo, List.length_append, leBytes_length]

/-- The reader as if it knew the columns. -/
def Reader.withPlan (r : Reader) (sch : ExtendedSchema) (opts : CompactOptions) : Reader :=
  { r with extSchema := some sch, cellPlan := some (RowCellPlan.new sch opts.preambleFlags) }

/-- Without a flag and attributes a record that fits is one of v1.2. -/
theorem RowCell.reads_plain {r : Reader} {i offset fi : ℕ} {key : String} {record : Bytes} {row : RecordRow}
    {sch : ExtendedSchema} {opts : CompactOptions} (hrow : RowCell r i offset fi key)
    (hwire : hasFlag opts.preambleFlags FLAG_V13_COMPACT_MASK = false) (hattrs : sch.fieldAttrs.getD fi 0 = 0)
    (h : RecordAt (r.withPlan sch opts) offset record (keptCells 0 row.cells) sch opts) (hlen : row.cells.length ≤ 65536)
    (hfits : RecordFits (keptCells 0 row.cells) sch opts) (hfi : fi < sch.keys.length) : r.Reads i key (row.cell fi) := by
  rw [anyFlag_eq] at hwire
  simp only [Bool.or_eq_false_iff] at hwire
  obtain ⟨⟨⟨⟨hdense, hbool⟩, hnarrow⟩, -⟩, -⟩ := hwire
  have hswitches := new_switches sch opts
  rw [hbool, hnarrow] at hswitches
  have hunpacked : ∀ fi, (RowCellPlan.new sch opts.preambleFlags).isPacked fi = false := fun fi => by
    rw [RowCellPlan.isPacked, hswitches.1, Bool.false_and]
  have hresolve : (r.withPlan sch opts).resolve offset fi = resolveSlot r.data offset fi := by
    have hflag := h.reader.dense
    rw [Reader.resolve, hflag, hdense]
    rfl
  have hs : recordDense (keptCells 0 row.cells) sch opts = false := by rw [recordDense, hdense, Bool.false_and]
  cases hkept : (row.cell fi).kept with
  | none =>
    cases hcell : row.cell fi with
    | null | binary b => trivial
    | absent =>
      have hnone : ¬ ∃ c ∈ keptCells 0 row.cells, c.1 = fi := by
        rintro ⟨c, hc, rfl⟩
        rw [mem_keptRow.mp hc] at hkept
        cases hkept
      exact hrow.reads_absent (hresolve ▸ h.sparse_absent hs hfi hnone)
    | i64 _ | f64 _ | bool _ | time _ | str _ =>
      rw [hcell] at hkept
      cases hkept
  | some v =>
    have hval := hasValue_kept hlen hkept
    have hfound := ((record_reads h).1 hfits fi hfi v hval).1
    obtain ⟨-, hleads, hholder⟩ := @sparseHolder_leads _ _ opts _ hfi hval.1
    rw [hunpacked fi, if_neg Bool.false_ne_true] at hholder
    rw [hholder] at hleads
    obtain ⟨bytes, hbytes, hat, -⟩ := h.sparse_entry hs hfi hleads
    rw [slotBytes, hunpacked fi, if_neg Bool.false_ne_true, hval.2.1, ofOption_some, expect_ok, ok_bind] at hbytes
    rw [hresolve, recordPlace, hs, if_neg Bool.false_ne_true, hholder, (holder_of_unpacked (hunpacked fi)).2, Nat.add_zero] at hfound
    have hrowBytes := appendBytes_plain hkept hswitches.1 hswitches.2 hattrs hbytes
    refine hrow.reads_cell hfound (cellAt_rowBytes hat hrowBytes (fun s hstr => ?_) h.reader.small)
    rw [hstr] at hkept
    cases hkept
    have hfit := (hfits fi hfi _ hval).kept
    have hown : sch.isPromoted fi = false := by
      rw [ExtendedSchema.isPromoted, hattrs]
      rfl
    rw [CellKept, ValueFits, hown, if_neg Bool.false_ne_true] at hfit
    · exact hfit
    · exact fun v hno => CompactCell.noConfusion hno

/-! ## Tables -/

/-- What makes a written table readable: its file can be opened with all its records found, each record fits, and
packed bools are in dense frames. -/
structure TableFits (opts : CompactOptions) (w : NxsWriter) (rows : List RecordRow) (records : List Bytes) : Prop
    extends FileFits w opts records where
  rows_fit : ∀ row ∈ rows, RecordFits (keptCells 0 row.cells) (w.buildExtendedSchema opts) opts
  packed : opts.denseFrames = false → ∀ fi,
    (RowCellPlan.new (w.buildExtendedSchema opts) opts.preambleFlags).isPacked fi = false

/-- The rows under these keys fit a file with these options. -/
def CompactRowsFit (keys : List String) (rows : List RecordRow) (opts : CompactOptions) : Prop :=
  ∃ w records, rows.foldlM writeRow (NxsWriter.withCompact keys (some opts)) = .ok w ∧ w.Holds records ∧
    TableFits opts w rows records

/-- A compact file that fits is opened, its records are found, and the getters give back the cells of the rows. -/
theorem compact_rows_open {keys : List String} {kinds : List UInt8} {rows : List RecordRow} {opts : CompactOptions} {file : Slice}
    (hmany : keys.length ≤ 256) (hnd : keys.Nodup) (hnul : ∀ k ∈ keys, NulFree k) (hbs : opts.deltaBlockSize < 2 ^ 32)
    (htyped : TypedTable keys kinds rows) (hfile : finishRow keys rows (some opts) = .ok file)
    (hfits : CompactRowsFit keys rows opts) : ∃ r, Reader.new file = .ok r ∧ r.recordCount = rows.length ∧
      r.layout = .row ∧ r.keys = keys ∧ (∀ i < rows.length, ∃ off, r.record i = .ok off) ∧
        ∀ i row fi key, rows[i]? = some row → keys[fi]? = some key → r.Reads i key (row.cell fi) := by
  obtain ⟨w, records, hrun, hrecords, hfits⟩ := hfits
  obtain ⟨w', hrun', hfinish⟩ := finishRow_eq_ok.mp hfile
  obtain rfl : w = w' := Outcome.ok.inj (hrun.symm.trans hrun')
  have hlens : ∀ row ∈ rows, row.cells.length ≤ 65536 := fun row hrow => by
    have := htyped.length row hrow
    omega
  have hkept := writeRows_kept (KeptRows.new opts keys) hlens (fun row hrow c hc => htyped.mem_kinds hrow hc) hrun
  rw [List.nil_append] at hkept
  rw [NxsWriter.Holds, hkept.compact] at hrecords
  dsimp only at hrecords
  have hslots : w.slotSigils.length = w.keys.length := by
    rw [hkept.slotSigils, hkept.keys_eq, tableSigils_length]
  have hkeys := hkept.keys_eq
  have hcount : records.length = rows.length := by
    rw [← hrecords.length_eq, hkept.pending_eq, List.length_map]
  obtain ⟨r, hr, flags, hdense, hopened⟩ := finish_compact_opens hkept.compact hrecords hfinish hslots (by rwa [hkeys])
    (by rwa [hkeys]) hbs hfits.toFileFits
  have hcommon : r.data = file.bytes ∧ r.flags = flags ∧ r.keys = keys ∧ r.layout = .row ∧
      r.recordCount = (fileStarts w records).length ∧ ∀ i off, (fileStarts w records)[i]? = some off → r.record i = .ok off := by
    rcases hopened with h | ⟨-, h⟩
    · exact ⟨h.data, h.flags_eq, h.keys_eq.trans hkeys, h.layout, h.recordCount, h.record⟩
    · exact ⟨h.data, h.flags_eq, h.keys_eq.trans hkeys, h.layout, h.recordCount, h.record⟩
  obtain ⟨hdata, hflags, hrkeys, hlayout, hrcount, hrecord⟩ := hcommon
  refine ⟨r, hr, ?_, hlayout, hrkeys, fun i hi => ?_, fun i row fi key hrow hkey => ?_⟩
  · rw [hrcount, fileStarts, startsFrom_length, List.length_map, hcount]
  · exact ⟨_, hrecord i _ (fileStarts_getElem? (hcount ▸ hi))⟩
  · have hmem := List.mem_of_getElem? hrow
    have hi : i < records.length := hcount ▸ (List.getElem?_eq_some_iff.mp hrow).1
    have hencoded : encodeCompactRecord (keptCells 0 row.cells) (w.buildExtendedSchema opts) opts = .ok records[i] := by
      have hget := hrecords.get (show i < w.pendingRecords.length by rw [hrecords.length_eq]; exact hi) hi
      rw [List.get_eq_getElem, List.get_eq_getElem] at hget
      have hpending : w.pendingRecords[i]? = some (keptCells 0 row.cells) := by
        rw [hkept.pending_eq, List.getElem?_map, hrow, Option.map_some]
      rwa [(List.getElem?_eq_some_iff.mp hpending).2] at hget
    have hat := (tailIndexEntry_compact hkept.compact hrecords hfinish (List.getElem?_eq_getElem hi)).1
    rw [← hdata] at hat
    have hoff := hrecord i _ (fileStarts_getElem? hi)
    have hslot : r.slot key = .ok fi := Reader.slot_of_nodup (hrkeys ▸ hnd) (hrkeys ▸ hkey)
    have hfi : fi < (w.buildExtendedSchema opts).keys.length := by
      show fi < w.keys.length
      rw [hkeys]
      exact (List.getElem?_eq_some_iff.mp hkey).1
    have hsmall : r.data.length < 2 ^ 63 := hdata ▸ file.small
    have hcols : WrittenColumns (w.buildExtendedSchema opts) opts := buildExtendedSchema_columns hslots
    have hcells := htyped.cellRow hkept hmany hmem
    rcases hopened with h | ⟨hwire, h⟩
    · have hstands : RecordAt r _ records[i] (keptCells 0 row.cells) (w.buildExtendedSchema opts) opts :=
        ⟨hcols, hcells, ⟨⟨h.ext_eq, h.plan_eq, hsmall⟩, hflags ▸ hdense⟩, hencoded, hat⟩
      exact (hstands.slotReads (hlens row hmem) hfits.packed (hfits.rows_fit row hmem) hfi).reads hlayout hoff hslot
    · have hstands : RecordAt (r.withPlan (w.buildExtendedSchema opts) opts) _ records[i] (keptCells 0 row.cells)
          (w.buildExtendedSchema opts) opts :=
        ⟨hcols, hcells, ⟨⟨rfl, rfl, hsmall⟩, hflags ▸ hdense⟩, hencoded, hat⟩
      exact RowCell.reads_plain ⟨hlayout, h.ext_eq, hoff, hslot⟩ hwire (hfits.attrs hwire fi) hstands (hlens row hmem)
        (hfits.rows_fit row hmem) hfi

/-- The getters give back the cells of the rows of a compact file that fit. -/
theorem compact_rows_read {keys : List String} {kinds : List UInt8} {rows : List RecordRow} {opts : CompactOptions} {file : Slice}
    (hmany : keys.length ≤ 256) (hnd : keys.Nodup) (hnul : ∀ k ∈ keys, NulFree k) (hbs : opts.deltaBlockSize < 2 ^ 32)
    (htyped : TypedTable keys kinds rows) (hfile : finishRow keys rows (some opts) = .ok file)
    (hfits : CompactRowsFit keys rows opts) : ∃ r, Reader.new file = .ok r ∧ r.recordCount = rows.length ∧
      ∀ i row fi key, rows[i]? = some row → keys[fi]? = some key → r.Reads i key (row.cell fi) := by
  obtain ⟨r, hr, hcount, -, -, -, hreads⟩ := compact_rows_open hmany hnd hnul hbs htyped hfile hfits
  exact ⟨r, hr, hcount, hreads⟩

end Nyxis

import Nyxis.RowRecord
import Nyxis.WrittenSchema

/-!
# RecordFrames — how row files frame their records

A record starts with the magic number of an object and its own length, in either encoding and whatever
its cells are.  `RecordFile` is what that leaves of a row file.

* `finishRow_records`: the data sector of a row file is its records, one after the other, and the
  tail-index holds where they start.
-/

namespace Nyxis

open Lib Lib.Outcome

/-- A record starts with the magic number and its length. -/
def IsFrame (record : Bytes) : Prop := ∃ rest, record = leBytes 4 MAGIC_OBJ ++ leBytes 4 record.length ++ rest

theorem IsFrame.length {record : Bytes} (h : IsFrame record) : 8 ≤ record.length := by
  obtain ⟨rest, hrest⟩ := h
  rw [hrest]
  simp only [List.length_append, leBytes_length]
  omega

theorem isFrame_of {n : ℕ} {rest : Bytes} (h : n = 8 + rest.length) :
    IsFrame (leBytes 4 MAGIC_OBJ ++ leBytes 4 n ++ rest) := by
  refine ⟨rest, ?_⟩
  rw [List.length_append, List.length_append, leBytes_length, leBytes_length, h]

/-! ## Records of a v1.2 writer -/

theorem patch_eq_ok {buf out : Bytes} {off : ℕ} {seg : Bytes} :
    patch buf off seg = .ok out ↔
      off + seg.length ≤ buf.length ∧ out = buf.take off ++ seg ++ buf.drop (off + seg.length) := by
  constructor
  · intro h
    obtain ⟨_, hle, h⟩ := bind_eq_ok.mp h
    cases h
    exact ⟨demand_eq_ok.mp hle, rfl⟩
  · rintro ⟨hle, rfl⟩
    rw [patch, demand_of hle, ok_bind]

/-- A patch behind the first bytes leaves them as they are. -/
theorem patch_behind {front rest out : Bytes} {off : ℕ} {seg : Bytes} (h : patch (front ++ rest) off seg = .ok out)
    (hoff : front.length ≤ off) : ∃ rest', out = front ++ rest' ∧ rest'.length = rest.length := by
  obtain ⟨hle, rfl⟩ := patch_eq_ok.mp h
  rw [List.length_append] at hle
  refine ⟨rest.take (off - front.length) ++ seg ++ rest.drop (off - front.length + seg.length), ?_, ?_⟩
  · rw [List.take_append, List.take_of_length_le hoff, List.drop_append, List.drop_eq_nil_of_le (by omega),
      show off + seg.length - front.length = off - front.length + seg.length by omega, List.nil_append]
    simp only [List.append_assoc]
  · simp only [List.length_append, List.length_take, List.length_drop]
    omega

/-- A writer has one object open behind `base`. -/
structure Opened (w : NxsWriter) (base : Bytes) (offsets : List ℕ) : Prop where
  plain : w.compact = none
  buf : ∃ rest, w.buf = base ++ leBytes 4 MAGIC_OBJ ++ leBytes 4 0 ++ rest
  frame : ∃ f, w.frames = [f] ∧ f.start = base.length
  recordOffsets : w.recordOffsets = offsets

namespace Opened

variable {w w' : NxsWriter} {base : Bytes} {offsets : List ℕ}

theorem markSlotSigil (h : Opened w base offsets) (slot : ℕ) (sigil : UInt8) : Opened (w.markSlotSigil slot sigil) base offsets := by
  rw [NxsWriter.markSlotSigil_eq]
  exact ⟨h.plain, h.buf, h.frame, h.recordOffsets⟩

theorem writeBytesAt (h : Opened w base offsets) {slot : ℕ} {bytes : Bytes} (hw : w.writeBytesAt slot bytes = .ok w') :
    Opened w' base offsets := by
  obtain ⟨f, hf, hstart⟩ := h.frame
  obtain ⟨rest, hbuf⟩ := h.buf
  rw [NxsWriter.writeBytesAt, NxsWriter.markSlot, hf] at hw
  dsimp only at hw
  obtain ⟨w₁, hmark, hw⟩ := bind_eq_ok.mp hw
  obtain ⟨byte, -, hmark⟩ := bind_eq_ok.mp hmark
  cases hmark
  cases hw
  refine ⟨h.plain, ⟨rest ++ bytes, ?_⟩, ⟨_, rfl, hstart⟩, h.recordOffsets⟩
  show w.buf ++ bytes = _
  rw [hbuf, List.append_assoc]

theorem writeCell (h : Opened w base offsets) {slot : ℕ} {cell : CompactCell} {bytes : Bytes}
    (hw : w.writeCell slot cell bytes = .ok w') : Opened w' base offsets := by
  rw [Wrote.writeCell_plain h.plain] at hw
  exact h.writeBytesAt hw

theorem writeRowCell (h : Opened w base offsets) {fi : ℕ} {cell : Cell} (hw : writeRowCell w fi cell = .ok w') :
    Opened w' base offsets := by
  cases cell with
  | absent =>
    cases hw
    exact h
  | null => exact (h.markSlotSigil _ _).writeBytesAt hw
  | i64 v =>
    have hnoted := h.markSlotSigil (fi % 65536) SIGIL_INT
    exact (Opened.mk hnoted.plain hnoted.buf hnoted.frame hnoted.recordOffsets :
      Opened ((w.markSlotSigil (fi % 65536) SIGIL_INT).noteInt (fi % 65536) v) base offsets).writeCell hw
  | f64 v => exact (h.markSlotSigil _ _).writeCell hw
  | bool v => exact (h.markSlotSigil _ _).writeCell hw
  | time v => exact (h.markSlotSigil _ _).writeCell hw
  | str v =>
    have hnoted := h.markSlotSigil (fi % 65536) SIGIL_STR
    exact (Opened.mk hnoted.plain hnoted.buf hnoted.frame hnoted.recordOffsets :
      Opened ((w.markSlotSigil (fi % 65536) SIGIL_STR).noteStr (fi % 65536) v) base offsets).writeCell hw
  | binary b => cases hw

theorem writeCells {cells : List (Cell × ℕ)} (h : Opened w base offsets)
    (hw : cells.foldlM (fun w c => Nyxis.writeRowCell w c.2 c.1) w = .ok w') : Opened w' base offsets := by
  induction cells generalizing w with
  | nil =>
    cases hw
    exact h
  | cons c cells ih =>
    rw [List.foldlM_cons] at hw
    obtain ⟨w₁, hw₁, hw⟩ := bind_eq_ok.mp hw
    exact ih (h.writeRowCell hw₁) hw

/-- Closing the object leaves a record: the patches behind its length do not touch its first eight bytes. -/
theorem endObject (h : Opened w base offsets) (hw : w.endObject = .ok w') :
    ∃ record, IsFrame record ∧ w'.buf = base ++ record ∧ w'.frames = [] ∧ w'.compact = none ∧ w'.recordOffsets = offsets := by
  obtain ⟨f, hf, hstart⟩ := h.frame
  obtain ⟨rest, hbuf⟩ := h.buf
  rw [NxsWriter.endObject, NxsWriter.endObjectBy, hf] at hw
  dsimp only at hw
  rw [h.plain] at hw
  dsimp only at hw
  obtain ⟨b₁, h₁, hw⟩ := bind_eq_ok.mp hw
  obtain ⟨b₂, h₂, hw⟩ := bind_eq_ok.mp hw
  obtain ⟨_, -, hw⟩ := bind_eq_ok.mp hw
  obtain ⟨b₃, h₃, hw⟩ := bind_eq_ok.mp hw
  obtain ⟨b₄, h₄, hw⟩ := bind_eq_ok.mp hw
  cases hw
  have hlen : w.buf.length - f.start = 8 + rest.length := by
    rw [hbuf, hstart]
    simp only [List.length_append, leBytes_length]
    omega
  rw [hlen, Writing.patch_eq (base ++ leBytes 4 MAGIC_OBJ) (leBytes 4 0) rest (by rw [hbuf]; simp only [List.append_assoc])
    (by rw [List.length_append, leBytes_length, hstart]) (by simp)] at h₁
  have hb₁ := (Outcome.ok.inj h₁).symm
  rw [← List.append_assoc] at hb₁
  have hfront : (base ++ leBytes 4 MAGIC_OBJ ++ leBytes 4 (8 + rest.length)).length = f.start + 8 := by
    rw [hstart]
    simp only [List.length_append, leBytes_length]
  rw [hb₁] at h₂
  obtain ⟨r₂, rfl, hr₂⟩ := patch_behind h₂ (by omega)
  obtain ⟨r₃, rfl, hr₃⟩ := patch_behind h₃ (by omega)
  obtain ⟨r₄, rfl, hr₄⟩ := patch_behind h₄ (by omega)
  refine ⟨leBytes 4 MAGIC_OBJ ++ leBytes 4 (8 + rest.length) ++ r₄, isFrame_of ?_, ?_, rfl, rfl, h.recordOffsets⟩
  · rw [hr₄, hr₃, hr₂]
  · simp only [List.append_assoc]

end Opened

/-- A v1.2 writer between two objects, with the records it wrote. -/
structure Packed (w : NxsWriter) (records : List Bytes) : Prop where
  plain : w.compact = none
  frames : w.frames = []
  buf : w.buf = records.flatten
  framed : ∀ record ∈ records, IsFrame record
  recordOffsets : w.recordOffsets = (startsFrom 0 (records.map List.length)).map (· % 2 ^ 32)

namespace Packed

variable {w w' : NxsWriter} {records : List Bytes}

theorem new (keys : List String) : Packed (NxsWriter.withCompact keys none) [] :=
  ⟨rfl, rfl, rfl, fun _ h => absurd h List.not_mem_nil, rfl⟩

theorem openHeader_split (n : ℕ) : ∃ rest, openHeader n = leBytes 4 MAGIC_OBJ ++ leBytes 4 0 ++ rest := by
  refine ⟨emptyBitmask n ++ zeros (n * 2) ++
    zeros (padLen 8 (leBytes 4 MAGIC_OBJ ++ leBytes 4 0 ++ emptyBitmask n ++ zeros (n * 2)).length), ?_⟩
  rw [openHeader, padTo]
  simp only [List.append_assoc]

theorem beginObject (h : Packed w records) :
    Opened w.beginObject w.buf (w.recordOffsets ++ [w.buf.length % 2 ^ 32]) := by
  obtain ⟨hwriting, hkeys, hoffs⟩ := Writing.begin_object h.plain h.frames
  obtain ⟨f, hf, hstart, -⟩ := hwriting.frame
  refine ⟨hwriting.plain, ?_, ⟨f, hf, hstart⟩, hoffs⟩
  obtain ⟨rest, hheader⟩ := openHeader_split w.beginObject.keys.length
  refine ⟨rest, ?_⟩
  rw [hwriting.buf, hheader, objectValues, List.flatMap_nil, List.append_nil]
  simp only [List.append_assoc]

/-- A row becomes a record. -/
theorem writeRow (h : Packed w records) {row : RecordRow} (hw : writeRow w row = .ok w') :
    ∃ record, Packed w' (records ++ [record]) := by
  obtain ⟨w₁, hcells, hend⟩ := bind_eq_ok.mp hw
  obtain ⟨record, hframe, hbuf, hframes, hplain, hoffs⟩ := (h.beginObject.writeCells hcells).endObject hend
  refine ⟨record, hplain, hframes, ?_, ?_, ?_⟩
  · rw [hbuf, h.buf, List.flatten_append, List.flatten_singleton]
  · intro r hr
    rcases List.mem_append.mp hr with hr | hr
    · exact h.framed r hr
    · rw [List.mem_singleton.mp hr]
      exact hframe
  · rw [hoffs, h.recordOffsets, List.map_append, startsFrom_append, List.map_append, h.buf, List.length_flatten,
      Nat.zero_add]
    rfl

theorem writeRows {rows : List RecordRow} (h : Packed w records) (hw : rows.foldlM Nyxis.writeRow w = .ok w') :
    ∃ more, Packed w' (records ++ more) ∧ more.length = rows.length := by
  induction rows generalizing w records with
  | nil =>
    cases hw
    exact ⟨[], by rwa [List.append_nil], rfl⟩
  | cons row rows ih =>
    rw [List.foldlM_cons] at hw
    obtain ⟨w₁, hw₁, hw⟩ := bind_eq_ok.mp hw
    obtain ⟨record, h₁⟩ := h.writeRow hw₁
    obtain ⟨more, h₂, hlen⟩ := ih h₁ hw
    refine ⟨record :: more, ?_, by rw [List.length_cons, List.length_cons, hlen]⟩
    rwa [List.append_assoc, List.singleton_append] at h₂

end Packed

/-! ## Records of a compact writer -/

/-- A compact writer with `n` records, and an object open if `opened`. -/
structure Pending (w : NxsWriter) (opts : CompactOptions) (n : ℕ) (opened : Bool) : Prop where
  compact : w.compact = some opts
  frames : if opened then ∃ f, w.frames = [f] else w.frames = []
  count : w.pendingRecords.length = n

namespace Pending

variable {w w' : NxsWriter} {opts : CompactOptions} {n : ℕ}

theorem writeBytesAt (h : Pending w opts n true) {slot : ℕ} {bytes : Bytes} (hw : w.writeBytesAt slot bytes = .ok w') :
    Pending w' opts n true := by
  obtain ⟨f, hf⟩ := h.frames
  rw [NxsWriter.writeBytesAt, NxsWriter.markSlot, hf] at hw
  dsimp only at hw
  obtain ⟨w₁, hmark, hw⟩ := bind_eq_ok.mp hw
  obtain ⟨byte, -, hmark⟩ := bind_eq_ok.mp hmark
  cases hmark
  cases hw
  exact ⟨h.compact, ⟨_, rfl⟩, h.count⟩

theorem writeCell (h : Pending w opts n true) {slot : ℕ} {cell : CompactCell} {bytes : Bytes}
    (hw : w.writeCell slot cell bytes = .ok w') : Pending w' opts n true := by
  obtain ⟨f, hf⟩ := h.frames
  rw [NxsWriter.writeCell, h.compact, Option.isSome_some, if_pos rfl, NxsWriter.pushCompact, hf] at hw
  cases hw
  exact ⟨h.compact, ⟨_, rfl⟩, h.count⟩

theorem markSlotSigil (h : Pending w opts n true) (slot : ℕ) (sigil : UInt8) :
    Pending (w.markSlotSigil slot sigil) opts n true := by
  rw [NxsWriter.markSlotSigil_eq]
  exact ⟨h.compact, h.frames, h.count⟩

theorem writeRowCell (h : Pending w opts n true) {fi : ℕ} {cell : Cell} (hw : writeRowCell w fi cell = .ok w') :
    Pending w' opts n true := by
  cases cell with
  | absent =>
    cases hw
    exact h
  | null => exact (h.markSlotSigil _ _).writeBytesAt hw
  | i64 v =>
    have hnoted := h.markSlotSigil (fi % 65536) SIGIL_INT
    exact (Pending.mk hnoted.compact hnoted.frames hnoted.count :
      Pending ((w.markSlotSigil (fi % 65536) SIGIL_INT).noteInt (fi % 65536) v) opts n true).writeCell hw
  | f64 v => exact (h.markSlotSigil _ _).writeCell hw
  | bool v => exact (h.markSlotSigil _ _).writeCell hw
  | time v => exact (h.markSlotSigil _ _).writeCell hw
  | str v =>
    have hnoted := h.markSlotSigil (fi % 65536) SIGIL_STR
    exact (Pending.mk hnoted.compact hnoted.frames hnoted.count :
      Pending ((w.markSlotSigil (fi % 65536) SIGIL_STR).noteStr (fi % 65536) v) opts n true).writeCell hw
  | binary b => cases hw

theorem writeCells {cells : List (Cell × ℕ)} (h : Pending w opts n true)
    (hw : cells.foldlM (fun w c => Nyxis.writeRowCell w c.2 c.1) w = .ok w') : Pending w' opts n true := by
  induction cells generalizing w with
  | nil =>
    cases hw
    exact h
  | cons c cells ih =>
    rw [List.foldlM_cons] at hw
    obtain ⟨w₁, hw₁, hw⟩ := bind_eq_ok.mp hw
    exact ih (h.writeRowCell hw₁) hw

/-- A row becomes one more pending record. -/
theorem writeRow (h : Pending w opts n false) {row : RecordRow} (hw : writeRow w row = .ok w') :
    Pending w' opts (n + 1) false := by
  obtain ⟨w₁, hcells, hend⟩ := bind_eq_ok.mp hw
  have hempty : w.frames = [] := h.frames
  have hbegin : Pending w.beginObject opts n true := by
    rw [NxsWriter.beginObject, h.compact]
    exact ⟨rfl, ⟨_, congrArg _ hempty⟩, h.count⟩
  have hopen := hbegin.writeCells hcells
  obtain ⟨f, hf⟩ := hopen.frames
  rw [NxsWriter.endObject, NxsWriter.endObjectBy, hf, hopen.compact] at hend
  cases hend
  refine ⟨rfl, rfl, ?_⟩
  rw [List.length_append, hopen.count, List.length_singleton]

theorem writeRows {rows : List RecordRow} (h : Pending w opts n false) (hw : rows.foldlM Nyxis.writeRow w = .ok w') :
    Pending w' opts (n + rows.length) false := by
  induction rows generalizing w n with
  | nil =>
    cases hw
    exact h
  | cons row rows ih =>
    rw [List.foldlM_cons] at hw
    obtain ⟨w₁, hw₁, hw⟩ := bind_eq_ok.mp hw
    rw [List.length_cons, Nat.add_comm rows.length, ← Nat.add_assoc]
    exact ih (h.writeRow hw₁) hw

end Pending

/-- A compact record is framed by its length, dense or sparse. -/
theorem encodeCompactRecord_frame {cells : List (ℕ × CompactCell)} {ext : ExtendedSchema} {opts : CompactOptions}
    {record : Bytes} (h : encodeCompactRecord cells ext opts = .ok record) : IsFrame record := by
  rw [encodeCompactRecord] at h
  dsimp only at h
  split at h
  · obtain ⟨body, -, h⟩ := bind_eq_ok.mp h
    cases h
    rw [List.append_assoc]
    refine isFrame_of ?_
    rw [List.length_append, List.length_singleton]
    omega
  · obtain ⟨sparse, -, h⟩ := bind_eq_ok.mp h
    obtain ⟨relOffs, -, h⟩ := bind_eq_ok.mp h
    cases h
    simp only [List.append_assoc]
    rw [← List.append_assoc]
    refine isFrame_of ?_
    simp only [List.length_append]
    omega

/-- The pending records are encoded one after the other. -/
theorem encodePending_records {ext : ExtendedSchema} {opts : CompactOptions} :
    ∀ {pending : List (List (ℕ × CompactCell))} {data : Bytes} {r : Bytes × List ℕ},
      NxsWriter.encodePending ext opts pending data = .ok r → ∃ records : List Bytes, records.length = pending.length ∧
        r.1 = data ++ records.flatten ∧ (∀ record ∈ records, IsFrame record) ∧
        r.2 = (startsFrom data.length (records.map List.length)).map (· % 2 ^ 32)
  | [], _, _, h => by
    cases h
    exact ⟨[], rfl, (List.append_nil _).symm, fun _ hr => absurd hr List.not_mem_nil, rfl⟩
  | cells :: pending, data, r, h => by
    rw [NxsWriter.encodePending] at h
    obtain ⟨record, hrecord, h⟩ := bind_eq_ok.mp h
    obtain ⟨⟨out, offsets⟩, hrest, h⟩ := bind_eq_ok.mp h
    cases h
    obtain ⟨records, hlen, hout, hframes, hoffs⟩ := encodePending_records hrest
    refine ⟨record :: records, by rw [List.length_cons, List.length_cons, hlen], ?_, ?_, ?_⟩
    · dsimp only at hout ⊢
      rw [hout, List.flatten_cons, List.append_assoc]
    · intro r hr
      rcases List.mem_cons.mp hr with rfl | hr
      · exact encodeCompactRecord_frame (expect_eq_ok.mp hrecord)
      · exact hframes r hr
    · dsimp only at hoffs ⊢
      rw [hoffs, List.map_cons, startsFrom, List.map_cons, List.length_append]

/-! ## Row files -/

/-- The schema header of a row writer. -/
def NxsWriter.schemaBytes (w : NxsWriter) : Bytes :=
  match w.compact with
  | none => buildSchema w.keys w.slotSigils
  | some opts => Nyxis.buildExtendedSchema (w.buildExtendedSchema opts) opts.preambleFlags

/-- The flags in the preamble of a row writer's file. -/
def NxsWriter.fileFlags (w : NxsWriter) : ℕ :=
  match w.compact with
  | none => FLAG_SCHEMA_EMBEDDED
  | some opts => FLAG_SCHEMA_EMBEDDED ||| opts.preambleFlags

/-- The tail-index of a row file is that of the records at `offsets`. -/
def TailIndexOf (d : Bytes) (offsets : List ℕ) : Prop :=
  if Flagged d FLAG_DELTA_TAIL then ∃ blockSize tail, buildDeltaTailIndex offsets (rowTailPtr d) blockSize = .ok tail ∧
    At d (rowTailPtr d) tail
  else At d (rowTailPtr d) (NxsWriter.tailIndexRecords offsets (rowTailPtr d))

/-- A row file holds records behind its schema, one after the other. -/
structure RecordFile (d schema : Bytes) (flags : ℕ) (records : List Bytes) (offsets : List ℕ) : Prop where
  framed : ∃ version pad tail, pad < 8 ∧
    Framed d version flags 0 schema (records.flatten ++ zeros pad ++ (leBytes 4 records.length ++ tail))
  frames : ∀ record ∈ records, IsFrame record
  starts : offsets = (startsFrom 0 (records.map List.length)).map fun off => 32 + schema.length + off % 2 ^ 32
  index : TailIndexOf d offsets

section

variable {w : NxsWriter} {file : Slice}

theorem finish_records {records : List Bytes} (hpacked : Packed w records) (h : w.finish = .ok file) :
    ∃ offsets, RecordFile file.bytes w.schemaBytes w.fileFlags records offsets := by
  rw [NxsWriter.schemaBytes, NxsWriter.fileFlags, hpacked.plain]
  dsimp only
  obtain ⟨_, -, h⟩ := bind_eq_ok.mp h
  rw [hpacked.plain] at h
  dsimp only at h
  have hseal := h
  rw [NxsWriter.tailIndexRecords] at hseal
  have hframed := sealRow_eq_ok (by decide) hseal
  obtain ⟨hptr, -⟩ := hframed.rowTailPtr_eq file.small rfl
  have hdelta : ¬ Flagged file.bytes FLAG_DELTA_TAIL := by
    rw [Flagged, hframed.words.1]
    decide
  have hcount : (w.recordOffsets.map (32 + (buildSchema w.keys w.slotSigils).length + ·)).length = records.length := by
    rw [List.length_map, hpacked.recordOffsets, List.length_map, startsFrom_length, List.length_map]
  have hfile : ∃ tail, Framed file.bytes VERSION FLAG_SCHEMA_EMBEDDED 0 (buildSchema w.keys w.slotSigils)
      (records.flatten ++ zeros 0 ++ (leBytes 4 records.length ++ tail)) := by
    have hparts := hframed
    rw [hpacked.buf, hcount, List.append_assoc (leBytes 4 records.length)] at hparts
    rw [zeros_zero, List.append_nil]
    exact ⟨_, hparts⟩
  obtain ⟨tail, hfile⟩ := hfile
  refine ⟨w.recordOffsets.map (32 + (buildSchema w.keys w.slotSigils).length + ·), ⟨VERSION, 0, tail, by decide, hfile⟩,
    hpacked.framed, ?_, ?_⟩
  · rw [hpacked.recordOffsets, List.map_map]
    rfl
  · rw [TailIndexOf, if_neg hdelta, hptr, NxsWriter.tailIndexRecords]
    have hat := hframed.rest_at
    rw [List.append_assoc, at_append] at hat
    simp only [List.append_assoc] at hat ⊢
    exact hat.2

theorem finish_compact_records {opts : CompactOptions} (hcompact : w.compact = some opts) (h : w.finish = .ok file) :
    ∃ records offsets, records.length = w.pendingRecords.length ∧
      RecordFile file.bytes w.schemaBytes w.fileFlags records offsets := by
  rw [NxsWriter.schemaBytes, NxsWriter.fileFlags, hcompact]
  dsimp only
  have hsmall := file.small
  obtain ⟨data, offsets, pre, start, ptr, hpending, hstart, hptr, hframed, htail⟩ := finish_compact_parts hcompact h
  obtain ⟨records, hlen, hdata, hframes, hoffs⟩ := encodePending_records hpending
  obtain ⟨hrowTail, -⟩ := hframed.rowTailPtr_eq hsmall (by omega)
  dsimp only at hdata hoffs
  rw [List.nil_append] at hdata
  have hflag : Flagged file.bytes FLAG_DELTA_TAIL ↔ opts.deltaTail = true := by
    rw [Flagged, hframed.words.1, deltaTail_flag]
  have hcount : (offsets.map (start + ·)).length = records.length := by
    rw [List.length_map, hoffs, List.length_map, startsFrom_length, List.length_map]
  have hat := hframed.rest_at
  rw [List.append_assoc, at_append, ← hstart, ← hptr] at hat
  obtain ⟨-, hat⟩ := hat
  -- both encodings of the tail-index start with the number of records
  have hpre : ∃ tail, pre ++ leBytes 8 ptr = leBytes 4 records.length ++ tail := by
    rw [← hcount]
    split at htail
    · obtain ⟨deltas, -, heq⟩ := buildDeltaTailIndex_eq_ok.mp htail
      have hfront := List.append_cancel_right heq
      rw [padTo] at hfront
      simp only [List.append_assoc] at hfront ⊢
      exact ⟨_, hfront⟩
    · rw [NxsWriter.tailIndexRecords] at htail
      rw [← List.append_cancel_right htail]
      exact ⟨_, by rw [List.append_assoc]⟩
  obtain ⟨tail, hpre⟩ := hpre
  refine ⟨records, offsets.map (start + ·), hlen, ⟨opts.version, padLen 8 data.length, tail, padLen_lt (by decide) _, ?_⟩,
    hframes, ?_, ?_⟩
  · rw [hpre, padTo, hdata] at hframed
    rw [hdata]
    exact hframed
  · rw [hoffs, List.map_map, hstart]
    rfl
  · rw [TailIndexOf, hrowTail]
    split at htail
    · rename_i hdelta
      rw [if_pos (hflag.mpr hdelta)]
      exact ⟨_, _, htail, hat⟩
    · rename_i hdelta
      rw [if_neg fun hf => hdelta (hflag.mp hf), htail]
      exact hat

end

theorem startsFrom_map_add (c : ℕ) : ∀ (lens : List ℕ) (pos : ℕ),
    (startsFrom pos lens).map (c + ·) = startsFrom (c + pos) lens
  | [], _ => rfl
  | len :: lens, pos => by
    rw [startsFrom, startsFrom, List.map_cons, startsFrom_map_add c lens, Nat.add_assoc]

theorem startsFrom_bounds : ∀ {lens : List ℕ} {pos : ℕ}, ∀ off ∈ startsFrom pos lens, pos ≤ off ∧ off ≤ pos + lens.sum
  | [], _, _, h => absurd h List.not_mem_nil
  | len :: lens, pos, off, h => by
    rw [List.sum_cons]
    rcases List.mem_cons.mp h with rfl | h
    · omega
    · have := startsFrom_bounds off h
      omega

/-- Below 4 GiB no offset is cut to 32 bits. -/
theorem RecordFile.offsets_eq {d schema : Bytes} {flags : ℕ} {records : List Bytes} {offsets : List ℕ}
    (h : RecordFile d schema flags records offsets) (hsector : records.flatten.length < 2 ^ 32) :
    offsets = startsFrom (32 + schema.length) (records.map List.length) := by
  have hmod : ∀ off ∈ startsFrom 0 (records.map List.length),
      32 + schema.length + off % 2 ^ 32 = 32 + schema.length + off := by
    intro off hoff
    have hle := (startsFrom_bounds off hoff).2
    rw [List.length_flatten] at hsector
    rw [Nat.mod_eq_of_lt (by omega)]
  rw [h.starts, List.map_congr_left hmod, startsFrom_map_add, Nat.add_zero]

/-! ## The files of `finish_row` -/

theorem finishRow_records {keys : List String} {rows : List RecordRow} {compact : Option CompactOptions} {file : Slice}
    (h : finishRow keys rows compact = .ok file) :
    ∃ w records offsets, rows.foldlM writeRow (NxsWriter.withCompact keys compact) = .ok w ∧
      records.length = rows.length ∧ RecordFile file.bytes w.schemaBytes w.fileFlags records offsets := by
  obtain ⟨w, hw, hfinish⟩ := finishRow_eq_ok.mp h
  cases compact with
  | none =>
    obtain ⟨records, hpacked, hlen⟩ := (Packed.new keys).writeRows hw
    obtain ⟨offsets, hfile⟩ := finish_records hpacked hfinish
    exact ⟨w, records, offsets, hw, hlen, hfile⟩
  | some opts =>
    have hpending : Pending (NxsWriter.withCompact keys (some opts)) opts 0 false := ⟨rfl, rfl, rfl⟩
    have hdone := hpending.writeRows hw
    obtain ⟨records, offsets, hlen, hfile⟩ := finish_compact_records hdone.compact hfinish
    rw [hdone.count, Nat.zero_add] at hlen
    exact ⟨w, records, offsets, hw, hlen, hfile⟩

end Nyxis

import Nyxis.ReaderOpen
import Nyxis.RowRecord
import Nyxis.Wal

/-!
# SpanRecord — the bytes of a span

A span is written as one object over ten slots, in a log and in a segment alike.

* `writeSpan_ok`: what writing a span does to a row writer.
* `spanRecord_eq_ok`: the record that a log keeps of a span.
* `extractTraceSpanId_record`: recovery finds the ids in it.
-/

namespace Nyxis

open Lib Lib.Outcome
open NxsWriter (prefixed)

/-! ## The cells of a span -/

/-- The bytes of the parent's id; zeros stand for no parent. -/
def parentBytes (s : SpanFields) : Bytes := s.parentSpanId.elim (zeros 8) i64Bytes

def payloadCells (s : SpanFields) : List (ℕ × Bytes) := s.payload.elim [] fun b => [(9, prefixed b)]

/-- The slots that every span has, with the bytes of their values. -/
def spanHead (s : SpanFields) : List (ℕ × Bytes) :=
  [(0, i64Bytes s.traceIdHi), (1, i64Bytes s.traceIdLo), (2, i64Bytes s.spanId), (3, parentBytes s),
    (4, prefixed (utf8 s.name)), (5, prefixed (utf8 s.service)), (6, i64Bytes s.startTimeNs),
    (7, i64Bytes s.durationNs), (8, i64Bytes s.statusCode)]

/-- The slots of a span with the bytes of their values. -/
def spanCells (s : SpanFields) : List (ℕ × Bytes) := spanHead s ++ payloadCells s

theorem spanCells_length (s : SpanFields) : (spanCells s).length ≤ 10 := by
  rw [spanCells, List.length_append, spanHead, payloadCells]
  cases s.payload <;> simp

theorem spanCells_ascending (s : SpanFields) : ((spanCells s).map Prod.fst).Pairwise (· < ·) := by
  rw [spanCells, spanHead, payloadCells]
  cases s.payload <;> simp

theorem spanCells_lt (s : SpanFields) : ∀ c ∈ spanCells s, c.1 < 10 := by
  intro c hc
  rw [spanCells, spanHead, payloadCells] at hc
  cases hp : s.payload <;> rw [hp] at hc <;> simp at hc <;> grind

@[simp] theorem parentBytes_length (s : SpanFields) : (parentBytes s).length = 8 := by
  rw [parentBytes]
  cases s.parentSpanId <;> simp

/-- A missing parent is a null. -/
def parentSigil (s : SpanFields) : UInt8 := s.parentSpanId.elim SIGIL_NULL fun _ => SIGIL_INT

/-- The sigils of the slots once those of `spanHead` are written; `parent` is that of the parent. -/
def noteHead (sigils : List UInt8) (parent : UInt8) : List UInt8 :=
  let sigils := noteSigil (noteSigil (noteSigil sigils 0 SIGIL_INT) 1 SIGIL_INT) 2 SIGIL_INT
  let sigils := noteSigil (noteSigil (noteSigil sigils 3 parent) 4 SIGIL_STR) 5 SIGIL_STR
  noteSigil (noteSigil (noteSigil sigils 6 SIGIL_TIME) 7 SIGIL_INT) 8 SIGIL_INT

/-- The sigils of the slots once a span is written. -/
def noteSpan (sigils : List UInt8) (s : SpanFields) : List UInt8 :=
  let sigils := noteHead sigils (parentSigil s)
  s.payload.elim sigils fun _ => noteSigil sigils 9 SIGIL_BINARY

/-! ## Writing a span -/

/-- A row writer over the keys of a span, between two objects. -/
structure SpanWriter (w : NxsWriter) : Prop where
  plain : w.compact = none
  frames : w.frames = []
  keys : w.keys = SPAN_KEYS

theorem SpanWriter.new : SpanWriter (NxsWriter.new SPAN_KEYS) := ⟨rfl, rfl, rfl⟩

/-- Writing a span appends its object. -/
theorem writeSpan_ok {w : NxsWriter} (h : SpanWriter w) (s : SpanFields) :
    ∃ w', writeSpan w s = .ok w' ∧ SpanWriter w' ∧
      w'.buf = w.buf ++ objectBytes 10 (spanCells s) ∧
      w'.recordOffsets = w.recordOffsets ++ [w.buf.length % 2 ^ 32] ∧
      w'.slotSigils = noteSpan w.slotSigils s := by
  have hlen : w.keys.length = 10 := by rw [h.keys]; rfl
  have hfit : ∀ {slot}, slot / 7 < 2 → slot / 7 < bitmaskLen w.keys.length := by
    intro slot hslot
    rw [hlen]
    exact hslot
  obtain ⟨hopen, hkeys, hoffsets⟩ := Writing.begin_object h.plain h.frames
  have hsig : w.beginObject.slotSigils = w.slotSigils := by
    rw [NxsWriter.beginObject, h.plain]
  have h0 : Wrote w w.beginObject w.buf [] 0 w.slotSigils :=
    ⟨hopen, fun c hc => absurd hc List.not_mem_nil, hkeys, hoffsets, hsig⟩
  obtain ⟨w1, e1, h1⟩ := h0.writeI64 (Nat.zero_le 0) (hfit (by decide)) s.traceIdHi
  obtain ⟨w2, e2, h2⟩ := h1.writeI64 (show 0 + 1 ≤ 1 from Nat.le_refl 1) (hfit (by decide)) s.traceIdLo
  obtain ⟨w3, e3, h3⟩ := h2.writeI64 (show 1 + 1 ≤ 2 from Nat.le_refl 2) (hfit (by decide)) s.spanId
  obtain ⟨w4, e4, h4⟩ : ∃ w4, writeParent w3 s.parentSpanId = .ok w4 ∧
        Wrote w w4 w.buf ([] ++ [(0, i64Bytes s.traceIdHi)] ++ [(1, i64Bytes s.traceIdLo)] ++
          [(2, i64Bytes s.spanId)] ++ [(3, parentBytes s)]) 4 (noteSigil
            (noteSigil (noteSigil (noteSigil w.slotSigils 0 SIGIL_INT) 1 SIGIL_INT) 2 SIGIL_INT)
            3 (parentSigil s)) := by
    rw [parentSigil, parentBytes]
    cases s.parentSpanId with
    | some p => exact h3.writeI64 (Nat.le_refl 3) (hfit (by decide)) p
    | none => exact h3.writeNull (Nat.le_refl 3) (hfit (by decide))
  obtain ⟨w5, e5, h5⟩ := h4.writeStr (Nat.le_refl 4) (hfit (by decide)) s.name
  obtain ⟨w6, e6, h6⟩ := h5.writeStr (Nat.le_refl 5) (hfit (by decide)) s.service
  obtain ⟨w7, e7, h7⟩ := h6.writeTime (Nat.le_refl 6) (hfit (by decide)) s.startTimeNs
  obtain ⟨w8, e8, h8⟩ := h7.writeI64 (Nat.le_refl 7) (hfit (by decide)) s.durationNs
  obtain ⟨w9, e9, h9⟩ := h8.writeI64 (Nat.le_refl 8) (hfit (by decide)) s.statusCode
  have hhead : Wrote w w9 w.buf (spanHead s) 9 (noteHead w.slotSigils (parentSigil s)) := by
    dsimp only [spanHead, noteHead]
    simpa only [List.nil_append, List.cons_append] using h9
  obtain ⟨w10, e10, next, h10⟩ : ∃ w10, writePayload w9 s.payload = .ok w10 ∧
        ∃ next, Wrote w w10 w.buf (spanCells s) next (noteSpan w.slotSigils s) := by
    rw [spanCells, payloadCells, noteSpan]
    cases s.payload with
    | some b =>
      obtain ⟨w10, e10, h10⟩ := hhead.writeBytes (Nat.le_refl 9) (hfit (by decide)) b
      refine ⟨w10, e10, 9 + 1, ?_⟩
      rw [Option.elim_some, Option.elim_some]
      exact h10
    | none =>
      refine ⟨w9, rfl, 9, ?_⟩
      rw [Option.elim_none, Option.elim_none, List.append_nil]
      exact hhead
  obtain ⟨w', e', hbuf, hframes, hsame, hsigils⟩ := h10.writing.close (by
    rw [h10.keys, hlen]
    exact spanCells_length s)
  refine ⟨w', ?_, ⟨?_, hframes, ?_⟩, ?_, ?_, ?_⟩
  · rw [writeSpan, e1, ok_bind, e2, ok_bind, e3, ok_bind, e4, ok_bind, e5, ok_bind, e6, ok_bind, e7,
      ok_bind, e8, ok_bind, e9, ok_bind, e10, ok_bind, e']
  · rw [hsame.compact, h10.writing.plain]
  · rw [hsame.keys, h10.keys, h.keys]
  · rw [hbuf, h10.keys, hlen]
  · rw [hsame.recordOffsets, h10.recordOffsets]
  · rw [hsigils, h10.slotSigils]

/-! ## The record of a span -/

/-- The record that is kept of a span. -/
def recordBytes (s : SpanFields) : Bytes := objectBytes 10 (spanCells s)

theorem recordBytes_length (s : SpanFields) :
    (recordBytes s).length = 32 + (objectValues (spanCells s)).length :=
  objectBytes_length (spanCells_length s)

theorem spanKeys_nulFree : ∀ k ∈ SPAN_KEYS, NulFree k := by decide +kernel

theorem skipNames_strTable {d : Bytes} : ∀ {l : List String} {pos : ℕ}, (∀ s ∈ l, NulFree s) →
    At d pos (strTable l) → skipNames d l.length pos = pos + (strTable l).length
  | [], _, _, _ => rfl
  | s :: l, pos, hl, hat => by
    rw [strTable_cons, at_append] at hat
    obtain ⟨hs, hrest⟩ := hat
    obtain ⟨hnul, htab⟩ := at_cons.mp hrest
    have hstop : nonNul (d.drop pos) = (utf8 s).length := by
      obtain ⟨post, hpost⟩ := (at_append.mpr ⟨hs, hnul⟩).drop_eq
      rw [hpost, List.append_assoc, List.singleton_append, nonNul_append (hl s (by simp))]
    have ih := skipNames_strTable (fun t ht => hl t (by simp [ht])) htab
    rw [List.length_cons, skipNames, hstop, ih, strTable_cons]
    simp only [List.length_append, List.length_cons]
    omega

/-- The file of a row writer over the keys of a span. -/
def spanFile (w : NxsWriter) : Bytes :=
  let schemaBytes := buildSchema SPAN_KEYS w.slotSigils
  preamble VERSION FLAG_SCHEMA_EMBEDDED (murmur3_64 schemaBytes) 0 ++ schemaBytes ++ w.buf ++
    NxsWriter.tailIndexRecords (w.recordOffsets.map (32 + schemaBytes.length + ·))
      (32 + schemaBytes.length + w.buf.length)

theorem SpanWriter.finish {w : NxsWriter} (h : SpanWriter w) : w.finish = Slice.ofBytes (spanFile w) := by
  rw [NxsWriter.finish, h.frames, demand_of rfl, ok_bind, h.plain]
  dsimp only
  rw [h.keys]
  rfl

/-- Where the data sector of a file of spans starts. -/
def spanDataStart (w : NxsWriter) : ℕ := 32 + (buildSchema SPAN_KEYS w.slotSigils).length

/-- The parts of a file of spans. -/
structure SpanFile (w : NxsWriter) (d : Bytes) : Prop where
  preamble : At d 0 (preamble VERSION FLAG_SCHEMA_EMBEDDED
    (murmur3_64 (buildSchema SPAN_KEYS w.slotSigils)) 0)
  schema : At d 32 (buildSchema SPAN_KEYS w.slotSigils)
  data : At d (spanDataStart w) w.buf
  tail : At d (spanDataStart w + w.buf.length) (NxsWriter.tailIndexRecords
    (w.recordOffsets.map (spanDataStart w + ·)) (spanDataStart w + w.buf.length))
  length : d.length = spanDataStart w + w.buf.length + 4 + w.recordOffsets.length * 10 + 12

theorem spanFile_parts (w : NxsWriter) : SpanFile w (spanFile w) := by
  have hpre : At (spanFile w) 0 (preamble VERSION FLAG_SCHEMA_EMBEDDED
      (murmur3_64 (buildSchema SPAN_KEYS w.slotSigils)) 0 ++ buildSchema SPAN_KEYS w.slotSigils ++ w.buf ++
        NxsWriter.tailIndexRecords (w.recordOffsets.map (spanDataStart w + ·))
          (spanDataStart w + w.buf.length)) := at_self _
  simp only [at_append, List.length_append, preamble_length, Nat.zero_add, ← Nat.add_assoc] at hpre
  obtain ⟨⟨⟨h1, h2⟩, h3⟩, h4⟩ := hpre
  refine ⟨h1, h2, h3, h4, ?_⟩
  rw [spanFile, tailIndexRecords_eq]
  simp only [List.length_append, preamble_length, leBytes_length, tailEntries_length, List.length_map,
    spanDataStart]
  omega

namespace SpanFile

variable {w : NxsWriter} {d : Bytes}

/-- The parts of the tail of a file of spans. -/
theorem at_tail (h : SpanFile w d) :
    At d (spanDataStart w + w.buf.length) (leBytes 4 w.recordOffsets.length) ∧
      At d (spanDataStart w + w.buf.length + 4)
        (tailEntries (w.recordOffsets.map (spanDataStart w + ·))) ∧
      At d (d.length - 12) (leBytes 8 (spanDataStart w + w.buf.length)) ∧
      At d (d.length - 4) (leBytes 4 MAGIC_FOOTER) := by
  have htail := h.tail
  rw [tailIndexRecords_eq] at htail
  simp only [at_append, List.length_append, leBytes_length, tailEntries_length, List.length_map] at htail
  obtain ⟨⟨⟨hcount, hentries⟩, hptr⟩, hfooter⟩ := htail
  refine ⟨hcount, hentries, ?_, ?_⟩
  · have hoff : d.length - 12 = spanDataStart w + w.buf.length + (4 + w.recordOffsets.length * 10) := by
      rw [h.length]
      omega
    rwa [hoff]
  · have hoff : d.length - 4 = spanDataStart w + w.buf.length + (4 + w.recordOffsets.length * 10 + 8) := by
      rw [h.length]
      omega
    rwa [hoff]

/-- The parts of the schema of a file of spans. -/
theorem at_schema (h : SpanFile w d) :
    At d 32 (leBytes 2 10) ∧ At d 34 (schemaSigils 10 w.slotSigils) ∧ At d 44 (strTable SPAN_KEYS) ∧
      align8 (44 + (strTable SPAN_KEYS).length) = spanDataStart w := by
  have hten : SPAN_KEYS.length = 10 := rfl
  have hparts := h.schema
  rw [buildSchema, padTo, at_append, at_append, at_append, List.length_append, leBytes_length,
    schemaSigils_length, hten] at hparts
  obtain ⟨⟨⟨hcount, hsigils⟩, hnames⟩, -⟩ := hparts
  refine ⟨hcount, hsigils, hnames, ?_⟩
  rw [align8_eq, spanDataStart, buildSchema, padTo_length, List.length_append, List.length_append,
    leBytes_length, schemaSigils_length, hten]
  unfold padLen
  omega

end SpanFile

/-- The data sector of a file of spans. -/
theorem extractDataSector_spanFile {w : NxsWriter} {d : Bytes} (h : SpanFile w d)
    (hsmall : d.length < 2 ^ 63) : extractDataSector d = .ok w.buf := by
  obtain ⟨-, -, hptr, -⟩ := h.at_tail
  obtain ⟨hcount, -, hnames, hpos⟩ := h.at_schema
  obtain ⟨-, -, hzero⟩ := at_preamble h.preamble
  have hskip := skipNames_strTable spanKeys_nulFree hnames
  rw [show SPAN_KEYS.length = 10 from rfl] at hskip
  have hlen := h.length
  have hstart : spanDataStart w = 32 + (buildSchema SPAN_KEYS w.slotSigils).length := rfl
  rw [extractDataSector, ensure_of (by omega), ok_bind, readLE_leBytes hzero (by decide) hsmall,
    ok_bind, if_pos rfl, ensure_of (by omega), ok_bind, readLE_leBytes hptr (by omega) hsmall,
    ok_bind]
  beta_reduce
  rw [ensure_of (by omega), ok_bind, ensure_of (by omega), ok_bind,
    readLE_leBytes hcount (by decide) hsmall, ok_bind]
  dsimp only
  rw [hskip, hpos, ensure_of (by omega), ok_bind]
  exact range_at h.data

/-- The record of a span holds its cells. -/
theorem spanRecord_eq_ok {s : SpanFields} {b : Bytes} (h : spanRecord s = .ok b) : b = recordBytes s := by
  obtain ⟨w, hw, hspan, hbuf, -⟩ := writeSpan_ok SpanWriter.new s
  rw [spanRecord, hw, ok_bind, hspan.finish] at h
  obtain ⟨nxb, hnxb, h⟩ := bind_eq_ok.mp h
  have hbytes := Slice.ofBytes_eq_ok.mp hnxb
  have hsmall := nxb.small
  rw [hbytes] at h hsmall
  rw [extractDataSector_spanFile (spanFile_parts w) hsmall] at h
  cases h
  rw [hbuf]
  exact List.nil_append (recordBytes s)

/-- A span of fewer than `2 ^ 62` bytes can be encoded. -/
theorem spanRecord_of_lt {s : SpanFields} (h : (recordBytes s).length < 2 ^ 62) : spanRecord s = .ok (recordBytes s) := by
  obtain ⟨w, hw, hspan, hbuf, hoffsets, -⟩ := writeSpan_ok SpanWriter.new s
  have hfile := spanFile_parts w
  have hnew : (NxsWriter.new SPAN_KEYS).buf = [] ∧ (NxsWriter.new SPAN_KEYS).recordOffsets = [] := ⟨rfl, rfl⟩
  rw [hnew.1, List.nil_append] at hbuf
  rw [hnew.2, List.nil_append] at hoffsets
  obtain ⟨-, -, -, hstart⟩ := hfile.at_schema
  have hnames : align8 (44 + (strTable SPAN_KEYS).length) < 2 ^ 10 := by decide +kernel
  have hlen := hfile.length
  rw [hoffsets, List.length_singleton, ← hstart, show w.buf = recordBytes s from hbuf] at hlen
  have hsmall : (spanFile w).length < 2 ^ 63 := by omega
  rw [spanRecord, hw, ok_bind, hspan.finish, Slice.ofBytes, dif_pos hsmall, ok_bind,
    extractDataSector_spanFile hfile hsmall, show w.buf = recordBytes s from hbuf]

/-- A span can always be encoded, memory aside. -/
theorem spanRecord_ne_err {s : SpanFields} {e : NxsError} : spanRecord s ≠ .err e := by
  obtain ⟨w, hw, hspan, -⟩ := writeSpan_ok SpanWriter.new s
  rw [spanRecord, hw, ok_bind, hspan.finish]
  cases hnxb : Slice.ofBytes (spanFile w) with
  | ok nxb =>
    have hsmall := nxb.small
    have hfile := spanFile_parts w
    rw [← Slice.ofBytes_eq_ok.mp hnxb] at hfile
    rw [ok_bind, extractDataSector_spanFile hfile hsmall]
    exact fun h => by cases h
  | err e' => exact absurd hnxb Slice.ofBytes_ne_err
  | panic => exact fun h => by cases h

theorem walHeader_length : walHeader.length = 12 + walSchemaBytes.length := by
  simp only [walHeader, List.length_append, leBytes_length]

/-! ## The ids in a record -/

theorem spanHead_slots (s : SpanFields) : (spanHead s).map Prod.fst = List.range 9 := rfl

theorem objectSlots_span (s : SpanFields) {i : ℕ} (hi : i < 9) : objectSlots (spanCells s) i = true := by
  have hmem : i ∈ (spanHead s).map Prod.fst := by
    rw [spanHead_slots, List.mem_range]
    exact hi
  obtain ⟨c, hc, rfl⟩ := List.mem_map.mp hmem
  exact List.any_eq_true.mpr ⟨c, List.mem_append_left _ hc, beq_self_eq_true _⟩

theorem getD_map_range {p : ℕ → Bool} {i n : ℕ} (hi : i < n) :
    ((List.range n).map p).getD i false = p i := by
  rw [List.getD_eq_getElem?_getD, List.getElem?_map, List.getElem?_range hi]
  rfl

/-- The slots below one of the first nine. -/
theorem count_slots_span (s : SpanFields) {slot : ℕ} (hslot : slot ≤ 9) :
    (((List.range 14).map (objectSlots (spanCells s))).take slot).count true = slot := by
  have hall : ((List.range 14).map (objectSlots (spanCells s))).take slot = List.replicate slot true := by
    rw [List.eq_replicate_iff]
    refine ⟨by simp; omega, fun b hb => ?_⟩
    rw [← List.map_take, List.take_range] at hb
    obtain ⟨i, hi, rfl⟩ := List.mem_map.mp hb
    rw [List.mem_range] at hi
    exact objectSlots_span s (by omega)
  rw [hall, List.count_replicate_self]

/-- The entry and the value of a slot that holds an integer, where the slots before it take `8 * slot` bytes. -/
theorem at_slot {s : SpanFields} (slot : ℕ) (v : Int64) (hslot : slot < 9)
    (hcell : (spanCells s)[slot]? = some (slot, i64Bytes v))
    (hbefore : (objectValues ((spanCells s).take slot)).length = 8 * slot) :
    At (recordBytes s) (10 + slot * 2) (leBytes 2 (32 + 8 * slot)) ∧ At (recordBytes s) (32 + 8 * slot) (i64Bytes v) := by
  have hat := at_self (recordBytes s)
  have hlen := spanCells_length s
  obtain ⟨-, -, -, htable, -⟩ := at_object hlen hat
  have hi : slot < (spanCells s).length := (List.getElem?_eq_some_iff.mp hcell).1
  have hentry := htable.trans (at_flatMap_const (fun m _ => leBytes_length 2 m)
    (objectOffsets_getElem? (n := 10) hi))
  have hvalue := at_objectValue hlen hat hcell
  have hstart : objectStart 10 = 32 := rfl
  rw [hstart, hbefore] at hentry hvalue
  rw [Nat.mod_eq_of_lt (by omega), show 0 + 8 + bitmaskLen 10 = 10 from rfl] at hentry
  rw [Nat.zero_add] at hvalue
  exact ⟨hentry, hvalue⟩

/-- A slot of an integer in the first bytes of a record. -/
theorem readSlot_record {s : SpanFields} {l : ℕ} (slot : ℕ) (v : Int64) (hslot : slot < 9)
    (hl : 40 + 8 * slot ≤ l) (hle : l ≤ (recordBytes s).length) (hsmall : l < 2 ^ 63)
    (hcell : (spanCells s)[slot]? = some (slot, i64Bytes v))
    (hbefore : (objectValues ((spanCells s).take slot)).length = 8 * slot) :
    readSlot ((recordBytes s).take l) ((List.range 14).map (objectSlots (spanCells s))) 10 slot = .ok v.toUInt64 := by
  obtain ⟨hentry, hvalue⟩ := at_slot slot v hslot hcell hbefore
  have hentry := hentry.of_prefix (m := l) (by rw [leBytes_length]; omega)
  have hvalue := hvalue.of_prefix (m := l) (by rw [i64Bytes_length]; omega)
  have hlen : ((recordBytes s).take l).length = l := List.length_take_of_le hle
  rw [readSlot, getD_map_range (by omega), objectSlots_span s hslot, ensure_of rfl, ok_bind,
    count_slots_span s (by omega)]
  dsimp only
  rw [ensure_of (by omega), ok_bind, readLE_leBytes hentry (by omega) (by omega), ok_bind,
    ensure_of (by omega), ok_bind, readLE_at hvalue (i64Bytes_length v) (by omega), ok_bind, leNat_i64Bytes,
    UInt64.ofNat_toNat]

theorem at_mask (s : SpanFields) : At (recordBytes s) 8 (maskBytes (bitmaskLen 10) (objectSlots (spanCells s))) := by
  obtain ⟨-, -, hmask, -, -⟩ := at_object (spanCells_length s) (at_self (recordBytes s))
  exact hmask

/-- The seven values of eight bytes that every span has. -/
theorem le_recordBytes_length (s : SpanFields) : 88 ≤ (recordBytes s).length := by
  rw [recordBytes_length, spanCells, spanHead, objectValues]
  simp only [List.flatMap_append, List.flatMap_cons, List.length_append, i64Bytes_length, parentBytes_length]
  omega

/-- The ids of a span are found in the first bytes of its record. -/
theorem extractTraceSpanId_take {s : SpanFields} {l : ℕ} (hl : 56 ≤ l) (hle : l ≤ (recordBytes s).length)
    (hsmall : l < 2 ^ 63) :
    extractTraceSpanId ((recordBytes s).take l) = .ok (s.traceId, s.spanId.toUInt64) := by
  have hmask := At.of_prefix (at_mask s) (m := l) (by rw [maskBytes_length]; exact le_trans (by decide) hl)
  have hbits : readMask ((recordBytes s).take l) 17 _ [] = _ := readMask_object hmask (by decide)
  have hcount : ((List.range 14).map (objectSlots (spanCells s))).count true ≤ 14 := by
    refine le_trans List.count_le_length ?_
    rw [List.length_map, List.length_range]
  have hlen : ((recordBytes s).take l).length = l := List.length_take_of_le hle
  have hhi := readSlot_record 0 s.traceIdHi (by decide) (by omega) hle hsmall rfl rfl
  have hlo := readSlot_record 1 s.traceIdLo (by decide) (by omega) hle hsmall rfl
    (by simp [spanCells, spanHead, objectValues])
  have hid := readSlot_record 2 s.spanId (by decide) (by omega) hle hsmall rfl
    (by simp [spanCells, spanHead, objectValues])
  rw [extractTraceSpanId, show (8 : ℕ) = 0 + 8 from rfl, hbits, ok_bind]
  show (do
    ensure (¬ 10 + ((List.range 14).map (objectSlots (spanCells s))).count true * 2 >
      ((recordBytes s).take l).length) ()
    let hi ← readSlot ((recordBytes s).take l) ((List.range 14).map (objectSlots (spanCells s))) 10 0
    let lo ← readSlot ((recordBytes s).take l) ((List.range 14).map (objectSlots (spanCells s))) 10 1
    let spanId ← readSlot ((recordBytes s).take l) ((List.range 14).map (objectSlots (spanCells s))) 10 2
    .ok (traceIdOf hi lo, spanId)) = _
  rw [ensure_of (by omega), ok_bind, hhi, ok_bind, hlo, ok_bind, hid, ok_bind]
  rfl

/-- Recovery finds the ids of a span in its record. -/
theorem extractTraceSpanId_record {s : SpanFields} (hsmall : (recordBytes s).length < 2 ^ 63) :
    extractTraceSpanId (recordBytes s) = .ok (s.traceId, s.spanId.toUInt64) := by
  have hids := @extractTraceSpanId_take s _ (le_trans (by decide) (le_recordBytes_length s)) (Nat.le_refl _) hsmall
  rwa [List.take_length] at hids

end Nyxis

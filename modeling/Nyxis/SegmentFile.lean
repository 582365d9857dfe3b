import Nyxis.SealedSpans

/-!
# SegmentFile — sealing a log and reading the segment

A log is sealed by decoding its records and writing the spans again.  `WroteSpans` is what the writer
then holds, `SegmentOf` what a segment reader finds in its file.

* `replay_inLog`: the replay of a log writes the spans that it holds.
* `segmentOf_spanFile`: a segment is loaded with one record for each span.
* `seal_preserves`: a sealed segment answers every query with exactly the spans of the log.
-/

namespace Nyxis

open Lib Lib.Outcome

/-! ## The spans of a segment -/

/-- Where the records of spans start that are written one after the other from `pos` on. -/
def recordStarts : ℕ → List SpanFields → List ℕ
  | _, [] => []
  | pos, s :: spans => pos :: recordStarts (pos + recordLen s) spans

/-- The spans that one segment can hold: the record offsets are kept in a `u32`. -/
structure SealableTogether (spans : List SpanFields) : Prop where
  each : ∀ s ∈ spans, Sealable s
  starts : ∀ o ∈ recordStarts 0 spans, o < 2 ^ 32

instance (spans : List SpanFields) : Decidable (SealableTogether spans) :=
  decidable_of_iff ((∀ s ∈ spans, Sealable s) ∧ ∀ o ∈ recordStarts 0 spans, o < 2 ^ 32)
    ⟨fun h => ⟨h.1, h.2⟩, fun h => ⟨h.each, h.starts⟩⟩

/-- The records of spans, one after the other. -/
def recordsBytes (spans : List SpanFields) : Bytes := spans.flatMap recordBytes

theorem recordStarts_length (pos : ℕ) (spans : List SpanFields) :
    (recordStarts pos spans).length = spans.length := by
  induction spans generalizing pos with
  | nil => rfl
  | cons s spans ih => rw [recordStarts, List.length_cons, List.length_cons, ih]

theorem recordStarts_add (a b : ℕ) (spans : List SpanFields) :
    recordStarts (a + b) spans = (recordStarts b spans).map (a + ·) := by
  induction spans generalizing b with
  | nil => rfl
  | cons s spans ih => rw [recordStarts, recordStarts, List.map_cons, Nat.add_assoc, ih]

theorem recordStarts_concat (pos : ℕ) (spans : List SpanFields) (s : SpanFields) :
    recordStarts pos (spans ++ [s]) = recordStarts pos spans ++ [pos + (recordsBytes spans).length] := by
  induction spans generalizing pos with
  | nil => rfl
  | cons t spans ih =>
    rw [List.cons_append, recordStarts, ih, recordStarts, recordsBytes, recordsBytes, List.flatMap_cons,
      List.length_append, recordBytes_length_eq, Nat.add_assoc, List.cons_append]

/-- A record takes more than eight bytes, so that offsets that fit a `u32` bound the number of spans. -/
theorem le_recordStarts (pos : ℕ) (spans : List SpanFields) :
    ∀ i o, (recordStarts pos spans)[i]? = some o → pos + 8 * i ≤ o := by
  induction spans generalizing pos with
  | nil => exact fun i o h => by cases h
  | cons s spans ih =>
    intro i o h
    cases i with
    | zero =>
      cases h
      exact Nat.le_refl pos
    | succ i =>
      have hlen : 8 ≤ recordLen s := by
        unfold recordLen
        omega
      have := ih (pos + recordLen s) i o (by simpa [recordStarts] using h)
      omega

theorem SealableTogether.length_lt {spans : List SpanFields} (h : SealableTogether spans) :
    spans.length < 2 ^ 32 := by
  by_contra hle
  have hi : 2 ^ 32 - 1 < (recordStarts 0 spans).length := by
    rw [recordStarts_length]
    omega
  have hget := List.getElem?_eq_getElem hi
  have hlt := h.starts _ (List.getElem_mem hi)
  have := le_recordStarts 0 spans _ _ hget
  omega

/-- Every record is at its start. -/
theorem at_records {d : Bytes} : ∀ {spans : List SpanFields} {pos : ℕ}, At d pos (recordsBytes spans) →
    ∀ p ∈ (recordStarts pos spans).zip spans, At d p.1 (recordBytes p.2)
  | [], _, _, p, hp => absurd hp List.not_mem_nil
  | s :: spans, pos, hat, p, hp => by
    rw [recordsBytes, List.flatMap_cons, at_append, recordBytes_length_eq] at hat
    rw [recordStarts, List.zip_cons_cons] at hp
    rcases List.mem_cons.mp hp with rfl | hp
    · exact hat.1
    · exact at_records hat.2 p hp

theorem map_snd_zip_recordStarts (pos : ℕ) (spans : List SpanFields) :
    ((recordStarts pos spans).zip spans).map Prod.snd = spans :=
  List.map_snd_zip (by rw [recordStarts_length])

/-! ## Writing the spans -/

/-- The writer after some spans. -/
structure WroteSpans (w : NxsWriter) (spans : List SpanFields) : Prop where
  writer : SpanWriter w
  buf : w.buf = recordsBytes spans
  recordOffsets : w.recordOffsets = (recordStarts 0 spans).map (· % 2 ^ 32)
  slotSigils : w.slotSigils = spans.foldl noteSpan (List.replicate 10 0)

theorem WroteSpans.new : WroteSpans (NxsWriter.new SPAN_KEYS) [] := ⟨.new, rfl, rfl, rfl⟩

theorem WroteSpans.concat {w : NxsWriter} {spans : List SpanFields} (h : WroteSpans w spans)
    (s : SpanFields) : ∃ w', writeSpan w s = .ok w' ∧ WroteSpans w' (spans ++ [s]) := by
  obtain ⟨w', hw', hwriter, hbuf, hoffsets, hsigils⟩ := writeSpan_ok h.writer s
  refine ⟨w', hw', hwriter, ?_, ?_, ?_⟩
  · rw [hbuf, h.buf, recordsBytes, recordsBytes, List.flatMap_append, List.flatMap_singleton]
    rfl
  · rw [hoffsets, h.recordOffsets, h.buf, recordStarts_concat, List.map_append, Nat.zero_add]
    rfl
  · rw [hsigils, h.slotSigils, List.foldl_append]
    rfl

/-- The sigils of the slots, before the schema is written. -/
def rawSigils (parent payload : Bool) : List UInt8 :=
  [SIGIL_INT, SIGIL_INT, SIGIL_INT, if parent then SIGIL_INT else SIGIL_NULL, SIGIL_STR, SIGIL_STR,
    SIGIL_TIME, SIGIL_INT, SIGIL_INT, if payload then SIGIL_BINARY else 0]

theorem parentSigil_eq (s : SpanFields) :
    parentSigil s = if s.parentSpanId.isSome then SIGIL_INT else SIGIL_NULL := by
  rw [parentSigil]
  cases s.parentSpanId <;> rfl

theorem noteHead_new : ∀ b : Bool,
    noteHead (List.replicate 10 0) (if b then SIGIL_INT else SIGIL_NULL) = rawSigils b false := by
  decide +kernel

theorem noteHead_raw : ∀ parent payload b : Bool,
    noteHead (rawSigils parent payload) (if b then SIGIL_INT else SIGIL_NULL) =
      rawSigils (parent || b) payload := by
  decide +kernel

theorem notePayload_raw : ∀ parent payload : Bool,
    noteSigil (rawSigils parent payload) 9 SIGIL_BINARY = rawSigils parent true := by
  decide +kernel

theorem noteSpan_new (s : SpanFields) :
    noteSpan (List.replicate 10 0) s = rawSigils s.parentSpanId.isSome s.payload.isSome := by
  rw [noteSpan, parentSigil_eq, noteHead_new]
  cases s.payload with
  | none => rfl
  | some b =>
    rw [Option.elim_some, notePayload_raw]
    rfl

theorem noteSpan_raw (parent payload : Bool) (s : SpanFields) :
    noteSpan (rawSigils parent payload) s =
      rawSigils (parent || s.parentSpanId.isSome) (payload || s.payload.isSome) := by
  rw [noteSpan, parentSigil_eq, noteHead_raw]
  cases s.payload with
  | none => rw [Option.elim_none, Option.isSome_none, Bool.or_false]
  | some b => rw [Option.elim_some, notePayload_raw, Option.isSome_some, Bool.or_true]

theorem foldl_noteSpan (spans : List SpanFields) (parent payload : Bool) :
    spans.foldl noteSpan (rawSigils parent payload) =
      rawSigils (parent || spans.any fun s => s.parentSpanId.isSome)
        (payload || spans.any fun s => s.payload.isSome) := by
  induction spans generalizing parent payload with
  | nil => simp
  | cons s spans ih =>
    rw [List.foldl_cons, noteSpan_raw, ih, List.any_cons, List.any_cons, Bool.or_assoc, Bool.or_assoc]

theorem schemaSigils_raw (parent payload : Bool) :
    schemaSigils 10 (rawSigils parent payload) = spanSigils parent payload := by
  cases parent <;> cases payload <;> rfl

/-- The sigils in the schema of a segment fit every span that is in it. -/
theorem WroteSpans.sigils {w : NxsWriter} {spans : List SpanFields} (h : WroteSpans w spans)
    (hne : spans ≠ []) :
    schemaSigils 10 w.slotSigils = spanSigils (spans.any fun s => s.parentSpanId.isSome)
      (spans.any fun s => s.payload.isSome) := by
  rw [h.slotSigils]
  cases spans with
  | nil => exact absurd rfl hne
  | cons s spans =>
    rw [List.foldl_cons, noteSpan_new, foldl_noteSpan, schemaSigils_raw, List.any_cons, List.any_cons]

/-! ## Replaying a log -/

/-- An indexed record of a log. -/
def InLog (d : Bytes) (entry : WalEntry) (s : SpanFields) : Prop := At d entry.offset (recordBytes s)

/-- The replay of a record writes its span again. -/
theorem replayEntry_inLog {d : Bytes} {entry : WalEntry} {s : SpanFields} (w : NxsWriter)
    (h : InLog d entry s) (hs : Sealable s) (h0 : s.parentSpanId ≠ some 0) :
    replayEntry d w entry = writeSpan w s := by
  have hlen := recordBytes_length_eq s
  have hsize := hs.size
  have hsmall : (recordBytes s).length < 2 ^ 63 := by omega
  have h8 : 8 ≤ recordLen s := by
    unfold recordLen
    omega
  obtain ⟨-, hobjLen, -⟩ := at_object (spanCells_length s) (at_self (recordBytes s))
  rw [← objectBytes_length (spanCells_length s), Nat.zero_add] at hobjLen
  have hword : At (recordBytes s) 4 (leBytes 4 (recordLen s)) := by
    rw [← hlen]
    exact hobjLen
  have hhdr : (d.drop entry.offset).take 8 = (recordBytes s).take 8 := by
    rw [← h.take_drop, List.take_take, Nat.min_eq_left (by omega)]
  have hrest : (d.drop (entry.offset + 8)).take (recordLen s - 8) = (recordBytes s).drop 8 := by
    have hdrop := (At.drop h (k := 8) (by omega)).take_drop
    rwa [List.length_drop, hlen] at hdrop
  have hread : (readLE ((recordBytes s).take 8) 4 4 : Res ℕ) = .ok (recordLen s) := by
    have hat : At ((recordBytes s).take 8) 4 (leBytes 4 (recordLen s)) := by
      refine at_of_take_drop (n := 4) ?_ ?_
      · rw [List.length_take]
        omega
      · have htake := hword.take_drop
        rw [leBytes_length] at htake
        rw [List.drop_take, List.take_take, Nat.min_eq_left (by decide), htake]
    refine readLE_leBytes hat (by omega) ?_
    rw [List.length_take]
    omega
  have hdecode := decodeRecordAt_span true true hs hsmall (at_self (recordBytes s))
    (fun _ => rfl) (fun _ => rfl)
  rw [replayEntry, hhdr, ensure_of (by rw [List.length_take]; omega), ok_bind, hread, ok_bind,
    demand_of h8, ok_bind, hrest]
  dsimp only
  rw [ensure_of (by rw [List.length_drop]; omega), ok_bind,
    List.take_append_drop, decodeSpanObject, show SPAN_SIGILS = spanSigils true true from rfl, hdecode]
  dsimp only
  rw [spanOfFields_decoded _ h0, ok_bind]

/-- The replay of a log writes its spans. -/
theorem replay_inLog {d : Bytes} {entries : List WalEntry} {spans : List SpanFields}
    (h : List.Forall₂ (InLog d) entries spans) (hs : ∀ s ∈ spans, Sealable s)
    (h0 : ∀ s ∈ spans, s.parentSpanId ≠ some 0) :
    ∀ {w : NxsWriter} {before : List SpanFields}, WroteSpans w before →
      ∃ w', entries.foldlM (replayEntry d) w = .ok w' ∧ WroteSpans w' (before ++ spans) := by
  induction h with
  | nil =>
    intro w before hw
    rw [List.append_nil]
    exact ⟨w, rfl, hw⟩
  | @cons entry s entries spans hentry _ ih =>
    intro w before hw
    obtain ⟨w₁, hw₁, hwrote⟩ := hw.concat s
    obtain ⟨w', hw', hwrote'⟩ := ih (fun t ht => hs t (List.mem_cons_of_mem _ ht))
      (fun t ht => h0 t (List.mem_cons_of_mem _ ht)) hwrote
    refine ⟨w', ?_, ?_⟩
    · rw [List.foldlM_cons, replayEntry_inLog w hentry (hs s List.mem_cons_self) (h0 s List.mem_cons_self),
        hw₁, ok_bind, hw']
    · rwa [List.append_assoc] at hwrote'

/-! ## Loading a segment -/

theorem decodeNames_strTable {d : Bytes} (hsmall : d.length < 2 ^ 63) : ∀ {l : List String} {pos : ℕ},
    (∀ s ∈ l, NulFree s ∧ (utf8 s).length ≤ 257) → At d pos (strTable l) →
      decodeNames d l.length pos = .ok (l, pos + (strTable l).length)
  | [], _, _, _ => rfl
  | s :: l, pos, hl, hat => by
    rw [strTable_cons, at_append] at hat
    obtain ⟨hs, hrest⟩ := hat
    obtain ⟨hnul, htab⟩ := at_cons.mp hrest
    have hle := hrest.le
    rw [List.length_cons] at hle
    have hstop : nonNul (d.drop pos) = (utf8 s).length := by
      obtain ⟨post, hpost⟩ := (at_append.mpr ⟨hs, hnul⟩).drop_eq
      rw [hpost, List.append_assoc, List.singleton_append, nonNul_append (hl s (by simp)).1]
    have ih := decodeNames_strTable hsmall (fun t ht => hl t (by simp [ht])) htab
    have hlen := (hl s (by simp)).2
    rw [List.length_cons, decodeNames, hstop]
    dsimp only
    rw [ensure_of (by omega), ok_bind, usizeAdd_of (by omega), ok_bind, range_at hs, ok_bind,
      ensure_of (by omega), ok_bind, usizeAdd_of (by omega), ok_bind, ih, ok_bind]
    simp only [fromUtf8Lossy_utf8, strTable_cons, List.length_append, List.length_cons]
    congr 2
    omega

theorem spanKeys_short : ∀ k ∈ SPAN_KEYS, NulFree k ∧ (utf8 k).length ≤ 257 := by decide +kernel

/-- The schema of a file of spans. -/
theorem decodeSchema_spanFile {w : NxsWriter} {d : Bytes} (h : SpanFile w d) (hsmall : d.length < 2 ^ 63) :
    decodeSchema d FLAG_SCHEMA_EMBEDDED (murmur3_64 (buildSchema SPAN_KEYS w.slotSigils)).toNat =
      .ok (SPAN_KEYS, schemaSigils 10 w.slotSigils, spanDataStart w) := by
  obtain ⟨hcount, hsigils, hnames, hpos⟩ := h.at_schema
  have hlen := h.length
  have hnle := hnames.le
  have hschema := h.schema
  have hnamesRead := decodeNames_strTable hsmall spanKeys_short hnames
  rw [show SPAN_KEYS.length = 10 from rfl] at hnamesRead
  have hsigilsRead := range_at (ε := NxsError) hsigils
  rw [schemaSigils_length] at hsigilsRead
  have hbasic : decodeBasicSchema d 32 = .ok (SPAN_KEYS, schemaSigils 10 w.slotSigils, spanDataStart w) := by
    rw [decodeBasicSchema, readLE_leBytes hcount (by decide) hsmall, ok_bind, ensure_of (by decide), ok_bind]
    rw [usizeAdd_of (by decide), ok_bind, checkedAdd_of (by decide), okOr_ok, ok_bind,
      ensure_of (by omega), ok_bind, hsigilsRead, ok_bind, hnamesRead, ok_bind]
    dsimp only
    rw [hpos, ensure_of (by omega), ok_bind]
  have hstart : spanDataStart w = 32 + (buildSchema SPAN_KEYS w.slotSigils).length := rfl
  rw [decodeSchema, if_pos ⟨by decide, by omega⟩, decodeHeader, if_neg (by decide), hbasic, ok_bind]
  dsimp only
  rw [ensure_of (by omega), ok_bind, hstart, range_at hschema, ok_bind, ensure_of rfl, ok_bind]

theorem orEmpty_ok {α : Type} {x : Res (List α)} (h : x ≠ .panic) : ∃ l, orEmpty x = .ok l := by
  cases x with
  | ok l => exact ⟨l, rfl⟩
  | err e => exact ⟨[], rfl⟩
  | panic => exact absurd rfl h

/-- A file of spans is decoded, where the decoding of its first object does not panic. -/
theorem decode_spanFile {w : NxsWriter} {file : Slice} (h : SpanFile w file.bytes)
    (hcount : w.recordOffsets.length < 2 ^ 32)
    (hroot : decodeObject file.bytes (spanDataStart w) SPAN_KEYS (schemaSigils 10 w.slotSigils) ≠ .panic) :
    ∃ decoded, decode file = .ok decoded ∧ decoded.keys = SPAN_KEYS ∧
      decoded.keySigils = schemaSigils 10 w.slotSigils ∧ decoded.recordCount = w.recordOffsets.length ∧
      decoded.tailStart = spanDataStart w + w.buf.length + 4 := by
  have hsmall := file.small
  have hlen := h.length
  obtain ⟨htcount, -, hptr, hfooter⟩ := h.at_tail
  obtain ⟨hmagic, hflags, htail⟩ := at_preamble h.preamble
  have hpre := h.preamble
  rw [preamble, at_append, at_append, at_append, at_append, at_append] at hpre
  obtain ⟨⟨⟨⟨⟨-, hversion⟩, -⟩, hhash⟩, -⟩, -⟩ := hpre
  simp only [List.length_append, leBytes_length, Nat.zero_add] at hversion hhash
  have hstart : 32 ≤ spanDataStart w := Nat.le_add_right 32 _
  obtain ⟨fields, hfields⟩ := orEmpty_ok hroot
  have htailPtr : decodeTailPtr file.bytes FLAG_SCHEMA_EMBEDDED 0 = .ok (spanDataStart w + w.buf.length) := by
    rw [decodeTailPtr, if_neg (by decide), if_pos rfl, ensure_of (by omega), ok_bind,
      usizeSub_of (by omega), ok_bind, readLE_leBytes hptr (by omega) hsmall]
  have hdecodeTail : decodeTail file.bytes FLAG_SCHEMA_EMBEDDED (spanDataStart w + w.buf.length) =
      .ok (w.recordOffsets.length, spanDataStart w + w.buf.length + 4) := by
    rw [decodeTail, if_neg (by decide), if_neg (by decide), decodeRecordCount,
      Nat.min_eq_left (by omega), if_pos (by omega), readLE_leBytes htcount hcount hsmall, ok_bind]
  have hdecode : ∃ decoded, decode file = .ok decoded ∧ decoded = ⟨VERSION, FLAG_SCHEMA_EMBEDDED,
      (murmur3_64 (buildSchema SPAN_KEYS w.slotSigils)).toNat, spanDataStart w + w.buf.length, SPAN_KEYS,
      schemaSigils 10 w.slotSigils, fields, w.recordOffsets.length, spanDataStart w + w.buf.length + 4,
      spanDataStart w⟩ := by
    refine ⟨_, ?_, rfl⟩
    rw [decode]
    dsimp only
    rw [ensure_of (by omega), ok_bind, readLE_leBytes hmagic (by decide) hsmall, ok_bind, ensure_of rfl,
      ok_bind, usizeSub_of (by omega), ok_bind, readLE_leBytes hfooter (by decide) hsmall, ok_bind, ensure_of rfl, ok_bind,
      readLE_leBytes hversion (by decide) hsmall, ok_bind, readLE_leBytes hflags (by decide) hsmall, ok_bind,
      ensure_of (by decide), ok_bind, readLE_leBytes hhash (UInt64.toNat_lt _) hsmall, ok_bind,
      readLE_leBytes htail (by decide) hsmall, ok_bind, ensure_of (by decide), ok_bind, htailPtr, ok_bind,
      decodeSchema_spanFile h hsmall, ok_bind]
    dsimp only
    rw [checkPageMagic, if_neg (by decide), ok_bind, decodeRoot, if_pos ⟨by decide, by omega⟩, hfields, ok_bind, hdecodeTail, ok_bind]
  obtain ⟨decoded, hok, rfl⟩ := hdecode
  exact ⟨_, hok, rfl, rfl, rfl, rfl⟩

theorem tailOffsets_entries {d : Bytes} {tailEnd : ℕ} (hsmall : d.length < 2 ^ 63) :
    ∀ {l : List ℕ} {k pos fuel : ℕ}, (∀ o ∈ l, o < 2 ^ 64) →
      At d pos ((l.zipIdx k).flatMap fun e => leBytes 2 e.2 ++ leBytes 8 e.1) →
      tailEnd = pos + l.length * 10 → l.length ≤ fuel → tailOffsets d tailEnd fuel pos = .ok l
  | [], _, _, 0, _, _, _, _ => rfl
  | [], _, pos, fuel + 1, _, _, hend, _ => by
    rw [tailOffsets, if_neg (by rw [hend, List.length_nil]; omega)]
  | o :: l, _, _, 0, _, _, _, hfuel => absurd hfuel (Nat.not_succ_le_zero _)
  | o :: l, k, pos, fuel + 1, hl, hat, hend, hfuel => by
    rw [List.length_cons] at hend hfuel
    rw [List.zipIdx_cons, List.flatMap_cons] at hat
    simp only [at_append, List.length_append, leBytes_length] at hat
    obtain ⟨⟨-, hoff⟩, hrest⟩ := hat
    have ih : tailOffsets d tailEnd fuel _ = _ := tailOffsets_entries hsmall
      (fun o' ho => hl o' (List.mem_cons_of_mem _ ho)) hrest (by omega) (by omega)
    rw [tailOffsets, if_pos (by omega), readLE_leBytes hoff (hl o List.mem_cons_self) hsmall, ok_bind, ih,
      ok_bind]

/-- What a segment reader finds in a segment of spans. -/
structure SegmentOf (seg : SealedSegment) (pairs : List (ℕ × SpanFields)) : Prop where
  index : seg.index = pairs.map fun p => (p.2.traceId, p.1)
  decodes : ∀ p ∈ pairs, seg.decodeSpanAt p.1 = .ok p.2.toSpan

/-- The first object of a file of spans is one of its records, or no object. -/
theorem decodeObject_root {w : NxsWriter} {d : Bytes} {spans : List SpanFields} (hfile : SpanFile w d)
    (hwrote : WroteSpans w spans) (hspans : ∀ s ∈ spans, Sealable s) (hsmall : d.length < 2 ^ 63) :
    decodeObject d (spanDataStart w) SPAN_KEYS (schemaSigils 10 w.slotSigils) ≠ .panic := by
  have hdata := hfile.data
  rw [hwrote.buf] at hdata
  cases spans with
  | nil =>
    -- the tail-index starts with the number 0
    obtain ⟨hcount, -, -, -⟩ := hfile.at_tail
    have hlen := hfile.length
    rw [hwrote.buf, hwrote.recordOffsets] at hcount
    have hzero : At d (spanDataStart w) (leBytes 4 0) := hcount
    rw [decodeObject, usizeAdd_of (by omega), ok_bind, ensure_of (by omega), ok_bind,
      readLE_leBytes hzero (by decide) hsmall, ok_bind, ensure_not (by decide), err_bind]
    exact fun h => by cases h
  | cons s spans =>
    rw [recordsBytes, List.flatMap_cons, at_append] at hdata
    have hdecode := decodeRecordAt_span ((s :: spans).any fun s => s.parentSpanId.isSome)
      ((s :: spans).any fun s => s.payload.isSome) (hspans s List.mem_cons_self) hsmall hdata.1
      (fun h => by rw [List.any_cons, h, Bool.true_or]) (fun h => by rw [List.any_cons, h, Bool.true_or])
    rw [hwrote.sigils (List.cons_ne_nil s spans)]
    rw [decodeRecordAt] at hdecode
    rw [hdecode]
    exact fun h => by cases h

/-- A segment is loaded with one record for each span. -/
theorem segmentOf_spanFile {w : NxsWriter} {file : Slice} {spans : List SpanFields}
    (hfile : SpanFile w file.bytes) (hwrote : WroteSpans w spans) (hspans : SealableTogether spans)
    (h0 : ∀ s ∈ spans, s.parentSpanId ≠ some 0) :
    (∃ decoded, decode file = .ok decoded ∧ decoded.recordCount = spans.length) ∧
      ∃ seg, SealedSegment.load file = .ok seg ∧
        SegmentOf seg ((recordStarts (spanDataStart w) spans).zip spans) := by
  have hsmall := file.small
  have hlen := hfile.length
  have hoffs : w.recordOffsets = recordStarts 0 spans := by
    rw [hwrote.recordOffsets]
    refine (List.map_congr_left fun o ho => ?_).trans (List.map_id _)
    exact Nat.mod_eq_of_lt (hspans.starts o ho)
  have hcount : w.recordOffsets.length = spans.length := by rw [hoffs, recordStarts_length]
  obtain ⟨decoded, hdecode, hkeys, hsigils, hrecords, htail⟩ := decode_spanFile hfile
    (by rw [hcount]; exact hspans.length_lt) (decodeObject_root hfile hwrote hspans.each hsmall)
  refine ⟨⟨decoded, hdecode, by rw [hrecords, hcount]⟩, ?_⟩
  have hdata := hfile.data
  rw [hwrote.buf] at hdata
  have hat := at_records hdata
  have habs : w.recordOffsets.map (spanDataStart w + ·) = recordStarts (spanDataStart w) spans := by
    rw [hoffs, ← recordStarts_add, Nat.add_zero]
  -- the offsets of the tail-index
  have hlt : ∀ o ∈ recordStarts (spanDataStart w) spans, o < 2 ^ 63 := by
    intro o ho
    obtain ⟨i, hi, rfl⟩ := List.getElem_of_mem ho
    have hi' : i < spans.length := by rwa [recordStarts_length] at hi
    have hle := (hat ((recordStarts (spanDataStart w) spans)[i], spans[i]) (by
      rw [List.mem_iff_getElem]
      exact ⟨i, by rw [List.length_zip]; omega, List.getElem_zip⟩)).le
    dsimp only at hle
    omega
  have hoffsets : tailOffsets file.bytes (file.bytes.length - 12) file.bytes.length decoded.tailStart =
      .ok (recordStarts (spanDataStart w) spans) := by
    obtain ⟨-, hentries, -, -⟩ := hfile.at_tail
    rw [habs, tailEntries] at hentries
    rw [htail]
    refine tailOffsets_entries hsmall (fun o ho => lt_trans (hlt o ho) (by decide)) hentries ?_ ?_
    · rw [recordStarts_length, ← hcount]
      omega
    · rw [recordStarts_length, ← hcount]
      omega
  -- each record is decoded to its span
  have hfields : ∀ p ∈ (recordStarts (spanDataStart w) spans).zip spans, ∃ sigil,
      decodeRecordAt file.bytes p.1 SPAN_KEYS decoded.keySigils = .ok (decodedFields sigil p.2) := by
    intro p hp
    have hmem : p.2 ∈ spans := (List.of_mem_zip hp).2
    have hne : spans ≠ [] := List.ne_nil_of_mem hmem
    have hdec := decodeRecordAt_span (spans.any fun s => s.parentSpanId.isSome)
      (spans.any fun s => s.payload.isSome) (hspans.each p.2 hmem) hsmall (hat p hp)
      (fun h => List.any_eq_true.mpr ⟨p.2, hmem, h⟩) (fun h => List.any_eq_true.mpr ⟨p.2, hmem, h⟩)
    rw [← hwrote.sigils hne, ← hsigils] at hdec
    exact ⟨_, hdec⟩
  have hentries : (recordStarts (spanDataStart w) spans).mapM
      (indexEntry file.bytes decoded.keys decoded.keySigils) =
        .ok (((recordStarts (spanDataStart w) spans).zip spans).map fun p =>
          some (p.2.traceId, p.1)) := by
    have hfst : ((recordStarts (spanDataStart w) spans).zip spans).map Prod.fst =
        recordStarts (spanDataStart w) spans := List.map_fst_zip (by rw [recordStarts_length])
    rw [mapM_eq_ok]
    conv_lhs => rw [← hfst]
    rw [List.forall₂_map_left_iff, List.forall₂_map_right_iff, List.forall₂_same]
    intro p hp
    obtain ⟨sigil, hdec⟩ := hfields p hp
    have hle := (hat p hp).le
    have h8 : 8 ≤ (recordBytes p.2).length := by
      rw [recordBytes_length]
      omega
    rw [indexEntry, usizeAdd_of (by omega), ok_bind, if_pos (by omega), hkeys, hdec]
    show (do
      let fields ← (.ok (decodedFields sigil p.2) : Res _)
      .ok ((extractTraceId fields).map fun traceId => (traceId, p.1))) = _
    rw [ok_bind, (fieldsToSpan_decoded sigil (h0 p.2 (List.of_mem_zip hp).2)).2]
    rfl
  refine ⟨⟨file, ((recordStarts (spanDataStart w) spans).zip spans).map fun p => (p.2.traceId, p.1),
    decoded.keys, decoded.keySigils⟩, ?_, ?_⟩
  · rw [SealedSegment.load, hdecode, ok_bind]
    dsimp only
    rw [hoffsets, ok_bind, hentries, ok_bind]
    congr 2
    rw [List.filterMap_map]
    exact congrFun List.filterMap_eq_map' _
  · refine ⟨rfl, fun p hp => ?_⟩
    obtain ⟨sigil, hdec⟩ := hfields p hp
    rw [SealedSegment.decodeSpanAt, hkeys, hdec, ok_bind,
      (fieldsToSpan_decoded sigil (h0 p.2 (List.of_mem_zip hp).2)).1]
    rfl

/-! ## Queries -/

/-- The spans of a trace, in the order of their start. -/
def traceSpans (spans : List SpanFields) (traceId : ℕ) : List Span :=
  ((spans.filter fun s => s.traceId == traceId).map SpanFields.toSpan).mergeSort fun a b =>
    decide (a.startTimeNs ≤ b.startTimeNs)

theorem SegmentOf.spansOf {seg : SealedSegment} {pairs : List (ℕ × SpanFields)} (h : SegmentOf seg pairs)
    (traceId : ℕ) :
    seg.spansOf traceId =
      .ok (((pairs.map Prod.snd).filter fun s => s.traceId == traceId).map SpanFields.toSpan) := by
  have hfilter : seg.index.filter (fun e => e.1 == traceId) =
      (pairs.filter fun p => p.2.traceId == traceId).map fun p => (p.2.traceId, p.1) := by
    rw [h.index, List.filter_map]
    rfl
  have hdecode : (seg.index.filter fun e => e.1 == traceId).mapM
      (fun e => keepOk (seg.decodeSpanAt e.2)) =
        .ok ((pairs.filter fun p => p.2.traceId == traceId).map fun p => some p.2.toSpan) := by
    rw [hfilter, mapM_eq_ok, List.forall₂_map_left_iff, List.forall₂_map_right_iff, List.forall₂_same]
    intro p hp
    rw [h.decodes p (List.mem_filter.mp hp).1]
    rfl
  rw [SealedSegment.spansOf, hdecode, ok_bind, List.filterMap_map, List.filter_map, List.map_map]
  exact congrArg _ (congrFun List.filterMap_eq_map' _)

/-- A segment that holds exactly the given spans: one record for each of them, and every query finds
the spans of a trace unaltered. -/
structure HoldsSpans (segment : Slice) (spans : List SpanFields) : Prop where
  recordCount : ∃ decoded, decode segment = .ok decoded ∧ decoded.recordCount = spans.length
  queries : ∀ name, ∃ reader, SegmentReader.openDir [.nxb name segment] = .ok reader ∧
    reader.sealedRecords = spans.length ∧
    ∀ traceId, reader.findByTrace traceId = .ok (traceSpans spans traceId)

theorem holdsSpans_spanFile {w : NxsWriter} {file : Slice} {spans : List SpanFields}
    (hfile : SpanFile w file.bytes) (hwrote : WroteSpans w spans) (hspans : SealableTogether spans)
    (h0 : ∀ s ∈ spans, s.parentSpanId ≠ some 0) : HoldsSpans file spans := by
  obtain ⟨hdecode, seg, hload, hseg⟩ := segmentOf_spanFile hfile hwrote hspans h0
  refine ⟨hdecode, fun name => ⟨⟨[(name, seg)], none⟩, ?_, ?_, fun traceId => ?_⟩⟩
  · rw [SegmentReader.openDir, List.foldlM_cons, readEntry, hload, ok_bind, ok_bind, List.foldlM_nil,
      pure_eq, ok_bind]
    dsimp only
    rw [openWal, ok_bind, List.nil_append, List.mergeSort_singleton]
  · rw [SegmentReader.sealedRecords, List.map_singleton, List.sum_singleton, hseg.index, List.length_map,
      List.length_zip, recordStarts_length, Nat.min_self]
  · have hof := hseg.spansOf traceId
    rw [map_snd_zip_recordStarts] at hof
    rw [SegmentReader.findByTrace, List.mapM_cons, hof, ok_bind, List.mapM_nil]
    simp [traceSpans]

/-! ## Sealing -/

/-- Sealing a log whose spans can be sealed writes every one of them. -/
theorem seal_eq {wal : SpanWal} {d : Bytes} {spans : List SpanFields}
    (h : List.Forall₂ (InLog d) wal.index spans) (hspans : ∀ s ∈ spans, Sealable s)
    (h0 : ∀ s ∈ spans, s.parentSpanId ≠ some 0) :
    ∃ w, WroteSpans w spans ∧ wal.seal d = (do
      let nxb ← Slice.ofBytes (spanFile w)
      .ok (nxb, ⟨wal.recordCount, nxb.bytes.length⟩)) := by
  obtain ⟨w, hw, hwrote⟩ := replay_inLog h hspans h0 WroteSpans.new
  rw [List.nil_append] at hwrote
  refine ⟨w, hwrote, ?_⟩
  rw [SpanWal.seal, hw, ok_bind, hwrote.writer.finish]

theorem seal_ne_err {wal : SpanWal} {d : Bytes} {spans : List SpanFields} {e : NxsError}
    (h : List.Forall₂ (InLog d) wal.index spans) (hspans : ∀ s ∈ spans, Sealable s)
    (h0 : ∀ s ∈ spans, s.parentSpanId ≠ some 0) : wal.seal d ≠ .err e := by
  obtain ⟨w, -, hseal⟩ := seal_eq h hspans h0
  rw [hseal]
  cases hnxb : Slice.ofBytes (spanFile w) with
  | ok nxb => exact fun he => by cases he
  | err e' => exact absurd hnxb Slice.ofBytes_ne_err
  | panic => exact fun he => by cases he

/-- The segment of a log whose spans can be sealed holds them. -/
theorem seal_inLog {wal : SpanWal} {d : Bytes} {spans : List SpanFields} {segment : Slice}
    {report : SealReport} (h : List.Forall₂ (InLog d) wal.index spans)
    (hspans : SealableTogether spans) (h0 : ∀ s ∈ spans, s.parentSpanId ≠ some 0)
    (hseal : wal.seal d = .ok (segment, report)) :
    HoldsSpans segment spans ∧ report.records = wal.recordCount := by
  obtain ⟨w, hwrote, heq⟩ := seal_eq h hspans.each h0
  rw [heq] at hseal
  obtain ⟨nxb, hnxb, hret⟩ := bind_eq_ok.mp hseal
  cases hret
  have hfile : SpanFile w segment.bytes := by
    rw [Slice.ofBytes_eq_ok.mp hnxb]
    exact spanFile_parts w
  exact ⟨holdsSpans_spanFile hfile hwrote hspans h0, rfl⟩

/-- Append spans one after the other; the bytes are those of the log file. -/
def SpanWal.appendAll : SpanWal → Bytes → List SpanFields → Res (SpanWal × Bytes)
  | wal, d, [] => .ok (wal, d)
  | wal, d, s :: spans => do
    let (wal, record) ← wal.append s
    SpanWal.appendAll wal (d ++ record) spans

theorem InLog.append_right {d : Bytes} {entry : WalEntry} {s : SpanFields} (h : InLog d entry s)
    (e : Bytes) : InLog (d ++ e) entry s := At.append_right h e

/-- Each append adds an entry whose record is in the log. -/
theorem SpanWal.inLog_append {wal wal' : SpanWal} {d record : Bytes} {s : SpanFields}
    {spans : List SpanFields} (h : List.Forall₂ (InLog d) wal.index spans)
    (hoffset : wal.currentOffset = d.length) (happend : wal.append s = .ok (wal', record)) :
    List.Forall₂ (InLog (d ++ record)) wal'.index (spans ++ [s]) ∧
      wal'.currentOffset = (d ++ record).length ∧ wal'.recordCount = wal.recordCount + 1 := by
  obtain ⟨b, hb, hret⟩ := bind_eq_ok.mp happend
  cases hret
  refine ⟨?_, ?_, rfl⟩
  · refine List.rel_append (h.imp fun _ _ hin => hin.append_right _) (.cons ?_ .nil)
    have hat := (at_self record).append_left d
    rw [Nat.add_zero, ← hoffset] at hat
    rwa [InLog, ← spanRecord_eq_ok hb]
  · rw [List.length_append, ← hoffset]

theorem SpanWal.inLog_appendAll {spans : List SpanFields} :
    ∀ {wal wal' : SpanWal} {d d' : Bytes} {before : List SpanFields},
      List.Forall₂ (InLog d) wal.index before → wal.currentOffset = d.length →
      wal.appendAll d spans = .ok (wal', d') →
      List.Forall₂ (InLog d') wal'.index (before ++ spans) ∧
        wal'.recordCount = wal.recordCount + spans.length := by
  induction spans with
  | nil =>
    intro wal wal' d d' before h _ happend
    cases happend
    rw [List.append_nil]
    exact ⟨h, rfl⟩
  | cons s spans ih =>
    intro wal wal' d d' before h hoffset happend
    obtain ⟨⟨wal₁, record⟩, hone, hrest⟩ := bind_eq_ok.mp happend
    obtain ⟨h₁, hoffset₁, hcount₁⟩ := SpanWal.inLog_append h hoffset hone
    obtain ⟨h', hcount'⟩ := ih h₁ hoffset₁ hrest
    rw [List.append_assoc] at h'
    refine ⟨h', ?_⟩
    rw [hcount', hcount₁, List.length_cons]
    omega

/-- The log of a run of appends, sealed, holds every span, where all of them can be sealed. -/
theorem seal_preserves (spans : List SpanFields) (wal : SpanWal) (d : Bytes) (segment : Slice)
    (report : SealReport) (happend : (SpanWal.opened false).appendAll walHeader spans = .ok (wal, d))
    (hseal : wal.seal d = .ok (segment, report)) (h0 : ∀ s ∈ spans, s.parentSpanId ≠ some 0)
    (hspans : SealableTogether spans) :
    HoldsSpans segment spans ∧ report.records = spans.length := by
  have hoffset : (SpanWal.opened false).currentOffset = walHeader.length := by
    rw [walHeader_length]
    show 8 + 4 + walSchemaBytes.length = _
    omega
  have hnone : List.Forall₂ (InLog walHeader) (SpanWal.opened false).index [] := .nil
  obtain ⟨hlog, hcount⟩ := SpanWal.inLog_appendAll hnone hoffset happend
  obtain ⟨hholds, hrecords⟩ := seal_inLog hlog hspans h0 hseal
  refine ⟨hholds, ?_⟩
  rw [hrecords, hcount]
  exact Nat.zero_add _

/-- A span of a trace with the given span id. -/
def tracedSpan (spanId : Int64) (parent : Option Int64) : SpanFields where
  traceIdHi := -1
  traceIdLo := 2
  spanId := spanId
  parentSpanId := parent
  name := "call"
  service := "api"
  startTimeNs := 5
  durationNs := 6
  statusCode := 0
  payload := some [1, 2, 3]

/-- Append spans to a new log and seal it. -/
def sealAll (spans : List SpanFields) : Res (Slice × SealReport) := do
  let (wal, d) ← (SpanWal.opened false).appendAll walHeader spans
  wal.seal d

theorem seal_preserves_two :
    ∃ segment report, sealAll [tracedSpan 7 none, tracedSpan 8 (some 7)] = .ok (segment, report) ∧
      HoldsSpans segment [tracedSpan 7 none, tracedSpan 8 (some 7)] ∧ report.records = 2 := by
  obtain ⟨⟨segment, report⟩, hrun⟩ := isOk_iff.mp (show
    (sealAll [tracedSpan 7 none, tracedSpan 8 (some 7)]).isOk = true by decide +kernel)
  obtain ⟨⟨wal, d⟩, happend, hseal⟩ := bind_eq_ok.mp hrun
  exact ⟨segment, report, hrun, seal_preserves _ wal d segment report happend hseal (by decide)
    (by decide +kernel)⟩

/-- A span whose id is the magic number of an object is left out of the segment. -/
theorem seal_drops_magic_id :
    ¬ ∀ (spans : List SpanFields) (wal : SpanWal) (d : Bytes) (segment : Slice) (report : SealReport),
      (SpanWal.opened false).appendAll walHeader spans = .ok (wal, d) →
      wal.seal d = .ok (segment, report) → (∀ s ∈ spans, s.parentSpanId ≠ some 0) →
      HoldsSpans segment spans ∧ report.records = spans.length := by
  intro hall
  -- the segment has no record at all
  obtain ⟨⟨wal, d⟩, happend, hrest⟩ := bind_eq_ok.mp (show (do
    let (wal, d) ← (SpanWal.opened false).appendAll walHeader [tracedSpan 0x4E59584F none]
    let (segment, _) ← wal.seal d
    let decoded ← decode segment
    .ok decoded.recordCount) = (.ok 0 : Res ℕ) by decide +kernel)
  obtain ⟨⟨segment, report⟩, hseal, hrest⟩ := bind_eq_ok.mp hrest
  obtain ⟨decoded, hdecode, hzero⟩ := bind_eq_ok.mp hrest
  obtain ⟨⟨⟨decoded', hdecode', hone⟩, -⟩, -⟩ := hall _ wal d segment report happend hseal (by decide)
  rw [hdecode, Outcome.ok.injEq] at hdecode'
  subst hdecode'
  rw [Outcome.ok.injEq] at hzero
  rw [hzero] at hone
  cases hone

end Nyxis

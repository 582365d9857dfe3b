import Nyxis.DecodedCells
import Nyxis.SegmentReader
import Nyxis.SpanRecord

/-!
# SealedSpans — the spans that survive sealing

`Sealable` is the condition under which a span survives: none of its values starts with the magic number
of an object or of a list, and its offsets and lengths fit their fields.

* `decodeRecordAt_span`: a sealable record is decoded to the fields of its span.
* `spanOfFields_decoded`, `fieldsToSpan_decoded`: these fields make up the span again.
-/

namespace Nyxis

open Lib Lib.Outcome
open NxsWriter (prefixed)

/-! ## Spans that survive -/

/-- The integers of a span, as they are stored. -/
def spanWords (s : SpanFields) : List Int64 :=
  [s.traceIdHi, s.traceIdLo, s.spanId, s.parentSpanId.getD 0, s.startTimeNs, s.durationNs, s.statusCode]

/-- Where the values behind the texts start, relative to the record. -/
def textEnd (s : SpanFields) : ℕ :=
  64 + prefixedLen (utf8 s.name).length + prefixedLen (utf8 s.service).length

/-- Bytes of the record of a span. -/
def recordLen (s : SpanFields) : ℕ := textEnd s + 24 + s.payload.elim 0 fun b => prefixedLen b.length

/-- A span that a segment can hold. -/
structure Sealable (s : SpanFields) : Prop where
  /-- The low half of each integer. -/
  words : ∀ v ∈ spanWords s, NotMagic (v.toUInt64.toNat % 2 ^ 32)
  payload : ∀ b ∈ s.payload, NotMagic b.length
  /-- The last value starts within the range of a `u16`. -/
  offsets : textEnd s + (if s.payload.isSome then 24 else 16) < 65536
  /-- The length of the record fits a `u32`. -/
  size : recordLen s < 2 ^ 32

instance (s : SpanFields) : Decidable (Sealable s) :=
  have : Decidable (∀ v ∈ spanWords s, NotMagic (v.toUInt64.toNat % 2 ^ 32)) := List.decidableBAll _ _
  decidable_of_iff ((∀ v ∈ spanWords s, NotMagic (v.toUInt64.toNat % 2 ^ 32)) ∧
      (∀ b ∈ s.payload, NotMagic b.length) ∧
      textEnd s + (if s.payload.isSome then 24 else 16) < 65536 ∧
      recordLen s < 2 ^ 32)
    ⟨fun h => ⟨h.1, h.2.1, h.2.2.1, h.2.2.2⟩, fun h => ⟨h.words, h.payload, h.offsets, h.size⟩⟩

theorem objectValues_append (a b : List (ℕ × Bytes)) :
    objectValues (a ++ b) = objectValues a ++ objectValues b := List.flatMap_append

theorem spanHead_values_length (s : SpanFields) : (objectValues (spanHead s)).length = textEnd s - 8 := by
  rw [spanHead, objectValues, textEnd]
  simp only [List.flatMap_cons, List.flatMap_nil, List.length_append, i64Bytes_length,
    parentBytes_length, prefixed_length, List.length_nil]
  omega

theorem recordBytes_length_eq (s : SpanFields) : (recordBytes s).length = recordLen s := by
  have h64 : 64 ≤ textEnd s := by unfold textEnd; omega
  rw [recordBytes_length, recordLen, spanCells, objectValues_append, List.length_append,
    spanHead_values_length, payloadCells, objectValues]
  cases s.payload with
  | none =>
    simp only [Option.elim_none, List.flatMap_nil, List.length_nil]
    omega
  | some b =>
    simp only [Option.elim_some, List.flatMap_cons, List.flatMap_nil, List.append_nil, prefixed_length]
    omega

/-- Every value of a sealable span starts within the range of the offset table. -/
theorem Sealable.value_offset {s : SpanFields} (h : Sealable s) {i : ℕ} (hi : i < (spanCells s).length) :
    32 + (objectValues ((spanCells s).take i)).length < 65536 := by
  have hoffs := h.offsets
  have h64 : 64 ≤ textEnd s := by unfold textEnd; omega
  have hmono : ∀ {l : List (ℕ × Bytes)} {j k : ℕ}, j ≤ k →
      (objectValues (l.take j)).length ≤ (objectValues (l.take k)).length := by
    intro l j k hjk
    rw [← List.take_append_drop j (l.take k), List.take_take, Nat.min_eq_left hjk, objectValues_append,
      List.length_append]
    omega
  cases hp : s.payload with
  | none =>
    rw [hp] at hoffs
    have hlen : (spanCells s).length = 9 := by
      rw [spanCells, payloadCells, hp]
      rfl
    refine lt_of_le_of_lt (Nat.add_le_add_left (hmono (k := 8) (by omega)) 32) ?_
    have hlast : objectValues (spanHead s) = objectValues ((spanCells s).take 8) ++
        i64Bytes s.statusCode := by
      rw [spanCells, spanHead]
      simp [objectValues]
    have hl := congrArg List.length hlast
    rw [spanHead_values_length, List.length_append, i64Bytes_length] at hl
    simp only [Option.isSome_none] at hoffs
    rw [if_neg (by simp)] at hoffs
    omega
  | some b =>
    rw [hp] at hoffs
    have hlen : (spanCells s).length = 10 := by
      rw [spanCells, payloadCells, hp]
      rfl
    refine lt_of_le_of_lt (Nat.add_le_add_left (hmono (k := 9) (by omega)) 32) ?_
    have hhead : (spanCells s).take 9 = spanHead s := by
      rw [spanCells]
      exact List.take_left' rfl
    rw [hhead, spanHead_values_length]
    rw [if_pos (by rfl)] at hoffs
    omega

/-! ## Decoding a span -/

/-- A missing parent is a null or a zero, as the sigil of its slot says. -/
def parentValue (s : SpanFields) (sigil : UInt8) : DecodedValue :=
  s.parentSpanId.elim (if sigil = SIGIL_NULL then .null else .int 0) .int

/-- The decoded value of each slot. -/
def spanValue (sigil : UInt8) (s : SpanFields) : ℕ → DecodedValue
  | 0 => .int s.traceIdHi
  | 1 => .int s.traceIdLo
  | 2 => .int s.spanId
  | 3 => parentValue s sigil
  | 4 => .str s.name
  | 5 => .str s.service
  | 6 => .time s.startTimeNs
  | 7 => .int s.durationNs
  | 8 => .int s.statusCode
  | _ => .binary (s.payload.getD [])

/-- The decoded fields of a span; the sigil is that of the parent's slot. -/
def decodedFields (sigil : UInt8) (s : SpanFields) : List (String × DecodedValue) :=
  (spanCells s).map fun c => (SPAN_KEYS.getD c.1 s!"key_{c.1}", spanValue sigil s c.1)

/-- The sigils of the slots, once spans with a parent or a payload have been written. -/
def spanSigils (parent payload : Bool) : List UInt8 :=
  [SIGIL_INT, SIGIL_INT, SIGIL_INT, if parent then SIGIL_INT else SIGIL_NULL, SIGIL_STR, SIGIL_STR,
    SIGIL_TIME, SIGIL_INT, SIGIL_INT, if payload then SIGIL_BINARY else SIGIL_STR]

theorem decodeValueAt_parent {d : Bytes} {p : ℕ} {s : SpanFields} {parent : Bool}
    (h : At d p (parentBytes s)) (hsmall : d.length < 2 ^ 63)
    (hmagic : NotMagic ((s.parentSpanId.getD 0).toUInt64.toNat % 2 ^ 32))
    (hparent : s.parentSpanId.isSome → parent = true) :
    decodeValueAt d p (if parent then SIGIL_INT else SIGIL_NULL) =
      .ok (parentValue s (if parent then SIGIL_INT else SIGIL_NULL)) := by
  rw [parentBytes] at h
  rw [parentValue]
  cases hp : s.parentSpanId with
  | some v =>
    rw [hp] at h hmagic hparent
    rw [hparent rfl]
    exact decodeValueAt_int h hsmall hmagic
  | none =>
    rw [hp] at h
    cases parent with
    | true =>
      have hzero : At d p (i64Bytes 0) := h
      exact decodeValueAt_int hzero hsmall (by decide)
    | false => exact decodeValueAt_null h hsmall

/-- The record of a sealable span, wherever it is, is decoded to the fields of the span. -/
theorem decodeRecordAt_span {d : Bytes} {off : ℕ} {s : SpanFields} (parent payload : Bool)
    (h : Sealable s) (hsmall : d.length < 2 ^ 63) (hat : At d off (recordBytes s))
    (hparent : s.parentSpanId.isSome → parent = true) (hpayload : s.payload.isSome → payload = true) :
    decodeRecordAt d off SPAN_KEYS (spanSigils parent payload) =
      .ok (decodedFields (if parent then SIGIL_INT else SIGIL_NULL) s) := by
  refine decodeObject_objectBytes hsmall hat (spanCells_length s) (by decide) (spanCells_ascending s) ?_
    (fun i hi => h.value_offset hi) (fun c => spanValue _ s c.1) ?_
  · intro c hc
    exact (spanCells_lt s c hc).trans (by decide)
  · have htext := h.offsets
    have hname : (utf8 s.name).length < 65536 := by
      unfold textEnd prefixedLen at htext
      omega
    have hservice : (utf8 s.service).length < 65536 := by
      unfold textEnd prefixedLen at htext
      omega
    have hword : ∀ v ∈ spanWords s, NotMagic (v.toUInt64.toNat % 2 ^ 32) := h.words
    simp only [spanWords, List.forall_mem_cons] at hword
    obtain ⟨hhi, hlo, hid, hpar, hstart, hdur, hstatus, -⟩ := hword
    intro c hc p hp
    rw [spanCells, List.mem_append] at hc
    rcases hc with hc | hc
    · simp only [spanHead, List.mem_cons, List.not_mem_nil, or_false] at hc
      rcases hc with rfl | rfl | rfl | rfl | rfl | rfl | rfl | rfl | rfl
      · exact decodeValueAt_int hp hsmall hhi
      · exact decodeValueAt_int hp hsmall hlo
      · exact decodeValueAt_int hp hsmall hid
      · exact decodeValueAt_parent hp hsmall hpar hparent
      · exact decodeValueAt_str hp hsmall (by omega)
      · exact decodeValueAt_str hp hsmall (by omega)
      · exact decodeValueAt_time hp hsmall hstart
      · exact decodeValueAt_int hp hsmall hdur
      · exact decodeValueAt_int hp hsmall hstatus
    · rw [payloadCells] at hc
      cases hpay : s.payload with
      | none =>
        rw [hpay] at hc
        exact absurd hc List.not_mem_nil
      | some b =>
        rw [hpay] at hc hpayload
        obtain rfl := List.mem_singleton.mp hc
        have hsize := h.size
        have hb := h.payload b hpay
        rw [recordLen, hpay, Option.elim_some, prefixedLen] at hsize
        have hlen : b.length < 2 ^ 32 := by omega
        rw [hpayload rfl]
        show decodeValueAt d p SIGIL_BINARY = .ok (.binary (s.payload.getD []))
        rw [hpay]
        exact decodeValueAt_binary hp hsmall hlen hb

/-! ## The fields of a span -/

/-- A span with the trace id and the parent as the queries return them. -/
def SpanFields.toSpan (s : SpanFields) : Span where
  traceId := s.traceId
  spanId := s.spanId.toUInt64
  parentSpanId := s.parentSpanId.map Int64.toUInt64
  name := s.name
  service := s.service
  startTimeNs := s.startTimeNs
  durationNs := s.durationNs
  statusCode := s.statusCode
  payload := s.payload

theorem decodedFields_eq (sigil : UInt8) (s : SpanFields) :
    decodedFields sigil s =
      [("trace_id_hi", .int s.traceIdHi), ("trace_id_lo", .int s.traceIdLo), ("span_id", .int s.spanId),
        ("parent_span_id", parentValue s sigil), ("name", .str s.name), ("service", .str s.service),
        ("start_time_ns", .time s.startTimeNs), ("duration_ns", .int s.durationNs),
        ("status_code", .int s.statusCode)] ++
        s.payload.elim [] fun b => [("payload", .binary b)] := by
  rw [decodedFields, spanCells, List.map_append, payloadCells]
  congr 1
  cases hp : s.payload with
  | none => rfl
  | some b =>
    rw [Option.elim_some, Option.elim_some, List.map_singleton, spanValue, hp]
    · rfl
    all_goals simp

/-- A field whose name stands for one value only. -/
theorem findField_of_mem {α : Type} {fields : List (String × DecodedValue)} {name : String}
    {v : DecodedValue} (f : DecodedValue → Option α) (hnd : (fields.map Prod.fst).Nodup)
    (h : (name, v) ∈ fields) : findField fields name f = f v := by
  induction fields with
  | nil => exact absurd h List.not_mem_nil
  | cons field fields ih =>
    rw [List.map_cons, List.nodup_cons] at hnd
    rw [findField, List.findSome?_cons]
    rcases List.mem_cons.mp h with rfl | h
    · rw [if_pos rfl]
      cases hf : f v with
      | some a => rfl
      | none =>
        refine List.findSome?_eq_none_iff.mpr fun field' hfield => ?_
        have hne : field'.1 ≠ name := by
          intro he
          have hmem : field'.1 ∈ fields.map Prod.fst := List.mem_map_of_mem hfield
          exact hnd.1 (he ▸ hmem)
        rw [if_neg hne]
    · have hne : field.1 ≠ name := by
        intro he
        exact hnd.1 (he ▸ List.mem_map_of_mem h)
      rw [if_neg hne]
      exact ih hnd.2 h

theorem findField_of_not_mem {α : Type} {fields : List (String × DecodedValue)} {name : String}
    (f : DecodedValue → Option α) (h : name ∉ fields.map Prod.fst) : findField fields name f = none := by
  refine List.findSome?_eq_none_iff.mpr fun field hfield => ?_
  have hne : field.1 ≠ name := by
    rintro rfl
    exact h (List.mem_map_of_mem hfield)
  rw [if_neg hne]

section Fields

variable {s : SpanFields} (sigil : UInt8)

theorem decodedFields_nodup : ((decodedFields sigil s).map Prod.fst).Nodup := by
  rw [decodedFields_eq]
  cases s.payload <;> simp

/-- A zero or a null is no parent, and any other one is the parent's id. -/
theorem parentOf_decoded (h0 : s.parentSpanId ≠ some 0) :
    parentOf (decodedFields sigil s) = s.parentSpanId := by
  have hmem : ("parent_span_id", parentValue s sigil) ∈ decodedFields sigil s := by
    rw [decodedFields_eq]
    simp
  rw [parentOf, findField_of_mem _ (decodedFields_nodup sigil) hmem,
    findField_of_mem _ (decodedFields_nodup sigil) hmem, parentValue]
  cases hp : s.parentSpanId with
  | none =>
    rw [Option.elim_none]
    split
    · rfl
    · rfl
  | some v =>
    have hv : v ≠ 0 := fun hv => h0 (by rw [hp, hv])
    show (some v).filter (fun v => decide (v ≠ 0)) = some v
    rw [Option.filter_some, if_pos (by simpa using hv)]

theorem payload_decoded :
    findField (decodedFields sigil s) "payload" DecodedValue.asBinary = s.payload := by
  cases hp : s.payload with
  | none =>
    refine findField_of_not_mem _ ?_
    rw [decodedFields_eq, hp]
    simp
  | some b =>
    have hmem : ("payload", .binary b) ∈ decodedFields sigil s := by
      rw [decodedFields_eq, hp]
      simp
    rw [findField_of_mem _ (decodedFields_nodup sigil) hmem]
    rfl

/-- The value of a field that every span has. -/
theorem field_decoded {α : Type} {name : String} {v : DecodedValue} (f : DecodedValue → Option α)
    (h : (name, v) ∈ [("trace_id_hi", DecodedValue.int s.traceIdHi), ("trace_id_lo", .int s.traceIdLo),
      ("span_id", .int s.spanId), ("parent_span_id", parentValue s sigil), ("name", .str s.name),
      ("service", .str s.service), ("start_time_ns", .time s.startTimeNs),
      ("duration_ns", .int s.durationNs), ("status_code", .int s.statusCode)]) :
    findField (decodedFields sigil s) name f = f v := by
  refine findField_of_mem f (decodedFields_nodup sigil) ?_
  rw [decodedFields_eq]
  exact List.mem_append_left _ h

theorem spanOfFields_decoded (h0 : s.parentSpanId ≠ some 0) :
    spanOfFields (decodedFields sigil s) = some s := by
  rw [spanOfFields, parentOf_decoded sigil h0, payload_decoded,
    field_decoded sigil (v := .int s.traceIdHi) _ (by simp),
    field_decoded sigil (v := .int s.traceIdLo) _ (by simp),
    field_decoded sigil (v := .int s.spanId) _ (by simp), field_decoded sigil (v := .str s.name) _ (by simp),
    field_decoded sigil (v := .str s.service) _ (by simp),
    field_decoded sigil (v := .time s.startTimeNs) _ (by simp),
    field_decoded sigil (v := .int s.durationNs) _ (by simp),
    field_decoded sigil (v := .int s.statusCode) _ (by simp)]
  rfl

theorem fieldsToSpan_decoded (h0 : s.parentSpanId ≠ some 0) :
    fieldsToSpan (decodedFields sigil s) = some s.toSpan ∧
      extractTraceId (decodedFields sigil s) = some s.traceId := by
  have htrace : extractTraceId (decodedFields sigil s) = some s.traceId := by
    rw [extractTraceId, field_decoded sigil (v := .int s.traceIdHi) _ (by simp),
      field_decoded sigil (v := .int s.traceIdLo) _ (by simp)]
    rfl
  refine ⟨?_, htrace⟩
  rw [fieldsToSpan, htrace, parentOf_decoded sigil h0, payload_decoded,
    field_decoded sigil (v := .int s.spanId) _ (by simp), field_decoded sigil (v := .str s.name) _ (by simp),
    field_decoded sigil (v := .str s.service) _ (by simp),
    field_decoded sigil (v := .time s.startTimeNs) _ (by simp),
    field_decoded sigil (v := .int s.durationNs) _ (by simp),
    field_decoded sigil (v := .int s.statusCode) _ (by simp)]
  rfl

end Fields

end Nyxis

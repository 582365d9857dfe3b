import Nyxis.Lib.Buckets
import Nyxis.SegmentFile
import Nyxis.SlotResolvers

/-!
# SpanSearch — the queries by trace and by time

A segment keeps the offsets of its records by their trace ids, which it decodes; a log keeps the ids that
recovery reads from the raw bytes.  Both queries decode the records again.

* `dirSpans`: the spans that there are to find, from the files alone.
* `load_eq_ok`, `recover_eq_ok`: what is kept of a segment and of a log.
* `find_spans`: both queries find exactly these spans.
-/

namespace Nyxis

open Lib Lib.Outcome

/-! ## The query by time -/

/-- The order in which a `HashMap` gives its keys. -/
structure MapOrder where
  ids : List ℕ → List ℕ
  perm : ∀ keys, (ids keys).Perm keys

def inWindow (startNs endNs : Int64) (s : Span) : Bool := decide (s.startTimeNs ≥ startNs) && decide (s.startTimeNs ≤ endNs)

/-- `index.values()`: the offsets of each trace. -/
def SealedSegment.values (seg : SealedSegment) (order : MapOrder) : List (List ℕ) :=
  (order.ids (seg.index.map Prod.fst).dedup).map fun traceId =>
    (seg.index.filter fun e => e.1 == traceId).map Prod.snd

/-- The spans of a segment in a time window. -/
def SealedSegment.spansIn (seg : SealedSegment) (order : MapOrder) (startNs endNs : Int64) : Res (List Span) := do
  let spans ← (seg.values order).flatten.mapM fun absOff => keepOk (seg.decodeSpanAt absOff)
  .ok ((spans.filterMap id).filter (inWindow startNs endNs))

def WalReader.spansIn (wr : WalReader) (startNs endNs : Int64) : Res (List Span) := do
  let spans ← wr.wal.index.mapM fun e => decodeSpanFromRaw wr.data e.offset
  .ok ((spans.filterMap id).filter (inWindow startNs endNs))

/-- All spans in a time window, sorted by their start; the map of each segment has an order of its own. -/
def SegmentReader.findByTime (r : SegmentReader) (order : String → MapOrder) (startNs endNs : Int64) : Res (List Span) := do
  let sealedSpans ← r.segments.mapM fun seg => seg.2.spansIn (order seg.1) startNs endNs
  let walSpans ← match r.wal with
    | some wr => wr.spansIn startNs endNs
    | none => .ok []
  .ok ((sealedSpans.flatten ++ walSpans).mergeSort fun a b => decide (a.startTimeNs ≤ b.startTimeNs))

/-! ## What there is to find -/

/-- The trace id in the record at `off`, where it can be decoded. -/
def traceIdAt (d : Bytes) (keys : List String) (sigils : List UInt8) (off : ℕ) : Option ℕ :=
  (decodeRecordAt d off keys sigils).toOption.bind extractTraceId

/-- The span in the record at `off`, where it can be decoded. -/
def spanAt (d : Bytes) (keys : List String) (sigils : List UInt8) (off : ℕ) : Option Span :=
  (decodeRecordAt d off keys sigils).toOption.bind fieldsToSpan

/-- The offsets in a tail-index whose entries fill the file up to its last twelve bytes. -/
def tailIndexOffsets (d : Bytes) (tailStart : ℕ) : List ℕ :=
  (List.range ((d.length - 12 - tailStart) / 10)).map fun i => word d (tailStart + i * 10 + 2) 8

/-- The spans in the records of a segment. -/
def segmentSpans (file : Slice) : List Span :=
  match decode file with
  | .ok decoded =>
    (tailIndexOffsets file.bytes decoded.tailStart).filterMap (spanAt file.bytes decoded.keys decoded.keySigils)
  | _ => []

instance (d : Bytes) (pos : ℕ) : Decidable (WholeRecord d pos) := inferInstanceAs (Decidable (_ ∧ _))

/-- The bytes that recovery takes for the record at `pos`. -/
def rawRecord (d : Bytes) (pos : ℕ) : Bytes := (d.drop pos).take (word d (pos + 4) 4)

/-- Where the records stand that recovery walks over from `pos` on. -/
def walkFrom (d : Bytes) : ℕ → ℕ → List ℕ
  | 0, _ => []
  | fuel + 1, pos => if WholeRecord d pos then pos :: walkFrom d fuel (pos + word d (pos + 4) 4) else []

/-- Where the records of a log stand. -/
def logRecords (d : Bytes) : List ℕ := walkFrom d (d.length + 1) (12 + word d 8 4)

/-- Recovery finds the ids of the record at `pos`. -/
def HasIds (d : Bytes) (pos : ℕ) : Prop := (extractTraceSpanId (rawRecord d pos)).isOk = true

instance (d : Bytes) (pos : ℕ) : Decidable (HasIds d pos) := inferInstanceAs (Decidable (_ = true))

/-- The spans in the records of a log. -/
def logSpans (d : Bytes) (positions : List ℕ) : List Span := positions.filterMap (spanAt d SPAN_KEYS SPAN_SIGILS)

/-- The records that recovery puts into its index. -/
def recoveredRecords (d : Bytes) : List ℕ := (logRecords d).filter fun pos => HasIds d pos

/-- The segments of a directory. -/
def nxbFiles (entries : List DirEntry) : List (String × Slice) := entries.filterMap fun e =>
  match e with
  | .nxb name file => some (name, file)
  | _ => none

/-- The last log of a directory. -/
def lastLog (entries : List DirEntry) : Option Bytes := entries.foldl (fun log e =>
  match e with
  | .nxsw file => some file
  | _ => log) none

/-- The spans of a directory: those of its segments, and those of the records of its log. -/
def dirSpans (entries : List DirEntry) (records : Bytes → List ℕ) : List Span :=
  ((nxbFiles entries).flatMap fun f => segmentSpans f.2) ++ (lastLog entries).elim [] fun d => logSpans d (records d)

/-! ## Segments -/

section Records

variable {d : Bytes} {keys : List String} {sigils : List UInt8} {off : ℕ}

/-- A span has the trace id of its record. -/
theorem traceIdAt_of_spanAt {s : Span} (h : spanAt d keys sigils off = some s) :
    traceIdAt d keys sigils off = some s.traceId := by
  obtain ⟨fields, hfields, hspan⟩ := Option.bind_eq_some_iff.mp h
  obtain ⟨traceId, hid, hspan⟩ := Option.bind_eq_some_iff.mp hspan
  obtain ⟨spanId, -, hspan⟩ := Option.bind_eq_some_iff.mp hspan
  cases hspan
  exact Option.bind_eq_some_iff.mpr ⟨fields, hfields, hid⟩

theorem keepOk_spanAt {seg : SealedSegment} (hsafe : decodeRecordAt seg.data.bytes off seg.keys seg.sigils ≠ .panic) :
    keepOk (seg.decodeSpanAt off) = .ok (spanAt seg.data.bytes seg.keys seg.sigils off) := by
  rw [SealedSegment.decodeSpanAt, spanAt]
  cases hfields : decodeRecordAt seg.data.bytes off seg.keys seg.sigils with
  | panic => exact absurd hfields hsafe
  | err e => rfl
  | ok fields =>
    rw [ok_bind, show (Outcome.ok fields : Res _).toOption = some fields from rfl, Option.bind_some]
    cases fieldsToSpan fields <;> rfl

theorem indexEntry_eq_ok {entry : Option (ℕ × ℕ)} (h : indexEntry d keys sigils off = .ok entry) :
    entry = (traceIdAt d keys sigils off).map fun traceId => (traceId, off) := by
  rw [indexEntry] at h
  obtain ⟨stop, hstop, h⟩ := bind_eq_ok.mp h
  rw [traceIdAt]
  rw [usizeAdd] at hstop
  split at hstop
  · rename_i hlt
    cases hstop
    by_cases hle : off + 8 ≤ d.length
    · rw [if_pos hle] at h
      obtain ⟨fields, hfields, h⟩ := bind_eq_ok.mp h
      cases h
      cases hrecord : decodeRecordAt d off keys sigils with
      | ok fields' =>
        rw [hrecord] at hfields
        cases hfields
        rfl
      | err e =>
        rw [hrecord] at hfields
        cases hfields
        rfl
      | panic =>
        rw [hrecord] at hfields
        cases hfields
    · rw [if_neg hle] at h
      cases h
      rw [decodeRecordAt, decodeObject, usizeAdd_of hlt, ok_bind, ensure_not (by omega), err_bind]
      rfl
  · cases hstop

/-- The loop over the entries of a tail-index. -/
theorem tailOffsets_eq {tailEnd : ℕ} (hd : d.length < 2 ^ 63) (hend : tailEnd ≤ d.length) : ∀ (fuel pos : ℕ),
    (tailEnd - pos) / 10 ≤ fuel →
      tailOffsets d tailEnd fuel pos = .ok ((List.range ((tailEnd - pos) / 10)).map fun i => word d (pos + i * 10 + 2) 8)
  | 0, pos, hfuel => by
    rw [Nat.le_zero.mp hfuel]
    rfl
  | fuel + 1, pos, hfuel => by
    rw [tailOffsets]
    by_cases hle : pos + 10 ≤ tailEnd
    · have hnext : (tailEnd - pos) / 10 = (tailEnd - (pos + 10)) / 10 + 1 := by omega
      rw [if_pos hle, readLE_word (by omega) hd, ok_bind, tailOffsets_eq hd hend fuel (pos + 10) (by omega), ok_bind, hnext,
        List.range_succ_eq_map, List.map_cons, List.map_map]
      refine congrArg _ (List.cons_eq_cons.mpr ⟨by rw [Nat.zero_mul, Nat.add_zero], List.map_congr_left fun i _ => ?_⟩)
      rw [Function.comp_apply]
      congr 1
      omega
    · rw [if_neg hle, show (tailEnd - pos) / 10 = 0 by omega]
      rfl

end Records

/-- A segment as `load` keeps it: its records by their trace ids. -/
structure Indexed (seg : SealedSegment) (offsets : List ℕ) : Prop where
  index : seg.index = keyed (traceIdAt seg.data.bytes seg.keys seg.sigils) offsets
  spans : segmentSpans seg.data = offsets.filterMap (spanAt seg.data.bytes seg.keys seg.sigils)

theorem load_eq_ok {file : Slice} {seg : SealedSegment} (h : SealedSegment.load file = .ok seg) :
    seg.data = file ∧ ∃ offsets, Indexed seg offsets := by
  rw [SealedSegment.load] at h
  obtain ⟨decoded, hdec, h⟩ := bind_eq_ok.mp h
  dsimp only at h
  rw [tailOffsets_eq file.small (Nat.sub_le _ _) _ _ (by omega), ok_bind] at h
  obtain ⟨entries, hentries, h⟩ := bind_eq_ok.mp h
  cases h
  refine ⟨rfl, tailIndexOffsets file.bytes decoded.tailStart, ?_, ?_⟩
  · have hrel := (mapM_eq_ok.mp hentries).imp fun off entry => indexEntry_eq_ok
    have hmap : entries = (tailIndexOffsets file.bytes decoded.tailStart).map fun off =>
        (traceIdAt file.bytes decoded.keys decoded.keySigils off).map fun traceId => (traceId, off) := by
      rw [← List.forall₂_eq_eq_eq, List.forall₂_map_right_iff]
      exact hrel.flip.imp fun _ _ heq => heq
    rw [hmap, List.filterMap_map]
    rfl
  · rw [segmentSpans, hdec]

namespace Indexed

variable {seg : SealedSegment} {offsets : List ℕ} (h : Indexed seg offsets)

include h

theorem decode {off : ℕ} (hoff : off ∈ seg.index.map Prod.snd) :
    keepOk (seg.decodeSpanAt off) = .ok (spanAt seg.data.bytes seg.keys seg.sigils off) := by
  obtain ⟨e, he, rfl⟩ := List.mem_map.mp hoff
  rw [h.index] at he
  obtain ⟨fields, hfields, -⟩ := Option.bind_eq_some_iff.mp (mem_keyed.mp he).2
  refine keepOk_spanAt fun hpanic => ?_
  rw [hpanic] at hfields
  cases hfields

/-- Some of the offsets, decoded. -/
theorem decode_all {offs : List ℕ} (hoffs : ∀ off ∈ offs, off ∈ seg.index.map Prod.snd) :
    offs.mapM (fun off => keepOk (seg.decodeSpanAt off)) =
      .ok (offs.map (spanAt seg.data.bytes seg.keys seg.sigils)) := by
  rw [mapM_eq_ok, List.forall₂_map_right_iff, List.forall₂_same]
  exact fun off hoff => h.decode (hoffs off hoff)

/-- A record without a trace id has no span. -/
theorem spans_keyed : ((offsets.filter fun off => (traceIdAt seg.data.bytes seg.keys seg.sigils off).isSome).filterMap
    (spanAt seg.data.bytes seg.keys seg.sigils)) = segmentSpans seg.data := by
  rw [h.spans, List.filterMap_filter]
  refine List.filterMap_congr fun off _ => ?_
  split
  · rfl
  · rename_i hid
    cases hspan : spanAt seg.data.bytes seg.keys seg.sigils off with
    | none => rfl
    | some s =>
      rw [traceIdAt_of_spanAt hspan] at hid
      exact absurd rfl hid

/-- The spans of a trace. -/
theorem spansOf (traceId : ℕ) : seg.spansOf traceId =
    .ok ((segmentSpans seg.data).filter fun s => s.traceId == traceId) := by
  have hmapM : (seg.index.filter fun e => e.1 == traceId).mapM (fun e => keepOk (seg.decodeSpanAt e.2)) =
      .ok ((bucket seg.index traceId).map (spanAt seg.data.bytes seg.keys seg.sigils)) := by
    rw [mapM_eq_ok, bucket, List.map_map, List.forall₂_map_right_iff, List.forall₂_same]
    exact fun e he => h.decode (List.mem_map_of_mem (List.mem_filter.mp he).1)
  rw [SealedSegment.spansOf, hmapM, ok_bind, List.filterMap_map, ← h.spans_keyed, h.index]
  exact congrArg _ (bucket_filterMap (fun off k s hk hspan =>
    Option.some.inj ((traceIdAt_of_spanAt hspan).symm.trans hk)) offsets traceId)

/-- The spans in a time window, in the order of the map. -/
theorem spansIn (order : MapOrder) (startNs endNs : Int64) : ∃ spans, seg.spansIn order startNs endNs = .ok spans ∧
    spans.Perm ((segmentSpans seg.data).filter (inWindow startNs endNs)) := by
  have hperm : (seg.values order).flatten.Perm (seg.index.map Prod.snd) := buckets_perm (order.perm _)
  refine ⟨_, by rw [SealedSegment.spansIn, h.decode_all fun off hoff => hperm.mem_iff.mp hoff, ok_bind], ?_⟩
  rw [List.filterMap_map, ← h.spans_keyed, ← map_snd_keyed, ← h.index]
  exact (hperm.filterMap _).filter _

end Indexed

/-! ## The log -/

/-- The trace id that recovery reads in the record at `pos`. -/
def rawTraceId (d : Bytes) (pos : ℕ) : Option ℕ := (extractTraceSpanId (rawRecord d pos)).toOption.map Prod.fst

theorem rawTraceId_isSome (d : Bytes) (pos : ℕ) : (rawTraceId d pos).isSome = decide (HasIds d pos) := by
  rw [Bool.eq_iff_iff, decide_eq_true_iff, HasIds, rawTraceId]
  cases extractTraceSpanId (rawRecord d pos) <;> rfl

/-- The scan walks over the records one by one, and keeps those with ids. -/
theorem scanRecords_walk (d : Bytes) : ∀ fuel pos,
    ((scanRecords d fuel pos).1.map fun e => (e.traceId, e.offset)) = keyed (rawTraceId d) (walkFrom d fuel pos) ∧
      (scanRecords d fuel pos).2 = (walkFrom d fuel pos).length
  | 0, _ => ⟨rfl, rfl⟩
  | fuel + 1, pos => by
    by_cases hwhole : WholeRecord d pos
    · obtain ⟨hroom, hmagic, hlow, hhigh, hend⟩ := id hwhole
      obtain ⟨hindex, hcount⟩ := scanRecords_walk d fuel (pos + word d (pos + 4) 4)
      rw [word] at hmagic hlow hhigh hend
      rw [scanRecords, walkFrom, if_neg (by omega), if_pos hwhole]
      dsimp only
      rw [if_neg (not_not.mpr hmagic), if_neg (by omega), List.map_append, List.length_cons]
      refine ⟨?_, congrArg (· + 1) hcount⟩
      have hraw : (d.drop pos).take (leNat ((d.drop (pos + 4)).take 4)) = rawRecord d pos := rfl
      rw [hraw]
      cases hids : extractTraceSpanId (rawRecord d pos) with
      | ok ids =>
        rw [keyed_cons_some (by rw [rawTraceId, hids]; rfl)]
        exact congrArg _ hindex
      | err e =>
        rw [keyed_cons_none (by rw [rawTraceId, hids]; rfl)]
        exact hindex
      | panic =>
        rw [keyed_cons_none (by rw [rawTraceId, hids]; rfl)]
        exact hindex
    · have hzero : (scanRecords d (fuel + 1) pos).2 = 0 := scanRecords_empty.mpr hwhole
      have hle := (scanRecords_counts d (fuel + 1) pos).1
      rw [hzero, Nat.le_zero, List.length_eq_zero_iff] at hle
      rw [hzero, hle, walkFrom, if_neg hwhole]
      exact ⟨rfl, rfl⟩

theorem walkFrom_whole {d : Bytes} : ∀ {fuel pos p : ℕ}, p ∈ walkFrom d fuel pos → WholeRecord d p
  | 0, _, _, h => absurd h List.not_mem_nil
  | fuel + 1, pos, p, h => by
    rw [walkFrom] at h
    split at h
    · rcases List.mem_cons.mp h with rfl | h
      · assumption
      · exact walkFrom_whole h
    · exact absurd h List.not_mem_nil

section Log

variable {d : Bytes} (hd : d.length < 2 ^ 63) {pos : ℕ}

include hd

theorem decodeSpanFromRaw_eq (h : WholeRecord d pos) : decodeSpanFromRaw d pos = .ok (spanAt d SPAN_KEYS SPAN_SIGILS pos) := by
  obtain ⟨hroom, hmagic, -⟩ := h
  have hsafe := safe_decodeObject hd SPAN_KEYS SPAN_SIGILS (show pos ≤ d.length by omega)
  rw [decodeSpanFromRaw, usizeAdd_of (by omega), ok_bind, if_neg (by omega), readLE_word (by omega) hd, ok_bind,
    if_neg (not_not.mpr hmagic), spanAt]
  cases hfields : decodeRecordAt d pos SPAN_KEYS SPAN_SIGILS with
  | ok fields => rfl
  | err e => rfl
  | panic => exact absurd hfields hsafe.ne_panic

omit hd in
/-- An integer is decoded from the eight bytes at its place. -/
theorem decodeValueAt_asInt {p n : ℕ} {v : DecodedValue} {i : Int64} (hn : readLE d p 8 = (.ok n : Res ℕ))
    (h : decodeValueAt d p SIGIL_INT = .ok v) (hi : v.asInt = some i) : i = i64Of n := by
  rw [decodeValueAt, if_neg (by decide)] at h
  obtain ⟨_, -, h⟩ := bind_eq_ok.mp h
  obtain ⟨magic, -, h⟩ := bind_eq_ok.mp h
  by_cases hobj : magic = MAGIC_OBJ
  · rw [if_pos hobj] at h
    obtain ⟨_, -, h⟩ := bind_eq_ok.mp h
    obtain ⟨_, -, h⟩ := bind_eq_ok.mp h
    obtain ⟨_, -, h⟩ := bind_eq_ok.mp h
    cases h
    cases hi
  rw [if_neg hobj] at h
  by_cases hlist : magic = MAGIC_LIST
  · rw [if_pos hlist, decodeList] at h
    obtain ⟨_, -, h⟩ := bind_eq_ok.mp h
    obtain ⟨_, -, h⟩ := bind_eq_ok.mp h
    obtain ⟨_, -, h⟩ := bind_eq_ok.mp h
    obtain ⟨_, -, h⟩ := bind_eq_ok.mp h
    obtain ⟨_, -, h⟩ := bind_eq_ok.mp h
    obtain ⟨_, -, h⟩ := bind_eq_ok.mp h
    obtain ⟨_, -, h⟩ := bind_eq_ok.mp h
    obtain ⟨_, -, h⟩ := bind_eq_ok.mp h
    obtain ⟨_, -, h⟩ := bind_eq_ok.mp h
    obtain ⟨_, -, h⟩ := bind_eq_ok.mp h
    cases h
    cases hi
  · rw [if_neg hlist, decodeTyped, if_neg (by decide), if_pos rfl, word8] at h
    obtain ⟨n', hn', h⟩ := bind_eq_ok.mp h
    cases h
    cases hi
    obtain ⟨_, -, hn'⟩ := bind_eq_ok.mp hn'
    obtain ⟨_, -, hn'⟩ := bind_eq_ok.mp hn'
    rw [hn] at hn'
    cases hn'
    rfl

omit hd in
/-- The name of a slot, among those of a span. -/
theorem spanKey_slot {s slot : ℕ} {name : String} (hname : SPAN_KEYS[slot]? = some name)
    (hs : SPAN_KEYS.getD s s!"key_{s}" = name) : s = slot := by
  obtain ⟨hslot, rfl⟩ := List.getElem?_eq_some_iff.mp hname
  rw [List.getD_eq_getElem?_getD] at hs
  by_cases hlt : s < SPAN_KEYS.length
  · rw [List.getElem?_eq_getElem hlt, Option.getD_some] at hs
    exact (List.Nodup.getElem_inj_iff (by decide +kernel)).mp hs
  · rw [List.getElem?_eq_none (by omega), Option.getD_none] at hs
    have hkeys : ∀ k ∈ SPAN_KEYS, k.toList.head? ≠ some 'k' := by decide +kernel
    refine absurd ?_ (hkeys _ (List.getElem_mem hslot))
    rw [← hs, String.toList_append]
    rfl

omit hd in
/-- An integer of a decoded record, by its name. -/
theorem findField_asInt {fields : List (ℕ × ℕ)} {named : List (String × DecodedValue)} (slot : ℕ) {p n : ℕ} {name : String}
    {i : Int64} (hnamed : fields.mapM (decodeField d SPAN_KEYS SPAN_SIGILS) = .ok named) (hnd : (fields.map Prod.fst).Nodup)
    (hname : SPAN_KEYS[slot]? = some name) (hsigil : SPAN_SIGILS.getD slot 0 = SIGIL_INT) (hp : fields.lookup slot = some p)
    (hn : readLE d p 8 = (.ok n : Res ℕ)) (hfind : findField named name DecodedValue.asInt = some i) : i = i64Of n := by
  obtain ⟨field, hfield, hi⟩ := List.exists_of_findSome?_eq_some hfind
  obtain ⟨f, hf, hdecoded⟩ : ∃ f ∈ fields, decodeField d SPAN_KEYS SPAN_SIGILS f = .ok field := by
    have hrel := mapM_eq_ok.mp hnamed
    obtain ⟨j, hj, rfl⟩ := List.getElem_of_mem hfield
    exact ⟨_, List.getElem_mem (hrel.length_eq ▸ hj), List.Forall₂.get hrel (hrel.length_eq ▸ hj) hj⟩
  obtain ⟨value, hvalue, hdecoded⟩ := bind_eq_ok.mp hdecoded
  cases hdecoded
  dsimp only at hi
  split at hi
  · rename_i heq
    obtain rfl := spanKey_slot hname heq
    obtain rfl : f.2 = p := Option.some.inj ((lookup_of_mem hnd hf).symm.trans hp)
    rw [hsigil] at hvalue
    exact decodeValueAt_asInt hn hvalue hi
  · cases hi

/-- The decoder finds the trace id that recovery read. -/
theorem traceId_of_raw {traceId : ℕ} {s : Span} (hraw : rawTraceId d pos = some traceId)
    (hspan : spanAt d SPAN_KEYS SPAN_SIGILS pos = some s) : s.traceId = traceId := by
  obtain ⟨named, hnamed, hid⟩ := Option.bind_eq_some_iff.mp (traceIdAt_of_spanAt hspan)
  rw [toOption_eq_some, decodeRecordAt, decodeObject_eq] at hnamed
  obtain ⟨fields, hfields, hnamed⟩ := bind_eq_ok.mp hnamed
  obtain ⟨k, p, htable⟩ := FieldTable.of_ok hfields
  obtain ⟨ids, hids, rfl⟩ := Option.map_eq_some_iff.mp hraw
  rw [toOption_eq_some, rawRecord] at hids
  obtain ⟨v₀, v₁, v₂, hi, lo, id, h₀, h₁, -, hhi, hlo, -, rfl⟩ := htable.extract_eq_ok hd hids
  obtain ⟨hi', hhi', hid⟩ := Option.bind_eq_some_iff.mp hid
  obtain ⟨lo', hlo', hid⟩ := Option.bind_eq_some_iff.mp hid
  obtain rfl := findField_asInt 0 hnamed htable.nodup rfl rfl h₀ hhi hhi'
  obtain rfl := findField_asInt 1 hnamed htable.nodup rfl rfl h₁ hlo hlo'
  rw [← Option.some.inj hid]
  rfl

/-- What is kept of a log: the records that it holds, with the trace ids that recovery reads. -/
theorem recover_eq_ok {wal : SpanWal} (h : (SpanWal.opened true).recover d = .ok wal) :
    (wal.index.map fun e => (e.traceId, e.offset)) = keyed (rawTraceId d) (logRecords d) ∧
      wal.recordCount = (logRecords d).length := by
  rw [SpanWal.recover] at h
  obtain ⟨_, -, h⟩ := bind_eq_ok.mp h
  obtain ⟨_, -, h⟩ := bind_eq_ok.mp h
  obtain ⟨_, -, h⟩ := bind_eq_ok.mp h
  obtain ⟨_, hroom, h⟩ := bind_eq_ok.mp h
  rw [ensure_eq_ok] at hroom
  have hwalk := scanRecords_walk d (d.length + 1) (12 + word d 8 4)
  rw [readLE_word (by omega) hd, ok_bind] at h
  dsimp only at h
  generalize scanRecords d (d.length + 1) (12 + word d 8 4) = found at h hwalk
  cases h
  exact hwalk

omit hd in
/-- The spans of the records in the index of a log. -/
theorem logSpans_recovered : logSpans d (recoveredRecords d) =
    ((logRecords d).filter fun pos => (rawTraceId d pos).isSome).filterMap (spanAt d SPAN_KEYS SPAN_SIGILS) := by
  rw [logSpans, recoveredRecords]
  exact congrArg _ (List.filter_congr fun pos _ => (rawTraceId_isSome d pos).symm)

variable {wal : SpanWal} (h : (SpanWal.opened true).recover d = .ok wal)

include h

theorem decode_recovered {e : WalEntry} (he : e ∈ wal.index) :
    decodeSpanFromRaw d e.offset = .ok (spanAt d SPAN_KEYS SPAN_SIGILS e.offset) := by
  have hmem : (e.traceId, e.offset) ∈ wal.index.map fun e => (e.traceId, e.offset) := List.mem_map_of_mem he
  rw [(recover_eq_ok hd h).1] at hmem
  exact decodeSpanFromRaw_eq hd (walkFrom_whole (mem_keyed.mp hmem).1)

theorem spansOf_recovered (traceId : ℕ) : (WalReader.mk wal d).spansOf traceId =
    .ok ((logSpans d (recoveredRecords d)).filter fun s => s.traceId == traceId) := by
  have hmapM : (wal.index.filter fun e => e.traceId == traceId).mapM (fun e => decodeSpanFromRaw d e.offset) =
      .ok ((bucket (wal.index.map fun e => (e.traceId, e.offset)) traceId).map (spanAt d SPAN_KEYS SPAN_SIGILS)) := by
    rw [mapM_eq_ok, bucket, List.filter_map, List.map_map, List.map_map, List.forall₂_map_right_iff]
    exact List.forall₂_same.mpr fun e he => decode_recovered hd h (List.mem_filter.mp he).1
  rw [WalReader.spansOf]
  dsimp only
  rw [hmapM, ok_bind, List.filterMap_map, logSpans_recovered, (recover_eq_ok hd h).1]
  exact congrArg _ (bucket_filterMap (fun pos k s hk hspan => traceId_of_raw hd hk hspan) _ traceId)

theorem spansIn_recovered (startNs endNs : Int64) : (WalReader.mk wal d).spansIn startNs endNs =
    .ok ((logSpans d (recoveredRecords d)).filter (inWindow startNs endNs)) := by
  have hmapM : wal.index.mapM (fun e => decodeSpanFromRaw d e.offset) =
      .ok (((wal.index.map fun e => (e.traceId, e.offset)).map Prod.snd).map (spanAt d SPAN_KEYS SPAN_SIGILS)) := by
    rw [mapM_eq_ok, List.map_map, List.map_map, List.forall₂_map_right_iff, List.forall₂_same]
    exact fun e he => decode_recovered hd h he
  rw [WalReader.spansIn]
  dsimp only
  rw [hmapM, ok_bind, List.filterMap_map, logSpans_recovered, (recover_eq_ok hd h).1, map_snd_keyed]
  rfl


end Log

/-! ## The directory -/

/-- What a reader has of a directory: each segment, and the last log. -/
structure OpenedDir (r : SegmentReader) (entries : List DirEntry) : Prop where
  segments : ∃ loaded, r.segments.Perm loaded ∧
    List.Forall₂ (fun f seg => SealedSegment.load f.2 = .ok seg.2) (nxbFiles entries) loaded
  wal : openWal (lastLog entries) = .ok r.wal

theorem readEntry_all : ∀ {entries : List DirEntry} {acc acc' : List (String × SealedSegment) × Option Bytes},
    entries.foldlM readEntry acc = .ok acc' →
      (∃ loaded, acc'.1 = acc.1 ++ loaded ∧
        List.Forall₂ (fun f seg => SealedSegment.load f.2 = .ok seg.2) (nxbFiles entries) loaded) ∧
      acc'.2 = entries.foldl (fun log e =>
        match e with
        | .nxsw file => some file
        | _ => log) acc.2
  | [], acc, acc', h => by
    cases h
    exact ⟨⟨[], (List.append_nil _).symm, List.Forall₂.nil⟩, rfl⟩
  | e :: entries, acc, acc', h => by
    rw [List.foldlM_cons] at h
    obtain ⟨next, hentry, h⟩ := bind_eq_ok.mp h
    obtain ⟨⟨loaded, hsegments, hloaded⟩, hlog⟩ := readEntry_all h
    cases e with
    | nxb name file =>
      obtain ⟨seg, hload, hnext⟩ := bind_eq_ok.mp hentry
      cases hnext
      exact ⟨⟨(name, seg) :: loaded, by rw [hsegments, List.append_assoc, List.singleton_append],
        List.Forall₂.cons hload hloaded⟩, hlog⟩
    | nxsw file =>
      cases hentry
      exact ⟨⟨loaded, hsegments, hloaded⟩, hlog⟩
    | other =>
      cases hentry
      exact ⟨⟨loaded, hsegments, hloaded⟩, hlog⟩

theorem openDir_eq_ok {entries : List DirEntry} {r : SegmentReader} (h : SegmentReader.openDir entries = .ok r) :
    OpenedDir r entries := by
  rw [SegmentReader.openDir] at h
  obtain ⟨⟨segments, walFile⟩, hentries, h⟩ := bind_eq_ok.mp h
  obtain ⟨⟨loaded, hsegments, hloaded⟩, hlog⟩ := readEntry_all hentries
  obtain ⟨wal, hwal, h⟩ := bind_eq_ok.mp h
  cases h
  dsimp only at hsegments hlog hwal
  rw [List.nil_append] at hsegments
  refine ⟨⟨loaded, ?_, hloaded⟩, ?_⟩
  · rw [hsegments]
    exact List.mergeSort_perm loaded _
  · rw [lastLog, ← hlog]
    exact hwal

/-! ## What the queries find -/

/-- The queries find exactly the given spans, sorted by their start. -/
structure Finds (r : SegmentReader) (spans : List Span) : Prop where
  byTrace : ∀ traceId, ∃ found, r.findByTrace traceId = .ok found ∧
    found.Pairwise (fun a b => a.startTimeNs ≤ b.startTimeNs) ∧ found.Perm (spans.filter fun s => s.traceId == traceId)
  byTime : ∀ order startNs endNs, ∃ found, r.findByTime order startNs endNs = .ok found ∧
    found.Pairwise (fun a b => a.startTimeNs ≤ b.startTimeNs) ∧ found.Perm (spans.filter (inWindow startNs endNs))

/-- The query by time is the union of those by trace. -/
def UnionOfTraces (r : SegmentReader) : Prop :=
  ∀ order startNs endNs found, r.findByTime order startNs endNs = .ok found →
    ∀ byTrace : ℕ → List Span, (∀ traceId, r.findByTrace traceId = .ok (byTrace traceId)) →
      ∀ traceIds : List ℕ, traceIds.Nodup → (∀ traceId, byTrace traceId ≠ [] → traceId ∈ traceIds) →
        found.Perm (traceIds.flatMap fun traceId => (byTrace traceId).filter (inWindow startNs endNs))

theorem startLE_trans (a b c : Span) (hab : decide (a.startTimeNs ≤ b.startTimeNs) = true)
    (hbc : decide (b.startTimeNs ≤ c.startTimeNs) = true) : decide (a.startTimeNs ≤ c.startTimeNs) = true :=
  decide_eq_true (Int64.le_trans (of_decide_eq_true hab) (of_decide_eq_true hbc))

theorem startLE_total (a b : Span) :
    (decide (a.startTimeNs ≤ b.startTimeNs) || decide (b.startTimeNs ≤ a.startTimeNs)) = true := by
  rw [Bool.or_eq_true, decide_eq_true_iff, decide_eq_true_iff]
  exact Int64.le_total _ _

/-- Spans sorted by their start. -/
theorem sorted_by_start (spans : List Span) :
    (spans.mergeSort fun a b => decide (a.startTimeNs ≤ b.startTimeNs)).Pairwise fun a b => a.startTimeNs ≤ b.startTimeNs :=
  (List.pairwise_mergeSort startLE_trans startLE_total spans).imp fun h => of_decide_eq_true h

section Queries

variable {r : SegmentReader} {lists : List (List Span)} {walSpans : List Span}

/-- What a query over the segments and one over the log find together. -/
theorem merged_eq {query : String × SealedSegment → Res (List Span)} {walQuery : WalReader → Res (List Span)}
    (hlists : r.segments.mapM query = .ok lists)
    (hwal : (match r.wal with
      | some wr => walQuery wr
      | none => .ok []) = .ok walSpans) :
    (do
      let sealedSpans ← r.segments.mapM query
      let walSpans ← match r.wal with
        | some wr => walQuery wr
        | none => .ok []
      .ok ((sealedSpans.flatten ++ walSpans).mergeSort fun a b => decide (a.startTimeNs ≤ b.startTimeNs)) : Res (List Span)) =
      .ok ((lists.flatten ++ walSpans).mergeSort fun a b => decide (a.startTimeNs ≤ b.startTimeNs)) := by
  rw [hlists, ok_bind]
  cases hw : r.wal with
  | none =>
    rw [hw] at hwal
    cases hwal
    rfl
  | some wr =>
    rw [hw] at hwal
    dsimp only at hwal ⊢
    rw [hwal, ok_bind]

theorem findByTrace_eq {traceId : ℕ} (hlists : r.segments.mapM (fun seg => seg.2.spansOf traceId) = .ok lists)
    (hwal : (match r.wal with
      | some wr => wr.spansOf traceId
      | none => .ok []) = .ok walSpans) :
    r.findByTrace traceId =
      .ok ((lists.flatten ++ walSpans).mergeSort fun a b => decide (a.startTimeNs ≤ b.startTimeNs)) :=
  merged_eq hlists hwal

theorem findByTime_eq {order : String → MapOrder} {startNs endNs : Int64}
    (hlists : r.segments.mapM (fun seg => seg.2.spansIn (order seg.1) startNs endNs) = .ok lists)
    (hwal : (match r.wal with
      | some wr => wr.spansIn startNs endNs
      | none => .ok []) = .ok walSpans) :
    r.findByTime order startNs endNs =
      .ok ((lists.flatten ++ walSpans).mergeSort fun a b => decide (a.startTimeNs ≤ b.startTimeNs)) :=
  merged_eq hlists hwal

end Queries

namespace OpenedDir

variable {r : SegmentReader} {entries : List DirEntry} (h : OpenedDir r entries)

include h

/-- A query over the segments, and what it finds in all of them. -/
theorem sealed_perm (query : String × SealedSegment → Res (List Span)) (keep : Span → Bool)
    (hquery : ∀ seg offsets, Indexed seg.2 offsets →
      ∃ spans, query seg = .ok spans ∧ spans.Perm ((segmentSpans seg.2.data).filter keep)) :
    ∃ lists, r.segments.mapM query = .ok lists ∧
      lists.flatten.Perm (((nxbFiles entries).flatMap fun f => segmentSpans f.2).filter keep) := by
  obtain ⟨loaded, hperm, hloaded⟩ := h.segments
  have hindexed : ∀ seg ∈ r.segments, ∃ offsets, Indexed seg.2 offsets := by
    intro seg hseg
    obtain ⟨i, hi, rfl⟩ := List.getElem_of_mem (hperm.mem_iff.mp hseg)
    exact (load_eq_ok (List.Forall₂.get hloaded (hloaded.length_eq ▸ hi) hi)).2
  obtain ⟨lists, hlists⟩ := exists_mapM_eq_ok.mpr fun seg hseg => by
    obtain ⟨offsets, hoffsets⟩ := hindexed seg hseg
    obtain ⟨spans, hspans, -⟩ := hquery seg offsets hoffsets
    exact ⟨spans, hspans⟩
  have hdata : (nxbFiles entries).map (fun f => segmentSpans f.2) = loaded.map fun seg => segmentSpans seg.2.data := by
    rw [← List.forall₂_eq_eq_eq, List.forall₂_map_left_iff, List.forall₂_map_right_iff]
    exact hloaded.imp fun f seg hload => by rw [(load_eq_ok hload).1]
  have hpointwise : List.Forall₂ List.Perm lists (r.segments.map fun seg => (segmentSpans seg.2.data).filter keep) := by
    have hrel := mapM_eq_ok.mp hlists
    refine List.forall₂_iff_get.mpr ⟨by rw [List.length_map, hrel.length_eq], fun i hi hi' => ?_⟩
    rw [List.length_map] at hi'
    obtain ⟨offsets, hoffsets⟩ := hindexed _ (List.getElem_mem hi')
    obtain ⟨spans, hspans, hsame⟩ := hquery _ offsets hoffsets
    have hlist := hrel.get hi' hi
    rw [List.get_eq_getElem, List.get_eq_getElem, hspans] at hlist
    rw [List.get_eq_getElem, List.get_eq_getElem, List.getElem_map, ← Outcome.ok.inj hlist]
    exact hsame
  refine ⟨lists, hlists, (List.Perm.flatten_congr hpointwise).trans ?_⟩
  rw [List.flatMap_def, hdata, List.filter_flatten, List.map_map]
  exact (hperm.map _).flatten

theorem wal_spans (hlog : ∀ d, lastLog entries = some d → d.length < 2 ^ 63) (query : WalReader → Res (List Span))
    (keep : Span → Bool) (hquery : ∀ (d : Bytes) (wal : SpanWal), d.length < 2 ^ 63 → (SpanWal.opened true).recover d = .ok wal →
      query ⟨wal, d⟩ = .ok ((logSpans d (recoveredRecords d)).filter keep)) :
    (match r.wal with
      | some wr => query wr
      | none => .ok []) = .ok (((lastLog entries).elim [] fun d => logSpans d (recoveredRecords d)).filter keep) := by
  have hwal := h.wal
  cases hlast : lastLog entries with
  | none =>
    rw [hlast] at hwal
    rw [← Outcome.ok.inj hwal]
    rfl
  | some d =>
    rw [hlast, openWal] at hwal
    obtain ⟨wal, hrecover, hwal⟩ := bind_eq_ok.mp hwal
    rw [← Outcome.ok.inj hwal]
    exact hquery d wal (hlog d hlast) hrecover

theorem finds (hlog : ∀ d, lastLog entries = some d → d.length < 2 ^ 63) : Finds r (dirSpans entries recoveredRecords) where
  byTrace traceId := by
    obtain ⟨lists, hlists, hperm⟩ := h.sealed_perm (fun seg => seg.2.spansOf traceId)
      (fun s => s.traceId == traceId) fun seg offsets hseg => ⟨_, hseg.spansOf traceId, List.Perm.refl _⟩
    have hwal := h.wal_spans hlog (fun wr => wr.spansOf traceId) (fun s => s.traceId == traceId)
      fun d wal hd hrecover => spansOf_recovered hd hrecover traceId
    refine ⟨_, findByTrace_eq hlists hwal, sorted_by_start _, ?_⟩
    rw [dirSpans, List.filter_append]
    exact (List.mergeSort_perm _ _).trans (hperm.append_right _)
  byTime order startNs endNs := by
    obtain ⟨lists, hlists, hperm⟩ := h.sealed_perm (fun seg => seg.2.spansIn (order seg.1) startNs endNs)
      (inWindow startNs endNs) fun seg offsets hseg => hseg.spansIn (order seg.1) startNs endNs
    have hwal := h.wal_spans hlog (fun wr => wr.spansIn startNs endNs) (inWindow startNs endNs)
      fun d wal hd hrecover => spansIn_recovered hd hrecover startNs endNs
    refine ⟨_, findByTime_eq hlists hwal, sorted_by_start _, ?_⟩
    rw [dirSpans, List.filter_append]
    exact (List.mergeSort_perm _ _).trans (hperm.append_right _)

end OpenedDir

/-- Every span is in the trace of its id. -/
theorem Finds.union {r : SegmentReader} {spans : List Span} (h : Finds r spans) : UnionOfTraces r := by
  intro order startNs endNs found hfound byTrace hbyTrace traceIds hnd hall
  obtain ⟨found', hfound', -, hperm⟩ := h.byTime order startNs endNs
  obtain rfl := Outcome.ok.inj (hfound.symm.trans hfound')
  have htrace : ∀ traceId, (byTrace traceId).Perm (spans.filter fun s => s.traceId == traceId) := by
    intro traceId
    obtain ⟨found, hfound, -, hperm⟩ := h.byTrace traceId
    obtain rfl := Outcome.ok.inj ((hbyTrace traceId).symm.trans hfound)
    exact hperm
  have hmem : ∀ s ∈ spans, s.traceId ∈ traceIds := fun s hs => hall _ (List.ne_nil_of_mem
    ((htrace s.traceId).mem_iff.mpr (List.mem_filter.mpr ⟨hs, beq_self_eq_true _⟩)))
  have hgroups := groups_perm Span.traceId (spans.filter (inWindow startNs endNs)) hnd
  rw [List.filter_eq_self.mpr fun s hs => decide_eq_true (hmem s (List.mem_filter.mp hs).1)] at hgroups
  refine hperm.trans (hgroups.symm.trans (List.Perm.flatMap_left _ fun traceId _ => ?_))
  rw [List.filter_comm]
  exact ((htrace traceId).filter _).symm

theorem Finds.perm {r : SegmentReader} {spans spans' : List Span} (h : Finds r spans) (hperm : spans.Perm spans') :
    Finds r spans' where
  byTrace traceId := by
    obtain ⟨found, hfound, hsorted, hsame⟩ := h.byTrace traceId
    exact ⟨found, hfound, hsorted, hsame.trans (hperm.filter _)⟩
  byTime order startNs endNs := by
    obtain ⟨found, hfound, hsorted, hsame⟩ := h.byTime order startNs endNs
    exact ⟨found, hfound, hsorted, hsame.trans (hperm.filter _)⟩

/-- The records of a log that have no ids. -/
def unindexedRecords (d : Bytes) : List ℕ := (logRecords d).filter fun pos => !decide (HasIds d pos)

/-- The records that recovery walks over, with and without ids. -/
theorem dirSpans_split {entries : List DirEntry} {d : Bytes} (hlast : lastLog entries = some d) :
    (dirSpans entries logRecords).Perm (dirSpans entries recoveredRecords ++ logSpans d (unindexedRecords d)) := by
  have hsplit := (List.filter_append_perm (fun pos => decide (HasIds d pos)) (logRecords d)).filterMap
    (spanAt d SPAN_KEYS SPAN_SIGILS)
  rw [List.filterMap_append] at hsplit
  rw [dirSpans, dirSpans, hlast, List.append_assoc]
  exact hsplit.symm.append_left _

/-- All the records of the log are found exactly when no record without ids is decoded to a span. -/
theorem OpenedDir.finds_all_iff {r : SegmentReader} {entries : List DirEntry} (h : OpenedDir r entries)
    (hlog : ∀ d, lastLog entries = some d → d.length < 2 ^ 63) :
    Finds r (dirSpans entries logRecords) ↔ ∀ d, lastLog entries = some d →
      ∀ pos ∈ logRecords d, ¬ HasIds d pos → spanAt d SPAN_KEYS SPAN_SIGILS pos = none := by
  have hfinds := h.finds hlog
  constructor
  · intro hall d hlast pos hpos hids
    cases hspan : spanAt d SPAN_KEYS SPAN_SIGILS pos with
    | none => rfl
    | some s =>
      have hmem : s ∈ (logSpans d (unindexedRecords d)).filter fun x => x.traceId == s.traceId :=
        List.mem_filter.mpr ⟨List.mem_filterMap.mpr ⟨pos, List.mem_filter.mpr ⟨hpos, by
          rw [Bool.not_eq_true', decide_eq_false_iff_not]; exact hids⟩, hspan⟩, beq_self_eq_true _⟩
      obtain ⟨found, hfound, -, hperm⟩ := hfinds.byTrace s.traceId
      obtain ⟨found', hfound', -, hperm'⟩ := hall.byTrace s.traceId
      obtain rfl := Outcome.ok.inj (hfound.symm.trans hfound')
      have hlen := ((hperm.symm.trans hperm').trans ((dirSpans_split hlast).filter _)).length_eq
      rw [List.filter_append, List.length_append] at hlen
      have hpos := List.length_pos_of_mem hmem
      omega
  · intro hnone
    refine hfinds.perm ?_
    cases hlast : lastLog entries with
    | none => rw [dirSpans, dirSpans, hlast]; exact List.Perm.refl _
    | some d =>
      have hempty : logSpans d (unindexedRecords d) = [] := List.filterMap_eq_nil_iff.mpr fun pos hpos => by
        obtain ⟨hmem, hids⟩ := List.mem_filter.mp hpos
        rw [Bool.not_eq_true', decide_eq_false_iff_not] at hids
        exact hnone d hlast pos hmem hids
      have hsplit := dirSpans_split hlast
      rw [hempty, List.append_nil] at hsplit
      exact hsplit.symm

/-- Recovery reads the ids of every record of a log that ends with a whole record or a part of one. -/
theorem LogFile.hasIds {d : Bytes} {spans : List Logged} (h : LogFile d spans) (hd : d.length < 2 ^ 63) :
    ∀ pos ∈ logRecords d, HasIds d pos := by
  obtain ⟨w, hw, hindex, hcount, -⟩ := h.recover (SpanWal.opened true)
  obtain ⟨hkeyed, hwalked⟩ := recover_eq_ok hd hw
  have hlen := congrArg List.length (congrArg (List.map Prod.snd) hkeyed)
  rw [map_snd_keyed, List.length_map, List.length_map, hindex, List.length_map, ← hcount, hwalked] at hlen
  have hall := List.length_filter_eq_length_iff.mp hlen.symm
  intro pos hpos
  have hsome := hall pos hpos
  rw [rawTraceId_isSome] at hsome
  exact of_decide_eq_true hsome

/-- Nothing is missed where the log was not appended to behind a torn record. -/
theorem OpenedDir.finds_logFile {r : SegmentReader} {entries : List DirEntry} (h : OpenedDir r entries)
    (hlog : ∀ d, lastLog entries = some d → d.length < 2 ^ 63 ∧ ∃ spans, LogFile d spans) :
    Finds r (dirSpans entries logRecords) := by
  refine (h.finds_all_iff fun d hd => (hlog d hd).1).mpr fun d hd pos hpos hids => ?_
  obtain ⟨hsmall, spans, hfile⟩ := hlog d hd
  exact absurd (hfile.hasIds hsmall pos hpos) hids

/-- Both queries find exactly the spans of the segments' records and of the log's records whose ids recovery has read.
They find those of all the records of the log exactly when no record without ids is decoded to a span. -/
theorem find_spans {entries : List DirEntry} {r : SegmentReader} (h : SegmentReader.openDir entries = .ok r)
    (hlog : ∀ d, lastLog entries = some d → d.length < 2 ^ 63) :
    Finds r (dirSpans entries recoveredRecords) ∧ UnionOfTraces r ∧
      (Finds r (dirSpans entries logRecords) ↔ ∀ d, lastLog entries = some d →
        ∀ pos ∈ logRecords d, ¬ HasIds d pos → spanAt d SPAN_KEYS SPAN_SIGILS pos = none) := by
  have hopened := openDir_eq_ok h
  have hfinds := hopened.finds hlog
  exact ⟨hfinds, hfinds.union, hopened.finds_all_iff hlog⟩

/-- A sealed segment of two spans, and a log with a third one. -/
theorem find_spans_three : ∃ segment report log r, sealAll [tracedSpan 7 none, tracedSpan 8 (some 7)] = .ok (segment, report) ∧
    LiveLog.run [tracedSpan 9 (some 7)] = .ok log ∧
      SegmentReader.openDir [.nxb "a.nxb" segment, .nxsw log.file] = .ok r ∧
        Finds r [(tracedSpan 7 none).toSpan, (tracedSpan 8 (some 7)).toSpan, (tracedSpan 9 (some 7)).toSpan] := by
  have hrun : (do
      let (segment, _) ← sealAll [tracedSpan 7 none, tracedSpan 8 (some 7)]
      let log ← LiveLog.run [tracedSpan 9 (some 7)]
      let _ ← SegmentReader.openDir [.nxb "a.nxb" segment, .nxsw log.file]
      .ok (dirSpans [.nxb "a.nxb" segment, .nxsw log.file] recoveredRecords, log.file.length)) = (.ok
        ([(tracedSpan 7 none).toSpan, (tracedSpan 8 (some 7)).toSpan, (tracedSpan 9 (some 7)).toSpan], 244) : Res _) := by
    decide +kernel
  obtain ⟨⟨segment, report⟩, hsegment, hrun⟩ := bind_eq_ok.mp hrun
  obtain ⟨log, hlog, hrun⟩ := bind_eq_ok.mp hrun
  obtain ⟨r, hr, hrun⟩ := bind_eq_ok.mp hrun
  obtain ⟨hspans, hsize⟩ := Prod.mk.inj (Outcome.ok.inj hrun)
  have hfinds := (find_spans hr fun d hd => by
    cases hd
    omega).1
  rw [hspans] at hfinds
  exact ⟨segment, report, log, r, hsegment, hlog, hr, hfinds⟩

/-- A span whose record has a part cut off. -/
def cutSpan : SpanFields := ⟨1, 2, 3, none, String.ofList (List.replicate 76 'a'), "", 4, 5, 0, none⟩

/-- A span whose payload is a record with a mask of 18 bytes, behind four other bytes. -/
def carrierSpan : SpanFields := ⟨1, 2, 4, none, "", "", 4, 5, 0, some (zeros 4 ++ leBytes 4 MAGIC_OBJ ++ leBytes 4 56 ++
  ([0x87] ++ List.replicate 16 0x80 ++ [0]) ++ (leBytes 2 32 ++ leBytes 2 40 ++ leBytes 2 48) ++
    (leBytes 8 0 ++ leBytes 8 9 ++ leBytes 8 7))⟩

/-- Behind a torn record, recovery comes upon a record whose ids it does not read and which is decoded to a span. -/
theorem find_spans_misses : ¬ ∀ (σ : LogRun) (d : Bytes) (r : SegmentReader),
    Reached LogRun.step (fun _ _ => True) LogRun.init σ → σ.log = some d → SegmentReader.openDir [.nxsw d] = .ok r →
      Finds r (dirSpans [.nxsw d] logRecords) := by
  intro hall
  obtain ⟨σ, hσ, hlog⟩ := Option.bind_eq_some_iff.mp (show
    ((runGuarded LogRun.step (fun _ _ => True) LogRun.init [.opens, .append cutSpan, .crash (walHeader.length + 64), .opens,
      .append carrierSpan]).bind fun σ => σ.log.map fun d => (do
        let r ← SegmentReader.openDir [.nxsw d]
        let found ← r.findByTrace 9
        .ok (found.length, ((dirSpans [.nxsw d] logRecords).filter fun s => s.traceId == 9).length) : Res (ℕ × ℕ))) =
      some (.ok (0, 1)) by decide +kernel)
  obtain ⟨d, hd, hlog⟩ := Option.map_eq_some_iff.mp hlog
  obtain ⟨r, hr, hlog⟩ := bind_eq_ok.mp hlog
  obtain ⟨found, hfound, hlog⟩ := bind_eq_ok.mp hlog
  obtain ⟨hzero, hone⟩ := Prod.mk.inj (Outcome.ok.inj hlog)
  obtain ⟨found', hfound', -, hperm⟩ := (hall σ d r (reached_of_runGuarded .init hσ) hd hr).byTrace 9
  obtain rfl := Outcome.ok.inj (hfound.symm.trans hfound')
  have hlen := hperm.length_eq
  omega

end Nyxis

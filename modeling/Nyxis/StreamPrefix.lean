import Nyxis.RecordFrames
import Nyxis.RowFile
import Nyxis.StreamReader

/-!
# StreamPrefix — a row file as far as it is written

A stream reader sees a prefix of a row file that may end anywhere behind the schema.  Record by record it
finds what is whole; what follows the records does not start like one.

* `completeNyxoEnd_eq`: when an object is whole.
* `polls_records`: polling yields the records that are whole.
* `stream_prefixes`: the prefixes of a row file.
-/

namespace Nyxis

open Lib Lib.Outcome
open NxsWriter (prefixed)

/-! ## Whole objects -/

theorem completeNyxoEnd_eq {d : Bytes} {off : ℕ} (hd : d.length < 2 ^ 63) (hoff : off ≤ d.length) :
    completeNyxoEnd d off =
      if off + 8 ≤ d.length ∧ word d off 4 = MAGIC_OBJ ∧ 8 ≤ word d (off + 4) 4 ∧ off + word d (off + 4) 4 ≤ d.length then
        .ok (off + word d (off + 4) 4)
      else none' := by
  have hword := word_lt d (off + 4) 4
  rw [completeNyxoEnd, usizeAdd_of (by omega), ok_bind]
  by_cases hroom : off + 8 ≤ d.length
  · rw [ensure_of (by omega), ok_bind, getLE_word (by omega) hd, ok_bind]
    by_cases hmagic : word d off 4 = MAGIC_OBJ
    · rw [ensure_of hmagic, ok_bind, usizeAdd_of (by omega), ok_bind, getLE_word (by omega) hd, ok_bind]
      by_cases hlen : 8 ≤ word d (off + 4) 4
      · rw [ensure_of (by omega), ok_bind, checkedAdd_of (by omega), ok_bind]
        by_cases hend : off + word d (off + 4) 4 ≤ d.length
        · rw [ensure_of hend, ok_bind, if_pos ⟨hroom, hmagic, hlen, hend⟩]
        · rw [ensure_not hend, err_bind, if_neg fun h => hend h.2.2.2]
      · rw [ensure_not (by omega), err_bind, if_neg fun h => hlen h.2.2.1]
    · rw [ensure_not hmagic, err_bind, if_neg fun h => hmagic h.2.1]
  · rw [ensure_not (by omega), err_bind, if_neg fun h => hroom h.1]

section Prefix

variable {full : Bytes} {m pos : ℕ} (hfull : full.length < 2 ^ 63) (hm : m ≤ full.length) (hpos : pos ≤ m)

include hfull hm hpos

/-- A record that starts in a prefix is found when it ends there too. -/
theorem completeNyxoEnd_record {record : Bytes} (hat : At full pos record) (hframe : IsFrame record)
    (hshort : record.length < 2 ^ 32) :
    completeNyxoEnd (full.take m) pos = if pos + record.length ≤ m then .ok (pos + record.length) else none' := by
  have hlen : (full.take m).length = m := List.length_take_of_le hm
  have h8 := hframe.length
  obtain ⟨rest, hrest⟩ := hframe
  rw [hrest, at_append, at_append, leBytes_length] at hat
  obtain ⟨⟨hmagic, hcount⟩, -⟩ := hat
  rw [completeNyxoEnd_eq (by omega) (by omega), hlen]
  by_cases hroom : pos + 8 ≤ m
  · rw [word_take (by omega), word_take (by omega), word_leBytes hmagic (by decide), word_leBytes hcount (by omega)]
    by_cases hend : pos + record.length ≤ m
    · rw [if_pos ⟨hroom, rfl, h8, hend⟩, if_pos hend]
    · rw [if_neg fun h => hend h.2.2.2, if_neg hend]
  · rw [if_neg fun h => hroom h.1, if_neg (by omega)]

/-- What does not start with the magic number of an object is none. -/
theorem completeNyxoEnd_behind (hmagic : word full pos 4 ≠ MAGIC_OBJ) : completeNyxoEnd (full.take m) pos = none' := by
  have hlen : (full.take m).length = m := List.length_take_of_le hm
  rw [completeNyxoEnd_eq (by omega) (by omega), hlen]
  refine if_neg fun h => hmagic ?_
  rw [← h.2.1, word_take (by omega)]

end Prefix

/-! ## Polling -/

/-- The offsets of the records that end within the first `m` bytes. -/
def wholeRecords (m : ℕ) (offsets : List ℕ) (records : List Bytes) : List ℕ :=
  ((offsets.zip records).filter fun e => e.1 + e.2.length ≤ m).map Prod.fst

theorem wholeRecords_cons (m off : ℕ) (offsets : List ℕ) (record : Bytes) (records : List Bytes) :
    wholeRecords m (off :: offsets) (record :: records) =
      if off + record.length ≤ m then off :: wholeRecords m offsets records else wholeRecords m offsets records := by
  rw [wholeRecords, List.zip_cons_cons, List.filter_cons]
  dsimp only
  by_cases h : off + record.length ≤ m
  · rw [if_pos h, if_pos (decide_eq_true h), List.map_cons]
    rfl
  · rw [if_neg h, if_neg (by simpa using h)]
    rfl

theorem mem_wholeRecords {m off : ℕ} {offsets : List ℕ} {records : List Bytes} :
    off ∈ wholeRecords m offsets records ↔ ∃ record, (off, record) ∈ offsets.zip records ∧ off + record.length ≤ m := by
  rw [wholeRecords, List.mem_map]
  constructor
  · rintro ⟨⟨o, record⟩, he, rfl⟩
    obtain ⟨hmem, hle⟩ := List.mem_filter.mp he
    exact ⟨record, hmem, of_decide_eq_true hle⟩
  · rintro ⟨record, hmem, hle⟩
    exact ⟨(off, record), List.mem_filter.mpr ⟨hmem, decide_eq_true hle⟩, rfl⟩

/-- No record behind a cut is whole. -/
theorem wholeRecords_behind {m pos : ℕ} {records : List Bytes} (hpos : m < pos) :
    wholeRecords m (startsFrom pos (records.map List.length)) records = [] := by
  rw [List.eq_nil_iff_forall_not_mem]
  intro off hoff
  obtain ⟨record, hmem, hle⟩ := mem_wholeRecords.mp hoff
  have := (startsFrom_bounds off (List.of_mem_zip hmem).1).1
  omega

theorem polls_records {full : Bytes} {m : ℕ} (hfull : full.length < 2 ^ 63) (hm : m ≤ full.length) :
    ∀ {records : List Bytes} {s : StreamReader}, s.data = full.take m → s.cursor ≤ m →
      At full s.cursor records.flatten → (∀ record ∈ records, IsFrame record ∧ record.length < 2 ^ 32) →
      word full (s.cursor + records.flatten.length) 4 ≠ MAGIC_OBJ →
        Polls s (wholeRecords m (startsFrom s.cursor (records.map List.length)) records)
  | [], s, hdata, hcur, _, _, hbehind => by
    refine Polls.stop ?_
    rw [StreamReader.pollNextOffset, hdata, completeNyxoEnd_behind hfull hm hcur hbehind, err_bind]
  | record :: records, s, hdata, hcur, hat, hframes, hbehind => by
    obtain ⟨hframe, hshort⟩ := hframes record List.mem_cons_self
    rw [List.flatten_cons, at_append] at hat
    rw [List.flatten_cons, List.length_append, ← Nat.add_assoc] at hbehind
    have hpoll := completeNyxoEnd_record hfull hm hcur hat.1 hframe hshort
    rw [List.map_cons, startsFrom, wholeRecords_cons]
    by_cases hend : s.cursor + record.length ≤ m
    · -- the record is there as a whole
      rw [if_pos hend] at hpoll ⊢
      have hnext : s.pollNextOffset = .ok (s.cursor, { s with cursor := s.cursor + record.length }) := by
        rw [StreamReader.pollNextOffset, hdata, hpoll, ok_bind]
      refine Polls.next hnext ?_
      exact polls_records hfull hm hdata hend hat.2 (fun r hr => hframes r (List.mem_cons_of_mem record hr)) hbehind
    · -- it is cut, and so is everything behind it
      rw [if_neg hend] at hpoll ⊢
      rw [wholeRecords_behind (by omega)]
      refine Polls.stop ?_
      rw [StreamReader.pollNextOffset, hdata, hpoll, err_bind]

/-! ## Opening -/

theorem footerSeals_ok {d : Bytes} (hd : d.length < 2 ^ 63) : ∃ b, StreamReader.footerSeals d = .ok b := by
  rw [StreamReader.footerSeals]
  by_cases hroom : d.length < 16
  · exact ⟨false, if_pos hroom⟩
  · rw [if_neg hroom, usizeSub_of (by omega), ok_bind, readLE_word (by omega) hd, ok_bind]
    by_cases hmagic : word d (d.length - 4) 4 = MAGIC_FOOTER
    · rw [if_neg (not_not.mpr hmagic), usizeSub_of (by omega), ok_bind, readLE_word (by omega) hd, ok_bind]
      exact ⟨_, rfl⟩
    · exact ⟨false, if_pos hmagic⟩

/-- A file whose tail pointer is not set is opened once its schema is there. -/
theorem stream_opens {file : Slice} {version flags start : ℕ} {hash : UInt64} {keys : List String} {sigils : List UInt8}
    {ext : Option ExtendedSchema} {plan : Option RowCellPlan} (hpre : At file.bytes 0 (preamble version flags hash 0))
    (hflags : flags < 65536)
    (hopen : StreamReader.openSchema file.bytes flags = .ok (keys, sigils, ext, plan, start)) :
    ∃ isSealed, StreamReader.new file = .ok ⟨file.bytes, flags, keys, sigils, ext, plan, start, start, isSealed⟩ := by
  have hsmall := file.small
  have hroom := hpre.le
  rw [preamble_length] at hroom
  obtain ⟨hmagic, hflag, htail⟩ := at_preamble hpre
  obtain ⟨isSealed, hsealed⟩ := footerSeals_ok hsmall
  refine ⟨isSealed, ?_⟩
  rw [StreamReader.new]
  dsimp only
  rw [ensure_of (by omega), ok_bind, readLE_leBytes hmagic (by decide) hsmall, ok_bind, ensure_of rfl, ok_bind,
    readLE_leBytes hflag hflags hsmall, ok_bind, readLE_leBytes htail (by decide) hsmall, ok_bind, ensure_of rfl, ok_bind,
    hopen, ok_bind]
  dsimp only
  rw [hsealed, ok_bind]

/-- What a stream reader makes of the header of a row writer, wherever the file ends behind it. -/
def OpensSchema (schema : Bytes) (flags : ℕ) (keys : List String) (sigils : List UInt8) (ext : Option ExtendedSchema)
    (plan : Option RowCellPlan) : Prop :=
  ∀ d : Bytes, d.length < 2 ^ 63 → At d 32 schema →
    StreamReader.openSchema d flags = .ok (keys, sigils, ext, plan, 32 + schema.length)

theorem opensSchema_basic {keys : List String} {sigils : List UInt8} (hlen : keys.length < 65536)
    (hnul : ∀ k ∈ keys, NulFree k) : OpensSchema (buildSchema keys sigils) FLAG_SCHEMA_EMBEDDED keys
      (schemaSigils keys.length sigils) none none := by
  intro d hd hat
  rw [StreamReader.openSchema, if_pos (by decide), if_neg (by decide), parseSchema_buildSchema hd hat (by decide) hlen hnul,
    ok_bind]

theorem opensSchema_compact {sch : ExtendedSchema} {opts : CompactOptions}
    (hwire : hasFlag opts.preambleFlags FLAG_V13_COMPACT_MASK = true) (hlen : sch.keys.length ≤ 256)
    (hsigils : sch.sigils.length = sch.keys.length) (hnul : ∀ k ∈ sch.keys, NulFree k) (hpool : PoolFits sch.valuePool) :
    ∃ ext, OpensSchema (buildExtendedSchema sch opts.preambleFlags) (FLAG_SCHEMA_EMBEDDED ||| opts.preambleFlags)
      sch.keys sch.sigils (some ext) (some (RowCellPlan.new ext (FLAG_SCHEMA_EMBEDDED ||| opts.preambleFlags))) := by
  have hv13 := hasFlag_embedded FLAG_V13_COMPACT_MASK opts.preambleFlags (by decide)
  refine ⟨⟨sch.keys, sch.sigils, blockBytes sch.keys.length sch.widths (hasFlag opts.preambleFlags FLAG_NARROW_CELLS),
    blockBytes sch.keys.length sch.fieldAttrs (hasFlag opts.preambleFlags FLAG_V13_COMPACT_MASK), sch.valuePool⟩, ?_⟩
  intro d hd hat
  have hle := hat.le
  have hparse := parse_buildExtendedSchema hd hat (by decide)
    (hasFlag_embedded FLAG_NARROW_CELLS opts.preambleFlags (by decide)) hv13 hlen hsigils hnul hpool.count hpool.nulFree
  rw [StreamReader.openSchema, if_pos (hasFlag_or_self _ _ (by decide)), if_pos (hv13.trans hwire), hparse, ok_bind]
  dsimp only
  rw [ensure_of (by omega), ok_bind]

/-! ## Reading -/

/-- A cell whose eight bytes are a number. -/
def Cell.IsNumber : Cell → Prop
  | .i64 _ | .f64 _ | .time _ => True
  | _ => False

instance (c : Cell) : Decidable c.IsNumber :=
  match c with
  | .i64 _ | .f64 _ | .time _ => isTrue trivial
  | .absent | .null | .bool _ | .str _ | .binary _ => isFalse id

/-- The getters of two stream readers return the same for the object of a row at `off`; `get_str_at` does for
a cell that is no number. -/
structure SameReads (s s' : StreamReader) (row : RecordRow) (off : ℕ) : Prop where
  i64 : ∀ key, s.getI64At off key = s'.getI64At off key
  f64 : ∀ key, s.getF64At off key = s'.getF64At off key
  bool : ∀ key, s.getBoolAt off key = s'.getBoolAt off key
  str : ∀ key, (∀ slot, s.slot key = .ok slot → ¬ (row.cell slot).IsNumber) → s.getStrAt off key = s'.getStrAt off key

theorem rowBytes_length {c : Cell} {b : Bytes} (h : c.rowBytes = some b) : 8 ≤ b.length := by
  cases c with
  | absent | binary _ => cases h
  | null =>
    cases h
    exact Nat.le_refl 8
  | i64 v | time v =>
    cases h
    rw [i64Bytes_length]
  | f64 v =>
    cases h
    rw [f64Bytes_length]
  | bool v =>
    cases h
    exact Nat.le_refl 8
  | str v =>
    cases h
    have hdvd := padTo_dvd (show 0 < 8 by decide) (leBytes 4 (utf8 v).length ++ utf8 v)
    have hpos : 4 ≤ (prefixed (utf8 v)).length := by
      rw [prefixed, padTo_length, List.length_append, leBytes_length]
      omega
    rw [prefixed] at hpos ⊢
    omega

/-- Read as text, a cell that is no number ends within its bytes. -/
theorem text_inside {c : Cell} {b : Bytes} (h : c.rowBytes = some b) (hnum : ¬ c.IsNumber) :
    4 + leNat (b.take 4) ≤ b.length := by
  cases c with
  | absent | binary _ => cases h
  | null =>
    cases h
    decide
  | i64 v | time v | f64 v => exact absurd trivial hnum
  | bool v =>
    cases h
    cases v <;> decide
  | str v =>
    cases h
    have htake : (prefixed (utf8 v)).take 4 = leBytes 4 (utf8 v).length := by
      rw [prefixed, padTo, List.append_assoc, List.take_left' (leBytes_length _ _)]
    have hmod := Nat.mod_le (utf8 v).length (256 ^ 4)
    rw [htake, leNat_leBytes_mod, prefixed, padTo_length, List.length_append, leBytes_length]
    omega

/-- The values of a short object start within the range of the offset table. -/
theorem offsetsFit_of_short {n : ℕ} {row : RecordRow} (h : objectLen n (rowValues row) ≤ 65535) : OffsetsFit n row := by
  intro j hj
  have hle := valueOffset_le (n := n) (List.getElem?_eq_getElem hj)
  omega

section Alike

variable {s s' : StreamReader} {p : ℕ} {b : Bytes} (hat : At s.data p b) (hat' : At s'.data p b)
  (hd : s.data.length < 2 ^ 63) (hd' : s'.data.length < 2 ^ 63)

include hat hat' hd hd'

theorem getLE_alike {w : ℕ} (hw : w ≤ b.length) :
    getLE s.data p w = .ok (leNat (b.take w)) ∧ getLE s'.data p w = .ok (leNat (b.take w)) := by
  have hlen : (b.take w).length = w := List.length_take_of_le hw
  exact ⟨getLE_at (hat.take w) hlen hd, getLE_at (hat'.take w) hlen hd'⟩

omit hd' in
theorem textAt_alike {pre len : ℕ} (hroom : pre + len ≤ b.length) : s.textAt p pre len = s'.textAt p pre len := by
  have hlen : ((b.drop pre).take len).length = len := by
    rw [List.length_take, List.length_drop]
    omega
  have htext := getRange_at ((hat.drop (by omega : pre ≤ b.length)).take len)
  have htext' := getRange_at ((hat'.drop (by omega : pre ≤ b.length)).take len)
  have hle := hat.le
  have hle' := hat'.le
  rw [hlen] at htext htext'
  rw [StreamReader.textAt, StreamReader.textAt, usizeAdd_of (by omega), ok_bind, ok_bind, usizeAdd_of (by omega), ok_bind,
    ok_bind, htext, htext']

end Alike

/-- Two readers of v1.2 data read an object alike that stands in both at the same place. -/
theorem sameReads_of {s s' : StreamReader} {keys : List String} {row : RecordRow} {off : ℕ} (hkeys : s.keys = s'.keys)
    (hext : s.extSchema = none) (hext' : s'.extSchema = none) (hd : s.data.length < 2 ^ 63) (hd' : s'.data.length < 2 ^ 63)
    (hat : At s.data off (objectBytes keys.length (rowValues row)))
    (hat' : At s'.data off (objectBytes keys.length (rowValues row))) (hrow : RowFits keys row)
    (hoffs : OffsetsFit keys.length row) : SameReads s s' row off := by
  have hslot : ∀ key, s'.slot key = s.slot key := by
    intro key
    rw [StreamReader.slot, StreamReader.slot, hkeys]
  -- where a cell stands in both
  have hres : ∀ slot, (s.resolveFieldAt off slot = none' ∧ s'.resolveFieldAt off slot = none') ∨
      ∃ p b, s.resolveFieldAt off slot = .ok p ∧ s'.resolveFieldAt off slot = .ok p ∧ At s.data p b ∧ At s'.data p b ∧
        (row.cell slot).rowBytes = some b := by
    intro slot
    rw [StreamReader.resolveFieldAt, StreamReader.resolveFieldAt, hext, hext']
    dsimp only
    cases hb : (row.cell slot).rowBytes with
    | none =>
      have habs := objectSlots_row_absent hb
      exact Or.inl ⟨resolveSlot_object_absent hat (rowValues_length hrow) hd habs,
        resolveSlot_object_absent hat' (rowValues_length hrow) hd' habs⟩
    | some b =>
      obtain ⟨p, -, hplace⟩ := resolveSlot_row hrow hoffs hb
      obtain ⟨hp, hval⟩ := hplace hat hd
      obtain ⟨hp', hval'⟩ := hplace hat' hd'
      exact Or.inr ⟨off + p, b, hp, hp', hval, hval', rfl⟩
  have hfield : ∀ {α : Type} (key : String) (f f' : ℕ → Opt α),
      (∀ slot p b, s.slot key = .ok slot → At s.data p b → At s'.data p b → (row.cell slot).rowBytes = some b → f p = f' p) →
        (s.slot key >>= fun slot => s.resolveFieldAt off slot >>= f) =
          (s'.slot key >>= fun slot => s'.resolveFieldAt off slot >>= f') := by
    intro α key f f' hf
    rw [hslot]
    cases hk : s.slot key with
    | panic => rfl
    | err e => rfl
    | ok slot =>
      rw [ok_bind, ok_bind]
      rcases hres slot with ⟨h, h'⟩ | ⟨p, b, h, h', hval, hval', hb⟩
      · rw [h, h', err_bind, err_bind]
      · rw [h, h', ok_bind, ok_bind]
        exact hf slot p b hk hval hval' hb
  refine ⟨fun key => ?_, fun key => ?_, fun key => ?_, fun key hnum => ?_⟩
  · rw [StreamReader.getI64At, StreamReader.getI64At, hext, hext']
    refine hfield key _ _ fun slot p b _ hval hval' hb => ?_
    obtain ⟨hget, hget'⟩ := getLE_alike hval hval' hd hd' (rowBytes_length hb)
    dsimp only
    rw [hget, hget']
  · rw [StreamReader.getF64At, StreamReader.getF64At, hext, hext']
    refine hfield key _ _ fun slot p b _ hval hval' hb => ?_
    obtain ⟨hget, hget'⟩ := getLE_alike hval hval' hd hd' (rowBytes_length hb)
    dsimp only
    rw [hget, hget']
  · rw [StreamReader.getBoolAt, StreamReader.getBoolAt, hext, hext']
    refine hfield key _ _ fun slot p b _ hval hval' hb => ?_
    have hpos := rowBytes_length hb
    cases b with
    | nil => exact absurd hpos (by decide)
    | cons x b => rw [get_at hval, get_at hval']
  · rw [StreamReader.getStrAt, StreamReader.getStrAt, hext, hext']
    refine hfield key _ _ fun slot p b hk hval hval' hb => ?_
    have hlong := rowBytes_length hb
    obtain ⟨hget, hget'⟩ := getLE_alike hval hval' hd hd' (show 4 ≤ b.length by omega)
    dsimp only
    rw [hget, hget']
    exact textAt_alike hval hval' hd (text_inside hb (hnum slot hk))

/-! ## Row files -/

/-- The records of a v1.2 table are the objects of its rows. -/
theorem WroteRows.packed {keys : List String} {w : NxsWriter} {rows : List RecordRow} (h : WroteRows keys w rows)
    (hrows : ∀ row ∈ rows, RowFits keys row) :
    Packed w (rows.map fun row => objectBytes keys.length (rowValues row)) := by
  have hlens : (rows.map fun row => objectBytes keys.length (rowValues row)).map List.length =
      rows.map fun row => objectLen keys.length (rowValues row) := by
    rw [List.map_map]
    exact List.map_congr_left fun row hrow => objectBytes_length (rowValues_length (hrows row hrow))
  refine ⟨h.writer.plain, h.writer.frames, ?_, ?_, ?_⟩
  · rw [h.buf, rowsBytes, List.flatMap_def]
  · intro record hrecord
    obtain ⟨row, hrow, rfl⟩ := List.mem_map.mp hrecord
    have hlen := objectBytes_length (rowValues_length (hrows row hrow))
    rw [IsFrame, hlen, objectBytes]
    simp only [List.append_assoc]
    exact ⟨_, rfl⟩
  · rw [h.recordOffsets, rowStarts, hlens]

/-- A row that is written has no binary cell. -/
theorem writeRow_notBinary {w w' : NxsWriter} {row : RecordRow} (h : writeRow w row = .ok w') :
    ∀ c ∈ row.cells, ∀ b, c ≠ .binary b := by
  rintro c hc b rfl
  obtain ⟨fi, hfi⟩ := List.getElem?_of_mem hc
  obtain ⟨w₁, hcells, -⟩ := bind_eq_ok.mp h
  obtain ⟨w₂, w₃, hstep⟩ := foldlM_eq_ok_mem hcells (List.mk_mem_zipIdx_iff_getElem?.mpr hfi)
  cases hstep

/-- The schema of a row writer is opened wherever the file ends behind it. -/
theorem opensSchema_row {keys : List String} {rows : List RecordRow} {compact : Option CompactOptions} {w : NxsWriter}
    (hnul : ∀ k ∈ keys, NulFree k) (hlen : keys.length < 65536)
    (hcompact : ∀ opts, compact = some opts → keys.length ≤ 256 ∧ CompactFits keys rows opts)
    (hw : rows.foldlM writeRow (NxsWriter.withCompact keys compact) = .ok w) :
    ∃ sigils ext plan, OpensSchema w.schemaBytes w.fileFlags keys sigils ext plan ∧ (compact = none → ext = none) := by
  have hsame := SameSlots.foldlM (fun _ _ _ h => SameSlots.writeRow h) hw
  have hkeys : w.keys = keys := hsame.keys
  have hopts : w.compact = compact := hsame.compact
  have hslots : w.slotSigils.length = w.keys.length := by
    rw [hsame.count, hkeys]
    exact List.length_replicate
  rw [NxsWriter.schemaBytes, NxsWriter.fileFlags, hopts]
  cases compact with
  | none =>
    dsimp only
    rw [hkeys]
    exact ⟨_, none, none, opensSchema_basic hlen hnul, fun _ => rfl⟩
  | some opts =>
    obtain ⟨hmany, hfits⟩ := hcompact opts rfl
    rw [← hkeys] at hmany hnul
    have hsigils : (w.buildExtendedSchema opts).sigils.length = w.keys.length := by
      show (w.slotSigils.map schemaSigil).length = w.keys.length
      rw [List.length_map, hslots]
    obtain ⟨ext, hext⟩ := opensSchema_compact hfits.wire hmany hsigils hnul (hfits.pool w hw)
    have hext' : OpensSchema (buildExtendedSchema (w.buildExtendedSchema opts) opts.preambleFlags)
      (FLAG_SCHEMA_EMBEDDED ||| opts.preambleFlags) w.keys _ _ _ := hext
    dsimp only
    rw [hkeys] at hext'
    exact ⟨_, _, _, hext', fun h => absurd h (Option.some_ne_none opts)⟩

/-- What stands behind the records of a row file does not start like one. -/
theorem RecordFile.behind {d schema : Bytes} {flags : ℕ} {records : List Bytes} {offsets : List ℕ}
    (h : RecordFile d schema flags records offsets) (hcount : records.length < 2 ^ 30) :
    word d (32 + schema.length + records.flatten.length) 4 ≠ MAGIC_OBJ := by
  obtain ⟨version, pad, tail, -, hframed⟩ := h.framed
  have hat := hframed.body_at
  rw [List.append_assoc, at_append] at hat
  obtain ⟨-, hat⟩ := hat
  cases pad with
  | zero =>
    -- the number of records
    rw [zeros_zero, List.nil_append, at_append] at hat
    rw [word_leBytes hat.1 (by omega)]
    unfold MAGIC_OBJ
    omega
  | succ pad =>
    -- padding: the first byte is zero
    obtain ⟨rest, hrest⟩ := hat.drop_eq
    rw [word, hrest, zeros, List.replicate_succ, List.cons_append, List.cons_append, List.take_succ_cons, leNat]
    unfold MAGIC_OBJ
    simp only [UInt8.toNat_zero]
    omega

/-- What a stream reader finds in the first `m` bytes of a row file, where `full` is that of the whole file. -/
structure PrefixStable (keys : List String) (rows : List RecordRow) (compact : Option CompactOptions)
    (records : List Bytes) (offsets : List ℕ) (full : StreamReader) (m : ℕ) (s : StreamReader) : Prop where
  polls : Polls s (wholeRecords m offsets records)
  reads : compact = none → (∀ row ∈ rows, row.cells.length ≤ keys.length) → (∀ record ∈ records, record.length ≤ 65535) →
    ∀ (i : ℕ) (row : RecordRow) (off : ℕ) (record : Bytes), rows[i]? = some row → offsets[i]? = some off →
      records[i]? = some record → off + record.length ≤ m → SameReads s full row off

section Prefixes

variable {file : Slice} {schema : Bytes} {flags : ℕ} {records : List Bytes} {offsets : List ℕ}
  (hfile : RecordFile file.bytes schema flags records offsets)

include hfile

/-- A prefix is opened, and polled for its records. -/
theorem RecordFile.prefix_opens {keys : List String} {sigils : List UInt8} {ext : Option ExtendedSchema}
    {plan : Option RowCellPlan} (hopen : OpensSchema schema flags keys sigils ext plan) (hcount : records.length < 2 ^ 30)
    (hsector : records.flatten.length < 2 ^ 32) {m : ℕ} (hschema : 32 + schema.length ≤ m) (hm : m ≤ file.bytes.length) :
    ∃ s, StreamReader.new (file.take m) = .ok s ∧ s.data = file.bytes.take m ∧ s.keys = keys ∧ s.extSchema = ext ∧
      Polls s (wholeRecords m offsets records) := by
  have hsmall := file.small
  obtain ⟨version, pad, tail, -, hframed⟩ := hfile.framed
  have hpre : At file.bytes 0 (preamble version flags (murmur3_64 schema) 0) := by
    rw [hframed.bytes]
    exact ((at_self _).append_right _).append_right _
  have hpre' := hpre.of_prefix (m := m) (by rw [preamble_length]; omega)
  have hschema' := hframed.schema_at.of_prefix hschema
  obtain ⟨isSealed, hnew⟩ := stream_opens hpre' hframed.flags_lt (hopen _ (file.take m).small hschema')
  refine ⟨_, hnew, rfl, rfl, rfl, ?_⟩
  have hat := hframed.body_at
  rw [List.append_assoc, at_append] at hat
  have hshort : ∀ record ∈ records, IsFrame record ∧ record.length < 2 ^ 32 := by
    intro record hrecord
    have hle := (List.sublist_flatten_of_mem hrecord).length_le
    exact ⟨hfile.frames record hrecord, by omega⟩
  rw [hfile.offsets_eq hsector]
  exact polls_records hsmall hm rfl hschema hat.1 hshort (hfile.behind hcount)

/-- The whole file is a prefix of itself. -/
theorem RecordFile.whole_opens {keys : List String} {sigils : List UInt8} {ext : Option ExtendedSchema}
    {plan : Option RowCellPlan} (hopen : OpensSchema schema flags keys sigils ext plan) (hcount : records.length < 2 ^ 30)
    (hsector : records.flatten.length < 2 ^ 32) :
    ∃ full, StreamReader.new file = .ok full ∧ full.data = file.bytes ∧ full.keys = keys ∧ full.extSchema = ext := by
  obtain ⟨version, pad, tail, -, hframed⟩ := hfile.framed
  have hlen := hframed.length
  have htake : file.take file.bytes.length = file := by
    rw [Slice.take]
    simp only [List.take_length]
  obtain ⟨full, hfull, hdata, hkeys, hext, -⟩ := hfile.prefix_opens hopen hcount hsector (by omega) (Nat.le_refl _)
  rw [htake] at hfull
  rw [List.take_length] at hdata
  exact ⟨full, hfull, hdata, hkeys, hext⟩

/-- Where a record stands. -/
theorem RecordFile.record_at (hsector : records.flatten.length < 2 ^ 32) {i off : ℕ} {record : Bytes}
    (hoff : offsets[i]? = some off) (hrecord : records[i]? = some record) : At file.bytes off record := by
  obtain ⟨version, pad, tail, -, hframed⟩ := hfile.framed
  have hat := hframed.body_at
  rw [List.append_assoc, at_append] at hat
  have hi := (List.getElem?_eq_some_iff.mp hrecord).1
  rw [hfile.offsets_eq hsector, startsFrom_getElem? _ (by rwa [List.length_map]), ← List.map_take] at hoff
  have hpiece : At records.flatten ((records.take i).flatMap id).length record := by
    rw [← List.flatMap_id (L := records)]
    exact at_flatMap hrecord
  rw [List.flatMap_id, List.length_flatten] at hpiece
  cases hoff
  exact hat.1.trans hpiece

end Prefixes

/-- The prefixes of a row file that hold its preamble and its schema: polling finds the records that are whole, and no
others, and the getters read in a v1.2 record what they read in the whole file. -/
theorem stream_prefixes (keys : List String) (rows : List RecordRow) (compact : Option CompactOptions) (file : Slice)
    (hnul : ∀ k ∈ keys, NulFree k) (hlen : keys.length < 65536)
    (hcompact : ∀ opts, compact = some opts → keys.length ≤ 256 ∧ CompactFits keys rows opts)
    (hcount : rows.length < 2 ^ 30) (h : finishRow keys rows compact = .ok file) :
    ∃ w records offsets, rows.foldlM writeRow (NxsWriter.withCompact keys compact) = .ok w ∧
      records.length = rows.length ∧ RecordFile file.bytes w.schemaBytes w.fileFlags records offsets ∧
      (records.flatten.length < 2 ^ 32 → ∃ full, StreamReader.new file = .ok full ∧
        ∀ m, 32 + w.schemaBytes.length ≤ m → m ≤ file.bytes.length → ∃ s, StreamReader.new (file.take m) = .ok s ∧
          PrefixStable keys rows compact records offsets full m s) := by
  by_cases hfit : compact = none ∧ ∀ row ∈ rows, row.cells.length ≤ keys.length
  · -- a v1.2 file: its records are the objects of the rows
    obtain ⟨rfl, hwidth⟩ := hfit
    obtain ⟨w, hw, hfinish⟩ := finishRow_eq_ok.mp h
    have hrows : ∀ row ∈ rows, RowFits keys row := by
      intro row hrow
      obtain ⟨w₁, w₂, hstep⟩ := foldlM_eq_ok_mem hw hrow
      exact ⟨hwidth row hrow, writeRow_notBinary hstep⟩
    obtain ⟨w', hw', hwrote⟩ := writeRows_ok hlen (WroteRows.new keys) (fun _ hrow => absurd hrow List.not_mem_nil) hrows
    obtain rfl : w = w' := Outcome.ok.inj (hw.symm.trans hw')
    rw [List.nil_append] at hwrote
    obtain ⟨offsets, hfile⟩ := finish_records (hwrote.packed hrows) hfinish
    obtain ⟨sigils, ext, plan, hopen, hext⟩ := opensSchema_row hnul hlen hcompact hw
    obtain rfl := hext rfl
    refine ⟨w, _, offsets, hw, List.length_map _, hfile, fun hsector => ?_⟩
    rw [← List.length_map (f := fun row => objectBytes keys.length (rowValues row))] at hcount
    obtain ⟨full, hfull, hdata, hkeys, hnone⟩ := hfile.whole_opens hopen hcount hsector
    refine ⟨full, hfull, fun m hschema hm => ?_⟩
    obtain ⟨s, hs, hdata', hkeys', hnone', hpolls⟩ := hfile.prefix_opens hopen hcount hsector hschema hm
    refine ⟨s, hs, hpolls, fun _ _ hshort i row off record hrow hoff hrecord hle => ?_⟩
    have hfits := hrows row (List.mem_of_getElem? hrow)
    obtain rfl : objectBytes keys.length (rowValues row) = record := by
      rw [List.getElem?_map, hrow] at hrecord
      exact Option.some.inj hrecord
    have hlong := hshort _ (List.mem_of_getElem? hrecord)
    rw [objectBytes_length (rowValues_length hfits)] at hlong
    have hat := hfile.record_at hsector hoff hrecord
    refine sameReads_of (hkeys'.trans hkeys.symm) hnone' hnone ?_ ?_ ?_ ?_ hfits (offsetsFit_of_short hlong)
    · rw [hdata']
      exact (file.take m).small
    · rw [hdata]
      exact file.small
    · rw [hdata']
      exact hat.of_prefix hle
    · rw [hdata]
      exact hat
  · obtain ⟨w, records, offsets, hw, hrecords, hfile⟩ := finishRow_records h
    obtain ⟨sigils, ext, plan, hopen, -⟩ := opensSchema_row hnul hlen hcompact hw
    refine ⟨w, records, offsets, hw, hrecords, hfile, fun hsector => ?_⟩
    rw [← hrecords] at hcount
    obtain ⟨full, hfull, -⟩ := hfile.whole_opens hopen hcount hsector
    refine ⟨full, hfull, fun m hschema hm => ?_⟩
    obtain ⟨s, hs, -, -, -, hpolls⟩ := hfile.prefix_opens hopen hcount hsector hschema hm
    exact ⟨s, hs, hpolls, fun hplain hwidth => absurd ⟨hplain, hwidth⟩ hfit⟩

/-- Two rows in a compact file. -/
theorem stream_prefixes_two_rows : ∃ file,
    finishRow ["a", "s"] [⟨[.i64 7, .str "x"]⟩, ⟨[.absent, .str "y"]⟩] (some CompactOptions.compact) = .ok file ∧
    ∃ w records offsets, [⟨[.i64 7, .str "x"]⟩, ⟨[.absent, .str "y"]⟩].foldlM writeRow
        (NxsWriter.withCompact ["a", "s"] (some CompactOptions.compact)) = .ok w ∧
      records.length = 2 ∧ RecordFile file.bytes w.schemaBytes w.fileFlags records offsets ∧
      (records.flatten.length < 2 ^ 32 → ∃ full, StreamReader.new file = .ok full ∧
        ∀ m, 32 + w.schemaBytes.length ≤ m → m ≤ file.bytes.length → ∃ s, StreamReader.new (file.take m) = .ok s ∧
          PrefixStable ["a", "s"] [⟨[.i64 7, .str "x"]⟩, ⟨[.absent, .str "y"]⟩] (some CompactOptions.compact) records
            offsets full m s) := by
  obtain ⟨file, hfile⟩ := isOk_iff.mp (show (finishRow ["a", "s"] [⟨[.i64 7, .str "x"]⟩, ⟨[.absent, .str "y"]⟩]
    (some CompactOptions.compact)).isOk = true by decide +kernel)
  refine ⟨file, hfile, stream_prefixes _ _ _ file (by decide) (by decide) (fun opts hopts => ?_) (by decide) hfile⟩
  cases hopts
  refine ⟨by decide, by decide, fun w hw => ?_⟩
  have hpool : ([⟨[.i64 7, .str "x"]⟩, ⟨[.absent, .str "y"]⟩].foldlM writeRow
      (NxsWriter.withCompact ["a", "s"] (some CompactOptions.compact)) >>= fun w =>
        .ok (w.buildExtendedSchema CompactOptions.compact).valuePool) = .ok [] := by decide +kernel
  rw [hw, ok_bind] at hpool
  rw [Outcome.ok.inj hpool]
  exact ⟨by decide, fun _ h => absurd h List.not_mem_nil⟩

/-- Read as text, an integer reaches into the record behind it. -/
theorem stream_prefixes_not_integer_text : ∃ file s full,
    finishRow ["a"] [⟨[.i64 12]⟩, ⟨[.i64 0]⟩] none = .ok file ∧ StreamReader.new file = .ok full ∧
      StreamReader.new (file.take 64) = .ok s ∧ Polls s [40] ∧ s.getStrAt 40 "a" ≠ full.getStrAt 40 "a" := by
  have hrun : (finishRow ["a"] [⟨[.i64 12]⟩, ⟨[.i64 0]⟩] none >>= fun file => do
      let full ← StreamReader.new file
      let s ← StreamReader.new (file.take 64)
      .ok (Prod.fst <$> s.pollNextOffset, s.pollNextOffset >>= fun p => Prod.fst <$> p.2.pollNextOffset,
        s.getStrAt 40 "a", full.getStrAt 40 "a")) =
          .ok (.ok 40, none', none', .ok "\x00\x00\x00\x00OXYN\x18\x00\x00\x00") := by decide +kernel
  obtain ⟨file, hfile, hrun⟩ := bind_eq_ok.mp hrun
  obtain ⟨full, hfull, hrun⟩ := bind_eq_ok.mp hrun
  obtain ⟨s, hs, hrun⟩ := bind_eq_ok.mp hrun
  obtain ⟨hfirst, hrest⟩ := Prod.mk.inj (Outcome.ok.inj hrun)
  obtain ⟨hsecond, hrest⟩ := Prod.mk.inj hrest
  obtain ⟨hcut, hwhole⟩ := Prod.mk.inj hrest
  obtain ⟨⟨off, s'⟩, hnext, rfl⟩ := map_eq_ok.mp hfirst
  rw [hnext, ok_bind] at hsecond
  have hstop : s'.pollNextOffset = none' := by
    cases hpoll : s'.pollNextOffset with
    | err e => rfl
    | ok q =>
      rw [hpoll] at hsecond
      cases hsecond
    | panic =>
      rw [hpoll] at hsecond
      cases hsecond
  refine ⟨file, s, full, hfile, hfull, hs, .next hnext (.stop hstop), ?_⟩
  rw [hcut, hwhole]
  intro h
  cases h

end Nyxis

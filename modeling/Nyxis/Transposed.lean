import Nyxis.CallRecords
import Nyxis.MissingCells
import Nyxis.SlotResolvers

/-!
# Transposed — a finished writer as a columnar file

`columnarFromWriter` decodes the objects of a writer back into rows.  A columnar file depends on the columns of its rows
only, so that it is the file of the rows that were written as soon as every cell is decoded.

* `decodeRowObject_filled`: the cells of an object are those that were written.
* `transposed_eq`: the columnar file of a writer whose records start below 4 GiB.
-/

namespace Nyxis

open Lib Lib.Outcome
open NxsWriter (prefixed)

/-! ## Rows of calls -/

/-- The calls write the cells of a row over `n` keys, in any order. -/
structure WritesRow (n : ℕ) (calls : List Call) (row : RecordRow) : Prop where
  slots : ∀ c ∈ calls, c.slot < n
  distinct : (calls.map Call.slot).Nodup
  written : ∀ c ∈ calls, c.arg.cell = row.cell c.slot
  unwritten : ∀ fi < n, (∀ c ∈ calls, c.slot ≠ fi) → row.cell fi = .absent

/-! ## Decoding an object -/

/-- The bytes behind a length prefix. -/
theorem readCellBytes_prefixed {d b : Bytes} {p : ℕ} (hat : At d p (prefixed b)) (hshort : (prefixed b).length < 2 ^ 32)
    (hd : d.length < 2 ^ 63) : readCellBytes d p = .ok b := by
  have hle := prefixed_le b
  rw [prefixed, padTo, at_append, at_append, leBytes_length] at hat
  obtain ⟨⟨hlen, hbytes⟩, -⟩ := hat
  have hend := hbytes.le
  rw [readCellBytes, usizeAdd_of (by omega), ok_bind, ensure_of (by omega), ok_bind, readLE_leBytes hlen (by omega) hd, ok_bind,
    usizeAdd_of (by omega), ok_bind, ensure_of (by omega), ok_bind, range_at hbytes]

/-- A cell is decoded from the bytes that were written for it. -/
theorem readCellAt_arg {d : Bytes} {p : ℕ} {x : Arg} (hat : At d p x.bytesOf) (hshort : x.bytesOf.length < 2 ^ 32)
    (hd : d.length < 2 ^ 63) (hnull : x.cell ≠ .null) : readCellAt d p x.sigil = .ok x.cell := by
  cases x with
  | i64 v =>
    have hword : (readLE d p 8 : Res ℕ) = .ok v.toUInt64.toNat := by
      rw [readLE_at hat (i64Bytes_length v) hd]
      exact congrArg _ (leNat_i64Bytes v)
    rw [readCellAt, Arg.sigil, if_pos rfl, hword, ok_bind, i64Of_toNat]
    rfl
  | f64 v =>
    have hword : (readLE d p 8 : Res ℕ) = .ok v.bits.toNat := by
      rw [readLE_at hat (f64Bytes_length v) hd]
      exact congrArg _ (leNat_f64Bytes v)
    rw [readCellAt, Arg.sigil, if_neg (by decide), if_pos rfl, hword, ok_bind, f64Of_toNat]
    rfl
  | bool v =>
    rw [readCellAt, Arg.sigil, if_neg (by decide), if_neg (by decide), if_pos rfl, index_at hat, ok_bind]
    cases v <;> rfl
  | time v =>
    have hword : (readLE d p 8 : Res ℕ) = .ok v.toUInt64.toNat := by
      rw [readLE_at hat (i64Bytes_length v) hd]
      exact congrArg _ (leNat_i64Bytes v)
    rw [readCellAt, Arg.sigil, if_neg (by decide), if_neg (by decide), if_neg (by decide), if_pos rfl, hword, ok_bind,
      i64Of_toNat]
    rfl
  | str s =>
    rw [readCellAt, Arg.sigil, if_neg (by decide), if_neg (by decide), if_neg (by decide), if_neg (by decide),
      if_neg (by decide), if_pos rfl, readCellBytes_prefixed hat hshort hd, ok_bind, fromUtf8_utf8, okOr_ok, ok_bind]
    rfl
  | bytes b =>
    rw [readCellAt, Arg.sigil, if_neg (by decide), if_neg (by decide), if_neg (by decide), if_neg (by decide),
      if_neg (by decide), if_neg (by decide), if_pos rfl, readCellBytes_prefixed hat hshort hd, ok_bind]
    rfl
  | null | listI64 vs | listF64 vs => exact absurd rfl hnull

/-- The bits and the end of the mask of a written object, as the transposer reads them. -/
theorem rowMask_filled {d : Bytes} {off n : ℕ} {cells : List (ℕ × Bytes)} {offsets : List ℕ}
    (hat : At d off (filledObject n cells offsets)) : ∃ bits tableStart, rowMask d n (n + 1) (off + 8) [] = .ok (bits, tableStart) ∧
      ((List.range n).filter fun s => bits.getD s false) = (List.range n).filter (objectSlots cells) ∧
      (n = 0 ∨ tableStart = off + 8 + bitmaskLen n) := by
  rcases Nat.eq_zero_or_pos n with rfl | hn
  · refine ⟨[], off + 8, ?_, rfl, .inl rfl⟩
    rw [rowMask, List.length_nil, if_neg (by omega)]
  · have hread := rowMask_maskBytes (filledObject_mask hat) hn (bitmaskLen n) 0 (n + 1) (by omega)
      (Nat.lt_of_lt_of_le Nat.zero_lt_one (le_max_right _ _)) (by
        rw [bitmaskLen]
        omega)
    refine ⟨_, _, hread, List.filter_congr fun s hs => ?_, .inr rfl⟩
    rw [List.getD_eq_getElem?_getD, List.getElem?_map, List.getElem?_range (List.mem_range.mp hs), Option.map_some,
      Option.getD_some]

/-- The cells of an object are those that were written. -/
theorem decodeRowObject_filled {d : Bytes} {keys : List String} {off : ℕ} {calls : List Call} {order : List (ℕ × ℕ)}
    {sigils : List UInt8} {row : RecordRow} (hrow : WritesRow keys.length calls row)
    (horder : TableOrder keys.length (callCells calls) order)
    (hat : At d off (filledObject keys.length (callCells calls) (order.map fun e => e.2 % 65536)))
    (hlen : objectLen keys.length (callCells calls) ≤ 65535) (hd : d.length < 2 ^ 63)
    (hnull : ∀ fi, row.cell fi ≠ .null) (hsigils : ∀ c ∈ calls, sigils.getD c.slot SIGIL_INT = c.arg.sigil) :
    decodeRowObject d off keys.length sigils = .ok ((List.range keys.length).map row.cell) := by
  obtain ⟨bits, tableStart, hread, hfilter, hstart⟩ := rowMask_filled hat
  have hmask := (filledObject_mask hat).le
  rw [maskBytes_length] at hmask
  have hmagic : At d off (leBytes 4 MAGIC_OBJ) := by
    rw [filledObject, closedObject] at hat
    simp only [at_append] at hat
    exact hat.1.1.1.1
  have hkeys : keys.length < 65536 := by
    unfold objectLen objectStart objectHeaderLen at hlen
    omega
  -- a present slot has the call whose value is at the entry of its rank
  have hcell : ∀ s ∈ (List.range keys.length).filter (objectSlots (callCells calls)),
      decodeRowCell d off tableStart sigils (s, slotRank (objectSlots (callCells calls)) s) = .ok (s, row.cell s) := by
    intro s hs
    obtain ⟨hlt, hset⟩ := List.mem_filter.mp hs
    rw [List.mem_range] at hlt
    obtain ⟨entry, hentry, hslot⟩ := List.any_eq_true.mp hset
    obtain ⟨c, hc, rfl⟩ := List.mem_map.mp hentry
    obtain rfl : c.slot = s := beq_iff_eq.mp hslot
    obtain ⟨e, he, hshort, hval, hvlen⟩ := call_at_rank horder hat hrow.slots hrow.distinct hlen hc
    have hword := filledObject_entry hat (o := e.2) (by
      rw [List.getElem?_map, he, Option.map_some, Nat.mod_eq_of_lt hshort])
    have hle := hword.le
    rw [leBytes_length] at hle
    have hrank : slotRank (objectSlots (callCells calls)) c.slot ≤ c.slot := by
      have := @List.countP_le_length _ (objectSlots (callCells calls)) (List.range c.slot)
      rwa [List.length_range] at this
    have hoff : readOffset d off tableStart (slotRank (objectSlots (callCells calls)) c.slot) = .ok (off + e.2) := by
      rw [readOffset, hstart.resolve_left (by omega), usizeMul_of (by omega), ok_bind, usizeAdd_of (by omega), ok_bind,
        usizeAdd_of (by omega), ok_bind, ensure_of (by omega), ok_bind, readLE_leBytes hword (by omega) hd, ok_bind,
        usizeAdd_of (by omega)]
    have hwritten := hrow.written c hc
    rw [decodeRowCell, hoff, ok_bind, hsigils c hc, readCellAt_arg hval hvlen hd (by rw [hwritten]; exact hnull _), ok_bind,
      demand_of (by omega), ok_bind, hwritten]
  have hcells : (((List.range keys.length).filter (objectSlots (callCells calls))).zipIdx).mapM
      (decodeRowCell d off tableStart sigils) =
        .ok (((List.range keys.length).filter (objectSlots (callCells calls))).map fun s => (s, row.cell s)) := by
    rw [zipIdx_filter_range, mapM_eq_ok, List.forall₂_map_left_iff, List.forall₂_map_right_iff, List.forall₂_same]
    exact hcell
  rw [decodeRowObject, usizeAdd_of (by omega), ok_bind, ensure_of (by omega), ok_bind, readLE_leBytes hmagic (by decide) hd, ok_bind,
    ensure_of rfl, ok_bind, hread, ok_bind]
  dsimp only
  rw [hfilter, hcells, ok_bind, rowOfCells]
  refine congrArg _ (List.map_congr_left fun s hs => ?_)
  -- the slots without a bit are absent
  by_cases hset : objectSlots (callCells calls) s = true
  · have hmem := List.mem_map_of_mem (f := fun s => (s, row.cell s)) (List.mem_filter.mpr ⟨hs, hset⟩)
    rw [lookup_of_mem ?_ hmem, Option.getD_some]
    rw [List.map_map, show (Prod.fst ∘ fun s => (s, row.cell s)) = id from rfl, List.map_id]
    exact List.nodup_range.filter _
  · rw [lookup_of_not_mem ?_, Option.getD_none, hrow.unwritten s (List.mem_range.mp hs) fun c hc hslot => ?_]
    · exact hset (List.any_eq_true.mpr ⟨_, List.mem_map_of_mem hc, beq_iff_eq.mpr hslot⟩)
    · rw [List.map_map, show (Prod.fst ∘ fun s => (s, row.cell s)) = id from rfl, List.map_id]
      exact fun hmem => hset (List.mem_filter.mp hmem).2

/-! ## Columnar files -/

theorem finishColumnar_congr {keys : List String} {rows rows' : List RecordRow} (hlen : rows'.length = rows.length)
    (hcols : ∀ fi < keys.length, column rows' fi = column rows fi) : finishColumnar keys rows' = finishColumnar keys rows := by
  have hsigils : sigilsForKeys keys rows' = sigilsForKeys keys rows :=
    List.map_congr_left fun fi hfi => congrArg columnSigil (hcols fi (List.mem_range.mp hfi))
  have hencode : encodeColumns keys.length (sigilsForKeys keys rows) rows' =
      encodeColumns keys.length (sigilsForKeys keys rows) rows :=
    mapM_congr fun fi hfi => by rw [hcols fi (List.mem_range.mp hfi)]
  rw [finishColumnar, finishColumnar]
  dsimp only
  rw [hsigils, hencode, hlen]

/-- A row that has only the cells of the keys. -/
def RecordRow.over (n : ℕ) (row : RecordRow) : RecordRow := ⟨(List.range n).map row.cell⟩

theorem column_over {n fi : ℕ} (hfi : fi < n) (rows : List RecordRow) : column (rows.map (·.over n)) fi = column rows fi := by
  rw [column, column, List.map_map]
  refine List.map_congr_left fun row _ => ?_
  rw [Function.comp_apply, RecordRow.cell, RecordRow.over, List.getD_eq_getElem?_getD, List.getElem?_map,
    List.getElem?_range hfi, Option.map_some, Option.getD_some]

/-! ## The sigils of a writer -/

theorem Arg.sigil_of_cell {x : Arg} (h : x.cell ≠ .null) : x.sigil = x.cell.sigil := by
  cases x with
  | null | listI64 vs | listF64 vs => exact absurd rfl h
  | _ => rfl

theorem Arg.cell_ne_absent (x : Arg) : x.cell ≠ .absent := by
  cases x <;> exact Cell.noConfusion

/-- Calls to a slot that agree on its sigil leave it there. -/
theorem foldl_noteSigil {s : ℕ} {kind : UInt8} (hzero : kind ≠ 0) (hnull : kind ≠ SIGIL_NULL) :
    ∀ (calls : List Call) (sigils : List UInt8), s < sigils.length → (∀ c ∈ calls, c.slot = s → c.arg.sigil = kind) →
      (sigils.getD s 0 = kind ∨ sigils.getD s 0 = 0 ∧ ∃ c ∈ calls, c.slot = s) →
        s < (calls.foldl (fun sigils c => noteSigil sigils c.slot c.arg.sigil) sigils).length ∧
          (calls.foldl (fun sigils c => noteSigil sigils c.slot c.arg.sigil) sigils).getD s 0 = kind
  | [], sigils, hs, _, h => by
    rcases h with h | ⟨-, c, hc, -⟩
    · exact ⟨hs, h⟩
    · exact absurd hc List.not_mem_nil
  | c :: calls, sigils, hs, hkinds, h => by
    rw [List.foldl_cons]
    refine foldl_noteSigil hzero hnull calls _ (by rwa [noteSigil_length]) (fun c' hc' => hkinds c' (List.mem_cons_of_mem c hc')) ?_
    by_cases hslot : c.slot = s
    · -- the sigil is noted, or it was
      left
      rw [hkinds c List.mem_cons_self hslot, hslot, noteSigil]
      rcases h with h | ⟨h, -⟩
      · rw [h, if_neg (by rintro (h | ⟨h, -⟩) <;> contradiction), h]
      · rw [h, if_pos (.inl rfl), List.getD_eq_getElem?_getD, List.getElem?_set_self hs, Option.getD_some]
    · rw [noteSigil_getD_ne _ hslot]
      refine h.imp id ?_
      rintro ⟨hnone, c', hc', hcs⟩
      refine ⟨hnone, c', ?_, hcs⟩
      rcases List.mem_cons.mp hc' with rfl | hc'
      · exact absurd hcs hslot
      · exact hc'

/-- The sigil of a slot that some record wrote. -/
theorem callSigils_kind {keys : List String} {records : List (List Call)} {s : ℕ} {kind : UInt8} (hs : s < keys.length)
    (hzero : kind ≠ 0) (hnull : kind ≠ SIGIL_NULL) (hkinds : ∀ calls ∈ records, ∀ c ∈ calls, c.slot = s → c.arg.sigil = kind)
    (hsome : ∃ calls ∈ records, ∃ c ∈ calls, c.slot = s) : (callSigils keys records).getD s SIGIL_INT = kind := by
  have hfold := foldl_noteSigil hzero hnull records.flatten (List.replicate keys.length 0) (by rwa [List.length_replicate])
    (fun c hc hslot => by
      obtain ⟨calls, hcalls, hc⟩ := List.mem_flatten.mp hc
      exact hkinds calls hcalls c hc hslot) (.inr ⟨by simp, by
      obtain ⟨calls, hcalls, c, hc, hslot⟩ := hsome
      exact ⟨c, List.mem_flatten.mpr ⟨calls, hcalls, hc⟩, hslot⟩⟩)
  rw [List.foldl_flatten] at hfold
  obtain ⟨hlen, hget⟩ := hfold
  rw [List.getD_eq_getElem _ _ hlen] at hget
  rw [callSigils, List.getD_eq_getElem _ _ hlen, hget]

/-! ## The file of a writer -/

section

variable {keys : List String} {records : List (List Call)} {w : NxsWriter} {objects : List Bytes}
  (hkept : KeptCalls keys w records objects) (hobjects : List.Forall₂ (FilledObject keys.length) records objects)

include hkept hobjects

/-- A record is decoded where it starts. -/
theorem decode_record {i : ℕ} {calls : List Call} {row : RecordRow} (hi : records[i]? = some calls)
    (hrow : WritesRow keys.length calls row) (hnull : ∀ fi, row.cell fi ≠ .null)
    (hsigils : ∀ c ∈ calls, w.slotSigils.getD c.slot SIGIL_INT = c.arg.sigil)
    (hlen : objectLen keys.length (callCells calls) < 65536) (hbuf : w.buf.length < 2 ^ 63) :
    decodeRowObject w.buf (callStart keys.length records i) keys.length w.slotSigils = .ok (row.over keys.length).cells := by
  obtain ⟨hlt, rfl⟩ := List.getElem?_eq_some_iff.mp hi
  have hlt' : i < objects.length := by rwa [← hobjects.length_eq]
  obtain ⟨offsets, -, ⟨-, htable⟩, hobject⟩ := hobjects.get hlt hlt'
  obtain ⟨order, horder, hoffsets⟩ := htable (Nat.lt_trans hlen (by decide))
  have hat := at_flatMap (f := id) (List.getElem?_eq_getElem hlt')
  rw [List.get_eq_getElem] at hobject
  rw [List.flatMap_id, List.flatMap_id, ← hkept.packed.buf, flatten_take_length_of i hkept.lengths, id, hobject, hoffsets] at hat
  exact decodeRowObject_filled hrow horder hat (Nat.le_of_lt_succ hlen) hbuf hnull hsigils

omit hobjects in
/-- The file of a writer, from what is decoded where the entries say. -/
theorem columnarFromWriter_of (rows : List RecordRow) (hcount : rows.length = records.length)
    (hdecode : ∀ i row, rows[i]? = some row →
      decodeRowObject w.buf (callStart keys.length records i % 2 ^ 32) keys.length w.slotSigils = .ok row.cells) :
    columnarFromWriter w = finishColumnar keys rows := by
  have hobjects := hkept.lengths.length_eq
  have hrows : w.recordOffsets.mapM (fun relOff => do
      let cells ← decodeRowObject w.buf relOff w.keys.length w.slotSigils
      .ok (⟨cells⟩ : RecordRow)) = (.ok rows : Res (List RecordRow)) := by
    rw [mapM_eq_ok, hkept.packed.recordOffsets, List.forall₂_map_left_iff]
    refine List.forall₂_iff_get.mpr ⟨?_, fun i hi hi' => ?_⟩
    · rw [startsFrom_length, List.length_map, ← hobjects, hcount]
    have hstart : (startsFrom 0 (objects.map List.length)).get ⟨i, hi⟩ = callStart keys.length records i := by
      have hget := objectStarts_getElem? (show i < objects.length by omega)
      rw [flatten_take_length_of i hkept.lengths] at hget
      exact (List.getElem?_eq_some_iff.mp hget).2
    rw [hstart, hkept.keys_eq, hdecode i _ (List.getElem?_eq_getElem hi'), ok_bind]
    rfl
  rw [columnarFromWriter, hrows, ok_bind, hkept.keys_eq]

end

/-- The columnar file of a writer is that of the rows it wrote, where all of its records start below 4 GiB. -/
theorem transposed_eq {sorter : SlotSort} {keys : List String} {kinds : List UInt8} {rows : List RecordRow}
    {records : List (List Call)} {w : NxsWriter} (hom : Homogeneous keys kinds rows) (hnull : ∀ row ∈ rows, .null ∉ row.cells)
    (hrows : List.Forall₂ (WritesRow keys.length) records rows)
    (hrun : records.foldlM (NxsWriter.writeObject sorter) (NxsWriter.new keys) = .ok w)
    (hsmall : ∀ calls ∈ records, objectLen keys.length (callCells calls) < 65536)
    (hnear : ∀ i < records.length, callStart keys.length records i < 2 ^ 32) : columnarFromWriter w = finishColumnar keys rows := by
  obtain ⟨objects, hkept, hobjects, -⟩ := writeObjects_filled hrun
  have hcount := hobjects.length_eq
  have hcells : ∀ row ∈ rows, ∀ fi, row.cell fi ≠ .null := by
    intro row hrow fi hcell
    rw [RecordRow.cell, List.getD_eq_getElem?_getD] at hcell
    cases hget : row.cells[fi]? with
    | none =>
      rw [hget] at hcell
      cases hcell
    | some c =>
      rw [hget, Option.getD_some] at hcell
      exact hnull row hrow (hcell ▸ List.mem_of_getElem? hget)
  -- the buffer ends behind the last record
  have hbuf : w.buf.length < 2 ^ 63 := by
    have hall := flatten_take_length_of records.length hkept.lengths
    rw [hcount, List.take_length, ← hkept.packed.buf, ← hcount] at hall
    rw [hall]
    rcases Nat.eq_zero_or_pos records.length with hzero | hpos
    · rw [hzero, callStart, List.take_zero]
      exact Nat.two_pow_pos 63
    · have hlast := List.getElem?_eq_getElem (show records.length - 1 < records.length by omega)
      have hstart := hnear (records.length - 1) (by omega)
      have hlen := hsmall _ (List.mem_of_getElem? hlast)
      have hsucc := callStart_succ (n := keys.length) hlast
      rw [show records.length - 1 + 1 = records.length by omega] at hsucc
      omega
  have hwritten : ∀ calls ∈ records, ∀ c ∈ calls, c.slot < keys.length ∧ ∃ row ∈ rows, c.arg.cell = row.cell c.slot := by
    intro calls hcalls c hc
    obtain ⟨i, hi, rfl⟩ := List.getElem_of_mem hcalls
    have hrow := hrows.get hi (by rwa [← hrows.length_eq])
    exact ⟨hrow.slots c hc, _, List.getElem_mem _, hrow.written c hc⟩
  have hsigils : ∀ calls ∈ records, ∀ c ∈ calls, w.slotSigils.getD c.slot SIGIL_INT = c.arg.sigil := by
    intro calls hcalls c hc
    obtain ⟨hslot, -⟩ := hwritten calls hcalls c hc
    obtain ⟨kind, hkind, hof⟩ := hom.exists_kind hslot
    have hmem := hom.kinds_mem kind (List.mem_of_getElem? hkind)
    have hkinds : ∀ calls' ∈ records, ∀ c' ∈ calls', c'.slot = c.slot → c'.arg.sigil = kind := by
      intro calls' hcalls' c' hc' hsame
      obtain ⟨-, row, hrow, hcell⟩ := hwritten calls' hcalls' c' hc'
      have hne : c'.arg.cell ≠ .null := hcell ▸ hcells row hrow _
      rw [Arg.sigil_of_cell hne]
      rcases hof c'.arg.cell (List.mem_map.mpr ⟨row, hrow, by rw [hcell, hsame]⟩) with h | h | h
      · exact absurd h (Arg.cell_ne_absent _)
      · exact absurd h hne
      · exact h
    rw [hkept.slotSigils, hkinds calls hcalls c hc rfl]
    refine callSigils_kind hslot ?_ ?_ hkinds ⟨calls, hcalls, c, hc, rfl⟩
    · rintro rfl
      exact absurd hmem (by decide)
    · rintro rfl
      exact absurd hmem (by decide)
  have hfile := columnarFromWriter_of hkept (rows.map (·.over keys.length)) (by rw [List.length_map, hrows.length_eq])
    fun i row hi => by
      rw [List.getElem?_map, Option.map_eq_some_iff] at hi
      obtain ⟨row, hi, rfl⟩ := hi
      obtain ⟨hrow, rfl⟩ := List.getElem?_eq_some_iff.mp hi
      have hlt : i < records.length := by rwa [hrows.length_eq]
      have hget := List.getElem?_eq_getElem hlt
      have hmem := List.mem_of_getElem? hget
      rw [Nat.mod_eq_of_lt (hnear i hlt)]
      exact decode_record hkept hobjects hget (hrows.get hlt hrow) (hcells _ (List.getElem_mem hrow)) (hsigils _ hmem)
        (hsmall _ hmem) hbuf
  rw [hfile]
  exact finishColumnar_congr (List.length_map _) fun fi hfi => column_over hfi rows

/-- Two records, the first with its cells written in the other order. -/
def pairCalls : List (List Call) := [[⟨1, .bytes [1, 2]⟩, ⟨0, .i64 7⟩], [⟨1, .bytes []⟩]]

def pairTable : List RecordRow := [⟨[.i64 7, .binary [1, 2]]⟩, ⟨[.absent, .binary []]⟩]

theorem pairTable_written : List.Forall₂ (WritesRow 2) pairCalls pairTable := by
  refine .cons ⟨by decide, by decide, by decide, ?_⟩ (.cons ⟨by decide, by decide, by decide, ?_⟩ .nil) <;> decide

theorem transposed_eq_pair : ∃ w, pairCalls.foldlM (NxsWriter.writeObject SlotSort.stable) (NxsWriter.new ["a", "b"]) = .ok w ∧
    columnarFromWriter w = finishColumnar ["a", "b"] pairTable := by
  have hwritable : Writable ["a", "b"] pairCalls := by
    refine ⟨by decide, fun i calls hi => .inr ?_⟩
    match i, hi with
    | 0, hi | 1, hi =>
      cases hi
      decide
  obtain ⟨w, -, hw, -⟩ := writeRecords_ok SlotSort.stable hwritable
  have hom : Homogeneous ["a", "b"] [SIGIL_INT, SIGIL_BINARY] pairTable := ⟨rfl, by simp, by decide +kernel⟩
  exact ⟨w, hw, transposed_eq hom (by decide) pairTable_written hw (by decide +kernel) (by decide +kernel)⟩

/-! ## Records behind 4 GiB -/

/-- The rows of `2^28` empty records and of a record with one value. -/
def farRows : List RecordRow := List.replicate (2 ^ 28) ⟨[.absent]⟩ ++ [⟨[.i64 7]⟩]

theorem columnSigil_ints {cells : List Cell} (h : ∀ c ∈ cells, c = .absent ∨ ∃ v, c = .i64 v) : columnSigil cells = SIGIL_INT := by
  induction cells with
  | nil => rfl
  | cons c cells ih =>
    rw [columnSigil, ih fun c hc => h c (List.mem_cons_of_mem _ hc)]
    rcases h c List.mem_cons_self with rfl | ⟨v, rfl⟩ <;> rfl

/-- A column of integers fits its file. -/
theorem finishColumnar_ints {rows : List RecordRow} (h : ∀ row ∈ rows, row.cell 0 = .absent ∨ ∃ v, row.cell 0 = .i64 v)
    (hcount : rows.length < 2 ^ 32) : ∃ file, finishColumnar ["a"] rows = .ok file := by
  have hsigil : columnSigil (column rows 0) = SIGIL_INT := columnSigil_ints fun c hc => by
    obtain ⟨row, hrow, rfl⟩ := List.mem_map.mp hc
    exact h row hrow
  have hsigils : sigilsForKeys ["a"] rows = [SIGIL_INT] := congrArg (fun sigil => [sigil]) hsigil
  have hencode : encodeColumns 1 [SIGIL_INT] rows = .ok [fixedColumn SIGIL_INT (column rows 0)] := by
    have hcol : encodeFieldColumn (column rows 0) SIGIL_INT = .ok (fixedColumn SIGIL_INT (column rows 0)) :=
      encodeFieldColumn_eq_ok.mpr (.inr ⟨rfl, by decide, rfl⟩)
    rw [encodeColumns, mapM_eq_ok]
    exact .cons hcol .nil
  have hbitmap := le_nullBitmapBytes rows.length
  have hlen := fixedColumn_length SIGIL_INT (column rows 0)
  rw [column_length] at hlen
  rw [finishColumnar]
  dsimp only
  rw [hsigils, show ["a"].length = 1 from rfl, hencode, ok_bind]
  refine ⟨_, dif_pos ?_⟩
  simp only [List.length_append, preamble_length, leBytes_length, columnEntries, List.flatMap_cons, List.flatMap_nil,
    List.flatten_cons, List.flatten_nil, columnEntryBytes_length, List.length_nil, hlen,
    show (buildSchema ["a"] [SIGIL_INT]).length = 8 by decide]
  omega

/-- Rows of a column `a` with an integer or without one. -/
def IntRows (rows : List RecordRow) : Prop := ∀ row ∈ rows, row = ⟨[.absent]⟩ ∨ ∃ v, row = ⟨[.i64 v]⟩

namespace IntRows

variable {rows : List RecordRow} (h : IntRows rows)

include h

theorem cell {row : RecordRow} (hrow : row ∈ rows) : row.cell 0 = .absent ∨ ∃ v, row.cell 0 = .i64 v := by
  rcases h row hrow with rfl | ⟨v, rfl⟩
  · exact .inl rfl
  · exact .inr ⟨v, rfl⟩

theorem homogeneous : Homogeneous ["a"] [SIGIL_INT] rows := by
  refine ⟨rfl, by simp, fun fi hfi c hc => ?_⟩
  obtain rfl : fi = 0 := Nat.lt_one_iff.mp hfi
  obtain ⟨row, hrow, rfl⟩ := List.mem_map.mp hc
  rcases h.cell hrow with habs | ⟨v, hv⟩
  · exact .inl habs
  · exact .inr (.inr (by rw [hv]; rfl))

theorem nullsKept : NullsKept ["a"] [SIGIL_INT] rows := by
  intro fi hfi _ hnull
  obtain rfl : fi = 0 := Nat.lt_one_iff.mp hfi
  obtain ⟨row, hrow, hcell⟩ := List.mem_map.mp (List.mem_of_find?_eq_some hnull)
  rcases h.cell hrow with habs | ⟨v, hv⟩
  · exact absurd (hcell.symm.trans habs) Cell.noConfusion
  · exact absurd (hcell.symm.trans hv) Cell.noConfusion

/-- The cells that the file of such rows gives back. -/
theorem reads {file : Slice} (hok : finishColumnar ["a"] rows = .ok file) : ∃ r, Reader.new file = .ok r ∧
    ∀ i row, rows[i]? = some row → r.Reads i "a" (row.cell 0) := by
  obtain ⟨r, hr, -, hreads⟩ := (columnar_reads_back_iff (by decide) (by decide) (by decide) (by decide) h.homogeneous hok).mpr
    h.nullsKept
  exact ⟨r, hr, fun i row hrow => hreads i row 0 "a" hrow rfl (by decide)⟩

end IntRows

theorem farRows_ints : IntRows farRows := fun _ hrow =>
  (List.mem_append.mp hrow).imp List.eq_of_mem_replicate fun h => ⟨7, List.mem_singleton.mp h⟩

theorem writesRow_empty : WritesRow 1 [] ⟨[.absent]⟩ := by
  refine ⟨by decide, by decide, by decide, fun fi hfi _ => ?_⟩
  obtain rfl : fi = 0 := Nat.lt_one_iff.mp hfi
  rfl

theorem writesRow_seven : WritesRow 1 [⟨0, .i64 7⟩] ⟨[.i64 7]⟩ := by
  refine ⟨by decide, by decide, by decide, fun fi hfi hnone => ?_⟩
  exact absurd (Nat.lt_one_iff.mp hfi).symm (hnone _ List.mem_cons_self)

theorem farRows_written : List.Forall₂ (WritesRow 1) farRecords farRows := by
  refine List.rel_append ?_ (.cons writesRow_seven .nil)
  have hall : ∀ n, List.Forall₂ (WritesRow 1) (List.replicate n []) (List.replicate n ⟨[.absent]⟩) := by
    intro n
    induction n with
    | zero => exact .nil
    | succ n ih => exact .cons writesRow_empty ih
  exact hall _

/-- The record at 4 GiB is decoded from the object of the first one. -/
theorem transposed_ne_far : ∃ w, farRecords.foldlM (NxsWriter.writeObject SlotSort.stable) (NxsWriter.new ["a"]) = .ok w ∧
    Homogeneous ["a"] [SIGIL_INT] farRows ∧ (∀ row ∈ farRows, .null ∉ row.cells) ∧
      List.Forall₂ (WritesRow 1) farRecords farRows ∧ (∀ calls ∈ farRecords, objectLen 1 (callCells calls) < 65536) ∧
        columnarFromWriter w ≠ finishColumnar ["a"] farRows := by
  obtain ⟨w, -, hrun, -⟩ := writeRecords_ok SlotSort.stable farRecords_writable
  obtain ⟨objects, hkept, hobjects, -⟩ := writeObjects_filled hrun
  refine ⟨w, hrun, farRows_ints.homogeneous, fun row hrow => ?_, farRows_written, fun calls hcalls => ?_, fun heq => ?_⟩
  · rcases farRows_ints row hrow with rfl | ⟨v, rfl⟩ <;> simp
  · rcases farRecords_mem hcalls with rfl | rfl <;> decide
  -- every record is decoded to an empty row
  have hlength := farRecords_length
  have hbuf : w.buf.length < 2 ^ 63 := by
    have hall := flatten_take_length_of (2 ^ 28 + 1) hkept.lengths
    rw [List.take_of_length_le (by rw [← hobjects.length_eq, hlength]), ← hkept.packed.buf, List.length_singleton,
      callStart_succ farRecords_last, farRecords_start (Nat.le_refl _),
      show objectLen 1 (callCells [⟨0, .i64 7⟩]) = 24 by decide] at hall
    omega
  have hempty : ∀ j < 2 ^ 28, decodeRowObject w.buf (callStart 1 farRecords j) 1 w.slotSigils = .ok [.absent] := by
    intro j hj
    refine decode_record hkept hobjects (farRecords_front hj) writesRow_empty (fun fi => ?_) (fun c hc => absurd hc List.not_mem_nil)
      (by decide) hbuf
    rcases fi with _ | fi <;> exact Cell.noConfusion
  have hdecoded := columnarFromWriter_of hkept (List.replicate (2 ^ 28 + 1) ⟨[.absent]⟩)
    (by rw [List.length_replicate, hlength]) fun i row hi => by
      obtain ⟨hlt, hrow⟩ := List.getElem?_eq_some_iff.mp hi
      rw [List.getElem_replicate] at hrow
      rw [List.length_replicate] at hlt
      rw [List.length_singleton, ← hrow, farRecords_start (by omega)]
      by_cases hfront : i < 2 ^ 28
      · rw [Nat.mod_eq_of_lt (by omega), ← farRecords_start (by omega)]
        exact hempty i hfront
      · obtain rfl : i = 2 ^ 28 := by omega
        rw [show 2 ^ 28 * 16 % 2 ^ 32 = 0 * 16 by decide, ← farRecords_start (Nat.zero_le _)]
        exact hempty 0 (Nat.two_pow_pos 28)
  -- the two files give back different values for the last record
  have hints : IntRows (List.replicate (2 ^ 28 + 1) ⟨[.absent]⟩) := fun row hrow => .inl (List.eq_of_mem_replicate hrow)
  obtain ⟨file, hfile⟩ := finishColumnar_ints (fun row hrow => farRows_ints.cell hrow) (by
    rw [← farRows_written.length_eq, hlength]
    decide)
  obtain ⟨r, hr, hreads⟩ := farRows_ints.reads hfile
  obtain ⟨r', hr', hreads'⟩ := hints.reads (hdecoded.symm.trans (heq.trans hfile))
  obtain rfl : r = r' := Outcome.ok.inj (hr.symm.trans hr')
  have hseven : r.i64At (2 ^ 28) "a" = .ok 7 := hreads (2 ^ 28) ⟨[.i64 7]⟩ (by
    rw [farRows, List.getElem?_append_right (by rw [List.length_replicate]), List.length_replicate, Nat.sub_self]
    rfl)
  have hnone : r.i64At (2 ^ 28) "a" = none' := (hreads' (2 ^ 28) ⟨[.absent]⟩ (List.getElem?_replicate_of_lt (Nat.lt_succ_self _))).1
  rw [hnone] at hseven
  cases hseven

end Nyxis

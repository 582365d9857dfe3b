import Nyxis.PaxPages
import Nyxis.StoredTable

/-!
# ColumnarFile — reading a columnar file

`ColumnarReader r sigils rows` says that the columnar file `r` gives back the sector of each column of
`rows`; its getters then see the cells (`ColumnarReader.holds`), as those of a PAX file do.

* `new_finishColumnar`: a file of `finishColumnar` is accepted, and is such a file.
-/

namespace Nyxis

open Lib Lib.Outcome

/-- An open columnar file with the columns of `rows`. -/
structure ColumnarReader (r : Reader) (sigils : List UInt8) (rows : List RecordRow) : Prop where
  layout : r.layout = .columnar
  keySigils : r.keySigils = sigils
  sigils_length : sigils.length = r.keys.length
  keys_nodup : r.keys.Nodup
  recordCount : r.recordCount = rows.length
  sector : ∀ fi, fi < r.keys.length → ∃ s, r.colSector fi = .ok s ∧
    encodeFieldColumn (column rows fi) (sigils.getD fi SIGIL_INT) = .ok s ∧ s.length < 2 ^ 63

/-! ## The cells of a record -/

namespace ColumnarReader

variable {r : Reader} {sigils : List UInt8} {rows : List RecordRow}

theorem keySigil_of (h : ColumnarReader r sigils rows) {fi : ℕ} (hfi : fi < r.keys.length) :
    r.keySigils[fi]? = some (sigils.getD fi SIGIL_INT) := by
  have hlen := h.sigils_length
  rw [h.keySigils, List.getD_eq_getElem?_getD, List.getElem?_eq_getElem (by omega)]
  rfl

/-- The bits and the values of a fixed-width column. -/
theorem colFieldParts (h : ColumnarReader r sigils rows) {fi : ℕ} (hfi : fi < r.keys.length)
    (hv : isVarSigil (sigils.getD fi SIGIL_INT) = false) : rows.length * 8 < 2 ^ 63 ∧ r.colFieldParts fi =
      .ok (encodeNullBitmap (column rows fi), writeFixedBuffer (column rows fi) (fixedBytes (sigils.getD fi SIGIL_INT))) := by
  obtain ⟨s, hsec, hcol, hsmall⟩ := h.sector fi hfi
  rcases encodeFieldColumn_eq_ok.mp hcol with ⟨hvar, -, -⟩ | ⟨-, -, rfl⟩
  · rw [hv] at hvar
    exact absurd hvar Bool.false_ne_true
  · have hbmle := le_nullBitmapBytes rows.length
    have hslen := fixedColumn_length (sigils.getD fi SIGIL_INT) (column rows fi)
    obtain ⟨hbm, hvals⟩ :=
      range_fixedColumn (ε := NxsError) (sigils.getD fi SIGIL_INT) (column rows fi)
    rw [column_length] at hbm hvals hslen
    have hvar : ¬ ((r.keySigils[fi]?).map isVarSigil).getD false = true := by
      rw [h.keySigil_of hfi, Option.map_some, Option.getD_some, hv]
      exact Bool.false_ne_true
    have hmin : min (rows.length * 8) (2 ^ 64 - 1) = rows.length * 8 := by omega
    refine ⟨by omega, ?_⟩
    rw [Reader.colFieldParts, ensure_of hvar, ok_bind, hsec, ok_bind, h.recordCount, nullBitmapLen_of (by omega), ok_bind]
    dsimp only
    rw [hmin, checkedAdd_of (by omega), okOr_ok, ok_bind, ensure_of (by omega), ok_bind, hbm, ok_bind, hvals, ok_bind]

theorem getWord (h : ColumnarReader r sigils rows) {i fi w : ℕ} {row : RecordRow}
    (hrow : rows[i]? = some row) (hfi : fi < r.keys.length) (hw : w ≤ 8) :
    r.colGetWord w fi i = storedWord (sigils.getD fi SIGIL_INT) w (row.cell fi) := by
  have hi := (List.getElem?_eq_some_iff.mp hrow).1
  have hcell : (column rows fi)[i]? = some (row.cell fi) := by
    rw [column, List.getElem?_map, hrow]
    rfl
  rw [Reader.colGetWord, Reader.keySigil, h.keySigil_of hfi, ofOption_some, ok_bind]
  cases hv : isVarSigil (sigils.getD fi SIGIL_INT) with
  | true => rw [ensure_not (by simp), err_bind, storedWord, if_pos hv]
  | false =>
    obtain ⟨hsmall, hparts⟩ := h.colFieldParts hfi hv
    rw [ensure_of (by simp), ok_bind, hparts, toOpt_ok, ok_bind]
    dsimp only
    rw [bitAt_encodeNullBitmap hcell, ok_bind, storedWord, if_neg (by rw [hv]; simp)]
    by_cases hpop : cellPopulated (row.cell fi) = true
    · rw [if_pos hpop, ensure_of hpop, ok_bind, usizeMul_of (by omega), ok_bind,
        getLE_fixed_cell hcell hpop hw (by rw [column_length]; omega)]
    · rw [if_neg hpop, ensure_not hpop, err_bind]

theorem getStr (h : ColumnarReader r sigils rows) {i fi : ℕ} {row : RecordRow}
    (hrow : rows[i]? = some row) (hfi : fi < r.keys.length) :
    r.colGetStr fi i = storedStr (sigils.getD fi SIGIL_INT) (row.cell fi) := by
  have hsig := h.keySigil_of hfi
  obtain ⟨s, hsec, hcol, hsmall⟩ := h.sector fi hfi
  have hcell : (column rows fi)[i]? = some (row.cell fi) := by
    rw [column, List.getElem?_map, hrow]
    rfl
  rw [Reader.colGetStr, hsig, storedStr]
  by_cases hstr : sigils.getD fi SIGIL_INT = SIGIL_STR
  · rw [hstr] at hcol
    rw [if_pos hstr, hstr, ensure_of rfl, ok_bind]
    rcases encodeFieldColumn_eq_ok.mp hcol with ⟨-, hfits, rfl⟩ | ⟨hv, -, -⟩
    · have hvlen := varColumn_length (column rows fi)
      rw [column_length] at hvlen
      have hparts : r.colFieldVarParts fi = .ok (encodeNullBitmap (column rows fi),
          (varOffsets (column rows fi)).flatMap (leBytes 4), varValues (column rows fi)) := by
        rw [Reader.colFieldVarParts, hsec, ok_bind, h.recordCount,
          colVarParts_varColumn (column_length rows fi).symm hsmall]
      rw [hparts, toOpt_ok, ok_bind]
      dsimp only
      rw [bitAt_encodeNullBitmap hcell, ok_bind]
      by_cases hpop : cellPopulated (row.cell fi) = true
      · rw [if_pos hpop, ensure_of hpop, ok_bind, varStrAt,
          varBinaryAt_encode hcell hfits (by rw [column_length]; omega), ok_bind]
      · rw [if_neg hpop, ensure_not hpop, err_bind]
    · exact absurd hv (by decide)
  · rw [if_neg hstr, ensure_not (by simpa using hstr), err_bind]

/-- The file holds the rows of its columns. -/
theorem holds (h : ColumnarReader r sigils rows) : r.Holds r.keys sigils rows where
  recordCount := h.recordCount
  sees i row fi key hrow hkey := by
    have hi := (List.getElem?_eq_some_iff.mp hrow).1
    have hfi := (List.getElem?_eq_some_iff.mp hkey).1
    have hrec : r.record i = .ok i := by
      rw [Reader.record, h.recordCount, ensure_of (by omega), ok_bind, if_neg (by simp [h.layout])]
    have hslot := Reader.slot_of_nodup h.keys_nodup hkey
    have hword := fun w (hw : w ≤ 8) => h.getWord hrow hfi hw
    constructor
    · rw [Reader.i64At, hrec, ok_bind, Reader.getI64, hslot, ok_bind, h.layout]
      dsimp only
      rw [hword 8 (le_refl _)]
    · rw [Reader.f64At, hrec, ok_bind, Reader.getF64, hslot, ok_bind, h.layout]
      dsimp only
      rw [hword 8 (le_refl _)]
    · rw [Reader.boolAt, hrec, ok_bind, Reader.getBool, hslot, ok_bind, h.layout]
      dsimp only
      rw [hword 1 (by omega)]
    · rw [Reader.strAt, hrec, ok_bind, Reader.getStr, hslot, ok_bind, h.layout]
      exact h.getStr hrow hfi

end ColumnarReader

/-! ## The column table -/

@[simp] theorem columnEntryBytes_length (e : ℕ × ℕ × ℕ) : (columnEntryBytes e).length = 20 := by
  simp [columnEntryBytes]

@[simp] theorem columnEntries_length : ∀ (fi off : ℕ) (cols : List Bytes),
    (columnEntries fi off cols).length = cols.length
  | _, _, [] => rfl
  | fi, off, col :: cols => by
    rw [columnEntries, List.length_cons, columnEntries_length, List.length_cons]

/-- Column `k` stands behind the columns before it. -/
theorem columnEntries_getElem? : ∀ {fi off k : ℕ} {cols : List Bytes} {col : Bytes},
    cols[k]? = some col →
      (columnEntries fi off cols)[k]? = some (fi + k, off + (cols.take k).flatten.length, col.length)
  | _, _, _, [], _, h => by simp at h
  | fi, off, 0, c :: cols, col, h => by
    obtain rfl : c = col := by simpa using h
    simp [columnEntries]
  | fi, off, k + 1, c :: cols, col, h => by
    rw [List.getElem?_cons_succ] at h
    rw [columnEntries, List.getElem?_cons_succ, columnEntries_getElem? h, List.take_succ_cons,
      List.flatten_cons, List.length_append]
    congr 2
    · omega
    · congr 1
      omega

theorem at_columnEntry {d : Bytes} {p : ℕ} {e : ℕ × ℕ × ℕ} (h : At d p (columnEntryBytes e)) :
    At d p (leBytes 2 e.1) ∧ At d (p + 4) (leBytes 8 e.2.1) ∧ At d (p + 12) (leBytes 8 e.2.2) := by
  rw [columnEntryBytes, at_append, at_append, at_append] at h
  obtain ⟨⟨⟨hfid, -⟩, hoff⟩, hlen⟩ := h
  simp only [List.length_append, leBytes_length] at hoff hlen
  exact ⟨hfid, hoff, hlen⟩

theorem set_take_replicate (offs : List ℕ) {i : ℕ} {x : ℕ} (h : offs[i]? = some x) :
    (offs.take i ++ List.replicate (offs.length - i) 0).set i x =
      offs.take (i + 1) ++ List.replicate (offs.length - (i + 1)) 0 := by
  have hi := (List.getElem?_eq_some_iff.mp h).1
  obtain ⟨n, hn⟩ : ∃ n, offs.length - i = n + 1 := ⟨offs.length - i - 1, by omega⟩
  have hlen : (offs.take i).length = i := by
    rw [List.length_take]
    omega
  rw [List.set_append_right _ _ (by omega), hlen, Nat.sub_self, hn, List.replicate_succ,
    List.set_cons_zero, List.take_add_one, h, Option.toList_some, List.append_assoc,
    show offs.length - (i + 1) = n by omega]
  rfl

/-- The column table is read back. -/
theorem readColumnTable_of {d : Bytes} {t kc : ℕ} {entries : List (ℕ × ℕ × ℕ)}
    (hd : d.length < 2 ^ 63) (hkc : kc < 65536) (hlen : entries.length = kc)
    (hent : ∀ i e, entries[i]? = some e →
      e.1 = i ∧ e.2.1 < 2 ^ 64 ∧ e.2.2 < 2 ^ 64 ∧ At d (t + i * 20) (columnEntryBytes e)) :
    readColumnTable d t kc = .ok (entries.map (·.2.1), entries.map (·.2.2)) := by
  have hoffs : (entries.map (·.2.1)).length = kc := by simp [hlen]
  have hlens : (entries.map (·.2.2)).length = kc := by simp [hlen]
  have hloop : ∀ n, n ≤ kc →
      (List.range n).foldlM (readColumnEntry d t kc) (List.replicate kc 0, List.replicate kc 0) =
      .ok ((entries.map (·.2.1)).take n ++ List.replicate (kc - n) 0,
        (entries.map (·.2.2)).take n ++ List.replicate (kc - n) 0) := by
    intro n hn
    induction n with
    | zero => simp
    | succ n ih =>
      obtain ⟨e, he⟩ : ∃ e, entries[n]? = some e :=
        ⟨_, List.getElem?_eq_getElem (by omega)⟩
      obtain ⟨hfid, hoff, hle, hat⟩ := hent n e he
      obtain ⟨hf, ho, hl⟩ := at_columnEntry hat
      have hset1 := set_take_replicate (entries.map (·.2.1)) (i := n) (x := e.2.1)
        (by rw [List.getElem?_map, he]; rfl)
      have hset2 := set_take_replicate (entries.map (·.2.2)) (i := n) (x := e.2.2)
        (by rw [List.getElem?_map, he]; rfl)
      rw [hoffs] at hset1
      rw [hlens] at hset2
      rw [List.range_succ, List.foldlM_append, ih (by omega), ok_bind, List.foldlM_cons,
        readColumnEntry]
      dsimp only
      rw [readLE_leBytes hf (by omega) hd, ok_bind, ensure_of (by omega), ok_bind,
        readLE_leBytes ho (by omega) hd, ok_bind, readLE_leBytes hl (by omega) hd, ok_bind, ok_bind,
        hfid, hset1, hset2]
      rfl
  have hall := hloop kc (le_refl _)
  rw [List.take_of_length_le (by omega), List.take_of_length_le (by omega), Nat.sub_self] at hall
  rw [readColumnTable, hall, List.replicate_zero, List.append_nil, List.append_nil]

/-! ## Opening a columnar file -/

theorem finishColumnar_eq_ok {keys : List String} {rows : List RecordRow} {file : Slice} :
    finishColumnar keys rows = .ok file ↔
      ∃ cols, encodeColumns keys.length (sigilsForKeys keys rows) rows = .ok cols ∧
        file.bytes =
          preamble VERSION (FLAG_SCHEMA_EMBEDDED ||| FLAG_COLUMNAR)
              (murmur3_64 (buildSchema keys (sigilsForKeys keys rows)))
              (32 + (buildSchema keys (sigilsForKeys keys rows)).length + cols.flatten.length) ++
            (buildSchema keys (sigilsForKeys keys rows) ++ (cols.flatten ++
              ((columnEntries 0 (32 + (buildSchema keys (sigilsForKeys keys rows)).length) cols).flatMap
                  columnEntryBytes ++
                (leBytes 8
                    (32 + (buildSchema keys (sigilsForKeys keys rows)).length + cols.flatten.length) ++
                  leBytes 8 rows.length)))) ++ leBytes 4 MAGIC_FOOTER := by
  rw [finishColumnar]
  dsimp only
  rw [bind_eq_ok]
  refine exists_congr fun cols => and_congr_right fun _ => ?_
  rw [Slice.ofBytes_eq_ok]
  simp only [List.append_assoc]

@[simp] theorem sigilsForKeys_length (keys : List String) (rows : List RecordRow) :
    (sigilsForKeys keys rows).length = keys.length := by simp [sigilsForKeys]

/-- A file with a column is long enough for its records. -/
theorem rows_lt_of_column {rows : List RecordRow} {fi : ℕ} {sigil : UInt8} {s : Bytes}
    (h : encodeFieldColumn (column rows fi) sigil = .ok s) (hs : s.length < 2 ^ 63) :
    rows.length < 2 ^ 64 := by
  rcases encodeFieldColumn_eq_ok.mp h with ⟨-, -, rfl⟩ | ⟨-, -, rfl⟩
  · rw [varColumn_length, column_length] at hs
    omega
  · rw [fixedColumn_length, column_length] at hs
    omega

/-- A file of `finishColumnar` is accepted, and gives back the columns of its rows. -/
theorem new_finishColumnar {keys : List String} {rows : List RecordRow} {file : Slice}
    (hpos : keys ≠ []) (hlen : keys.length < 65536) (hnul : ∀ k ∈ keys, NulFree k)
    (hnd : keys.Nodup) (h0 : (0 : UInt8) ∉ sigilsForKeys keys rows)
    (hok : finishColumnar keys rows = .ok file) :
    ∃ r, Reader.new file = .ok r ∧ r.keys = keys ∧
      ColumnarReader r (sigilsForKeys keys rows) rows := by
  obtain ⟨cols, hcols, hbytes⟩ := finishColumnar_eq_ok.mp hok
  obtain ⟨hclen, hspec⟩ := encodeColumns_spec hcols
  have hkpos : 0 < keys.length := List.length_pos_of_ne_nil hpos
  have hsmall := file.small
  have hschema := schemaSigils_eq (sigilsForKeys_length keys rows) h0
  set sigils := sigilsForKeys keys rows with hsigils
  set t := 32 + (buildSchema keys sigils).length + cols.flatten.length with ht
  have hentries : ∀ l : List (ℕ × ℕ × ℕ), (l.flatMap columnEntryBytes).length = l.length * 20 :=
    fun l => length_flatMap_const fun e _ => columnEntryBytes_length e
  have hflen : file.bytes.length = t + keys.length * 20 + 20 := by
    rw [hbytes]
    simp only [List.length_append, preamble_length, leBytes_length, hentries, columnEntries_length]
    omega
  have hself := at_self file.bytes
  conv at hself => arg 3; rw [hbytes]
  simp only [at_append, List.length_append, preamble_length, leBytes_length, hentries,
    columnEntries_length] at hself
  obtain ⟨⟨-, -, hdata, hent, htp, hn⟩, -⟩ := hself
  simp only [Nat.zero_add] at hdata hent htp hn
  rw [← ht] at hent
  rw [hclen] at htp hn
  have hfo : file.bytes.length - 20 = t + keys.length * 20 := by omega
  have htp' : At file.bytes (t + keys.length * 20) (leBytes 8 t) := by
    rw [ht]
    exact htp
  have hn' : At file.bytes (t + keys.length * 20 + 8) (leBytes 8 rows.length) := by
    rw [ht]
    exact hn
  -- the sector of each column
  have hsector : ∀ fi, fi < keys.length → ∃ s, cols[fi]? = some s ∧
      At file.bytes (32 + (buildSchema keys sigils).length + (cols.take fi).flatten.length) s ∧
      encodeFieldColumn (column rows fi) (sigils.getD fi SIGIL_INT) = .ok s := by
    intro fi hfi
    obtain ⟨s, hs, henc⟩ := hspec fi hfi
    have hat := at_flatMap (f := id) hs
    rw [List.flatMap_id, List.flatMap_id] at hat
    exact ⟨s, hs, hdata.trans hat, henc⟩
  have hrows : rows.length < 2 ^ 64 := by
    obtain ⟨s, -, hat, henc⟩ := hsector 0 hkpos
    have hle := hat.le
    exact rows_lt_of_column henc (by omega)
  have htable : readColumnTable file.bytes t keys.length =
      .ok ((columnEntries 0 (32 + (buildSchema keys sigils).length) cols).map (·.2.1),
        (columnEntries 0 (32 + (buildSchema keys sigils).length) cols).map (·.2.2)) := by
    refine readColumnTable_of hsmall hlen (by rw [columnEntries_length, hclen]) ?_
    intro i e he
    have hi : i < keys.length := by
      have := (List.getElem?_eq_some_iff.mp he).1
      rwa [columnEntries_length, hclen] at this
    obtain ⟨s, hs, hat, -⟩ := hsector i hi
    have hle := hat.le
    have hat' := hent.trans (at_flatMap_const (fun e _ => columnEntryBytes_length e) he)
    rw [columnEntries_getElem? hs] at he
    cases he
    exact ⟨by simp, by dsimp only; omega, by dsimp only; omega, hat'⟩
  have hnew := Reader.new_basic hbytes (by decide) (by omega) rfl rfl rfl hlen hnul
  rw [hschema, Reader.openTail] at hnew
  dsimp only at hnew
  rw [if_pos (by decide), show footerSize (FLAG_SCHEMA_EMBEDDED ||| FLAG_COLUMNAR) = 20 from rfl, hfo,
    readLE_leBytes htp' (by omega) hsmall, ok_bind, readLE_leBytes hn' (by omega) hsmall, ok_bind,
    checkedMul_of (by omega), okOr_ok, ok_bind, checkedAdd_of (by omega), okOr_ok, ok_bind,
    ensure_of (by omega), ok_bind, htable, ok_bind] at hnew
  refine ⟨_, hnew, rfl, ?_⟩
  exact {
    layout := rfl
    keySigils := rfl
    sigils_length := sigilsForKeys_length keys rows
    keys_nodup := hnd
    recordCount := rfl
    sector := by
      intro fi hfi
      obtain ⟨s, hs, hat, henc⟩ := hsector fi hfi
      have hle := hat.le
      have hrange := range_at (ε := NxsError) hat
      refine ⟨s, ?_, henc, by omega⟩
      rw [Reader.colSector]
      dsimp only
      rw [List.getElem?_map, List.getElem?_map, columnEntries_getElem? hs]
      simp only [Option.map_some, ofOption_some, okOr_ok, ok_bind]
      rw [checkedAdd_of (by omega), okOr_ok, ok_bind, ensure_of (by omega), ok_bind, hrange] }

end Nyxis

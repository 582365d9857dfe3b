import Nyxis.CompactAgrees
import Nyxis.PaxStreamReader
import Nyxis.Stats

/-!
# StatsFiles — the statistics of written files

For a file of rows, of columns or of pages the report accounts for every byte, and the bytes of a field are those of its
cells.  What is left of the data sector is the framing: one header for each record of a row file, nothing in a columnar
file, header, length and padding of each page in a PAX file.

* `columnAccum`, `cellAccum`: the bytes of a column and of a cell.
* `plain_stats`, `columnar_stats`, `pax_stats`.
-/

namespace Nyxis

open Lib Lib.Outcome FieldAccum
open NxsWriter (prefixed prefixed_size)

/-! ## Columns -/

/-- The bytes of a column, by what they are for. -/
def columnAccum (sigil : UInt8) (cells : List Cell) : FieldAccum :=
  let bits := (cells.length + 7) / 8
  let pad := nullBitmapBytes cells.length - bits
  if isVarSigil sigil then ⟨(varValues cells).length, pad, bits, (cells.length + 1) * 4⟩
  else if sigil = SIGIL_BOOL ∨ sigil = SIGIL_NULL then ⟨cells.length, pad + cells.length * 7, bits, 0⟩
  else ⟨cells.length * 8, pad, bits, 0⟩

theorem bits_le_nullBitmapBytes (n : ℕ) : (n + 7) / 8 ≤ nullBitmapBytes n := by
  unfold nullBitmapBytes
  omega

section

variable {cells : List Cell} {sigil : UInt8} {s : Bytes} {n : ℕ}

/-- A column is counted whole. -/
theorem columnAccum_bytes (h : encodeFieldColumn cells sigil = .ok s) : (columnAccum sigil cells).bytes = s.length := by
  have hbits := bits_le_nullBitmapBytes cells.length
  unfold columnAccum FieldAccum.bytes
  rcases encodeFieldColumn_eq_ok.mp h with ⟨hv, -, rfl⟩ | ⟨hv, -, rfl⟩
  · rw [if_pos hv, varColumn_length]
    dsimp only
    omega
  · rw [if_neg (by rw [hv]; exact Bool.false_ne_true), fixedColumn_length]
    split
    · dsimp only
      omega
    · dsimp only
      omega

theorem accumulateVar_column (hv : isVarSigil sigil = true) (hsmall : cells.length + 7 < 2 ^ 64) :
    accumulateVarColumn (encodeNullBitmap cells) ((varOffsets cells).flatMap (leBytes 4)) (varValues cells) cells.length =
      .ok (columnAccum sigil cells) := by
  have hbits := bits_le_nullBitmapBytes cells.length
  rw [accumulateVarColumn, usizeAdd_of hsmall, ok_bind]
  dsimp only
  rw [encodeNullBitmap_length, usizeSub_of hbits, ok_bind, offsetBytes_length, columnAccum, if_pos hv]

theorem accumulateFixed_column (hv : isVarSigil sigil = false) (hsmall : cells.length * 8 < 2 ^ 63) :
    accumulateFixedColumn (encodeNullBitmap cells) (writeFixedBuffer cells (fixedBytes sigil)) cells.length sigil =
      .ok (columnAccum sigil cells) := by
  have hbits := bits_le_nullBitmapBytes cells.length
  have hle := le_nullBitmapBytes cells.length
  have hvar : ¬ isVarSigil sigil = true := by
    rw [hv]
    exact Bool.false_ne_true
  rw [accumulateFixedColumn, usizeAdd_of (by omega), ok_bind]
  dsimp only
  rw [encodeNullBitmap_length, usizeSub_of hbits, ok_bind, writeFixedBuffer_length, columnAccum, if_neg hvar]
  by_cases hbool : sigil = SIGIL_BOOL ∨ sigil = SIGIL_NULL
  · rw [if_pos hbool, if_pos hbool, usizeMul_of (by omega), ok_bind, usizeAdd_of (by omega), ok_bind, ok_bind,
      usizeMul_of (by omega), ok_bind, ensure_of (by simp), ok_bind]
  · rw [if_neg hbool, if_neg hbool, usizeMul_of (by omega), ok_bind, ok_bind, ok_bind, ensure_of (by simp), ok_bind]

/-- The parts of a column on a page. -/
theorem paxColumnParts_of (h : encodeFieldColumn cells sigil = .ok s) (hn : n = cells.length) (hsmall : s.length < 2 ^ 63) :
    paxColumnParts s n sigil = .ok (columnAccum sigil cells) := by
  subst hn
  have hle := le_nullBitmapBytes cells.length
  rw [paxColumnParts]
  rcases encodeFieldColumn_eq_ok.mp h with ⟨hv, -, rfl⟩ | ⟨hv, -, rfl⟩
  · have hlen := varColumn_length cells
    rw [if_pos hv, colVarParts_varColumn rfl hsmall, ok_bind]
    exact accumulateVar_column hv (by omega)
  · rw [fixedColumn_length] at hsmall
    obtain ⟨hbm, hvals⟩ := range_fixedColumn (ε := NxsError) sigil cells
    rw [if_neg (by rw [hv]; exact Bool.false_ne_true), nullBitmapLen_of (by omega), ok_bind, usizeMul_of (by omega), ok_bind,
      usizeAdd_of (by omega), ok_bind, hbm, ok_bind, hvals, ok_bind]
    exact accumulateFixed_column hv (by omega)

end

/-! ## The parts of a file -/

/-- Where `decode` finds the parts of a file. -/
theorem decode_parts {file : Slice} {decoded : DecodedFile} (h : decode file = .ok decoded) :
    decoded.flags = flagsOf file.bytes ∧ decoded.dataSectorStart = dataSectorStart file.bytes ∧
      decodeTailPtr file.bytes (flagsOf file.bytes) (word file.bytes 16 8) = .ok decoded.tailPtr ∧
      decodeTail file.bytes (flagsOf file.bytes) decoded.tailPtr = .ok (decoded.recordCount, decoded.tailStart) := by
  have hd := file.small
  rw [decode] at h
  dsimp only at h
  obtain ⟨_, hsize, h1⟩ := bind_eq_ok.mp h
  rw [ensure_eq_ok, Nat.not_lt] at hsize
  rw [readLE_word (by omega) hd, ok_bind] at h1
  obtain ⟨_, -, h2⟩ := bind_eq_ok.mp h1
  rw [usizeSub_of (by omega), ok_bind, readLE_word (by omega) hd, ok_bind] at h2
  obtain ⟨_, -, h3⟩ := bind_eq_ok.mp h2
  rw [readLE_word (by omega) hd, ok_bind, readLE_word (by omega) hd, ok_bind,
    show word file.bytes 6 2 = flagsOf file.bytes from rfl] at h3
  obtain ⟨_, -, h4⟩ := bind_eq_ok.mp h3
  rw [readLE_word (by omega) hd, ok_bind, readLE_word (by omega) hd, ok_bind] at h4
  obtain ⟨_, -, h5⟩ := bind_eq_ok.mp h4
  obtain ⟨t, ht, h6⟩ := bind_eq_ok.mp h5
  obtain ⟨⟨keys, sigils, start⟩, hschema, h7⟩ := bind_eq_ok.mp h6
  obtain ⟨_, -, h8⟩ := bind_eq_ok.mp h7
  obtain ⟨root, -, h9⟩ := bind_eq_ok.mp h8
  obtain ⟨tail, htail, h10⟩ := bind_eq_ok.mp h9
  cases h10
  exact ⟨rfl, decodeSchema_start hd hschema, ht, htail⟩

/-- The data sector of a file with a v1.2 header starts behind it. -/
theorem Framed.dataSectorStart_basic {d body : Bytes} {version flags t : ℕ} {keys : List String} {sigils : List UInt8}
    (h : Framed d version flags t (buildSchema keys sigils) body) (hd : d.length < 2 ^ 63)
    (hemb : hasFlag flags FLAG_SCHEMA_EMBEDDED = true) (hbasic : hasFlag flags FLAG_V13_COMPACT_MASK = false)
    (hlen : keys.length < 65536) (hnul : ∀ k ∈ keys, NulFree k) :
    dataSectorStart d = 32 + (buildSchema keys sigils).length := by
  have hv13 : ¬ Flagged d FLAG_V13_COMPACT_MASK := by
    rw [Flagged, h.words.1, hbasic]
    exact Bool.false_ne_true
  obtain ⟨-, -, hend⟩ := schemaNames_buildSchema hd h.schema_at hv13 hlen hnul
  have hroom := h.length
  have h2 : 2 ≤ (buildSchema keys sigils).length := by
    rw [buildSchema, padTo_length]
    simp only [List.length_append, leBytes_length]
    omega
  rw [dataSectorStart, if_pos ⟨by rwa [Flagged, h.words.1], by omega⟩, hend]

/-- The reader and the decoder of a file that both accept. -/
theorem SeenAlike.both {keys : List String} {file : Slice} {r : Reader} (h : SeenAlike keys file)
    (hr : Reader.new file = .ok r) : ∃ decoded, decode file = .ok decoded ∧ decoded.keys = r.keys ∧
      decoded.keySigils = r.keySigils ∧ decoded.recordCount = r.recordCount := by
  obtain ⟨r', decoded, hr', hdec, -⟩ := h.readers
  obtain rfl := Outcome.ok.inj (hr.symm.trans hr')
  exact ⟨decoded, hdec, readers_see_same hr hdec⟩

/-! ## Columnar files -/

section

variable {keys : List String} {rows : List RecordRow} {file : Slice}

theorem ColumnarReader.analyzeFields_of {r : Reader} {sigils : List UInt8} (h : ColumnarReader r sigils rows) :
    analyzeColumnarFields r =
      .ok (statsOf r.keys r.keySigils fun fi => columnAccum (sigils.getD fi SIGIL_INT) (column rows fi)) := by
  rw [analyzeColumnarFields, mapM_eq_ok, statsOf, List.forall₂_map_right_iff, List.forall₂_same]
  intro fi hfi
  rw [List.mem_range] at hfi
  obtain ⟨s, hsec, henc, hs⟩ := h.sector fi hfi
  have hsigil : r.keySigils.getD fi 0 = sigils.getD fi SIGIL_INT := by
    rw [List.getD_eq_getElem?_getD, h.keySigil_of hfi, Option.getD_some]
  have hbytes := columnAccum_bytes henc
  have hcount : (column rows fi).length = rows.length := column_length rows fi
  dsimp only
  rw [hsigil]
  cases hv : isVarSigil (sigils.getD fi SIGIL_INT) with
  | true =>
    rcases encodeFieldColumn_eq_ok.mp henc with ⟨-, -, rfl⟩ | ⟨hvar, -, -⟩
    · have hlen := varColumn_length (column rows fi)
      rw [if_pos rfl, Reader.colFieldVarParts, hsec, ok_bind, h.recordCount, ← hcount, colVarParts_varColumn rfl hs, ok_bind]
      dsimp only
      rw [accumulateVar_column hv (by omega), ok_bind, slotStats_of (by omega)]
      rw [hsigil]
    · rw [hv] at hvar
      cases hvar
  | false =>
    obtain ⟨hsmall, hparts⟩ := h.colFieldParts hfi hv
    rw [if_neg Bool.false_ne_true, hparts, ok_bind]
    dsimp only
    rw [h.recordCount, ← hcount, accumulateFixed_column hv (by omega), ok_bind, slotStats_of (by omega)]
    rw [hsigil]

/-- The columns of a file, all of them. -/
theorem sum_columnAccum {fieldCount : ℕ} {sigils : List UInt8} {cols : List Bytes}
    (h : encodeColumns fieldCount sigils rows = .ok cols) :
    ((List.range fieldCount).map fun fi => (columnAccum (sigils.getD fi SIGIL_INT) (column rows fi)).bytes).sum =
      cols.flatten.length := by
  have hall := mapM_eq_ok.mp h
  rw [List.length_flatten]
  congr 1
  refine List.forall₂_eq_eq_eq.le _ _ ?_
  rw [List.forall₂_map_left_iff, List.forall₂_map_right_iff]
  exact hall.imp fun fi s hs => columnAccum_bytes hs

/-- The parts of a columnar file. -/
theorem finishColumnar_parts (h : finishColumnar keys rows = .ok file) : ∃ cols t body,
    encodeColumns keys.length (sigilsForKeys keys rows) rows = .ok cols ∧
      Framed file.bytes VERSION (FLAG_SCHEMA_EMBEDDED ||| FLAG_COLUMNAR) t (buildSchema keys (sigilsForKeys keys rows)) body ∧
      t = 32 + (buildSchema keys (sigilsForKeys keys rows)).length + cols.flatten.length ∧
      word file.bytes (file.bytes.length - 20) 8 = t ∧ t + keys.length * 20 + 20 = file.bytes.length := by
  obtain ⟨cols, hcols, hbytes⟩ := finishColumnar_eq_ok.mp h
  obtain ⟨hclen, -⟩ := encodeColumns_spec hcols
  have hsmall := file.small
  have hentries : ∀ l : List (ℕ × ℕ × ℕ), (l.flatMap columnEntryBytes).length = l.length * 20 :=
    fun l => length_flatMap_const fun e _ => columnEntryBytes_length e
  set t := 32 + (buildSchema keys (sigilsForKeys keys rows)).length + cols.flatten.length with ht
  have hlen : t + keys.length * 20 + 20 = file.bytes.length := by
    rw [hbytes]
    simp only [List.length_append, preamble_length, leBytes_length, hentries, columnEntries_length, hclen]
    omega
  have hself := at_self file.bytes
  conv at hself => arg 3; rw [hbytes]
  simp only [at_append, List.length_append, preamble_length, leBytes_length, hentries, columnEntries_length, hclen] at hself
  obtain ⟨⟨-, -, -, -, htp, -⟩, -⟩ := hself
  refine ⟨cols, t, _, hcols, ⟨hbytes, by decide, by omega⟩, rfl, ?_, hlen⟩
  have hplace : file.bytes.length - 20 =
      0 + 32 + (buildSchema keys (sigilsForKeys keys rows)).length + cols.flatten.length + keys.length * 20 := by omega
  rw [hplace]
  exact word_leBytes htp (by omega)

end

/-! ## PAX files -/

/-- The bytes of a page that are not of its columns: header, length and padding. -/
def pageFraming (fieldCount : ℕ) (sigils : List UInt8) (g : List RecordRow) : ℕ :=
  28 + padLen 8 (pageLen fieldCount sigils g)

/-- The bytes of a field on some pages. -/
def pagesAccum (sigils : List UInt8) (gs : List (List RecordRow)) (fi : ℕ) : FieldAccum :=
  (gs.map fun g => columnAccum (sigils.getD fi SIGIL_INT) (column g fi)).sum

section

variable {base fieldCount : ℕ} {sigils : List UInt8} {gs : List (List RecordRow)} {st : PaxPages}

theorem pagesAccum_concat (sigils : List UInt8) (gs : List (List RecordRow)) (g : List RecordRow) (fi : ℕ) :
    pagesAccum sigils (gs ++ [g]) fi = pagesAccum sigils gs fi + columnAccum (sigils.getD fi SIGIL_INT) (column g fi) := by
  rw [pagesAccum, List.map_append, List.sum_append, List.map_singleton, List.sum_singleton, pagesAccum]

/-- The pages of a file are their columns and their framing. -/
theorem Emitted.data_length (h : Emitted base fieldCount sigils gs st) : st.data.length =
    ((List.range fieldCount).map fun fi => (pagesAccum sigils gs fi).bytes).sum +
      (gs.map (pageFraming fieldCount sigils)).sum := by
  induction h with
  | nil => simp [pagesAccum, PaxPages.empty]
  | @snoc gs st st' g hem hg he ih =>
    obtain ⟨page, hpage, -, rfl⟩ := (emitPage_eq_ok hg).mp he
    obtain ⟨cols, hcols, rfl⟩ := encodePage_eq_ok.mp hpage
    have hpagelen : pageLen fieldCount sigils g = 24 + cols.flatten.length + 4 := by
      rw [pageLen, hcols]
    have hsplit : ((List.range fieldCount).map fun fi => (pagesAccum sigils (gs ++ [g]) fi).bytes).sum =
        ((List.range fieldCount).map fun fi => (pagesAccum sigils gs fi).bytes).sum + cols.flatten.length := by
      rw [← sum_columnAccum hcols, ← List.sum_map_add]
      refine congrArg List.sum (List.map_congr_left fun fi _ => ?_)
      rw [pagesAccum_concat, bytes_add]
    rw [hsplit, List.map_append, List.sum_append, List.map_singleton, List.sum_singleton, pageFraming, hpagelen]
    simp only [List.length_append, padTo_length, leBytes_length]
    rw [ih, show 4 + 4 + 8 + 4 + 2 + 2 + cols.flatten.length + 4 = 24 + cols.flatten.length + 4 by omega]
    omega

/-- The columns of a page, added to the fields. -/
theorem paxPageFields_of {d : Bytes} {g : List RecordRow} {cols : List Bytes} {f : ℕ → FieldAccum}
    (hcols : encodeColumns fieldCount sigils g = .ok cols) (hsmall : d.length < 2 ^ 63)
    (hfits : ∀ fi < fieldCount, (f fi + columnAccum (sigils.getD fi SIGIL_INT) (column g fi)).bytes < 2 ^ 64) :
    ∀ {n i b : ℕ}, i + n = fieldCount → At d b (cols.drop i).flatten →
      paxPageFields d sigils g.length n i b
          (slotsOf fieldCount fun j => if j < i then f j + columnAccum (sigils.getD j SIGIL_INT) (column g j) else f j) =
        .ok (slotsOf fieldCount fun j => f j + columnAccum (sigils.getD j SIGIL_INT) (column g j))
  | 0, fi, _, hfi, _ => by
    rw [paxPageFields]
    exact congrArg Outcome.ok (slotsOf_congr fun j hj => if_pos (by omega))
  | n + 1, fi, body, hfi, hat => by
    obtain ⟨hclen, hspec⟩ := encodeColumns_spec hcols
    obtain ⟨s, hs, henc⟩ := hspec fi (by omega)
    obtain ⟨hlt, hget⟩ := List.getElem?_eq_some_iff.mp hs
    rw [List.drop_eq_getElem_cons hlt, hget, List.flatten_cons, at_append] at hat
    obtain ⟨hsector, hrest⟩ := hat
    have hle := hsector.le
    obtain ⟨post, hdrop⟩ := hsector.drop_eq
    have hdsmall : (d.drop body).length < 2 ^ 63 := by
      rw [List.length_drop]
      omega
    have hstep := addPart_slotsOf (n := fieldCount) (i := fi)
      (f := fun j => if j < fi then f j + columnAccum (sigils.getD j SIGIL_INT) (column g j) else f j)
      (columnAccum (sigils.getD fi SIGIL_INT) (column g fi)) (by omega)
      (by rw [if_neg (Nat.lt_irrefl fi)]; exact hfits fi (by omega))
    rw [paxPageFields, demand_of (by omega), ok_bind, columnSectorLen_encode henc hdrop hdsmall (column_length g fi).symm,
      ok_bind, usizeAdd_of (by omega), ok_bind, range_at hsector, ok_bind,
      paxColumnParts_of henc (column_length g fi).symm (by omega), ok_bind, hstep, ok_bind,
      ← paxPageFields_of hcols hsmall hfits (n := n) (i := fi + 1) (by omega) hrest]
    refine congrArg _ (slotsOf_congr fun j _ => ?_)
    by_cases hj : j = fi
    · rw [if_pos hj, if_neg (Nat.lt_irrefl fi), if_pos (by omega), hj]
    · by_cases hlt : j < fi
      · rw [if_neg hj, if_pos hlt, if_pos (by omega)]
      · rw [if_neg hj, if_neg hlt, if_neg (by omega)]

/-- A page of a file, and the accumulators behind it. -/
theorem SealedPax.paxPagesLoop_of {keys : List String} {preambleTail : ℕ} {file : Slice}
    (h : SealedPax keys sigils gs st preambleTail file) (hlens : ∀ g ∈ gs, pageLen keys.length sigils g < 2 ^ 32)
    (hfits : ∀ fi < keys.length, (pagesAccum sigils gs fi).bytes < 2 ^ 63) :
    ∀ {n p k : ℕ}, p + n = gs.length → n < k →
      paxPagesLoop file.bytes sigils keys.length (32 + (buildSchema keys sigils).length + st.data.length) k
          (pageOffset (32 + (buildSchema keys sigils).length) st p) (slotsOf keys.length (pagesAccum sigils (gs.take p))) =
        .ok (slotsOf keys.length (pagesAccum sigils gs))
  | n, p, 0, _, hfuel => absurd hfuel (Nat.not_lt_zero n)
  | 0, p, fuel + 1, hp, _ => by
    obtain ⟨-, hplen, -, -⟩ := h.emitted.counts
    have hend : pageOffset (32 + (buildSchema keys sigils).length) st p =
        32 + (buildSchema keys sigils).length + st.data.length := by
      rw [pageOffset, List.getElem?_eq_none (by omega)]
    rw [paxPagesLoop, hend, if_neg (Nat.lt_irrefl _), List.take_of_length_le (by omega)]
  | n + 1, p, fuel + 1, hp, hfuel => by
    have hsmall := file.small
    have hkeys := h.keys_lt
    have hlt : p < gs.length := by omega
    have hget := List.getElem?_eq_getElem hlt
    obtain ⟨page, cols, entry, henc, hcols, hentry, -, -, -, hoff, h8, hparts, hat, hnext, hroom⟩ := h.page hget
    have hfit := h.emitted.fits gs[p] (List.getElem_mem hlt)
    have hpagelen : pageLen keys.length sigils gs[p] = 24 + cols.flatten.length + 4 := by
      rw [pageLen, hcols]
    have hshort := hlens gs[p] (List.getElem_mem hlt)
    have hle := hat.le
    obtain ⟨hclen, -⟩ := encodeColumns_spec hcols
    have htake : gs.take (p + 1) = gs.take p ++ [gs[p]] := (List.take_concat_get' gs p hlt).symm
    -- the page ends where the next one, or the tail-index, starts
    have hfound := completePageEnd_prefix hsmall henc hat hcols hfit.2 hkeys h8 file.bytes.length
    rw [List.take_length, if_pos ⟨hle, by omega⟩, ← hnext] at hfound
    have hbefore := h.pageOffset_add_le (n := n) (p := p + 1) (by omega)
    have hlast : pageOffset (32 + (buildSchema keys sigils).length) st (p + 1 + n) =
        32 + (buildSchema keys sigils).length + st.data.length := by
      obtain ⟨-, hplen, -, -⟩ := h.emitted.counts
      rw [pageOffset, List.getElem?_eq_none (by omega)]
    have hpart : ∀ fi < keys.length, (pagesAccum sigils (gs.take p) fi +
        columnAccum (sigils.getD fi SIGIL_INT) (column gs[p] fi)).bytes < 2 ^ 64 := by
      intro fi hfi
      have hall := hfits fi hfi
      rw [← pagesAccum_concat, ← htake]
      have hsplit : pagesAccum sigils gs fi =
          pagesAccum sigils (gs.take (p + 1)) fi + pagesAccum sigils (gs.drop (p + 1)) fi := by
        conv_lhs => rw [← List.take_append_drop (p + 1) gs]
        rw [pagesAccum, List.map_append, List.sum_append]
        rfl
      rw [hsplit, bytes_add] at hall
      omega
    have hcount := hparts.count
    have hcolumns := hparts.fields
    rw [hclen] at hcolumns
    have hfields := paxPageFields_of hcols hsmall hpart (n := keys.length) (i := 0) (b := entry.pageOffset + 24)
      (Nat.zero_add _) (by rw [List.drop_zero]; exact hparts.body)
    rw [paxPagesLoop, ← hoff, if_pos (by omega), hfound]
    dsimp only
    rw [ensure_of (by omega), ok_bind, readLE_leBytes hcount hfit.2 hsmall, ok_bind,
      readLE_leBytes hcolumns hkeys hsmall, ok_bind, Nat.min_self]
    have hzero : (slotsOf keys.length fun j => if j < 0 then pagesAccum sigils (gs.take p) j +
        columnAccum (sigils.getD j SIGIL_INT) (column gs[p] j) else pagesAccum sigils (gs.take p) j) =
          slotsOf keys.length (pagesAccum sigils (gs.take p)) :=
      slotsOf_congr fun j _ => if_neg (Nat.not_lt_zero j)
    have hall : (slotsOf keys.length fun j => pagesAccum sigils (gs.take p) j +
        columnAccum (sigils.getD j SIGIL_INT) (column gs[p] j)) =
          slotsOf keys.length (pagesAccum sigils (gs.take (p + 1))) :=
      slotsOf_congr fun j _ => by rw [htake, pagesAccum_concat]
    rw [hzero, hall] at hfields
    rw [hfields, ok_bind]
    exact h.paxPagesLoop_of hlens hfits (n := n) (p := p + 1) (by omega) (by omega)

end

section

variable {keys : List String} {rows : List RecordRow} {pageSize : UInt32} {file : Slice}

theorem finishPax_sealed (hlen : keys.length < 65536) (hnul : ∀ k ∈ keys, NulFree k)
    (h : finishPax keys rows pageSize = .ok file) : ∃ gs st,
      SealedPax keys (sigilsForKeys keys rows) gs st
        (32 + (buildSchema keys (sigilsForKeys keys rows)).length + st.data.length) file ∧
      gs.flatten = rows ∧ PagesOf pageSize.toNat gs := by
  rw [finishPax] at h
  obtain ⟨_, hps, h⟩ := bind_eq_ok.mp h
  obtain ⟨st, hloop, h⟩ := bind_eq_ok.mp h
  rw [ensure_eq_ok] at hps
  obtain ⟨gs, hem, hflat, -, hpages⟩ := paxLoop_emitted (PaxStreamWriter.toNat_pos hps) .nil hloop
  have hbytes := Slice.ofBytes_eq_ok.mp h
  rw [sealPax] at hbytes
  refine ⟨gs, st, ⟨hlen, hnul, sigilsForKeys_length keys rows, zero_not_mem_sigilsForKeys keys rows, hem, .inr rfl, ?_⟩,
    hflat, hpages⟩
  rw [hflat]
  exact ⟨_, _, hbytes⟩

/-- The tail-index of a PAX file. -/
theorem SealedPax.tail_parts {sigils : List UInt8} {gs : List (List RecordRow)} {st : PaxPages} {preambleTail : ℕ}
    (h : SealedPax keys sigils gs st preambleTail file) :
    word file.bytes (file.bytes.length - 28) 8 = 32 + (buildSchema keys sigils).length + st.data.length ∧
      At file.bytes (file.bytes.length - 28 + 16) (leBytes 4 st.pages.length) ∧
      32 + (buildSchema keys sigils).length + st.data.length + st.pages.length * 28 + 28 = file.bytes.length := by
  have hsmall := file.small
  obtain ⟨-, -, -, pageSize, htail, hlen⟩ := h.sectors
  have hentries : (st.pages.flatMap pageEntryBytes).length = st.pages.length * 28 :=
    length_flatMap_const fun e _ => pageEntryBytes_length e
  rw [buildPaxTail] at htail hlen
  simp only [at_append, List.length_append, leBytes_length, hentries] at htail hlen
  obtain ⟨⟨⟨⟨⟨-, hptr⟩, -⟩, hcount⟩, -⟩, -⟩ := htail
  have hplace : file.bytes.length - 28 =
      32 + (buildSchema keys sigils).length + st.data.length + st.pages.length * 28 := by omega
  refine ⟨?_, ?_, by omega⟩
  · rw [hplace]
    exact word_leBytes hptr (by omega)
  · rw [hplace]
    exact hcount

end

/-! ## Row files -/

/-- The bytes of a cell of a record. -/
def cellAccum : Cell → FieldAccum
  | .absent => 0
  | .binary _ => 0
  | .bool _ => ⟨1, 7, 0, 0⟩
  | .str s => ⟨4 + (utf8 s).length, padLen 8 (4 + (utf8 s).length), 0, 0⟩
  | _ => ⟨8, 0, 0, 0⟩

/-- The size of the cell is that of its kind: it does not start with the magic number of an object, and a string is at most
a gigabyte long. -/
def Cell.Measured : Cell → Prop
  | .i64 v => v.toUInt64.toNat % 256 ^ 4 ≠ MAGIC_OBJ
  | .time v => v.toUInt64.toNat % 256 ^ 4 ≠ MAGIC_OBJ
  | .f64 v => v.bits.toNat % 256 ^ 4 ≠ MAGIC_OBJ
  | .str s => (utf8 s).length ≤ 1024 * 1024 * 1024
  | _ => True

instance : DecidablePred Cell.Measured
  | .i64 v => inferInstanceAs (Decidable (v.toUInt64.toNat % 256 ^ 4 ≠ MAGIC_OBJ))
  | .time v => inferInstanceAs (Decidable (v.toUInt64.toNat % 256 ^ 4 ≠ MAGIC_OBJ))
  | .f64 v => inferInstanceAs (Decidable (v.bits.toNat % 256 ^ 4 ≠ MAGIC_OBJ))
  | .str s => inferInstanceAs (Decidable ((utf8 s).length ≤ 1024 * 1024 * 1024))
  | .absent | .null | .bool _ | .binary _ => .isTrue trivial

/-- The bytes of a field in some records. -/
def rowsAccum (rows : List RecordRow) (fi : ℕ) : FieldAccum := (rows.map fun row => cellAccum (row.cell fi)).sum

theorem rowsAccum_concat (rows : List RecordRow) (row : RecordRow) (fi : ℕ) :
    rowsAccum (rows ++ [row]) fi = rowsAccum rows fi + cellAccum (row.cell fi) := by
  rw [rowsAccum, List.map_append, List.sum_append, List.map_singleton, List.sum_singleton, rowsAccum]

theorem cellAccum_bytes (c : Cell) : (cellAccum c).bytes = (c.rowBytes.elim [] id).length := by
  cases c with
  | str s =>
    have hsize := prefixed_size (utf8 s)
    rw [Cell.rowBytes, Option.elim_some, id, hsize]
    rfl
  | i64 v | time v =>
    rw [Cell.rowBytes, Option.elim_some, id, i64Bytes_length]
    rfl
  | f64 v =>
    rw [Cell.rowBytes, Option.elim_some, id, f64Bytes_length]
    rfl
  | _ => rfl

theorem cellValues_size : ∀ (cells : List Cell) (fi : ℕ), (objectValues (cellValues fi cells)).length =
    (cells.map fun c => (cellAccum c).bytes).sum
  | [], _ => rfl
  | c :: cells, fi => by
    have ih := cellValues_size cells (fi + 1)
    rw [cellValues, objectValues, List.flatMap_append, List.length_append, List.map_cons, List.sum_cons, cellAccum_bytes, ← ih]
    cases c.rowBytes with
    | none => rfl
    | some b => simp [objectValues]

/-- A sum over the slots is one over the cells that are there. -/
theorem sum_getD {α : Type} {f : α → ℕ} {a : α} (ha : f a = 0) : ∀ {l : List α} {n : ℕ}, l.length ≤ n →
    ((List.range n).map fun i => f (l.getD i a)).sum = (l.map f).sum
  | [], n, _ => by
    rw [List.map_nil, List.sum_nil, List.sum_eq_zero]
    intro x hx
    obtain ⟨i, -, rfl⟩ := List.mem_map.mp hx
    exact ha
  | x :: l, 0, h => absurd h (by simp)
  | x :: l, n + 1, h => by
    have ih := sum_getD ha (l := l) (n := n) (Nat.le_of_succ_le_succ h)
    rw [List.range_succ_eq_map, List.map_cons, List.sum_cons, List.map_map, List.map_cons, List.sum_cons, ← ih]
    rfl

section

variable {keys : List String} {kinds : List UInt8} {rows : List RecordRow}

/-- The records of a table are their cells and their headers. -/
theorem rowsBytes_split (h : ∀ row ∈ rows, RowFits keys row) : (rowsBytes keys.length rows).length =
    ((List.range keys.length).map fun fi => (rowsAccum rows fi).bytes).sum + rows.length * objectStart keys.length := by
  induction rows using List.reverseRecOn with
  | nil => simp [rowsBytes, rowsAccum]
  | append_singleton rows row ih =>
    have hrow := h row (List.mem_append_right rows List.mem_cons_self)
    have hsplit : ((List.range keys.length).map fun fi => (rowsAccum (rows ++ [row]) fi).bytes).sum =
        ((List.range keys.length).map fun fi => (rowsAccum rows fi).bytes).sum +
          (objectValues (rowValues row)).length := by
      rw [rowValues, cellValues_size, ← sum_getD (f := fun c => (cellAccum c).bytes) (a := Cell.absent) rfl hrow.length,
        ← List.sum_map_add]
      refine congrArg List.sum (List.map_congr_left fun fi _ => ?_)
      rw [rowsAccum_concat, bytes_add]
      rfl
    have hobj : (objectBytes keys.length (rowValues row)).length = objectLen keys.length (rowValues row) :=
      objectBytes_length (rowValues_length hrow)
    rw [rowsBytes, List.flatMap_append, List.length_append, List.flatMap_singleton, hobj, objectLen, hsplit,
      List.length_append, List.length_singleton, Nat.add_mul, Nat.one_mul]
    have ih' := ih fun row' hrow' => h row' (List.mem_append_left _ hrow')
    unfold rowsBytes at ih'
    omega

end

/-! ## The cells of a record -/

/-- The first four bytes of a word of eight. -/
theorem readLE_head {d : Bytes} {p n : ℕ} (hat : At d p (leBytes 8 n)) (hd : d.length < 2 ^ 63) :
    (readLE d p 4 : Res ℕ) = .ok (n % 256 ^ 4) := by
  rw [show (8 : ℕ) = 4 + 4 from rfl, leBytes_add, at_append] at hat
  exact readLE_leBytes_mod hat.1 hd

/-- The parts of a stored cell, as its sigil tells them. -/
theorem rowValueWireParts_of {d b : Bytes} {p slot : ℕ} {c : Cell} (hat : At d p b) (hb : c.rowBytes = some b)
    (hnull : c ≠ .null) (hc : c.Measured) (hd : d.length < 2 ^ 63) :
    rowValueWireParts d p c.sigil none slot = .ok ((cellAccum c).payload, (cellAccum c).padding) := by
  have hle := hat.le
  cases c with
  | absent => cases hb
  | null => exact absurd rfl hnull
  | binary b => cases hb
  | i64 v | time v =>
    cases hb
    rw [i64Bytes_length] at hle
    rw [rowValueWireParts, ensure_of (by omega), ok_bind, if_pos (by omega), readLE_head hat hd, ok_bind, ok_bind,
      decide_eq_false hc]
    rfl
  | f64 v =>
    cases hb
    rw [f64Bytes_length] at hle
    rw [rowValueWireParts, ensure_of (by omega), ok_bind, if_pos (by omega), readLE_head hat hd, ok_bind, ok_bind,
      decide_eq_false hc]
    rfl
  | bool v =>
    cases hb
    have hword : At d p (leBytes 8 (if v then 1 else 0)) := by
      cases v <;> exact hat
    rw [List.length_cons, zeros_length] at hle
    rw [rowValueWireParts, ensure_of (by omega), ok_bind, if_pos (by omega), readLE_head hword hd, ok_bind, ok_bind]
    cases v <;> rfl
  | str s =>
    cases hb
    have hsize := prefixed_size (utf8 s)
    rw [hsize] at hle
    rw [prefixed, padTo, at_append, at_append, leBytes_length] at hat
    have hshort : (utf8 s).length ≤ 1024 * 1024 * 1024 := hc
    have hread := readLE_leBytes (ε := NxsError) hat.1.1 (by omega) hd
    have hmagic : (utf8 s).length ≠ MAGIC_OBJ := by
      unfold MAGIC_OBJ
      omega
    rw [show (Cell.str s).sigil = SIGIL_STR from rfl, rowValueWireParts, ensure_of (by omega), ok_bind, if_pos (by omega),
      hread, ok_bind, ok_bind, decide_eq_false hmagic]
    dsimp only
    rw [if_neg Bool.false_ne_true, if_neg (by decide), if_neg (by decide), if_neg (by decide), if_pos (Or.inl rfl),
      Option.map_none, Option.getD_none, ensure_of (by omega), ok_bind, readStrCellLen, if_pos (Or.inr rfl), usizeAdd_of (by omega), ok_bind, ensure_of (by omega), ok_bind, hread, ok_bind,
      ensure_of (by omega), ok_bind]
    rfl

namespace RowTable

variable {r : Reader} {keys : List String} {kinds : List UInt8} {rows : List RecordRow} (h : RowTable r keys rows)
  (htyped : TypedTable keys kinds rows)

include h htyped

theorem sigil_of {row : RecordRow} (hrow : row ∈ rows) {fi : ℕ} (hfi : fi < keys.length) (hcell : row.cell fi ≠ .absent) :
    r.keySigils.getD fi 0 = (row.cell fi).sigil := by
  obtain ⟨hnoted, hne⟩ := htyped.noted hrow hfi hcell
  rw [h.keySigils, schemaSigils, List.getD_eq_getElem?_getD, List.getElem?_map, List.getElem?_range hfi, Option.map_some,
    Option.getD_some, hnoted, schemaSigil, if_neg hne]

/-- A cell of a record, added to its field. -/
theorem rowSlotStep_of {off fi : ℕ} {row : RecordRow} {f g : ℕ → FieldAccum}
    (hat : At r.data off (objectBytes keys.length (rowValues row))) (hrow : row ∈ rows) (hoffs : OffsetsFit keys.length row)
    (hmeasured : (row.cell fi).Measured) (hfi : fi < keys.length) (hfg : g fi = f fi)
    (hfits : (f fi + cellAccum (row.cell fi)).bytes < 2 ^ 64) :
    rowSlotStep r.data none false r.keySigils off (slotsOf keys.length g) fi =
      .ok (slotsOf keys.length fun j => if j = fi then f fi + cellAccum (row.cell fi) else g j) := by
  have hrowfits := htyped.rowFits hrow
  rw [rowSlotStep]
  cases hb : (row.cell fi).rowBytes with
  | none =>
    have habs := absent_of_rowBytes hrowfits hb
    rw [resolveSlot_object_absent hat (rowValues_length hrowfits) h.small (objectSlots_row_absent hb), habs]
    refine congrArg Outcome.ok (slotsOf_congr fun j _ => ?_)
    by_cases hj : j = fi
    · rw [if_pos hj, hj, hfg]
      exact (add_zero (f fi)).symm
    · rw [if_neg hj]
  | some b =>
    have hcell : row.cell fi ≠ .absent := by
      intro habs
      rw [habs] at hb
      cases hb
    have hnull : row.cell fi ≠ .null := by
      intro hnull
      have hmem := (htyped.mem_kinds hrow (cell_mem hcell)).resolve_left hcell
      rw [hnull] at hmem
      exact absurd hmem (by decide)
    obtain ⟨p, -, hplace⟩ := resolveSlot_row hrowfits hoffs hb
    obtain ⟨hres, hval⟩ := hplace hat h.small
    rw [hres, h.sigil_of htyped hrow hfi hcell]
    dsimp only
    rw [rowValueWireParts_of hval hb hnull hmeasured h.small, ok_bind]
    have hpart : (⟨(cellAccum (row.cell fi)).payload, (cellAccum (row.cell fi)).padding, 0, 0⟩ : FieldAccum) =
        cellAccum (row.cell fi) := by
      cases row.cell fi <;> rfl
    dsimp only
    rw [hpart, addPart_slotsOf _ hfi (by rw [hfg]; exact hfits), hfg]

/-- The records of a table, added to the fields. -/
theorem analyzeRowFields_of (hfits : PlainRowsFit keys rows) (hmeasured : ∀ row ∈ rows, ∀ fi, (row.cell fi).Measured)
    (decoded : DecodedFile) (hflags : decoded.flags = FLAG_SCHEMA_EMBEDDED) (hkeys : decoded.keys = keys)
    (hsigils : decoded.keySigils = r.keySigils) (hcount : decoded.recordCount = rows.length) :
    analyzeRowFields r.data r decoded = .ok (statsOf keys r.keySigils (rowsAccum rows)) := by
  have hrows : ∀ row ∈ rows, RowFits keys row := fun row hrow => htyped.rowFits hrow
  have hmany : rows.length < 2 ^ 32 := lt_of_le_of_lt (rows_le_bytes hrows) hfits.sector
  have hsplit := rowsBytes_split hrows
  have hsector := hfits.sector
  have hbound : ∀ fi < keys.length, (rowsAccum rows fi).bytes < 2 ^ 32 := by
    intro fi hfi
    have hle := List.single_le_sum (fun x _ => Nat.zero_le x) _
      (List.mem_map.mpr ⟨fi, List.mem_range.mpr hfi, rfl⟩ :
        (rowsAccum rows fi).bytes ∈ (List.range keys.length).map fun fi => (rowsAccum rows fi).bytes)
    omega
  have hloop : ∀ k ≤ rows.length, (List.range k).foldlM (rowRecordStep r.data r none false keys.length r.keySigils)
      (List.replicate keys.length 0) = .ok (slotsOf keys.length (rowsAccum (rows.take k))) := by
    intro k hk
    induction k with
    | zero => exact congrArg Outcome.ok (slotsOf_zero keys.length).symm
    | succ k ih =>
      have hget := List.getElem?_eq_getElem (show k < rows.length by omega)
      have hmem := List.getElem_mem (show k < rows.length by omega)
      obtain ⟨off, hrecord, hat⟩ := h.record hrows hsector hmany hget
      have htake : rows.take (k + 1) = rows.take k ++ [rows[k]] := (List.take_concat_get' rows k (by omega)).symm
      have hpart : ∀ fi < keys.length, (rowsAccum (rows.take k) fi + cellAccum (rows[k].cell fi)).bytes < 2 ^ 64 := by
        intro fi hfi
        have hall := hbound fi hfi
        rw [← rowsAccum_concat, ← htake]
        have hrest : rowsAccum rows fi = rowsAccum (rows.take (k + 1)) fi + rowsAccum (rows.drop (k + 1)) fi := by
          conv_lhs => rw [← List.take_append_drop (k + 1) rows]
          rw [rowsAccum, List.map_append, List.sum_append]
          rfl
        rw [hrest, bytes_add] at hall
        omega
      have hrecordLoop := slots_loop (n := keys.length) (f := rowsAccum (rows.take k))
        (rowSlotStep r.data none false r.keySigils (tableStart keys rows + off))
        (fun fi => cellAccum (rows[k].cell fi)) fun fi hfi g hg =>
          h.rowSlotStep_of htyped hat hmem (hfits.offsets _ hmem) (hmeasured _ hmem fi) hfi hg (hpart fi hfi)
      rw [List.range_succ, List.foldlM_append, ih (by omega), ok_bind, List.foldlM_cons, rowRecordStep, hrecord, okOr_ok,
        ok_bind, if_neg (by simp), ok_bind]
      dsimp only
      rw [hrecordLoop, ok_bind, List.foldlM_nil]
      exact congrArg Outcome.ok (slotsOf_congr fun fi _ => by rw [htake, rowsAccum_concat])
  have hall := hloop rows.length (Nat.le_refl _)
  rw [List.take_length] at hall
  rw [analyzeRowFields, hflags, hkeys, hsigils, hcount, if_neg (by decide), ok_bind,
    show hasFlag FLAG_SCHEMA_EMBEDDED FLAG_DENSE_FRAMES = false from rfl]
  dsimp only
  rw [hall, ok_bind]
  exact accumStats_of fun fi hfi => lt_trans (hbound fi hfi) (by decide)

end RowTable

def badgeRows : List RecordRow := [⟨[.i64 1, .str "ann"]⟩, ⟨[.absent, .str "bob"]⟩]

end Nyxis

import Nyxis.PaxStream
import Nyxis.StoredTable

/-!
# PaxFile — reading a sealed PAX file

`PaxReader r … gs st` says that the open file `r` holds the pages `st` of the groups of rows `gs`.  The
tail-index then gives the record range of each page (`PaxReader.entry`), the bisection finds the page
of a record (`PaxReader.locate`), and the column walk finds the sector of a field on a page
(`PaxReader.columnSector`), so that the file holds the rows (`PaxReader.holds`).

* `finish_stream_reads`: a stream of pushes and flushes reads back as the rows pushed.
-/

namespace Nyxis

open Lib Lib.Outcome

/-- An open PAX file with the pages of `gs`. -/
structure PaxReader (r : Reader) (base fieldCount : ℕ) (sigils : List UInt8)
    (gs : List (List RecordRow)) (st : PaxPages) : Prop where
  small : r.data.length < 2 ^ 63
  layout : r.layout = .pax
  keySigils : r.keySigils = sigils
  sigils_length : sigils.length = fieldCount
  fieldCount_lt : fieldCount < 65536
  keys_length : r.keys.length = fieldCount
  emitted : Emitted base fieldCount sigils gs st
  data_at : At r.data base st.data
  entries_at : At r.data r.tailStart (st.pages.flatMap pageEntryBytes)
  count_at : At r.data (r.data.length - 28 + 16) (leBytes 4 st.pages.length)
  tail_le : r.tailStart + 28 ≤ r.data.length
  recordCount : r.recordCount = gs.flatten.length

/-! ## The tail-index -/

@[simp] theorem pageEntryBytes_length (e : PaxPageMeta) : (pageEntryBytes e).length = 28 := by
  simp [pageEntryBytes]

theorem at_pageEntry {d : Bytes} {p : ℕ} {e : PaxPageMeta} (h : At d p (pageEntryBytes e)) :
    At d (p + 4) (leBytes 8 e.recordStart) ∧ At d (p + 12) (leBytes 4 e.recordCount) ∧
      At d (p + 16) (leBytes 8 e.pageOffset) := by
  rw [pageEntryBytes, at_append, at_append, at_append, at_append] at h
  obtain ⟨⟨⟨⟨-, hstart⟩, hcount⟩, hoff⟩, -⟩ := h
  simp only [List.length_append, leBytes_length] at hstart hcount hoff
  exact ⟨hstart, hcount, hoff⟩

theorem paxEntry_of {r : Reader} {k field w v : ℕ} (hsmall : r.data.length < 2 ^ 63)
    (h : At r.data (r.tailStart + k * 28 + field) (leBytes w v)) (hv : v < 256 ^ w) :
    r.paxEntry k field w = .ok v := by
  have hle := h.le
  rw [leBytes_length] at hle
  have hget := getRange_at h
  rw [leBytes_length, Nat.add_assoc (r.tailStart + k * 28)] at hget
  rw [Reader.paxEntry, checkedMul_of (by omega), ok_bind, checkedAdd_of (by omega), ok_bind,
    checkedAdd_of (by omega), ok_bind, checkedAdd_of (by omega), ok_bind, hget, ok_bind,
    leNat_leBytes hv]

namespace PaxReader

variable {r : Reader} {base fieldCount : ℕ} {sigils : List UInt8} {gs : List (List RecordRow)}
  {st : PaxPages}

theorem flatten_lt (h : PaxReader r base fieldCount sigils gs st) : gs.flatten.length < 2 ^ 64 :=
  h.emitted.flatten_lt

theorem groupStart_le (gs : List (List RecordRow)) (k : ℕ) :
    groupStart gs k ≤ gs.flatten.length := by
  rcases Nat.le_total k gs.length with hk | hk
  · rw [← groupStart_length]
    exact groupStart_mono gs hk
  · rw [groupStart, List.take_of_length_le hk]

/-- What the tail-index says about page `k`, and the page itself. -/
theorem entry (h : PaxReader r base fieldCount sigils gs st) {k : ℕ} {g : List RecordRow}
    (hk : gs[k]? = some g) :
    r.paxPageRecStart k = .ok (groupStart gs k) ∧ r.paxPageRecCount k = .ok g.length ∧
      ∃ page off, r.paxEntry k 16 8 = .ok off ∧ At r.data off page ∧
        encodePage k (groupStart gs k) g.length fieldCount sigils g = .ok page := by
  obtain ⟨page, off, henc, hentry, hat⟩ := h.emitted.page hk
  have hfit := h.emitted.fits g (List.mem_of_getElem? hk)
  have hstart := groupStart_le gs k
  have htotal := h.flatten_lt
  have hpage := h.data_at.trans hat
  have hple := hpage.le
  have hsmall := h.small
  have he := h.entries_at.trans (at_flatMap_const (fun e _ => pageEntryBytes_length e) hentry)
  obtain ⟨hs, hc, ho⟩ := at_pageEntry he
  refine ⟨paxEntry_of hsmall hs (by omega), paxEntry_of hsmall hc hfit.2, page, base + off,
    paxEntry_of hsmall ho (by omega), hpage, henc⟩

theorem pageCount (h : PaxReader r base fieldCount sigils gs st) : r.pageCount = .ok gs.length := by
  obtain ⟨-, hlen, -, hcount⟩ := h.emitted.counts
  have hat := h.count_at
  rw [hlen] at hat
  have htail := h.tail_le
  rw [Reader.pageCount, if_neg (by simp [h.layout]), if_neg (by omega),
    readLE_leBytes hat (by omega) h.small]

/-! ## The page of a record -/

/-- The bisection for a page, on `i32` bounds, computes no sum that overflows. -/
def SearchFits (pages k : ℕ) : Prop := ∀ s ∈ bisectSums k 33 0 (pages - 1), s < 2 ^ 31

instance (pages k : ℕ) : Decidable (SearchFits pages k) :=
  inferInstanceAs (Decidable (∀ s ∈ bisectSums k 33 0 (pages - 1), s < 2 ^ 31))

theorem searchFits_of_le {pages : ℕ} (h : pages ≤ 2 ^ 30) (k : ℕ) : SearchFits pages k := by
  intro s hs
  have := bisectSums_le s hs
  omega

/-- The bisection finds the page of a record between its bounds, unless a sum overflows. -/
theorem locateLoop (h : PaxReader r base fieldCount sigils gs st) {k j : ℕ} {g : List RecordRow}
    (hk : gs[k]? = some g) (hj : j < g.length) :
    ∀ (fuel : ℕ) (lo hi : ℤ), 0 ≤ lo → lo ≤ k → (k : ℤ) ≤ hi → hi < gs.length → hi - lo < 2 ^ fuel →
      r.paxLocateLoop (groupStart gs k + j) (fuel + 1) lo hi =
        if ∀ s ∈ bisectSums k (fuel + 1) lo hi, s < 2 ^ 31 then .ok (k, j) else .panic
  | fuel, lo, hi, hlo, hlk, hkhi, hhi, hfuel => by
    have hle : lo ≤ hi := by omega
    rw [Reader.paxLocateLoop, bisectSums, if_pos hle, if_pos hle]
    simp only [List.forall_mem_cons]
    by_cases hsum : lo + hi < 2 ^ 31
    · obtain ⟨m, hm⟩ : ∃ m : ℕ, (lo + hi) / 2 = m := ⟨((lo + hi) / 2).toNat, by omega⟩
      obtain ⟨g', hg'⟩ : ∃ g', gs[m]? = some g' :=
        ⟨gs.get ⟨m, by omega⟩, List.getElem?_eq_getElem (by omega)⟩
      obtain ⟨hstart, hcount, -⟩ := h.entry hg'
      have hsucc := groupStart_succ hg'
      have hbound := groupStart_le gs (m + 1)
      have htotal := h.flatten_lt
      have hfuel' : fuel ≠ 0 ∨ lo = hi := by
        rcases fuel with _ | f
        · right
          simp only [pow_zero] at hfuel
          omega
        · exact .inl (by omega)
      rw [demand_of hsum, ok_bind, hm]
      simp only [Int.toNat_natCast, hsum, true_and]
      rw [hstart, ok_bind, hcount, ok_bind]
      by_cases hlt : groupStart gs k + j < groupStart gs m
      · -- the record lies before page `m`
        have hkm := lt_of_index_lt hlt
        obtain ⟨fuel, rfl⟩ : ∃ f, fuel = f + 1 := ⟨fuel - 1, by omega⟩
        rw [if_pos hlt, if_pos (by omega : (k : ℤ) < m)]
        exact locateLoop h hk hj fuel lo (m - 1) hlo hlk (by omega) (by omega)
          (by rw [pow_succ] at hfuel; omega)
      · rw [if_neg hlt, usizeAdd_of (by omega), ok_bind]
        by_cases hge : groupStart gs k + j ≥ groupStart gs m + g'.length
        · -- the record lies behind page `m`
          have hmk := lt_of_le_index hk hj (by omega : groupStart gs (m + 1) ≤ groupStart gs k + j)
          obtain ⟨fuel, rfl⟩ : ∃ f, fuel = f + 1 := ⟨fuel - 1, by omega⟩
          rw [if_pos hge, if_neg (by omega : ¬ (k : ℤ) < m), if_pos (by omega : (m : ℤ) < k)]
          exact locateLoop h hk hj fuel (m + 1) hi (by omega) (by omega) hkhi hhi
            (by rw [pow_succ] at hfuel; omega)
        · rw [if_neg hge]
          -- no other page holds the record
          have hkm : k = m := by
            rcases Nat.lt_trichotomy k m with hkm | hkm | hkm
            · have h1 := groupStart_succ hk
              have h2 := groupStart_mono gs (show k + 1 ≤ m by omega)
              omega
            · exact hkm
            · have h2 := groupStart_mono gs (show m + 1 ≤ k by omega)
              omega
          subst hkm
          simp
    · have hnot : (demand (lo + hi < 2 ^ 31) : Opt Unit) = .panic := if_neg hsum
      rw [hnot, panic_bind, if_neg fun hall => hsum hall.1]

/-- With at most `2 ^ 31` pages the page of a record is found, or a sum overflows. -/
theorem locate (h : PaxReader r base fieldCount sigils gs st) (hpages : gs.length ≤ 2 ^ 31)
    {k j : ℕ} {g : List RecordRow} (hk : gs[k]? = some g) (hj : j < g.length) :
    r.paxLocateRecord (groupStart gs k + j) =
      if SearchFits gs.length k then .ok (k, j) else .panic := by
  have hlt := (List.getElem?_eq_some_iff.mp hk).1
  have hi : Reader.asI32 (gs.length - 1) = (gs.length : ℤ) - 1 := by
    unfold Reader.asI32
    rw [Int.bmod_eq_of_le] <;> omega
  rw [Reader.paxLocateRecord, h.pageCount, ok_bind, hi]
  exact h.locateLoop hk hj 32 0 _ (le_refl _) (by omega) (by omega) (by omega) (by omega)

/-- With more pages the upper bound is negative as an `i32`, and no page is found. -/
theorem locate_none (h : PaxReader r base fieldCount sigils gs st) (hpages : 2 ^ 31 < gs.length)
    (i : ℕ) : r.paxLocateRecord i = none' := by
  obtain ⟨-, -, -, hcount⟩ := h.emitted.counts
  have hi : Reader.asI32 (gs.length - 1) < 0 := by
    unfold Reader.asI32
    rw [Int.bmod_def]
    omega
  rw [Reader.paxLocateRecord, h.pageCount, ok_bind, Reader.paxLocateLoop, if_neg (by omega)]

/-! ## The columns of a page -/

/-- The walk over the columns of a page ends behind the columns walked over. -/
theorem columnWalk (h : PaxReader r base fieldCount sigils gs st) {g : List RecordRow}
    {cols : List Bytes} (hcols : encodeColumns fieldCount sigils g = .ok cols) :
    ∀ (n fi body : ℕ), fi + n ≤ fieldCount → At r.data body (cols.drop fi).flatten →
      r.paxColumnWalk g.length n fi body = .ok (body + ((cols.drop fi).take n).flatten.length) ∧
        At r.data (body + ((cols.drop fi).take n).flatten.length) (cols.drop (fi + n)).flatten
  | 0, fi, body, _, hat => by
    simpa [Reader.paxColumnWalk] using hat
  | n + 1, fi, body, hfi, hat => by
    obtain ⟨hlen, hspec⟩ := encodeColumns_spec hcols
    obtain ⟨s, hs, henc⟩ := hspec fi (by omega)
    have hdrop : cols.drop fi = s :: cols.drop (fi + 1) := by
      obtain ⟨hlt, rfl⟩ := List.getElem?_eq_some_iff.mp hs
      exact List.drop_eq_getElem_cons hlt
    have hsmall := h.small
    rw [hdrop, List.flatten_cons, at_append] at hat
    obtain ⟨hsec, hrest⟩ := hat
    have hle := hsec.le
    obtain ⟨rest, hrest'⟩ := hsec.drop_eq
    have hslen := columnSectorLen_encode henc hrest' (by rw [List.length_drop]; omega)
      (column_length g fi).symm
    have hsig : r.keySigils.getD fi SIGIL_INT = sigils.getD fi SIGIL_INT := by rw [h.keySigils]
    obtain ⟨hwalk, hend⟩ := h.columnWalk hcols n (fi + 1) (body + s.length) (by omega) hrest
    rw [Reader.paxColumnWalk, ensure_of (by omega), ok_bind, hsig, hslen, ok_bind,
      checkedAdd_of (by omega), okOr_ok, ok_bind, hwalk, hdrop, List.take_succ_cons, List.flatten_cons,
      List.length_append]
    rw [Nat.add_assoc, Nat.add_assoc, Nat.add_comm 1 n] at hend
    exact ⟨by rw [Nat.add_assoc], hend⟩

/-- The sector of a field on a page. -/
theorem columnSector (h : PaxReader r base fieldCount sigils gs st) {k fi : ℕ}
    {g : List RecordRow} (hk : gs[k]? = some g) (hfi : fi < fieldCount) :
    ∃ s, r.paxColumnSector k fi = .ok s ∧
      encodeFieldColumn (column g fi) (sigils.getD fi SIGIL_INT) = .ok s ∧ s.length < 2 ^ 63 := by
  obtain ⟨-, -, page, poff, hoff, hpage, henc⟩ := h.entry hk
  obtain ⟨cols, hcols, rfl⟩ := encodePage_eq_ok.mp henc
  obtain ⟨hlen, hspec⟩ := encodeColumns_spec hcols
  obtain ⟨s, hs, hcol⟩ := hspec fi hfi
  have hsmall := h.small
  have hfc := h.fieldCount_lt
  have hfit := h.emitted.fits g (List.mem_of_getElem? hk)
  rw [padTo, at_append, at_append, at_append, at_append, at_append, at_append, at_append,
    at_append] at hpage
  obtain ⟨⟨⟨⟨⟨⟨⟨⟨hmagic, -⟩, -⟩, hcount⟩, hfields⟩, -⟩, hbody⟩, -⟩, -⟩ := hpage
  simp only [List.length_append, leBytes_length] at hcount hfields hbody
  have hble := hbody.le
  obtain ⟨hwalk, hat⟩ := h.columnWalk hcols fi 0 (poff + 24) (by omega) hbody
  have hdrop : cols.drop (0 + fi) = s :: cols.drop (fi + 1) := by
    obtain ⟨hlt, rfl⟩ := List.getElem?_eq_some_iff.mp hs
    rw [Nat.zero_add]
    exact List.drop_eq_getElem_cons hlt
  rw [hdrop, List.flatten_cons, at_append] at hat
  obtain ⟨hsec, -⟩ := hat
  have hsle := hsec.le
  obtain ⟨rest, hrest⟩ := hsec.drop_eq
  have hslen := columnSectorLen_encode hcol hrest (by rw [List.length_drop]; omega)
    (column_length g fi).symm
  have hsig : r.keySigils.getD fi SIGIL_INT = sigils.getD fi SIGIL_INT := by rw [h.keySigils]
  refine ⟨s, ?_, hcol, by omega⟩
  rw [Reader.paxColumnSector, hoff, okOr_ok, ok_bind, ensure_of (by omega), ok_bind,
    readLE_leBytes hmagic (by decide) hsmall, ok_bind, ensure_of rfl, ok_bind,
    readLE_leBytes hcount hfit.2 hsmall, ok_bind, readLE_leBytes hfields (by omega) hsmall, ok_bind,
    ensure_of (by omega), ok_bind, checkedAdd_of (by omega), okOr_ok, ok_bind, hwalk, ok_bind,
    ensure_of (by omega), ok_bind, hsig, hslen, ok_bind, ensure_of (by omega), ok_bind,
    range_at hsec]

/-! ## The cells of a record -/

theorem keySigil_of (h : PaxReader r base fieldCount sigils gs st) {fi : ℕ} (hfi : fi < fieldCount) :
    r.keySigils[fi]? = some (sigils.getD fi SIGIL_INT) := by
  have hlen := h.sigils_length
  rw [h.keySigils, List.getD_eq_getElem?_getD, List.getElem?_eq_getElem (by omega)]
  rfl

theorem getWord (h : PaxReader r base fieldCount sigils gs st) {k j fi w : ℕ}
    {g : List RecordRow} {row : RecordRow} (hk : gs[k]? = some g) (hj : g[j]? = some row)
    (hloc : r.paxLocateRecord (groupStart gs k + j) = .ok (k, j)) (hfi : fi < fieldCount)
    (hw : w ≤ 8) :
    r.paxGetWord w (groupStart gs k + j) fi =
      storedWord (sigils.getD fi SIGIL_INT) w (row.cell fi) := by
  have hjlt := (List.getElem?_eq_some_iff.mp hj).1
  have hfit := h.emitted.fits g (List.mem_of_getElem? hk)
  obtain ⟨-, hcount, -⟩ := h.entry hk
  obtain ⟨s, hsec, hcol, hssmall⟩ := h.columnSector hk hfi
  have hcell : (column g fi)[j]? = some (row.cell fi) := by
    rw [column, List.getElem?_map, hj]
    rfl
  rw [Reader.paxGetWord, hloc, ok_bind]
  simp only []
  rw [Reader.keySigil, h.keySigil_of hfi, ofOption_some, ok_bind]
  rcases encodeFieldColumn_eq_ok.mp hcol with ⟨hv, -, -⟩ | ⟨hv, -, rfl⟩
  · rw [ensure_not (not_not_intro hv), err_bind, storedWord, if_pos hv]
  · have hbmle := le_nullBitmapBytes g.length
    obtain ⟨hbm, hvals⟩ := range_fixedColumn (ε := NxsError) (sigils.getD fi SIGIL_INT) (column g fi)
    have hslen := fixedColumn_length (sigils.getD fi SIGIL_INT) (column g fi)
    rw [column_length] at hbm hvals hslen
    have hparts : r.paxPageFieldParts k fi =
        .ok (encodeNullBitmap (column g fi),
          writeFixedBuffer (column g fi) (fixedBytes (sigils.getD fi SIGIL_INT))) := by
      rw [Reader.paxPageFieldParts, hsec, ok_bind, hcount, okOr_ok, ok_bind,
        nullBitmapLen_of (by omega), ok_bind, ensure_of (by omega), ok_bind]
      dsimp only
      rw [ensure_of (by omega), ok_bind, hbm, ok_bind, hvals, ok_bind]
    rw [ensure_of (by rw [hv]; simp), ok_bind, hparts, toOpt_ok, ok_bind]
    dsimp only
    rw [bitAt_encodeNullBitmap hcell, ok_bind, storedWord, if_neg (by rw [hv]; simp)]
    by_cases hpop : cellPopulated (row.cell fi) = true
    · rw [if_pos hpop, ensure_of hpop, ok_bind,
        getLE_fixed_cell hcell hpop hw (by rw [column_length]; omega)]
    · rw [if_neg hpop, ensure_not hpop, err_bind]

theorem getStr (h : PaxReader r base fieldCount sigils gs st) {k j fi : ℕ}
    {g : List RecordRow} {row : RecordRow} (hk : gs[k]? = some g) (hj : g[j]? = some row)
    (hloc : r.paxLocateRecord (groupStart gs k + j) = .ok (k, j)) (hfi : fi < fieldCount) :
    r.paxGetStr (groupStart gs k + j) fi = storedStr (sigils.getD fi SIGIL_INT) (row.cell fi) := by
  have hjlt := (List.getElem?_eq_some_iff.mp hj).1
  have hfit := h.emitted.fits g (List.mem_of_getElem? hk)
  obtain ⟨-, hcount, -⟩ := h.entry hk
  obtain ⟨s, hsec, hcol, hssmall⟩ := h.columnSector hk hfi
  have hcell : (column g fi)[j]? = some (row.cell fi) := by
    rw [column, List.getElem?_map, hj]
    rfl
  rw [Reader.paxGetStr, hloc, ok_bind]
  simp only []
  rw [h.keySigil_of hfi, storedStr]
  by_cases hstr : sigils.getD fi SIGIL_INT = SIGIL_STR
  · rw [hstr] at hcol
    rw [if_pos hstr, hstr, ensure_of rfl, ok_bind]
    rcases encodeFieldColumn_eq_ok.mp hcol with ⟨-, hfits, rfl⟩ | ⟨hv, -, -⟩
    · have hvlen := varColumn_length (column g fi)
      rw [column_length] at hvlen
      have hparts : r.paxPageFieldVarParts k fi = .ok (encodeNullBitmap (column g fi),
          (varOffsets (column g fi)).flatMap (leBytes 4), varValues (column g fi)) := by
        rw [Reader.paxPageFieldVarParts, hsec, ok_bind, hcount, okOr_ok, ok_bind,
          colVarParts_varColumn (column_length g fi).symm hssmall]
      rw [hparts, toOpt_ok, ok_bind]
      dsimp only
      rw [bitAt_encodeNullBitmap hcell, ok_bind]
      by_cases hpop : cellPopulated (row.cell fi) = true
      · rw [if_pos hpop, ensure_of hpop, ok_bind, varStrAt,
          varBinaryAt_encode hcell hfits (by rw [column_length]; omega), ok_bind]
      · rw [if_neg hpop, ensure_not hpop, err_bind]
    · exact absurd hv (by decide)
  · rw [if_neg hstr, ensure_not (by simpa using hstr), err_bind]

theorem record_of (h : PaxReader r base fieldCount sigils gs st) {i : ℕ}
    (hi : i < gs.flatten.length) : r.record i = .ok i := by
  rw [Reader.record, h.recordCount, ensure_of (by omega), ok_bind, if_neg (by simp [h.layout])]

/-- The getters of a record whose page is found. -/
theorem sees (h : PaxReader r base fieldCount sigils gs st) {k j fi : ℕ} {g : List RecordRow}
    {row : RecordRow} {key : String} (hk : gs[k]? = some g) (hj : g[j]? = some row)
    (hloc : r.paxLocateRecord (groupStart gs k + j) = .ok (k, j))
    (hi : groupStart gs k + j < gs.flatten.length) (hfi : fi < fieldCount) (hslot : r.slot key = .ok fi) :
    r.Sees (groupStart gs k + j) key (sigils.getD fi SIGIL_INT) (row.cell fi) := by
  have hrec := h.record_of hi
  have hword := fun w (hw : w ≤ 8) => h.getWord hk hj hloc hfi hw
  constructor
  · rw [Reader.i64At, hrec, ok_bind, Reader.getI64, hslot, ok_bind, h.layout]
    dsimp only
    rw [Reader.paxGetI64, hword 8 (le_refl _)]
  · rw [Reader.f64At, hrec, ok_bind, Reader.getF64, hslot, ok_bind, h.layout]
    dsimp only
    rw [Reader.paxGetF64, hword 8 (le_refl _)]
  · rw [Reader.boolAt, hrec, ok_bind, Reader.getBool, hslot, ok_bind, h.layout]
    dsimp only
    rw [Reader.paxGetBool, hword 1 (by omega)]
  · rw [Reader.strAt, hrec, ok_bind, Reader.getStr, hslot, ok_bind, h.layout]
    exact h.getStr hk hj hloc hfi

/-- The file holds the rows of its pages. -/
theorem holds (h : PaxReader r base fieldCount sigils gs st) (hnd : r.keys.Nodup)
    (hpages : gs.length ≤ 2 ^ 30) : r.Holds r.keys sigils gs.flatten where
  recordCount := h.recordCount
  sees i row fi key hrow hkey := by
    have hi := (List.getElem?_eq_some_iff.mp hrow).1
    obtain ⟨k, j, g, hk, hj, rfl⟩ := exists_group hrow
    have hloc := h.locate (by omega) hk (List.getElem?_eq_some_iff.mp hj).1
    rw [if_pos (searchFits_of_le hpages k)] at hloc
    have hfi : fi < fieldCount := by
      rw [← h.keys_length]
      exact (List.getElem?_eq_some_iff.mp hkey).1
    exact h.sees hk hj hloc hi hfi (Reader.slot_of_nodup hnd hkey)

/-- The getters of a record whose page is not found stop as the bisection does. -/
theorem stops (h : PaxReader r base fieldCount sigils gs st) {i fi : ℕ} {key : String}
    (hi : i < gs.flatten.length) (hslot : r.slot key = .ok fi) (stop : ∀ α, Opt α)
    (hstop : ∀ {α β : Type} (f : α → Opt β), (stop α >>= f) = stop β)
    (hloc : r.paxLocateRecord i = stop _) :
    r.i64At i key = stop _ ∧ r.f64At i key = stop _ ∧ r.boolAt i key = stop _ ∧
      r.strAt i key = stop _ := by
  have hrec := h.record_of hi
  have hword : ∀ w, r.paxGetWord w i fi = stop _ := by
    intro w
    rw [Reader.paxGetWord, hloc, hstop]
  refine ⟨?_, ?_, ?_, ?_⟩
  · rw [Reader.i64At, hrec, ok_bind, Reader.getI64, hslot, ok_bind, h.layout]
    dsimp only
    rw [Reader.paxGetI64, hword, map_eq_pure_bind, hstop]
  · rw [Reader.f64At, hrec, ok_bind, Reader.getF64, hslot, ok_bind, h.layout]
    dsimp only
    rw [Reader.paxGetF64, hword, map_eq_pure_bind, hstop]
  · rw [Reader.boolAt, hrec, ok_bind, Reader.getBool, hslot, ok_bind, h.layout]
    dsimp only
    rw [Reader.paxGetBool, hword, map_eq_pure_bind, hstop]
  · rw [Reader.strAt, hrec, ok_bind, Reader.getStr, hslot, ok_bind, h.layout]
    dsimp only
    rw [Reader.paxGetStr, hloc, hstop]

end PaxReader

/-! ## Opening a sealed file -/

/-- A file of emitted pages is accepted, whether or not its preamble names the tail-index. -/
theorem new_paxFile {keys : List String} {sigils : List UInt8} {gs : List (List RecordRow)}
    {st : PaxPages} {hash : UInt64} {preambleTail pageSize : ℕ} {file : Slice}
    (hem : Emitted (32 + (buildSchema keys sigils).length) keys.length sigils gs st)
    (hfile : file.bytes = preamble VERSION (FLAG_SCHEMA_EMBEDDED ||| FLAG_PAX) hash preambleTail ++
      buildSchema keys sigils ++ st.data ++ buildPaxTail st.pages
        (32 + (buildSchema keys sigils).length + st.data.length) gs.flatten.length pageSize)
    (htail : preambleTail < 2 ^ 64) (hlen : keys.length < 65536) (hnul : ∀ k ∈ keys, NulFree k)
    (hsig : sigils.length = keys.length) (h0 : (0 : UInt8) ∉ sigils) :
    ∃ r, Reader.new file = .ok r ∧ r.keys = keys ∧
      PaxReader r (32 + (buildSchema keys sigils).length) keys.length sigils gs st := by
  have hsmall := file.small
  have hschema := schemaSigils_eq hsig h0
  obtain ⟨-, hplen, -, hpcount⟩ := hem.counts
  set t := 32 + (buildSchema keys sigils).length + st.data.length with ht
  have hbytes : file.bytes = preamble VERSION (FLAG_SCHEMA_EMBEDDED ||| FLAG_PAX) hash preambleTail ++
      (buildSchema keys sigils ++ (st.data ++ (st.pages.flatMap pageEntryBytes ++
        (leBytes 8 t ++ leBytes 8 gs.flatten.length ++ leBytes 4 st.pages.length ++
          leBytes 4 pageSize)))) ++ leBytes 4 MAGIC_FOOTER := by
    rw [hfile, buildPaxTail]
    simp only [List.append_assoc]
  have hentries : ∀ l : List PaxPageMeta, (l.flatMap pageEntryBytes).length = l.length * 28 :=
    fun l => length_flatMap_const fun e _ => pageEntryBytes_length e
  have hflen : file.bytes.length = t + st.pages.length * 28 + 28 := by
    rw [hbytes]
    simp only [List.length_append, preamble_length, leBytes_length, hentries]
    omega
  have hself := at_self file.bytes
  conv at hself => arg 3; rw [hbytes]
  simp only [at_append, List.length_append, preamble_length, leBytes_length, hentries] at hself
  obtain ⟨⟨-, -, hdata, hent, ⟨⟨htp, hn⟩, hpc⟩, -⟩, -⟩ := hself
  simp only [Nat.zero_add] at hdata hent htp hn hpc
  have hfo : file.bytes.length - 28 = t + st.pages.length * 28 := by omega
  have hnew := Reader.new_basic hbytes (by decide) htail rfl rfl rfl hlen hnul
  have hflat := hem.flatten_lt
  rw [← ht] at hent
  have htp' : At file.bytes (t + st.pages.length * 28) (leBytes 8 t) := by
    rw [ht]
    exact htp
  have hn' : At file.bytes (t + st.pages.length * 28 + 8) (leBytes 8 gs.flatten.length) := by
    rw [ht]
    exact hn
  rw [hschema, Reader.openTail] at hnew
  dsimp only at hnew
  rw [if_neg (by decide), if_pos (by decide),
    show footerSize (FLAG_SCHEMA_EMBEDDED ||| FLAG_PAX) = 28 from rfl, hfo,
    readLE_leBytes htp' (by omega) hsmall, ok_bind, readLE_leBytes hn' (by omega) hsmall,
    ok_bind] at hnew
  refine ⟨_, hnew, rfl, ?_⟩
  exact {
    small := hsmall
    layout := rfl
    keySigils := rfl
    sigils_length := hsig
    fieldCount_lt := hlen
    keys_length := rfl
    emitted := hem
    data_at := hdata
    entries_at := hent
    count_at := by
      show At file.bytes (file.bytes.length - 28 + 16) (leBytes 4 st.pages.length)
      rw [hfo, ht]
      exact hpc
    tail_le := by
      show t + 28 ≤ file.bytes.length
      omega
    recordCount := rfl }

/-- A sealed file of emitted pages is accepted. -/
theorem new_sealPax {keys : List String} {sigils : List UInt8} {gs : List (List RecordRow)}
    {st : PaxPages} {hash : UInt64} {pageSize : UInt32} {file : Slice}
    (hem : Emitted (32 + (buildSchema keys sigils).length) keys.length sigils gs st)
    (hfile : file.bytes =
      sealPax (buildSchema keys sigils) hash st gs.flatten.length pageSize.toNat)
    (hlen : keys.length < 65536) (hnul : ∀ k ∈ keys, NulFree k)
    (hsig : sigils.length = keys.length) (h0 : (0 : UInt8) ∉ sigils) :
    ∃ r, Reader.new file = .ok r ∧ r.keys = keys ∧
      PaxReader r (32 + (buildSchema keys sigils).length) keys.length sigils gs st := by
  have hsmall := file.small
  have hroom : 32 + (buildSchema keys sigils).length + st.data.length ≤ file.bytes.length := by
    rw [hfile, sealPax]
    simp only [List.length_append, preamble_length]
    omega
  exact new_paxFile hem (by rw [hfile, sealPax]) (by omega) hlen hnul hsig h0

/-! ## Streams of pushes and flushes -/

/-- The page ranges of a tail-index are contiguous, not empty, start at 0 and cover every record. -/
structure Reader.PageRanges (r : Reader) (ranges : List (ℕ × ℕ)) : Prop where
  count : r.pageCount = .ok ranges.length
  entry : ∀ k e, ranges[k]? = some e →
    r.paxPageRecStart k = .ok e.1 ∧ r.paxPageRecCount k = .ok e.2
  nonempty : ∀ e ∈ ranges, 0 < e.2
  first : ∀ e, ranges[0]? = some e → e.1 = 0
  next : ∀ k e e', ranges[k]? = some e → ranges[k + 1]? = some e' → e'.1 = e.1 + e.2
  last : ∀ e, ranges.getLast? = some e → e.1 + e.2 = r.recordCount
  none : ranges = [] → r.recordCount = 0

/-- The record ranges of groups of rows. -/
def groupRanges (gs : List (List RecordRow)) : List (ℕ × ℕ) :=
  gs.mapIdx fun k g => (groupStart gs k, g.length)

theorem groupRanges_getElem? {gs : List (List RecordRow)} {k : ℕ} {e : ℕ × ℕ}
    (h : (groupRanges gs)[k]? = some e) :
    ∃ g, gs[k]? = some g ∧ e = (groupStart gs k, g.length) := by
  rw [groupRanges, List.getElem?_mapIdx] at h
  obtain ⟨g, hg, rfl⟩ := Option.map_eq_some_iff.mp h
  exact ⟨g, hg, rfl⟩

theorem PaxReader.pageRanges {r : Reader} {base fieldCount : ℕ} {sigils : List UInt8}
    {gs : List (List RecordRow)} {st : PaxPages} (h : PaxReader r base fieldCount sigils gs st) :
    r.PageRanges (groupRanges gs) where
  count := by rw [h.pageCount, groupRanges, List.length_mapIdx]
  entry k e he := by
    obtain ⟨g, hg, rfl⟩ := groupRanges_getElem? he
    obtain ⟨hstart, hcount, -⟩ := h.entry hg
    exact ⟨hstart, hcount⟩
  nonempty e he := by
    obtain ⟨k, hk⟩ := List.getElem?_of_mem he
    obtain ⟨g, hg, rfl⟩ := groupRanges_getElem? hk
    exact (h.emitted.fits g (List.mem_of_getElem? hg)).1
  first e he := by
    obtain ⟨g, hg, rfl⟩ := groupRanges_getElem? he
    exact groupStart_zero gs
  next k e e' he he' := by
    obtain ⟨g, hg, rfl⟩ := groupRanges_getElem? he
    obtain ⟨g', hg', rfl⟩ := groupRanges_getElem? he'
    exact groupStart_succ hg
  last e he := by
    rw [List.getLast?_eq_getElem?] at he
    obtain ⟨g, hg, rfl⟩ := groupRanges_getElem? he
    have hlen : (groupRanges gs).length - 1 + 1 = gs.length := by
      have hlt := (List.getElem?_eq_some_iff.mp hg).1
      rw [groupRanges, List.length_mapIdx]
      omega
    have hsucc := groupStart_succ hg
    rw [hlen, groupStart_length] at hsucc
    rw [h.recordCount, hsucc]
  none hnil := by
    have hgs : gs = [] := by simpa [groupRanges] using hnil
    rw [h.recordCount, hgs]
    rfl

namespace PaxStreamWriter

/-- The last flush makes at most one page. -/
theorem flushRest_pages {w w' : PaxStreamWriter} (hok : w.flushRest = .ok w') :
    w'.written.pages.length ≤ w.written.pages.length + 1 := by
  by_cases hp : w.pending = []
  · rw [flushRest_of_empty hp] at hok
    cases hok
    omega
  · rw [flushRest_of_pending hp] at hok
    obtain ⟨st, hemit, rfl⟩ := map_eq_ok.mp hok
    unfold emitPage at hemit
    obtain ⟨page, -, hemit⟩ := bind_eq_ok.mp hemit
    obtain ⟨idx, -, hst⟩ := bind_eq_ok.mp hemit
    cases hst
    simp [withPages]

/-- The file of a finished stream, opened: its pages hold the rows pushed. -/
theorem finish_stream_opens {keys : List String} {sigils : List UInt8} {pageSize : UInt32}
    {ops : List Op} {w : PaxStreamWriter} {file : Slice} (hlen : keys.length < 65536)
    (hnul : ∀ k ∈ keys, NulFree k) (hsig : sigils.length = keys.length)
    (h0 : (0 : UInt8) ∉ sigils) (hnew : new keys sigils pageSize = .ok w)
    (hfin : (w.run ops).finishStream = .ok file) :
    ∃ r base gs st, Reader.new file = .ok r ∧ r.keys = keys ∧
      PaxReader r base keys.length sigils gs st ∧ gs.flatten = pushed ops ∧
      gs.length ≤ (w.run ops).written.pages.length + 1 := by
  rw [finishStream] at hfin
  obtain ⟨w', hrest, hseal⟩ := bind_eq_ok.mp hfin
  rw [Slice.ofBytes_eq_ok] at hseal
  obtain ⟨gs, hd, hflat, hsame, hnil⟩ := ops_emitted hnew hrest
  obtain ⟨-, -, rfl⟩ := new_eq_ok.mp hnew
  obtain ⟨-, hplen, hstart, -⟩ := hd.emitted.counts
  have hpcount := flushRest_pages hrest
  have hem := hd.emitted
  have htotal : w'.totalRecords = gs.flatten.length := by
    rw [totalRecords, hstart, hnil, List.length_nil, Nat.add_zero]
  rw [hsame.base, hsame.fieldCount, hsame.sigils] at hem
  rw [hsame.schemaBytes, hsame.dictHash, hsame.pageSize, htotal] at hseal
  obtain ⟨r, hr, hkeys, hpax⟩ := new_sealPax hem hseal hlen hnul hsig h0
  exact ⟨r, _, gs, _, hr, hkeys, hpax, hflat, by omega⟩

/-- The file of a finished stream holds the rows pushed, page by page. -/
theorem finish_stream_holds {keys : List String} {sigils : List UInt8} {pageSize : UInt32}
    {ops : List Op} {w : PaxStreamWriter} {file : Slice} (hlen : keys.length < 65536)
    (hnd : keys.Nodup) (hnul : ∀ k ∈ keys, NulFree k) (hsig : sigils.length = keys.length)
    (h0 : (0 : UInt8) ∉ sigils) (hnew : new keys sigils pageSize = .ok w)
    (hfin : (w.run ops).finishStream = .ok file)
    (hpages : (w.run ops).written.pages.length < 2 ^ 30) :
    ∃ r ranges, Reader.new file = .ok r ∧ r.PageRanges ranges ∧ r.Holds keys sigils (pushed ops) := by
  obtain ⟨r, base, gs, st, hr, hkeys, hpax, hflat, hcount⟩ :=
    finish_stream_opens hlen hnul hsig h0 hnew hfin
  have hholds := hpax.holds (by rwa [hkeys]) (by omega)
  rw [hkeys, hflat] at hholds
  exact ⟨r, _, hr, hpax.pageRanges, hholds⟩

/-- Whatever the order of pushes and flushes, the finished file reads back as the rows pushed. -/
theorem finish_stream_reads (keys : List String) (sigils : List UInt8) (pageSize : UInt32)
    (ops : List Op) (w : PaxStreamWriter) (file : Slice) (hlen : keys.length < 65536)
    (hnd : keys.Nodup) (hnul : ∀ k ∈ keys, NulFree k) (hsig : sigils.length = keys.length)
    (hkinds : ∀ s ∈ sigils, s ∈ [SIGIL_INT, SIGIL_FLOAT, SIGIL_BOOL, SIGIL_TIME, SIGIL_STR])
    (hcells : ∀ row ∈ pushed ops, ∀ fi s, sigils[fi]? = some s →
      row.cell fi = .absent ∨ (row.cell fi).sigil = s)
    (hnew : new keys sigils pageSize = .ok w) (hfin : (w.run ops).finishStream = .ok file)
    (hpages : (w.run ops).written.pages.length < 2 ^ 30) :
    ∃ r ranges, Reader.new file = .ok r ∧ r.recordCount = (pushed ops).length ∧
      r.PageRanges ranges ∧ ∀ i row fi key, (pushed ops)[i]? = some row → keys[fi]? = some key →
        r.Reads i key (row.cell fi) := by
  have h0 : (0 : UInt8) ∉ sigils := fun hmem => by
    have := hkinds 0 hmem
    revert this
    decide
  obtain ⟨r, ranges, hr, hranges, hholds⟩ :=
    finish_stream_holds hlen hnd hnul hsig h0 hnew hfin hpages
  refine ⟨r, ranges, hr, hholds.recordCount, hranges, fun i row fi key hrow hkey => ?_⟩
  have hsees := hholds.sees i row fi key hrow hkey
  have hfi : fi < sigils.length := by
    rw [hsig]
    exact (List.getElem?_eq_some_iff.mp hkey).1
  have hs : sigils[fi]? = some (sigils.getD fi SIGIL_INT) := by
    rw [List.getD_eq_getElem?_getD, List.getElem?_eq_getElem hfi]
    rfl
  rcases hcells row (List.mem_of_getElem? hrow) fi _ hs with habs | hcell
  · rw [habs] at hsees ⊢
    exact reads_absent hsees
  · rw [← hcell] at hsees
    exact reads_of_sigil hsees

/-- An early flush makes a short page: three rows on pages of 1 and 2. -/
theorem finish_stream_reads_early_flush :
    ∃ file r ranges, Reader.new file = .ok r ∧ r.recordCount = 3 ∧ r.PageRanges ranges ∧
      ∀ i row fi key, ([⟨[.i64 7, .str "x"]⟩, ⟨[.absent, .str ""]⟩, ⟨[.i64 9]⟩] : List RecordRow)[i]? =
        some row → ["a", "b"][fi]? = some key → r.Reads i key (row.cell fi) := by
  obtain ⟨file, hfile⟩ := isOk_iff.mp (show (((init ["a", "b"] [SIGIL_INT, SIGIL_STR] 4).run
    [.push ⟨[.i64 7, .str "x"]⟩, .flush, .push ⟨[.absent, .str ""]⟩,
      .push ⟨[.i64 9]⟩]).finishStream).isOk = true by decide +kernel)
  obtain ⟨r, ranges, hr, hcount, hranges, hreads⟩ := finish_stream_reads ["a", "b"]
    [SIGIL_INT, SIGIL_STR] 4 _ _ file (by decide) (by decide) (by decide) rfl
    (by decide +kernel)
    (by
      intro row hrow fi s hs
      have hfi : fi < 2 := (List.getElem?_eq_some_iff.mp hs).1
      have hall : ∀ row ∈ pushed [.push ⟨[.i64 7, .str "x"]⟩, .flush, .push ⟨[.absent, .str ""]⟩,
          .push ⟨[.i64 9]⟩], ∀ fi < 2, row.cell fi = .absent ∨
            some (row.cell fi).sigil = [SIGIL_INT, SIGIL_STR][fi]? := by decide
      rcases hall row hrow fi hfi with habs | hsig
      · exact Or.inl habs
      · rw [hs] at hsig
        exact Or.inr (Option.some.inj hsig))
    rfl hfile (by decide +kernel)
  exact ⟨file, r, ranges, hr, hcount, hranges, hreads⟩

end PaxStreamWriter

end Nyxis

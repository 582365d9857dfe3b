import Nyxis.ColumnarFile
import Nyxis.PaxFile

/-!
# MissingCells — columns with absent and null cells

The sigil of a column is that of its first cell that is not absent (`columnSigil_eq`), so that a column
of one kind is stored under its kind unless that cell is null; then it is stored under the null sigil.

* `reads_back_iff`: the columnar and the PAX file of a table give back its cells exactly when every
  column with a leading null holds only cells the null sigil keeps, and the bisection over the pages
  finds the cells.
-/

namespace Nyxis

open Lib Lib.Outcome

/-! ## Columns of one kind -/

/-- The first cell that is not absent is null. -/
def LeadingNull (cells : List Cell) : Prop := cells.find? (· ≠ .absent) = some .null

instance (cells : List Cell) : Decidable (LeadingNull cells) := inferInstanceAs (Decidable (_ = _))

/-- Every cell is absent, null, or of the kind of the sigil. -/
def OfKind (kind : UInt8) (cells : List Cell) : Prop :=
  ∀ c ∈ cells, c = .absent ∨ c = .null ∨ c.sigil = kind

instance (kind : UInt8) (cells : List Cell) : Decidable (OfKind kind cells) :=
  inferInstanceAs (Decidable (∀ c ∈ cells, _))

theorem columnSigil_eq (cells : List Cell) :
    columnSigil cells = ((cells.find? (· ≠ .absent)).map Cell.sigil).getD SIGIL_INT := by
  induction cells with
  | nil => rfl
  | cons c cells ih =>
    by_cases hc : c = .absent
    · subst hc
      rw [columnSigil, if_neg (by simp), ih, List.find?_cons_of_neg (by simp)]
    · rw [columnSigil, if_pos hc, List.find?_cons_of_pos (by simpa using hc)]
      rfl

theorem sigil_ne_zero {c : Cell} (h : c ≠ .absent) : c.sigil ≠ 0 := by
  cases c with
  | absent => exact absurd rfl h
  | _ => simp [Cell.sigil, SIGIL_INT, SIGIL_FLOAT, SIGIL_BOOL, SIGIL_TIME, SIGIL_STR, SIGIL_BINARY,
      SIGIL_NULL]

theorem columnSigil_ne_zero (cells : List Cell) : columnSigil cells ≠ 0 := by
  rw [columnSigil_eq]
  cases hfind : cells.find? (· ≠ .absent) with
  | none => decide
  | some c => exact sigil_ne_zero (by simpa using List.find?_some hfind)

theorem zero_not_mem_sigilsForKeys (keys : List String) (rows : List RecordRow) :
    (0 : UInt8) ∉ sigilsForKeys keys rows := by
  intro hmem
  obtain ⟨fi, -, hfi⟩ := List.mem_map.mp hmem
  exact columnSigil_ne_zero _ hfi

theorem sigilsForKeys_getD {keys : List String} {rows : List RecordRow} {fi : ℕ}
    (hfi : fi < keys.length) :
    (sigilsForKeys keys rows).getD fi SIGIL_INT = columnSigil (column rows fi) := by
  simp [sigilsForKeys, List.getD_eq_getElem?_getD, hfi]

/-- A column of one kind without a leading null has the sigil of each of its cells that has a value. -/
theorem columnSigil_of_kind {kind : UInt8} {cells : List Cell} (hkind : OfKind kind cells)
    (hnull : ¬ LeadingNull cells) {c : Cell} (hc : c ∈ cells) (habs : c ≠ .absent)
    (hcn : c ≠ .null) : columnSigil cells = c.sigil := by
  have hck : c.sigil = kind := by
    rcases hkind c hc with h | h | h
    · exact absurd h habs
    · exact absurd h hcn
    · exact h
  rw [columnSigil_eq]
  cases hfind : cells.find? (· ≠ .absent) with
  | none => exact absurd (by simpa using List.find?_eq_none.mp hfind c hc) habs
  | some c' =>
    rw [Option.map_some, Option.getD_some, hck]
    rcases hkind c' (List.mem_of_find?_eq_some hfind) with h | h | h
    · exact absurd h (by simpa using List.find?_some hfind)
    · rw [h] at hfind
      exact absurd hfind hnull
    · exact h

/-- A column with a leading null gives back its cells only where the null sigil keeps them. -/
theorem reads_column_iff {r : Reader} {i : ℕ} {key : String} {kind : UInt8} {cells : List Cell}
    {c : Cell} (hkind : OfKind kind cells) (hc : c ∈ cells)
    (hsees : r.Sees i key (columnSigil cells) c) :
    r.Reads i key c ↔ (LeadingNull cells → KeptByNullSigil c) := by
  by_cases hnull : LeadingNull cells
  · have hsig : columnSigil cells = SIGIL_NULL := by
      rw [columnSigil_eq, hnull]
      rfl
    rw [hsig] at hsees
    rw [stored_null_column hsees]
    exact ⟨fun h _ => h, fun h => h hnull⟩
  · refine iff_of_true ?_ fun h => absurd h hnull
    by_cases habs : c = .absent
    · subst habs
      exact reads_absent hsees
    · by_cases hcn : c = .null
      · subst hcn
        trivial
      · rw [columnSigil_of_kind hkind hnull hc habs hcn] at hsees
        exact reads_of_sigil hsees

/-! ## Files that read back -/

/-- The file is accepted, counts the rows, and its columns that are not binary read back. -/
def ReadsBack (file : Slice) (keys : List String) (kinds : List UInt8) (rows : List RecordRow) : Prop :=
  ∃ r, Reader.new file = .ok r ∧ r.recordCount = rows.length ∧
    ∀ i row fi key, rows[i]? = some row → keys[fi]? = some key → kinds[fi]? ≠ some SIGIL_BINARY →
      r.Reads i key (row.cell fi)

/-- Columns that are not binary hold, behind a leading null, only cells the null sigil keeps. -/
def NullsKept (keys : List String) (kinds : List UInt8) (rows : List RecordRow) : Prop :=
  ∀ fi < keys.length, kinds[fi]? ≠ some SIGIL_BINARY → LeadingNull (column rows fi) →
    ∀ c ∈ column rows fi, KeptByNullSigil c

/-- A cell on page `k` of `pages`: the bisection over the pages, on `i32` bounds, reaches a cell that
has a value, and does not overflow on the way to one that is absent. -/
def PageReached (pages k : ℕ) : Cell → Prop
  | .null => True
  | .absent => 2 ^ 31 < pages ∨ PaxReader.SearchFits pages k
  | _ => pages ≤ 2 ^ 31 ∧ PaxReader.SearchFits pages k

/-- The bisection reaches the cells of the columns that are not binary. -/
def PagesReached (keys : List String) (kinds : List UInt8) (rows : List RecordRow) (pageSize : ℕ) :
    Prop :=
  ∀ i row fi, rows[i]? = some row → fi < keys.length → kinds[fi]? ≠ some SIGIL_BINARY →
    PageReached ((rows.length + pageSize - 1) / pageSize) (i / pageSize) (row.cell fi)

/-- Up to `2 ^ 30` pages the bisection reaches every cell. -/
theorem pagesReached_of_le {keys : List String} {kinds : List UInt8} {rows : List RecordRow}
    {pageSize : ℕ} (h : (rows.length + pageSize - 1) / pageSize ≤ 2 ^ 30) :
    PagesReached keys kinds rows pageSize := by
  intro i row fi _ _ _
  have hfits := PaxReader.searchFits_of_le h (i / pageSize)
  cases row.cell fi with
  | null => trivial
  | absent => exact Or.inr hfits
  | _ => exact ⟨by omega, hfits⟩

/-- The hypotheses on the columns of a table. -/
structure Homogeneous (keys : List String) (kinds : List UInt8) (rows : List RecordRow) : Prop where
  kinds_length : kinds.length = keys.length
  kinds_mem : ∀ k ∈ kinds,
    k ∈ [SIGIL_INT, SIGIL_FLOAT, SIGIL_BOOL, SIGIL_TIME, SIGIL_STR, SIGIL_BINARY]
  ofKind : ∀ fi, (h : fi < kinds.length) → OfKind kinds[fi] (column rows fi)

theorem Homogeneous.exists_kind {keys : List String} {kinds : List UInt8} {rows : List RecordRow}
    (h : Homogeneous keys kinds rows) {fi : ℕ} (hfi : fi < keys.length) :
    ∃ kind, kinds[fi]? = some kind ∧ OfKind kind (column rows fi) := by
  have hlen := h.kinds_length
  exact ⟨_, List.getElem?_eq_getElem (by omega), h.ofKind fi (by omega)⟩

theorem mem_column {rows : List RecordRow} {i : ℕ} (fi : ℕ) {row : RecordRow} (h : rows[i]? = some row) :
    row.cell fi ∈ column rows fi :=
  List.mem_map.mpr ⟨row, List.mem_of_getElem? h, rfl⟩

/-- The cells of a column that is not binary are not binary. -/
theorem cell_ne_binary {kind : UInt8} {cells : List Cell} (hkind : OfKind kind cells)
    (hbin : kind ≠ SIGIL_BINARY) (b : Bytes) : .binary b ∉ cells := by
  intro hmem
  rcases hkind _ hmem with h | h | h
  · cases h
  · cases h
  · exact hbin h.symm

/-- What the getters of every record return, said of the columns. -/
theorem forall_reads_iff {r : Reader} {keys : List String} {kinds : List UInt8}
    {rows : List RecordRow} (hom : Homogeneous keys kinds rows)
    (hsees : ∀ i row fi key, rows[i]? = some row → keys[fi]? = some key →
      r.Sees i key (columnSigil (column rows fi)) (row.cell fi)) :
    (∀ i row fi key, rows[i]? = some row → keys[fi]? = some key → kinds[fi]? ≠ some SIGIL_BINARY →
      r.Reads i key (row.cell fi)) ↔ NullsKept keys kinds rows := by
  constructor
  · intro hreads fi hfi hbin hnull c hc
    obtain ⟨kind, -, hkind⟩ := hom.exists_kind hfi
    obtain ⟨row, hmem, rfl⟩ := List.mem_map.mp hc
    obtain ⟨i, hi, rfl⟩ := List.getElem_of_mem hmem
    have hrow := List.getElem?_eq_getElem hi
    have hkey := List.getElem?_eq_getElem hfi
    have h := hreads i _ fi _ hrow hkey hbin
    exact (reads_column_iff hkind hc (hsees i _ fi _ hrow hkey)).mp h hnull
  · intro hkept i row fi key hrow hkey hbin
    have hfi := (List.getElem?_eq_some_iff.mp hkey).1
    obtain ⟨kind, -, hkind⟩ := hom.exists_kind hfi
    have hc := mem_column fi hrow
    exact (reads_column_iff hkind hc (hsees i row fi key hrow hkey)).mpr fun hnull =>
      hkept fi hfi hbin hnull _ hc

section

variable {keys : List String} {kinds : List UInt8} {rows : List RecordRow} {file : Slice}

theorem columnar_reads_back_iff (hpos : keys ≠ []) (hlen : keys.length < 65536) (hnd : keys.Nodup)
    (hnul : ∀ k ∈ keys, NulFree k) (hom : Homogeneous keys kinds rows)
    (hok : finishColumnar keys rows = .ok file) :
    ReadsBack file keys kinds rows ↔ NullsKept keys kinds rows := by
  obtain ⟨r, hr, hkeys, hcol⟩ := new_finishColumnar hpos hlen hnul hnd
    (zero_not_mem_sigilsForKeys keys rows) hok
  have hholds := hcol.holds
  rw [hkeys] at hholds
  have hiff := forall_reads_iff hom fun i row fi key hrow hkey => by
    have hfi := (List.getElem?_eq_some_iff.mp hkey).1
    have h := hholds.sees i row fi key hrow hkey
    rwa [sigilsForKeys_getD hfi] at h
  rw [← hiff]
  constructor
  · rintro ⟨r', hr', -, hreads⟩
    rw [hr] at hr'
    cases hr'
    exact hreads
  · intro hreads
    exact ⟨r, hr, hholds.recordCount, hreads⟩

/-- The PAX file of a table, opened. -/
theorem new_finishPax {pageSize : UInt32} (hlen : keys.length < 65536)
    (hnul : ∀ k ∈ keys, NulFree k) (hok : finishPax keys rows pageSize = .ok file) :
    ∃ r base gs st, Reader.new file = .ok r ∧ r.keys = keys ∧
      PaxReader r base keys.length (sigilsForKeys keys rows) gs st ∧ gs.flatten = rows ∧
      gs.length = (rows.length + pageSize.toNat - 1) / pageSize.toNat ∧
      PagesOf pageSize.toNat gs := by
  rw [finishPax] at hok
  obtain ⟨u, hps, hok⟩ := bind_eq_ok.mp hok
  obtain ⟨st, hloop, hseal⟩ := bind_eq_ok.mp hok
  rw [ensure_eq_ok] at hps
  rw [Slice.ofBytes_eq_ok] at hseal
  obtain ⟨gs, hem, hflat, hcount, hpages⟩ :=
    paxLoop_emitted (PaxStreamWriter.toNat_pos hps) .nil hloop
  rw [List.nil_append] at hem
  rw [← hflat] at hseal
  obtain ⟨r, hr, hkeys, hpax⟩ := new_sealPax (by rw [hflat]; exact hem)
    (by rw [hflat] at hseal ⊢; exact hseal) hlen hnul (sigilsForKeys_length keys gs.flatten)
    (zero_not_mem_sigilsForKeys keys gs.flatten)
  rw [hflat] at hpax
  exact ⟨r, _, gs, st, hr, hkeys, hpax, hflat, hcount, hpages⟩

/-- The getters of a record on page `k`, in a column whose nulls are kept. -/
theorem reads_page_iff {r : Reader} {base fieldCount : ℕ} {sigils : List UInt8}
    {gs : List (List RecordRow)} {st : PaxPages} (h : PaxReader r base fieldCount sigils gs st)
    {k j fi : ℕ} {g : List RecordRow} {row : RecordRow} {key : String} (hk : gs[k]? = some g)
    (hj : g[j]? = some row) (hi : groupStart gs k + j < gs.flatten.length)
    (hfi : fi < fieldCount) (hslot : r.slot key = .ok fi) (hbin : ∀ b, row.cell fi ≠ .binary b)
    (hsees : r.Sees (groupStart gs k + j) key (sigils.getD fi SIGIL_INT) (row.cell fi) →
      r.Reads (groupStart gs k + j) key (row.cell fi)) :
    r.Reads (groupStart gs k + j) key (row.cell fi) ↔ PageReached gs.length k (row.cell fi) := by
  have hjlt := (List.getElem?_eq_some_iff.mp hj).1
  by_cases hpages : gs.length ≤ 2 ^ 31
  · have hloc := h.locate hpages hk hjlt
    by_cases hfits : PaxReader.SearchFits gs.length k
    · -- the page is found
      rw [if_pos hfits] at hloc
      refine iff_of_true (hsees (h.sees hk hj hloc hi hfi hslot)) ?_
      cases row.cell fi with
      | null => trivial
      | absent => exact Or.inr hfits
      | _ => exact ⟨hpages, hfits⟩
    · -- the bisection panics
      rw [if_neg hfits] at hloc
      obtain ⟨h1, h2, h3, h4⟩ := h.stops hi hslot (fun _ => .panic) (fun _ => rfl) hloc
      have hnot : ¬ (2 ^ 31 < gs.length ∨ PaxReader.SearchFits gs.length k) := by
        rintro (hlt | hfit)
        · omega
        · exact hfits hfit
      cases hc : row.cell fi with
      | null => exact Iff.rfl
      | binary b => exact absurd hc (hbin b)
      | absent =>
        refine iff_of_false (fun hreads => ?_) hnot
        have := hreads.1
        rw [h1] at this
        cases this
      | _ =>
        refine iff_of_false (fun hreads => ?_) fun hreach => hfits hreach.2
        have hval := hreads
        simp only [Reader.Reads, h1, h2, h3, h4] at hval
        cases hval
  · -- no page is found
    obtain ⟨h1, h2, h3, h4⟩ :=
      h.stops hi hslot (fun _ => none') (fun _ => rfl) (h.locate_none (by omega) _)
    cases hc : row.cell fi with
    | null => exact Iff.rfl
    | binary b => exact absurd hc (hbin b)
    | absent => exact iff_of_true ⟨h1, h2, h3, h4⟩ (Or.inl (by omega))
    | _ =>
      refine iff_of_false (fun hreads => ?_) fun hreach => hpages hreach.1
      have hval := hreads
      simp only [Reader.Reads, h1, h2, h3, h4] at hval
      cases hval

theorem pax_reads_back_iff {pageSize : UInt32} (hlen : keys.length < 65536) (hnd : keys.Nodup)
    (hnul : ∀ k ∈ keys, NulFree k) (hom : Homogeneous keys kinds rows)
    (hkept : NullsKept keys kinds rows) (hok : finishPax keys rows pageSize = .ok file) :
    ReadsBack file keys kinds rows ↔ PagesReached keys kinds rows pageSize.toNat := by
  obtain ⟨r, base, gs, st, hr, rfl, hpax, rfl, hcount, hpages⟩ := new_finishPax hlen hnul hok
  -- the cells of a record, on its page
  have hcell : ∀ i row fi key, gs.flatten[i]? = some row → r.keys[fi]? = some key →
      kinds[fi]? ≠ some SIGIL_BINARY → (r.Reads i key (row.cell fi) ↔
        PageReached ((gs.flatten.length + pageSize.toNat - 1) / pageSize.toNat) (i / pageSize.toNat)
          (row.cell fi)) := by
    intro i row fi key hrow hkey hbin
    have hi := (List.getElem?_eq_some_iff.mp hrow).1
    have hfi := (List.getElem?_eq_some_iff.mp hkey).1
    have hmem := mem_column fi hrow
    obtain ⟨kind, hkind, hof⟩ := hom.exists_kind hfi
    have hne : kind ≠ SIGIL_BINARY := by
      rintro rfl
      exact hbin hkind
    obtain ⟨k, j, g, hk, hj, rfl⟩ := exists_group hrow
    rw [← hcount, hpages.index hk (List.getElem?_eq_some_iff.mp hj).1]
    refine reads_page_iff hpax hk hj hi hfi (Reader.slot_of_nodup hnd hkey) (fun b hb => ?_) fun hsees => ?_
    · exact cell_ne_binary hof hne b (hb ▸ hmem)
    · rw [sigilsForKeys_getD hfi] at hsees
      exact (reads_column_iff hof hmem hsees).mpr fun hnull => hkept fi hfi hbin hnull _ hmem
  constructor
  · rintro ⟨r', hr', -, hreads⟩
    rw [hr] at hr'
    cases hr'
    intro i row fi hrow hfi hbin
    have hkey := List.getElem?_eq_getElem hfi
    exact (hcell i row fi _ hrow hkey hbin).mp (hreads i row fi _ hrow hkey hbin)
  · intro hreach
    refine ⟨r, hr, hpax.recordCount, fun i row fi key hrow hkey hbin => ?_⟩
    have hfi := (List.getElem?_eq_some_iff.mp hkey).1
    exact (hcell i row fi key hrow hkey hbin).mpr (hreach i row fi hrow hfi hbin)

end

/-- Both files of a table give back its cells exactly when its leading nulls and its pages allow it. -/
theorem reads_back_iff (keys : List String) (kinds : List UInt8) (rows : List RecordRow)
    (pageSize : UInt32) (columnar pax : Slice) (hpos : keys ≠ []) (hlen : keys.length < 65536)
    (hnd : keys.Nodup) (hnul : ∀ k ∈ keys, NulFree k) (hom : Homogeneous keys kinds rows)
    (hcol : finishColumnar keys rows = .ok columnar)
    (hpax : finishPax keys rows pageSize = .ok pax) :
    (ReadsBack columnar keys kinds rows ∧ ReadsBack pax keys kinds rows) ↔
      (NullsKept keys kinds rows ∧ PagesReached keys kinds rows pageSize.toNat) := by
  have hc := columnar_reads_back_iff hpos hlen hnd hnul hom hcol
  constructor
  · rintro ⟨hcread, hpread⟩
    have hkept := hc.mp hcread
    exact ⟨hkept, (pax_reads_back_iff hlen hnd hnul hom hkept hpax).mp hpread⟩
  · rintro ⟨hkept, hreach⟩
    exact ⟨hc.mpr hkept, (pax_reads_back_iff hlen hnd hnul hom hkept hpax).mpr hreach⟩

/-- A null ahead of a string: the files do not give back the string. -/
theorem reads_back_not_leading_null :
    ∃ columnar pax, Homogeneous ["s"] [SIGIL_STR] [⟨[.null]⟩, ⟨[.str "x"]⟩] ∧
      finishColumnar ["s"] [⟨[.null]⟩, ⟨[.str "x"]⟩] = .ok columnar ∧
      finishPax ["s"] [⟨[.null]⟩, ⟨[.str "x"]⟩] 1 = .ok pax ∧
      ¬ (ReadsBack columnar ["s"] [SIGIL_STR] [⟨[.null]⟩, ⟨[.str "x"]⟩] ∧
        ReadsBack pax ["s"] [SIGIL_STR] [⟨[.null]⟩, ⟨[.str "x"]⟩]) := by
  obtain ⟨columnar, hcol⟩ := isOk_iff.mp
    (show (finishColumnar ["s"] [⟨[.null]⟩, ⟨[.str "x"]⟩]).isOk = true by decide +kernel)
  obtain ⟨pax, hpax⟩ := isOk_iff.mp
    (show (finishPax ["s"] [⟨[.null]⟩, ⟨[.str "x"]⟩] 1).isOk = true by decide +kernel)
  have hom : Homogeneous ["s"] [SIGIL_STR] [⟨[.null]⟩, ⟨[.str "x"]⟩] :=
    ⟨rfl, by decide +kernel, by decide +kernel⟩
  refine ⟨columnar, pax, hom, hcol, hpax, fun ⟨hread, _⟩ => ?_⟩
  have hkept := (columnar_reads_back_iff (by decide) (by decide) (by decide) (by decide) hom hcol).mp
    hread
  exact hkept 0 (by decide) (by decide) rfl (.str "x") (by decide)

/-- Absent cells first, nulls and an empty string behind them, on two pages. -/
theorem reads_back_missing_cells :
    ∃ columnar pax,
      finishColumnar ["a", "s"] [⟨[]⟩, ⟨[.i64 7, .str ""]⟩, ⟨[.null, .null]⟩] = .ok columnar ∧
      finishPax ["a", "s"] [⟨[]⟩, ⟨[.i64 7, .str ""]⟩, ⟨[.null, .null]⟩] 2 = .ok pax ∧
      ReadsBack columnar ["a", "s"] [SIGIL_INT, SIGIL_STR]
        [⟨[]⟩, ⟨[.i64 7, .str ""]⟩, ⟨[.null, .null]⟩] ∧
      ReadsBack pax ["a", "s"] [SIGIL_INT, SIGIL_STR]
        [⟨[]⟩, ⟨[.i64 7, .str ""]⟩, ⟨[.null, .null]⟩] := by
  obtain ⟨columnar, hcol⟩ := isOk_iff.mp (show (finishColumnar ["a", "s"]
    [⟨[]⟩, ⟨[.i64 7, .str ""]⟩, ⟨[.null, .null]⟩]).isOk = true by decide +kernel)
  obtain ⟨pax, hpax⟩ := isOk_iff.mp (show (finishPax ["a", "s"]
    [⟨[]⟩, ⟨[.i64 7, .str ""]⟩, ⟨[.null, .null]⟩] 2).isOk = true by decide +kernel)
  have hread := (reads_back_iff ["a", "s"] [SIGIL_INT, SIGIL_STR]
    [⟨[]⟩, ⟨[.i64 7, .str ""]⟩, ⟨[.null, .null]⟩] 2 columnar pax (by decide) (by decide) (by decide)
    (by decide) ⟨rfl, by decide +kernel, by decide +kernel⟩ hcol hpax).mpr
    ⟨by unfold NullsKept; decide, pagesReached_of_le (by decide)⟩
  exact ⟨columnar, pax, hcol, hpax, hread⟩

end Nyxis

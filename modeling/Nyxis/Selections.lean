import Nyxis.ReaderCalls
import Nyxis.WrittenSchema

/-!
# Selections — the records that queries yield

* `select_holds`: of any bytes that open outside the compact encoding, a query that ends yields the records
  met that satisfy its predicate, in the order of the file; in the row layout every query ends.
* `selections_agree`: the v1.2, the columnar and the PAX file of a table give the same answers, those of
  its rows.
-/

namespace Nyxis

open Lib Lib.Outcome

/-! ## Any file -/

/-- An opened file has a sigil for each key. -/
theorem reader_sigiled {file : Slice} {r : Reader} (h : Reader.new file = .ok r) : r.Sigiled := by
  have hd := file.small
  obtain ⟨hs, -⟩ := (reader_isOk_iff file).mp (isOk_iff.mpr ⟨r, h⟩)
  obtain ⟨keys, sigils, ext, plan, hopen, hschema⟩ := reader_opens h
  obtain ⟨hkeys, hsigils, -⟩ := openTail_sees hd hs.size hopen
  rw [Reader.Sigiled, hkeys, hsigils]
  by_cases hemb : Flagged file.bytes FLAG_SCHEMA_EMBEDDED
  · rw [if_pos hemb] at hschema
    by_cases hv13 : Flagged file.bytes FLAG_V13_COMPACT_MASK
    · rw [if_pos hv13] at hschema
      obtain ⟨e, stop, hparse, rfl, rfl, -⟩ := hschema
      exact (parseExtendedSchema_lengths hparse).2
    · rw [if_neg hv13] at hschema
      obtain ⟨⟨stop, hparse⟩, -⟩ := hschema
      obtain ⟨-, hle, -, -, -, -, rfl, -⟩ := (parseSchema_eq_ok hd).mp hparse
      rw [parseSchema_length hd hparse, List.length_take, List.length_drop]
      omega
  · rw [if_neg hemb] at hschema
    obtain ⟨rfl, rfl, -⟩ := hschema
    rfl

/-- The layout that the flags of a file name. -/
def layoutOf (flags : ℕ) : Layout :=
  if hasFlag flags FLAG_COLUMNAR then .columnar else if hasFlag flags FLAG_PAX then .pax else .row

theorem openTail_fields {d : Bytes} {flags t : ℕ} {keys : List String} {sigils : List UInt8} {ext : Option ExtendedSchema}
    {plan : Option RowCellPlan} {r : Reader} (h : Reader.openTail d flags t keys sigils ext plan = .ok r) :
    r.data = d ∧ r.extSchema = ext ∧ r.layout = layoutOf flags := by
  rw [Reader.openTail] at h
  rw [layoutOf]
  dsimp only at h
  by_cases hcol : hasFlag flags FLAG_COLUMNAR = true
  · rw [if_pos hcol] at h ⊢
    obtain ⟨_, -, h⟩ := bind_eq_ok.mp h
    obtain ⟨_, -, h⟩ := bind_eq_ok.mp h
    obtain ⟨_, -, h⟩ := bind_eq_ok.mp h
    obtain ⟨_, -, h⟩ := bind_eq_ok.mp h
    obtain ⟨_, -, h⟩ := bind_eq_ok.mp h
    obtain ⟨_, -, h⟩ := bind_eq_ok.mp h
    cases h
    exact ⟨rfl, rfl, rfl⟩
  · rw [if_neg hcol] at h ⊢
    by_cases hpax : hasFlag flags FLAG_PAX = true
    · rw [if_pos hpax] at h ⊢
      obtain ⟨_, -, h⟩ := bind_eq_ok.mp h
      obtain ⟨_, -, h⟩ := bind_eq_ok.mp h
      cases h
      exact ⟨rfl, rfl, rfl⟩
    · rw [if_neg hpax] at h ⊢
      have hrest : ∀ ptr : ℕ, ((do
          ensure (¬ ptr > d.length - 4) .outOfBounds
          if hasFlag flags FLAG_DELTA_TAIL then do
            let layout ← parseDeltaTailLayout d ptr
            .ok ⟨d, flags, keys, sigils, ext, plan, layout.recordCount, ptr, some layout, .row, [], []⟩
          else do
            let recordCount ← readLE d ptr 4
            .ok ⟨d, flags, keys, sigils, ext, plan, recordCount, ptr + 4, none, .row, [], []⟩ : Res Reader) = .ok r) →
          r.data = d ∧ r.extSchema = ext ∧ r.layout = .row := by
        intro ptr h
        obtain ⟨_, -, h⟩ := bind_eq_ok.mp h
        split at h
        · obtain ⟨_, -, h⟩ := bind_eq_ok.mp h
          cases h
          exact ⟨rfl, rfl, rfl⟩
        · obtain ⟨_, -, h⟩ := bind_eq_ok.mp h
          cases h
          exact ⟨rfl, rfl, rfl⟩
      split at h
      · obtain ⟨_, -, h⟩ := bind_eq_ok.mp h
        obtain ⟨ptr, -, h⟩ := bind_eq_ok.mp h
        exact hrest ptr h
      · exact hrest t h

/-- Only a row file may be compact. -/
theorem reader_basic {file : Slice} {r : Reader} (h : Reader.new file = .ok r) (hlayout : r.layout ≠ .row) :
    r.extSchema = none := by
  obtain ⟨-, hc⟩ := (reader_isOk_iff file).mp (isOk_iff.mpr ⟨r, h⟩)
  obtain ⟨keys, sigils, ext, plan, hopen, hschema⟩ := reader_opens h
  obtain ⟨-, hext, hof⟩ := openTail_fields hopen
  rw [hext]
  by_cases hemb : Flagged file.bytes FLAG_SCHEMA_EMBEDDED
  · rw [if_pos hemb] at hschema
    by_cases hv13 : Flagged file.bytes FLAG_V13_COMPACT_MASK
    · obtain ⟨hcol, hpax⟩ := hc.compact hv13
      exact absurd (by rw [hof, layoutOf, if_neg hcol, if_neg hpax]) hlayout
    · rw [if_neg hv13] at hschema
      exact hschema.2
  · rw [if_neg hemb] at hschema
    exact hschema.2.2

/-- A query that ends yields the records met that satisfy its predicate, and in the row layout it ends. -/
theorem select_holds (file : Slice) (r : Reader) (p : Predicate) (hnew : Reader.new file = .ok r)
    (hext : r.extSchema = none) (htext : p.TextTyped r) :
    (r.CountsFit → r.select p ≠ .panic) ∧ (r.select p ≠ .panic → ∃ offs, Located r.record r.recordCount 0 offs ∧
      r.select p = .ok (offs.filter fun off => p.holds (r.getters off).values)) := by
  have hopened := reader_opened hnew
  refine ⟨fun hfit => (safe_select hopened hfit p).ne_panic, fun hends => ?_⟩
  rw [Reader.select, Reader.selectFrom_eq_scan] at hends ⊢
  cases hscan : scan r.recordAt (p.test r) r.recordCount 0 with
  | panic => exact absurd hscan hends
  | err e => exact absurd hscan (scan_ne_err (fun off e => p.test_ne_err r off e) _ _ e)
  | ok out =>
    obtain ⟨offs, hmet, htested, rfl⟩ := scan_eq_ok (fun off e => p.test_ne_err r off e) hscan
    refine ⟨offs, Reader.located_record.mp hmet, congrArg Outcome.ok (List.filter_congr fun off hoff => ?_)⟩
    obtain ⟨hit, hhit⟩ := htested off hoff
    have hask := p.test_eq hext hopened.small (reader_sigiled hnew) off htext
    rw [hhit] at hask
    rw [hhit, ← Predicate.ask_eq_ok hask.symm]
    cases hit <;> rfl

/-- A query on the v1.2 file of one record. -/
theorem select_holds_one : ∃ file r offs, finishRow ["id"] [⟨[.i64 5]⟩] none = .ok file ∧ Reader.new file = .ok r ∧
    Located r.record r.recordCount 0 offs ∧
      r.select (.gtI64 "id" 0) = .ok (offs.filter fun off => (Predicate.gtI64 "id" 0).holds (r.getters off).values) := by
  have hrun : (finishRow ["id"] [⟨[.i64 5]⟩] none >>= fun file => do
      let r ← Reader.new file
      .ok (r.layout, r.extSchema)) = .ok (.row, none) := by decide +kernel
  obtain ⟨file, hfile, hrun⟩ := bind_eq_ok.mp hrun
  obtain ⟨r, hr, hrun⟩ := bind_eq_ok.mp hrun
  obtain ⟨hlayout, hext⟩ := Prod.mk.inj (Outcome.ok.inj hrun)
  obtain ⟨hends, hall⟩ := select_holds file r (.gtI64 "id" 0) hr hext fun hcol => by rw [hlayout] at hcol; cases hcol
  obtain ⟨offs, hmet, hsel⟩ := hall (hends (Reader.countsFit_row hlayout))
  exact ⟨file, r, offs, hfile, hr, hmet, hsel⟩

/-! ## The files of a table -/

def Cell.int : Cell → Option Int64
  | .i64 v | .time v => some v
  | _ => none

def Cell.flag : Cell → Option Bool
  | .bool v => some v
  | _ => none

def Cell.text : Cell → Option String
  | .str s => some s
  | _ => none

namespace RecordRow

/-- The cell of a row under a key. -/
def keyed (keys : List String) (row : RecordRow) (key : String) : Cell :=
  if key ∈ keys then row.cell (keys.idxOf key) else .absent

/-- The fields of a row. -/
def fields (keys : List String) (row : RecordRow) : Fields Option where
  i64 key := (row.keyed keys key).int
  f64 key := (row.keyed keys key).float
  bool key := (row.keyed keys key).flag
  str key := (row.keyed keys key).text

end RecordRow

/-- The sigils of the columns that a comparison of this type is meant for. -/
def FieldType.kinds : FieldType → List UInt8
  | .i64 => [SIGIL_INT, SIGIL_TIME]
  | .f64 => [SIGIL_FLOAT]
  | .bool => [SIGIL_BOOL]
  | .str => [SIGIL_STR]

/-- A predicate compares the columns of a table with values of their kinds; it may name other keys too. -/
def Predicate.Typed (keys : List String) (kinds : List UInt8) (p : Predicate) : Prop :=
  ∀ leaf ∈ p.leaves, ∀ (fi : ℕ) kind, keys[fi]? = some leaf.2 → kinds[fi]? = some kind → kind ∈ leaf.1.kinds

/-- The rows of a table that satisfy a predicate. -/
def rowsWhere (keys : List String) (rows : List RecordRow) (p : Predicate) : List ℕ :=
  (List.range rows.length).filter fun i => rows[i]?.any fun row => p.holds (row.fields keys)

/-- A query yields exactly these records, in this order. -/
def Reader.Selects (r : Reader) (p : Predicate) (is : List ℕ) : Prop :=
  ∃ offs, is.mapM r.record = .ok offs ∧ r.select p = .ok offs

section

variable {r : Reader} {keys : List String} {rows : List RecordRow} {p : Predicate}

/-- A file in which every record is found and decides the comparisons as its row does. -/
theorem selects_of_decides (hcount : r.recordCount = rows.length) (hfound : ∀ i row, rows[i]? = some row →
    ∃ off, r.record i = .ok off ∧ ∀ leaf ∈ p.leaves, r.Decides off (row.fields keys) leaf) :
    r.Selects p (rowsWhere keys rows p) := by
  obtain ⟨offs, hoffs⟩ := exists_mapM_eq_ok.mpr fun i (hi : i ∈ List.range rows.length) => by
    obtain ⟨off, hoff, -⟩ := hfound i _ (List.getElem?_eq_getElem (List.mem_range.mp hi))
    exact ⟨off, hoff⟩
  have htest : ∀ i < rows.length, ∀ off, r.record i = .ok off →
      ∃ row, rows[i]? = some row ∧ p.test r off = .ok (p.holds (row.fields keys)) := by
    intro i hi off hoff
    have hrow := List.getElem?_eq_getElem hi
    obtain ⟨off', hoff', hleaves⟩ := hfound i _ hrow
    obtain rfl : off = off' := Outcome.ok.inj (hoff.symm.trans hoff')
    exact ⟨_, hrow, Predicate.test_of_decides hleaves⟩
  refine ⟨_, filter_mapM (fun off => p.test r off == .ok true) hoffs fun i hi off hoff => ?_, ?_⟩
  · obtain ⟨row, hrow, hholds⟩ := htest i (List.mem_range.mp hi) off hoff
    rw [hrow, hholds, Option.any_some]
    cases p.holds (row.fields keys) <;> rfl
  · have hmet := located_of_mapM hoffs
    rw [← hcount] at hmet
    rw [Reader.select, Reader.selectFrom_eq_scan]
    refine scan_eq (Reader.located_record.mpr hmet) fun off hoff => ?_
    obtain ⟨j, hj, rfl⟩ := List.getElem_of_mem hoff
    have hrec := hmet.found j _ (List.getElem?_eq_getElem hj)
    have hle := hmet.le
    rw [Nat.zero_add] at hrec
    obtain ⟨row, -, hholds⟩ := htest j (by omega) _ hrec
    rw [hholds]
    cases p.holds (row.fields keys) <;> rfl

/-! ## Comparisons by the getters -/

/-- The value of a cell by its type. -/
def Cell.Is (c : Cell) (ty : FieldType) : Prop := c = .absent ∨ c.sigil ∈ ty.kinds

theorem reads_i64 {i : ℕ} {key : String} {c : Cell} (h : r.Reads i key c) (hc : c.Is .i64) :
    r.i64At i key = ofOption c.int := by
  rcases hc with rfl | hc
  · exact h.1
  · cases c with
    | i64 v => exact h
    | time v => exact h
    | _ => exact absurd hc (by rw [Cell.sigil]; decide)

theorem reads_f64 {i : ℕ} {key : String} {c : Cell} (h : r.Reads i key c) (hc : c.Is .f64) :
    r.f64At i key = ofOption c.float := by
  rcases hc with rfl | hc
  · exact h.2.1
  · cases c with
    | f64 v => exact h
    | _ => exact absurd hc (by rw [Cell.sigil]; decide)

theorem reads_bool {i : ℕ} {key : String} {c : Cell} (h : r.Reads i key c) (hc : c.Is .bool) :
    r.boolAt i key = ofOption c.flag := by
  rcases hc with rfl | hc
  · exact h.2.2.1
  · cases c with
    | bool v => exact h
    | _ => exact absurd hc (by rw [Cell.sigil]; decide)

theorem reads_str {i : ℕ} {key : String} {c : Cell} (h : r.Reads i key c) (hc : c.Is .str) :
    r.strAt i key = ofOption c.text := by
  rcases hc with rfl | hc
  · exact h.2.2.2
  · cases c with
    | str s => exact h
    | _ => exact absurd hc (by rw [Cell.sigil]; decide)

/-- A comparison with a key that the file does not have is false. -/
theorem decides_unknown {key : String} (hkey : key ∉ r.keys) {row : RecordRow} (hrow : key ∉ keys) (off : ℕ) (ty : FieldType) :
    r.Decides off (row.fields keys) (ty, key) := by
  have hslot : r.slot key = none' := if_neg hkey
  have habs : row.keyed keys key = .absent := if_neg hrow
  cases ty with
  | i64 | f64 | bool =>
    intro passes
    rw [Reader.testWord, hslot, RecordRow.fields]
    dsimp only
    rw [habs]
    rfl
  | str =>
    intro value
    rw [Reader.testStr, hslot, RecordRow.fields]
    dsimp only
    rw [habs]
    rfl

/-- A comparison with a cell that the getters read. -/
theorem decides_of_reads (hext : r.extSchema = none) (hsmall : r.data.length < 2 ^ 63) (hsig : r.Sigiled) {i off : ℕ}
    {key : String} {row : RecordRow} {ty : FieldType} (hrec : r.record i = .ok off) (hreads : r.Reads i key (row.keyed keys key))
    (hc : (row.keyed keys key).Is ty)
    (htext : ty = .str → r.layout = .columnar → ∀ s, r.slot key = .ok s → r.keySigils[s]? = some SIGIL_STR) :
    r.Decides off (row.fields keys) (ty, key) := by
  cases ty with
  | i64 =>
    intro passes
    have hget := reads_i64 hreads hc
    rw [Reader.i64At, hrec, ok_bind] at hget
    rw [Reader.testWord_eq hsig, ← Functor.map_map, ← Reader.getI64_eq hext, hget, unwrapOr_ofOption]
    rfl
  | f64 =>
    intro passes
    have hget := reads_f64 hreads hc
    rw [Reader.f64At, hrec, ok_bind] at hget
    rw [Reader.testWord_eq hsig, ← Functor.map_map, ← Reader.getF64_eq hext, hget, unwrapOr_ofOption]
    rfl
  | bool =>
    intro passes
    have hget := reads_bool hreads hc
    rw [Reader.boolAt, hrec, ok_bind] at hget
    rw [Reader.testWord_eq hsig, ← Functor.map_map, ← Reader.getBool_eq hext hsmall, hget, unwrapOr_ofOption]
    rfl
  | str =>
    intro value
    have hget := reads_str hreads hc
    rw [Reader.strAt, hrec, ok_bind] at hget
    rw [Reader.testStr_eq hext (htext rfl), hget, unwrapOr_ofOption]
    rfl

/-- In a columnar file a string is compared with no cell of a column that has none, whatever its sigil. -/
theorem ColumnarReader.testStr_absent {sigils : List UInt8} (h : ColumnarReader r sigils rows) {key value : String} {i fi : ℕ}
    {row : RecordRow} (hfi : fi < r.keys.length) (hslot : r.slot key = .ok fi)
    (hv : isVarSigil (sigils.getD fi SIGIL_INT) = false) (hrow : rows[i]? = some row) (habs : row.cell fi = .absent) :
    r.testStr key i value = .ok false := by
  have hcell : (column rows fi)[i]? = some .absent := by
    rw [column, List.getElem?_map, hrow, Option.map_some, habs]
  obtain ⟨s, hsec, hcol, hsmall⟩ := h.sector fi hfi
  rcases encodeFieldColumn_eq_ok.mp hcol with ⟨hvar, -, -⟩ | ⟨-, -, rfl⟩
  · rw [hv] at hvar
    exact absurd hvar Bool.false_ne_true
  have hbmle := le_nullBitmapBytes rows.length
  have hslen := fixedColumn_length (sigils.getD fi SIGIL_INT) (column rows fi)
  obtain ⟨hbm, -⟩ := range_fixedColumn (ε := NxsError) (sigils.getD fi SIGIL_INT) (column rows fi)
  rw [column_length] at hbm hslen
  rw [Reader.testStr, hslot, ok_bind, h.layout]
  dsimp only
  rw [Reader.colFieldVarParts, hsec, ok_bind, h.recordCount, colVarParts, nullBitmapLen_of (by omega), ok_bind,
    checkedAdd_of (by omega), okOr_ok, ok_bind, checkedMul_of (by omega), okOr_ok, ok_bind]
  by_cases hroom : min (nullBitmapBytes rows.length + (rows.length + 1) * 4) (2 ^ 64 - 1) ≤
      (fixedColumn (sigils.getD fi SIGIL_INT) (column rows fi)).length
  · rw [ensure_of hroom, ok_bind, hbm, ok_bind, range_of (by omega) (by omega), ok_bind, range_of (by omega) (by omega), ok_bind,
      toOpt_ok, ok_bind]
    dsimp only
    rw [bitAt_encodeNullBitmap hcell, ok_bind]
    rfl
  · rw [ensure_not hroom]
    rfl

/-- The string comparisons of a columnar file. -/
theorem ColumnarReader.text_decides {file : Slice} {kinds : List UInt8} (h : ColumnarReader r (sigilsForKeys keys rows) rows)
    (hnew : Reader.new file = .ok r) (hkeys : r.keys = keys) (hnd : keys.Nodup) (htyped : TypedTable keys kinds rows)
    {i fi : ℕ} {row : RecordRow} {key : String} (hkey : keys[fi]? = some key) (hkind : kinds[fi]? = some SIGIL_STR)
    (hrow : rows[i]? = some row) (hreads : r.Reads i key (row.cell fi)) : r.Decides i (row.fields keys) (.str, key) := by
  subst hkeys
  obtain ⟨hfi, rfl⟩ := List.getElem?_eq_some_iff.mp hkey
  have hslot := Reader.slot_of_nodup hnd hkey
  have hcell : row.keyed r.keys r.keys[fi] = row.cell fi := by
    rw [RecordRow.keyed, if_pos (List.getElem_mem hfi), hnd.idxOf_getElem]
  have hstr : ∀ c ∈ column rows fi, c = .absent ∨ c.sigil = SIGIL_STR := fun c hc => by
    obtain ⟨hlt, hk⟩ := List.getElem?_eq_some_iff.mp hkind
    exact (htyped.ofKind fi hlt c hc).imp id fun h => h.trans hk
  by_cases hsome : ∃ c ∈ column rows fi, c ≠ .absent
  · obtain ⟨c, hc, habs⟩ := hsome
    have hi := (List.getElem?_eq_some_iff.mp hrow).1
    have hrec : r.record i = .ok i := by
      rw [Reader.record, h.recordCount, ensure_of (by omega), ok_bind, if_neg (by simp [h.layout])]
    refine decides_of_reads (reader_basic hnew (by rw [h.layout]; decide)) (reader_opened hnew).small (reader_sigiled hnew) hrec
      (hcell ▸ hreads) ?_ fun _ _ s hs => ?_
    · rw [hcell, Cell.Is]
      exact (hstr _ (mem_column fi hrow)).imp id List.mem_singleton.mpr
    · obtain rfl : fi = s := Outcome.ok.inj (hslot.symm.trans hs)
      have hnull : ∀ c ∈ column rows fi, c ≠ .null := by
        rintro c hc rfl
        rcases hstr _ hc with h | h
        · cases h
        · exact absurd h (by decide)
      have hsig := columnSigil_of_kind (fun c hc => (hstr c hc).imp id .inr)
        (fun hlead => hnull _ (List.mem_of_find?_eq_some hlead) rfl) hc habs (hnull c hc)
      rw [h.keySigil_of hfi, sigilsForKeys_getD hfi, hsig, (hstr c hc).resolve_left habs]
  · have habs : row.cell fi = .absent := by
      by_contra hne
      exact hsome ⟨_, mem_column fi hrow, hne⟩
    intro value
    have hint : columnSigil (column rows fi) = SIGIL_INT := by
      have hfind : (column rows fi).find? (· ≠ .absent) = none := by
        rw [List.find?_eq_none]
        exact fun c hc hne => hsome ⟨c, hc, by simpa using hne⟩
      rw [columnSigil_eq, hfind]
      rfl
    rw [h.testStr_absent hfi hslot (by rw [sigilsForKeys_getD hfi, hint]; rfl) hrow habs, RecordRow.fields]
    dsimp only
    rw [hcell, habs]
    rfl

/-- The comparisons of a typed predicate with the records of a table, by the getters. -/
theorem table_decides {file : Slice} {kinds : List UInt8} (hnew : Reader.new file = .ok r) (hext : r.extSchema = none)
    (hkeys : r.keys = keys) (htyped : TypedTable keys kinds rows) (hp : p.Typed keys kinds)
    (hreads : ∀ i row fi key, rows[i]? = some row → keys[fi]? = some key → r.Reads i key (row.cell fi))
    {i off : ℕ} {row : RecordRow} (hrow : rows[i]? = some row) (hrec : r.record i = .ok off)
    (htext : ∀ key (fi : ℕ), keys[fi]? = some key → kinds[fi]? = some SIGIL_STR → r.layout = .columnar →
      r.Decides off (row.fields keys) (.str, key)) :
    ∀ leaf ∈ p.leaves, r.Decides off (row.fields keys) leaf := by
  rintro ⟨ty, key⟩ hleaf
  by_cases hmem : key ∈ keys
  · have hfi := List.idxOf_lt_length_of_mem hmem
    have hkey : keys[keys.idxOf key]? = some key := by rw [List.getElem?_eq_getElem hfi, List.getElem_idxOf]
    obtain ⟨kind, hkind, -⟩ := htyped.exists_kind hfi
    have hty := hp _ hleaf _ kind hkey hkind
    have hcell : row.keyed keys key = row.cell (keys.idxOf key) := if_pos hmem
    by_cases hcol : r.layout = .columnar ∧ ty = .str
    · obtain ⟨hcol, rfl⟩ := hcol
      rw [FieldType.kinds, List.mem_singleton] at hty
      exact htext key _ hkey (hty ▸ hkind) hcol
    · refine decides_of_reads hext (reader_opened hnew).small (reader_sigiled hnew) hrec ?_ ?_
        fun hstr hlayout => absurd ⟨hlayout, hstr⟩ hcol
      · rw [hcell]
        exact hreads i row _ key hrow hkey
      · rw [hcell, Cell.Is]
        refine (htyped.cell_kind (List.mem_of_getElem? hrow) hkind).imp id fun h => ?_
        rw [h]
        exact hty
  · exact decides_unknown (hkeys ▸ hmem) hmem off ty

theorem TypedTable.not_binary {kinds : List UInt8} (h : TypedTable keys kinds rows) (fi : ℕ) :
    kinds[fi]? ≠ some SIGIL_BINARY := fun hkind => by
  have hmem := h.kinds_mem _ (List.mem_of_getElem? hkind)
  revert hmem
  decide

/-- The records of a file that is not of rows are identified by their indices. -/
theorem record_index (hlayout : r.layout ≠ .row) (hcount : r.recordCount = rows.length) {i : ℕ} {row : RecordRow}
    (hrow : rows[i]? = some row) : r.record i = .ok i := by
  have hi := (List.getElem?_eq_some_iff.mp hrow).1
  rw [Reader.record, hcount, ensure_of (by omega), ok_bind, if_neg hlayout]

end

/-! ## Queries on the files of a table -/

section

variable {keys : List String} {kinds : List UInt8} {rows : List RecordRow} {file : Slice} {p : Predicate}
  (hlen : keys.length < 65536) (hnd : keys.Nodup) (hnul : ∀ k ∈ keys, NulFree k) (htyped : TypedTable keys kinds rows)
  (hp : p.Typed keys kinds)

include hlen hnd hnul htyped hp

theorem plain_selects (hok : finishRow keys rows none = .ok file) (hfits : PlainRowsFit keys rows) :
    ∃ r, Reader.new file = .ok r ∧ r.Selects p (rowsWhere keys rows p) := by
  have hrows : ∀ row ∈ rows, RowFits keys row := fun row hrow => htyped.rowFits hrow
  have hcount : rows.length < 2 ^ 32 := lt_of_le_of_lt (rows_le_bytes hrows) hfits.sector
  obtain ⟨r, hr, -, htable⟩ := (finishRow_file hlen hrows hok).opens hlen hnul
  refine ⟨r, hr, selects_of_decides (by rw [htable.recordCount, Nat.mod_eq_of_lt hcount]) fun i row hrow => ?_⟩
  obtain ⟨off, hoff, -⟩ := htable.record hrows hfits.sector hcount hrow
  refine ⟨_, hoff, table_decides hr htable.ext htable.keys_eq htyped hp (fun i row fi key hrow hkey => ?_) hrow hoff
    fun key fi _ _ hlayout => by rw [htable.layout] at hlayout; cases hlayout⟩
  exact htable.reads hrows hfits.sector hcount hnd hrow hkey (hfits.offsets row (List.mem_of_getElem? hrow))

theorem columnar_selects (hpos : keys ≠ []) (hok : finishColumnar keys rows = .ok file) :
    ∃ r, Reader.new file = .ok r ∧ r.Selects p (rowsWhere keys rows p) := by
  obtain ⟨r, hr, hkeys, hcolumns⟩ := new_finishColumnar hpos hlen hnul hnd (zero_not_mem_sigilsForKeys keys rows) hok
  obtain ⟨r', hr', -, hreads⟩ := (columnar_reads_back_iff hpos hlen hnd hnul htyped.homogeneous hok).mpr htyped.nullsKept
  obtain rfl : r = r' := Outcome.ok.inj (hr.symm.trans hr')
  have hlayout : r.layout ≠ .row := by
    rw [hcolumns.layout]
    decide
  refine ⟨r, hr, selects_of_decides hcolumns.recordCount fun i row hrow => ?_⟩
  have hrec := record_index hlayout hcolumns.recordCount hrow
  refine ⟨i, hrec, table_decides hr (reader_basic hr hlayout) hkeys htyped hp
    (fun i row fi key hrow hkey => hreads i row fi key hrow hkey (htyped.not_binary fi)) hrow hrec fun key fi hkey hkind _ => ?_⟩
  exact hcolumns.text_decides hr hkeys hnd htyped hkey hkind hrow (hreads i row fi key hrow hkey (htyped.not_binary fi))

theorem pax_selects {pageSize : UInt32} (hok : finishPax keys rows pageSize = .ok file)
    (hpages : PagesReached keys kinds rows pageSize.toNat) :
    ∃ r, Reader.new file = .ok r ∧ r.Selects p (rowsWhere keys rows p) := by
  obtain ⟨r, base, gs, st, hr, hkeys, hpax, -⟩ := new_finishPax hlen hnul hok
  obtain ⟨r', hr', hcount, hreads⟩ := (pax_reads_back_iff hlen hnd hnul htyped.homogeneous htyped.nullsKept hok).mpr hpages
  obtain rfl : r = r' := Outcome.ok.inj (hr.symm.trans hr')
  have hlayout : r.layout ≠ .row := by
    rw [hpax.layout]
    decide
  refine ⟨r, hr, selects_of_decides hcount fun i row hrow => ?_⟩
  have hrec := record_index hlayout hcount hrow
  exact ⟨i, hrec, table_decides hr (reader_basic hr hlayout) hkeys htyped hp
    (fun i row fi key hrow hkey => hreads i row fi key hrow hkey (htyped.not_binary fi)) hrow hrec
    fun key fi _ _ hcol => by rw [hpax.layout] at hcol; cases hcol⟩

/-- So does the file of a stream, however its rows were pushed and flushed. -/
theorem stream_selects {pageSize : UInt32} {w : PaxStreamWriter} {ops : List PaxStreamWriter.Op}
    (hnew : PaxStreamWriter.new keys kinds pageSize = .ok w) (hrows : PaxStreamWriter.pushed ops = rows)
    (hok : (w.run ops).finishStream = .ok file) (hpages : (w.run ops).written.pages.length < 2 ^ 30) :
    ∃ r, Reader.new file = .ok r ∧ r.Selects p (rowsWhere keys rows p) := by
  have h0 : (0 : UInt8) ∉ kinds := fun hmem => by
    have := htyped.kinds_mem 0 hmem
    revert this
    decide
  obtain ⟨r, base, gs, st, hr, hkeys, hpax, hflat, hcount⟩ :=
    PaxStreamWriter.finish_stream_opens hlen hnul htyped.kinds_length h0 hnew hok
  have hholds := hpax.holds (by rwa [hkeys]) (by omega)
  rw [hkeys, hflat, hrows] at hholds
  have hlayout : r.layout ≠ .row := by
    rw [hpax.layout]
    decide
  refine ⟨r, hr, selects_of_decides hholds.recordCount fun i row hrow => ?_⟩
  have hrec := record_index hlayout hholds.recordCount hrow
  refine ⟨i, hrec, table_decides hr (reader_basic hr hlayout) hkeys htyped hp (fun i row fi key hrow hkey => ?_) hrow hrec
    fun key fi _ _ hcol => by rw [hpax.layout] at hcol; cases hcol⟩
  have hsees := hholds.sees i row fi key hrow hkey
  have hfi : fi < kinds.length := by
    rw [htyped.kinds_length]
    exact (List.getElem?_eq_some_iff.mp hkey).1
  have hkind : kinds[fi]? = some (kinds.getD fi SIGIL_INT) := by
    rw [List.getD_eq_getElem?_getD, List.getElem?_eq_getElem hfi]
    rfl
  rcases htyped.cell_kind (List.mem_of_getElem? hrow) hkind with habs | hcell
  · rw [habs] at hsees ⊢
    exact reads_absent hsees
  · rw [← hcell] at hsees
    exact reads_of_sigil hsees

end

def peopleRows : List RecordRow := [⟨[.i64 1, .str "ann"]⟩, ⟨[.absent, .str "bob"]⟩, ⟨[.i64 3]⟩]

/-- `id > 0` and not `name == "ann"`; a record without a name is not called Ann. -/
def notAnn : Predicate := .and (.gtI64 "id" 0) (.not (.eqStr "name" "ann"))

theorem notAnn_typed : notAnn.Typed ["id", "name"] [SIGIL_INT, SIGIL_STR] := by
  intro leaf hleaf fi kind hkey hkind
  have hfi : fi < 2 := (List.getElem?_eq_some_iff.mp hkind).1
  have hall : ∀ leaf ∈ notAnn.leaves, ∀ fi < 2, ["id", "name"][fi]? = some leaf.2 →
      ∀ kind ∈ [SIGIL_INT, SIGIL_STR][fi]?, kind ∈ leaf.1.kinds := by decide +kernel
  exact hall leaf hleaf fi hfi hkey kind hkind

/-- The rows of the table, written to a stream that is flushed once before its end. -/
def peopleStream : PaxStreamWriter := (PaxStreamWriter.init ["id", "name"] [SIGIL_INT, SIGIL_STR] 8).run
  [.push ⟨[.i64 1, .str "ann"]⟩, .flush, .push ⟨[.absent, .str "bob"]⟩, .push ⟨[.i64 3]⟩]

end Nyxis

import Nyxis.ColSum
import Nyxis.PageSearch
import Nyxis.Predicates

/-!
# ReaderCalls — every call on an opened file

A reader takes counts from the file into unchecked arithmetic: the record count of a columnar file and the page ranges
of a PAX file.  Where these fit (`Reader.CountsFit`; a row file has none), no call panics, whatever the other
bytes are.

* `safe_colFieldParts`, `safe_paxLocateRecord`, `safe_paxColumnSector`: the parts of a column.
* `reader_calls_safe`: no call on an opened file panics.
-/

namespace Nyxis

open Lib Lib.Outcome

/-- The counts of a file with which the unchecked arithmetic of a reader fits. -/
structure Reader.CountsFit (r : Reader) : Prop where
  columnar : r.layout = .columnar → r.recordCount + 7 < 2 ^ 64
  pages : r.layout = .pax → ∀ n, r.pageCount = .ok n → n ≤ 2 ^ 30
  ranges : r.layout = .pax → ∀ k start count, r.paxPageRecStart k = .ok start → r.paxPageRecCount k = .ok count →
    start + count < 2 ^ 64

/-- A row file has no such counts. -/
theorem Reader.countsFit_row {r : Reader} (h : r.layout = .row) : r.CountsFit where
  columnar hcol := by
    rw [h] at hcol
    cases hcol
  pages hpax := by
    rw [h] at hpax
    cases hpax
  ranges hpax := by
    rw [h] at hpax
    cases hpax

theorem safe_bitAt {ε : Type} {d : Bytes} {i : ℕ} (h : i < 8 * d.length) : Safe (bitAt d i : Outcome ε Bool) Any := by
  rw [bitAt]
  exact (safe_index (by omega)).bind fun b _ => safe_ok trivial

theorem safe_varStrAt {offsets : Bytes} (h : offsets.length < 2 ^ 63) (values : Bytes) (i : ℕ) :
    Safe (varStrAt offsets values i) Any := by
  rw [varStrAt, varBinaryAt]
  refine Safe.bind (Q := Any) ?_ fun bytes _ => safe_fromUtf8 bytes
  refine (safe_checkedAdd i 2).bind fun n2 hn2 => (safe_checkedMul n2 4).bind fun need hneed => ?_
  refine safe_ensure_bind fun hle => ?_
  refine (safe_readLE (by omega) (by omega)).bind fun start _ => (safe_readLE (by omega) (by omega)).bind fun stop _ => ?_
  refine safe_ensure_bind fun hin => ?_
  exact (safe_range (by omega) (by omega)).mono fun _ _ => trivial

/-- The parts of a string column. -/
theorem safe_colVarParts {sector : Bytes} {n : ℕ} (hsmall : sector.length < 2 ^ 63) (hn : n + 7 < 2 ^ 64) :
    Safe (colVarParts sector n) fun parts => parts.1.length = nullBitmapBytes n ∧ parts.2.1.length < 2 ^ 63 := by
  rw [colVarParts, nullBitmapLen_of hn, ok_bind]
  refine (safe_okOr (safe_checkedAdd n 1)).bind fun n1 hn1 => (safe_okOr (safe_checkedMul n1 4)).bind fun offBytes hoff => ?_
  refine safe_ensure_bind fun hroom => ?_
  refine (safe_range (by omega) (by omega)).bind fun bm hbm => (safe_range (by omega) (by omega)).bind fun offsets hoffsets => ?_
  refine (safe_range (by omega) (by omega)).bind fun values _ => safe_ok ⟨by rw [hbm, Nat.sub_zero], ?_⟩
  dsimp only
  omega

section

variable {r : Reader} (h : r.Opened)

include h

/-! ## Columns of a columnar file -/

theorem safe_colSector (s : ℕ) : Safe (r.colSector s) fun sector => sector.length < 2 ^ 63 := by
  have hsmall := h.small
  rw [Reader.colSector]
  refine (safe_okOr (Q := Any) (safe_ofOption fun _ _ => trivial)).bind fun off _ => ?_
  refine (safe_okOr (Q := Any) (safe_ofOption fun _ _ => trivial)).bind fun len _ => ?_
  refine (safe_okOr (safe_checkedAdd off len)).bind fun stop hstop => safe_ensure_bind fun hle => ?_
  exact (safe_range (by omega) (by omega)).mono fun sector hsector => by omega

theorem safe_colFieldVarParts (hcount : r.recordCount + 7 < 2 ^ 64) (s : ℕ) : Safe (r.colFieldVarParts s) fun parts =>
    parts.1.length = nullBitmapBytes r.recordCount ∧ parts.2.1.length < 2 ^ 63 := by
  rw [Reader.colFieldVarParts]
  exact (safe_colSector h s).bind fun sector hsector => safe_colVarParts hsector hcount

/-- The bits and the values of a fixed-width column. -/
theorem safe_colFieldParts (hcount : r.recordCount + 7 < 2 ^ 64) (s : ℕ) : Safe (r.colFieldParts s) fun parts =>
    parts.1.length = nullBitmapBytes r.recordCount ∧ parts.2.length = r.recordCount * 8 ∧ r.recordCount * 8 < 2 ^ 63 := by
  rw [Reader.colFieldParts]
  refine safe_ensure_bind fun _ => (safe_colSector h s).bind fun sector hsector => ?_
  rw [nullBitmapLen_of hcount, ok_bind]
  dsimp only
  refine (safe_okOr (safe_checkedAdd _ _)).bind fun valsEnd hend => safe_ensure_bind fun hroom => ?_
  refine (safe_range (by omega) (by omega)).bind fun bm hbm => (safe_range (by omega) (by omega)).bind fun vals hvals => ?_
  refine safe_ok ⟨by rw [hbm, Nat.sub_zero], ?_, by omega⟩
  dsimp only
  omega

theorem safe_colGetWord (hcount : r.recordCount + 7 < 2 ^ 64) {w ri : ℕ} (hw : w ≤ 8) (hri : ri < r.recordCount) (s : ℕ) :
    Safe (r.colGetWord w s ri) Any := by
  have hbits := nullBitmapBytes_le r.recordCount
  rw [Reader.colGetWord]
  refine (safe_keySigil r s).bind fun sig _ => safe_ensure_bind fun _ => ?_
  refine (safe_toOpt (safe_colFieldParts h hcount s)).bind fun parts hparts => ?_
  obtain ⟨bm, vals⟩ := parts
  obtain ⟨hbm, -, hvals⟩ := hparts
  dsimp only at hbm ⊢
  refine (safe_bitAt (by omega)).bind fun set _ => safe_ensure_bind fun _ => ?_
  rw [usizeMul_of (by omega), ok_bind]
  exact (safe_getLE (by omega)).mono fun _ _ => trivial

theorem safe_colGetStr (hcount : r.recordCount + 7 < 2 ^ 64) {ri : ℕ} (hri : ri < r.recordCount) (s : ℕ) :
    Safe (r.colGetStr s ri) Any := by
  have hbits := nullBitmapBytes_le r.recordCount
  rw [Reader.colGetStr]
  refine safe_ensure_bind fun _ => (safe_toOpt (safe_colFieldVarParts h hcount s)).bind fun parts hparts => ?_
  obtain ⟨bm, offsets, values⟩ := parts
  obtain ⟨hbm, hoffsets⟩ := hparts
  dsimp only at hbm hoffsets ⊢
  refine (safe_bitAt (by omega)).bind fun set _ => safe_ensure_bind fun _ => ?_
  exact safe_varStrAt hoffsets values ri

/-! ## Pages of a PAX file -/

theorem safe_pageCount : Safe r.pageCount (· < 2 ^ 32) := by
  have hsmall := h.small
  have hsize := h.size
  rw [Reader.pageCount]
  refine safe_if (fun _ => safe_ok (by decide)) fun _ => safe_if (fun _ => safe_ok (by decide)) fun _ => ?_
  exact safe_readLE (by omega) (by omega)

omit h in
/-- The search for a page ends within it. -/
theorem safe_paxLocateLoop (hranges : ∀ k start count, r.paxPageRecStart k = .ok start → r.paxPageRecCount k = .ok count →
    start + count < 2 ^ 64) (i : ℕ) : ∀ (fuel : ℕ) (lo hi : ℤ), hi < 2 ^ 30 →
      Safe (r.paxLocateLoop i fuel lo hi) fun found => ∃ count, r.paxPageRecCount found.1 = .ok count ∧ found.2 < count
  | 0, _, _, _ => safe_err
  | fuel + 1, lo, hi, hhi => by
    rw [Reader.paxLocateLoop]
    refine safe_if (fun hle => ?_) fun _ => safe_err
    rw [demand_of (by omega), ok_bind]
    dsimp only
    cases hstart : r.paxPageRecStart ((lo + hi) / 2).toNat with
    | panic => exact absurd hstart (safe_paxEntry r _ 4 8).ne_panic
    | err e => exact safe_err
    | ok start =>
      cases hcount : r.paxPageRecCount ((lo + hi) / 2).toNat with
      | panic => exact absurd hcount (safe_paxEntry r _ 12 4).ne_panic
      | err e => exact safe_err
      | ok count =>
        rw [ok_bind, ok_bind]
        refine safe_if (fun _ => ?_) fun hge => ?_
        · exact safe_paxLocateLoop hranges i fuel lo _ (by omega)
        · rw [usizeAdd_of (hranges _ _ _ hstart hcount), ok_bind]
          refine safe_if (fun _ => ?_) fun hin => ?_
          · exact safe_paxLocateLoop hranges i fuel _ hi hhi
          · exact safe_ok ⟨count, hcount, by dsimp only; omega⟩

theorem safe_paxLocateRecord (hfit : r.CountsFit) (hlayout : r.layout = .pax) (i : ℕ) :
    Safe (r.paxLocateRecord i) fun found => ∃ count, r.paxPageRecCount found.1 = .ok count ∧ found.2 < count := by
  rw [Reader.paxLocateRecord]
  cases hcount : r.pageCount with
  | panic => exact absurd hcount (safe_pageCount h).ne_panic
  | err e => exact safe_err
  | ok n =>
    have hn := hfit.pages hlayout n hcount
    have hhi : Reader.asI32 (n - 1) < 2 ^ 30 := by
      unfold Reader.asI32
      rw [Int.bmod_eq_of_le (by omega) (by omega)]
      omega
    rw [ok_bind]
    generalize 33 = fuel -- so that the loop is not unfolded
    exact safe_paxLocateLoop (hfit.ranges hlayout) i fuel 0 _ hhi

omit h in
theorem safe_columnSectorLen {sector : Bytes} (hsmall : sector.length < 2 ^ 63) {n : ℕ} (hn : n < 2 ^ 32) (sigil : UInt8) :
    Safe (columnSectorLen sector n sigil) Any := by
  rw [columnSectorLen, nullBitmapLen_of (by omega), ok_bind]
  refine safe_ensure_bind fun _ => safe_if (fun _ => ?_) fun _ => ?_
  · refine (safe_okOr (safe_checkedAdd n 1)).bind fun n1 hn1 => (safe_okOr (safe_checkedMul n1 4)).bind fun offBytes hoff => ?_
    refine (safe_okOr (safe_checkedAdd _ offBytes)).bind fun valuesOff hvals => safe_ensure_bind fun hroom => ?_
    refine (safe_okOr (safe_checkedMul n 4)).bind fun cells hcells => (safe_okOr (safe_checkedAdd _ cells)).bind fun e he => ?_
    refine (safe_readLE (by omega) (by omega)).bind fun last _ => ?_
    exact safe_okOr ((safe_checkedAdd valuesOff last).mono fun _ _ => trivial)
  · refine (safe_okOr (safe_checkedMul n 8)).bind fun cells _ => ?_
    exact safe_okOr ((safe_checkedAdd _ cells).mono fun _ _ => trivial)

theorem safe_paxColumnWalk {rc : ℕ} (hrc : rc < 2 ^ 32) : ∀ (n fi body : ℕ), Safe (r.paxColumnWalk rc n fi body) (body ≤ ·)
  | 0, _, _ => safe_ok (Nat.le_refl _)
  | n + 1, fi, body => by
    have hsmall := h.small
    rw [Reader.paxColumnWalk]
    refine safe_ensure_bind fun _ => (safe_columnSectorLen (by rw [List.length_drop]; omega) hrc _).bind fun slen _ => ?_
    refine (safe_okOr (safe_checkedAdd body slen)).bind fun next hnext => ?_
    exact (safe_paxColumnWalk hrc n (fi + 1) next).mono fun _ hle => by omega

theorem safe_paxColumnSector (k s : ℕ) : Safe (r.paxColumnSector k s) fun sector => sector.length < 2 ^ 63 := by
  have hsmall := h.small
  have hsize := h.size
  rw [Reader.paxColumnSector]
  refine (safe_okOr (safe_paxEntry r k 16 8)).bind fun poff _ => safe_ensure_bind fun hpoff => ?_
  refine (safe_readLE (by omega) (by omega)).bind fun magic _ => safe_ensure_bind fun _ => ?_
  refine (safe_readLE (by omega) (by omega)).bind fun rc hrc => (safe_readLE (by omega) (by omega)).bind fun fields _ => ?_
  refine safe_ensure_bind fun _ => (safe_okOr (safe_checkedAdd poff 24)).bind fun first hfirst => ?_
  refine (safe_paxColumnWalk h (by omega) s 0 first).bind fun body hle => safe_ensure_bind fun hbody => ?_
  refine (safe_columnSectorLen (by rw [List.length_drop]; omega) (by omega) _).bind fun slen _ => ?_
  refine safe_ensure_bind fun hroom => ?_
  exact (safe_range (by omega) (by omega)).mono fun sector hsector => by omega

omit h in
theorem paxPageRecCount_lt {k count : ℕ} (hcount : r.paxPageRecCount k = .ok count) : count < 2 ^ 32 :=
  (safe_paxEntry r k 12 4).post hcount

theorem safe_paxGetWord (hfit : r.CountsFit) (hlayout : r.layout = .pax) {w : ℕ} (hw : w ≤ 8) (i s : ℕ) :
    Safe (r.paxGetWord w i s) Any := by
  rw [Reader.paxGetWord]
  refine (safe_paxLocateRecord h hfit hlayout i).bind fun found hfound => ?_
  obtain ⟨k, j⟩ := found
  obtain ⟨count, hcount, hj⟩ := hfound
  dsimp only at hcount hj ⊢
  have hlt := paxPageRecCount_lt hcount
  have hbits := nullBitmapBytes_le count
  have hle := le_nullBitmapBytes count
  refine (safe_keySigil r s).bind fun sig _ => safe_ensure_bind fun _ => ?_
  have hparts : Safe (r.paxPageFieldParts k s) fun parts => parts.1.length = nullBitmapBytes count := by
    rw [Reader.paxPageFieldParts]
    refine (safe_paxColumnSector h k s).bind fun sector hsector => ?_
    rw [hcount, okOr_ok, ok_bind, nullBitmapLen_of (by omega), ok_bind]
    refine safe_ensure_bind fun _ => safe_ensure_bind fun hroom => ?_
    refine (safe_range (by omega) (by omega)).bind fun bm hbm => (safe_range (by omega) (by omega)).bind fun vals _ => ?_
    exact safe_ok (by rw [hbm, Nat.sub_zero])
  refine (safe_toOpt hparts).bind fun parts hbm => ?_
  obtain ⟨bm, vals⟩ := parts
  dsimp only at hbm ⊢
  refine (safe_bitAt (by omega)).bind fun set _ => safe_ensure_bind fun _ => ?_
  exact (safe_getLE (by omega)).mono fun _ _ => trivial

theorem safe_paxGetStr (hfit : r.CountsFit) (hlayout : r.layout = .pax) (i s : ℕ) : Safe (r.paxGetStr i s) Any := by
  rw [Reader.paxGetStr]
  refine (safe_paxLocateRecord h hfit hlayout i).bind fun found hfound => ?_
  obtain ⟨k, j⟩ := found
  obtain ⟨count, hcount, hj⟩ := hfound
  dsimp only at hcount hj ⊢
  have hlt := paxPageRecCount_lt hcount
  have hbits := nullBitmapBytes_le count
  refine safe_ensure_bind fun _ => ?_
  have hparts : Safe (r.paxPageFieldVarParts k s) fun parts =>
      parts.1.length = nullBitmapBytes count ∧ parts.2.1.length < 2 ^ 63 := by
    rw [Reader.paxPageFieldVarParts]
    refine (safe_paxColumnSector h k s).bind fun sector hsector => ?_
    rw [hcount, okOr_ok, ok_bind]
    exact safe_colVarParts hsector (by omega)
  refine (safe_toOpt hparts).bind fun parts hall => ?_
  obtain ⟨bm, offsets, values⟩ := parts
  obtain ⟨hbm, hoffsets⟩ := hall
  dsimp only at hbm hoffsets ⊢
  refine (safe_bitAt (by omega)).bind fun set _ => safe_ensure_bind fun _ => ?_
  exact safe_varStrAt hoffsets values j

/-! ## The getters -/

/-- What identifies a record: its index, where it has no object. -/
def Reader.Identifies (r : Reader) (off : ℕ) : Prop := r.layout ≠ .row → off < r.recordCount

theorem safe_getI64 (hfit : r.CountsFit) {off : ℕ} (hoff : r.Identifies off) (key : String) : Safe (r.getI64 off key) Any := by
  rw [Reader.getI64]
  refine (safe_slot r key).bind fun s _ => ?_
  cases hlayout : r.layout with
  | columnar =>
    refine Safe.map (safe_colGetWord h (hfit.columnar hlayout) (by decide) (hoff ?_) s) fun _ _ => trivial
    rw [hlayout]
    decide
  | pax => exact (safe_paxGetWord h hfit hlayout (by decide) off s).map fun _ _ => trivial
  | row => exact safe_rowGetI64 h off s

theorem safe_getF64 (hfit : r.CountsFit) {off : ℕ} (hoff : r.Identifies off) (key : String) : Safe (r.getF64 off key) Any := by
  rw [Reader.getF64]
  refine (safe_slot r key).bind fun s _ => ?_
  cases hlayout : r.layout with
  | columnar =>
    refine Safe.map (safe_colGetWord h (hfit.columnar hlayout) (by decide) (hoff ?_) s) fun _ _ => trivial
    rw [hlayout]
    decide
  | pax => exact (safe_paxGetWord h hfit hlayout (by decide) off s).map fun _ _ => trivial
  | row => exact safe_rowGetF64 h off s

theorem safe_getBool (hfit : r.CountsFit) {off : ℕ} (hoff : r.Identifies off) (key : String) : Safe (r.getBool off key) Any := by
  rw [Reader.getBool]
  refine (safe_slot r key).bind fun s _ => ?_
  cases hlayout : r.layout with
  | columnar =>
    refine Safe.map (safe_colGetWord h (hfit.columnar hlayout) (by decide) (hoff ?_) s) fun _ _ => trivial
    rw [hlayout]
    decide
  | pax => exact (safe_paxGetWord h hfit hlayout (by decide) off s).map fun _ _ => trivial
  | row => exact safe_rowGetBool h off s

theorem safe_getStr (hfit : r.CountsFit) {off : ℕ} (hoff : r.Identifies off) (key : String) : Safe (r.getStr off key) Any := by
  rw [Reader.getStr]
  refine (safe_slot r key).bind fun s _ => ?_
  cases hlayout : r.layout with
  | columnar =>
    refine safe_colGetStr h (hfit.columnar hlayout) (hoff ?_) s
    rw [hlayout]
    decide
  | pax => exact safe_paxGetStr h hfit hlayout off s
  | row => exact safe_rowGetStr h off s

/-! ## Queries -/

omit h in
theorem safe_unwrapOr {α : Type} {x : Opt α} {Q : α → Prop} (hx : Safe x Q) (a : α) : Safe (unwrapOr x a) Any := by
  cases x with
  | ok b => trivial
  | err e => trivial
  | panic => exact hx

theorem safe_testWord (hfit : r.CountsFit) {off : ℕ} (hoff : r.Identifies off) {w : ℕ} (hw : w ≤ 8) (key : String)
    (passes : ℕ → Bool) : Safe (r.testWord w key off passes) Any := by
  have hsmall := h.small
  refine safe_unwrapOr (Q := Any) ((safe_slot r key).bind fun s _ => ?_) false
  cases hlayout : r.layout with
  | columnar =>
    have hlt : off < r.recordCount := hoff (by rw [hlayout]; decide)
    have hbits := nullBitmapBytes_le r.recordCount
    refine safe_ensure_bind fun _ => ?_
    refine (safe_toOpt (safe_colFieldParts h (hfit.columnar hlayout) s)).bind fun parts hparts => ?_
    obtain ⟨bm, vals⟩ := parts
    obtain ⟨hbm, -, hvals⟩ := hparts
    dsimp only at hbm ⊢
    refine (safe_bitAt (by omega)).bind fun set _ => safe_ensure_bind fun _ => ?_
    rw [usizeMul_of (by omega), ok_bind]
    exact (safe_getLE (by omega)).map fun _ _ => trivial
  | pax => exact (safe_paxGetWord h hfit hlayout hw off s).map fun _ _ => trivial
  | row =>
    refine (safe_resolveSlot r.data off s).bind fun q hq => ?_
    exact (safe_getLE_near h (by omega) hw).map fun n _ => trivial

theorem safe_testStr (hfit : r.CountsFit) {off : ℕ} (hoff : r.Identifies off) (key value : String) :
    Safe (r.testStr key off value) Any := by
  have hsmall := h.small
  refine safe_unwrapOr (Q := Any) ((safe_slot r key).bind fun s _ => ?_) false
  cases hlayout : r.layout with
  | columnar =>
    have hlt : off < r.recordCount := hoff (by rw [hlayout]; decide)
    have hbits := nullBitmapBytes_le r.recordCount
    refine (safe_toOpt (safe_colFieldVarParts h (hfit.columnar hlayout) s)).bind fun parts hparts => ?_
    obtain ⟨bm, offsets, values⟩ := parts
    obtain ⟨hbm, hoffsets⟩ := hparts
    dsimp only at hbm hoffsets ⊢
    refine (safe_bitAt (by omega)).bind fun set _ => safe_ensure_bind fun _ => ?_
    exact (safe_varStrAt hoffsets values off).map fun _ _ => trivial
  | pax => exact (safe_paxGetStr h hfit hlayout off s).map fun _ _ => trivial
  | row =>
    refine (safe_resolveSlot r.data off s).bind fun q hq => ?_
    refine (safe_getLE_near h (by omega) (by decide)).bind fun len hlen => ?_
    exact (safe_inlineStr (by omega)).map fun _ _ => trivial

theorem safe_test (hfit : r.CountsFit) {off : ℕ} (hoff : r.Identifies off) : ∀ p : Predicate, Safe (p.test r off) Any
  | .alwaysTrue => safe_ok trivial
  | .eqBool .. => safe_testWord h hfit hoff (by decide) _ _
  | .eqStr .. => safe_testStr h hfit hoff _ _
  | .eqI64 .. | .eqF64 .. | .gtF64 .. | .gtI64 .. | .ltF64 .. | .ltI64 .. => safe_testWord h hfit hoff (by decide) _ _
  | .and p q => by
    refine (safe_test hfit hoff p).bind fun x _ => ?_
    cases x with
    | true => exact safe_test hfit hoff q
    | false => exact safe_ok trivial
  | .or p q => by
    refine (safe_test hfit hoff p).bind fun x _ => ?_
    cases x with
    | true => exact safe_ok trivial
    | false => exact safe_test hfit hoff q
  | .not p => (safe_test hfit hoff p).bind fun x _ => safe_ok trivial

theorem safe_select (hfit : r.CountsFit) (p : Predicate) : Safe (r.select p) fun offs => ∀ off ∈ offs, r.Identifies off := by
  rw [Reader.select, Reader.selectFrom_eq_scan]
  refine safe_scan (fun j _ hj => ?_) fun off hoff => safe_test h hfit hoff p
  rw [Nat.zero_add] at hj
  rw [← Reader.record_eq hj]
  exact safe_record h j

/-! ## Paths, keywords and columns -/

theorem safe_strPath (off : ℕ) (path : String) : Safe (r.getStrPath off path) Any := by
  have hsmall := h.small
  rw [Reader.getStrPath]
  refine (safe_walkPath h _ off).bind fun q hq => (safe_getLE_near h (by omega) (by decide)).bind fun len hlen => ?_
  exact safe_inlineStr (by omega)

theorem safe_getKeyword (key : String) (i : ℕ) : Safe (r.getKeyword key i) Any := by
  have hsmall := h.small
  rw [Reader.getKeyword]
  refine (safe_slot r key).bind fun s _ => Safe.bind (Q := Any) (safe_ofOption fun _ _ => trivial) fun ext _ => ?_
  refine (safe_keySigil r s).bind fun sig _ => safe_ensure_bind fun _ => ?_
  refine (safe_record h i).bind fun off _ => (safe_resolve h off s).bind fun q hq => ?_
  refine (safe_getLE_near h hq (by decide)).bind fun idx _ => ?_
  rw [Reader.materialiseKeyword]
  exact safe_if (fun _ => safe_ofOption fun _ _ => trivial) fun _ => safe_err

theorem safe_colBuffer (hfit : r.CountsFit) (key : String) : Safe (r.colBuffer key) Any := by
  rw [Reader.colBuffer]
  refine safe_ensure_bind fun hcol => (safe_slot r key).bind fun s _ => safe_ensure_bind fun _ => ?_
  exact (safe_toOpt (safe_colFieldParts h (hfit.columnar hcol) s)).bind fun _ _ => safe_ok trivial

theorem safe_colVarBuffer (hfit : r.CountsFit) (key : String) : Safe (r.colVarBuffer key) Any := by
  rw [Reader.colVarBuffer]
  refine safe_ensure_bind fun hcol => (safe_okOr (safe_slot r key)).bind fun s _ => safe_ensure_bind fun _ => ?_
  exact (safe_colFieldVarParts h (hfit.columnar hcol) s).bind fun _ _ => safe_ok trivial

theorem safe_prefetchColumn (warmed : Bool) (key : String) : Safe (r.prefetchColumn warmed key) Any := by
  rw [Reader.prefetchColumn]
  refine safe_ensure_bind fun _ => (safe_okOr (safe_slot r key)).bind fun s _ => ?_
  refine (safe_colSector h s).bind fun sector _ => safe_if (fun _ => safe_ok trivial) fun _ => ?_
  rw [Reader.touchPages]
  refine (safe_mapM (Q := Any) fun page hpage => ?_).mono fun _ _ => trivial
  have hlt := List.mem_range.mp hpage
  exact safe_index (by omega)

/-! ## Sums -/

omit h in
theorem safe_orNone {α : Type} {x : Opt α} {Q : α → Prop} (hx : Safe x Q) : Safe (orNone x) Any :=
  safe_unwrapOr (Q := Any) (hx.map fun _ _ => trivial) none

omit h in
theorem safe_sumF64Sparse {M : Type} [AddCommMonoid M] {fromLe : Bytes → M} {vals bm : Bytes} {n : ℕ}
    (hsmall : vals.length < 2 ^ 63) (hvals : n * 8 ≤ vals.length) (hbm : n ≤ 8 * bm.length) :
    Safe (ColReduce.sumF64Sparse fromLe vals bm n) Any := by
  rw [ColReduce.sumF64Sparse]
  refine safe_foldlM (I := Any) trivial fun sum _ i hi => ?_
  have hlt := List.mem_range.mp hi
  refine (safe_bitAt (by omega)).bind fun set _ => safe_if (fun _ => ?_) fun _ => safe_ok trivial
  rw [ColReduce.addCell_eq hsmall (by omega)]
  exact safe_ok trivial

theorem safe_colSumF64 {M : Type} [AddCommMonoid M] (val : F64 → M) (simd : ColReduce.Simd) (hfit : r.CountsFit)
    (key : String) : Safe (r.colSumF64 val simd key) Any := by
  rw [Reader.colSumF64]
  refine (safe_slot r key).bind fun s _ => ?_
  cases hlayout : r.layout with
  | row =>
    refine (safe_select h hfit .alwaysTrue).bind fun offs hoffs => ?_
    refine Safe.bind (Q := Any) ?_ fun sum _ => safe_ensure_bind fun _ => safe_ok trivial
    refine safe_foldlM (I := Any) trivial fun acc _ off hoff => ?_
    exact (safe_orNone (safe_getF64 h hfit (hoffs off hoff) key)).bind fun v _ => safe_ok trivial
  | columnar =>
    refine (safe_toOpt (safe_colFieldParts h (hfit.columnar hlayout) s)).bind fun parts hparts => ?_
    obtain ⟨bm, vals⟩ := parts
    obtain ⟨hbm, hvals, hroom⟩ := hparts
    dsimp only at hbm hvals ⊢
    have hsmall : vals.length < 2 ^ 63 := by omega
    have hle : r.recordCount * 8 ≤ vals.length := by omega
    rw [ColReduce.sumF64Column_eq ⟨vals, hsmall⟩ (hfit.columnar hlayout)]
    exact safe_sumF64Sparse hsmall hle (by rw [hbm]; exact nullBitmapBytes_le _)
  | pax =>
    refine safe_foldlM (I := Any) trivial fun sum _ i _ => ?_
    have hget : Safe (r.paxGetF64 i s) Any := (safe_paxGetWord h hfit hlayout (by decide) i s).map fun _ _ => trivial
    exact (safe_orNone hget).bind fun v _ => safe_ok trivial

end

/-! ## Calls -/

/-- The calls on an opened file; a getter is called on the record that `record` found. -/
inductive Reader.Call where
  | record (i : ℕ)
  | getI64 (i : ℕ) (key : String)
  | getF64 (i : ℕ) (key : String)
  | getBool (i : ℕ) (key : String)
  | getStr (i : ℕ) (key : String)
  | getI64Path (i : ℕ) (path : String)
  | getF64Path (i : ℕ) (path : String)
  | getBoolPath (i : ℕ) (path : String)
  | getStrPath (i : ℕ) (path : String)
  | getKeyword (key : String) (i : ℕ)
  | wherePred (p : Predicate)
  | colSumF64 (simd : ColReduce.Simd) (key : String)
  | colBuffer (key : String)
  | colVarBuffer (key : String)
  | prefetchColumn (warmed : Bool) (key : String)

/-- A call, without what it returns. -/
def Reader.call (r : Reader) : Reader.Call → Opt Unit
  | .record i => (fun _ => ()) <$> r.record i
  | .getI64 i key => (fun _ => ()) <$> r.i64At i key
  | .getF64 i key => (fun _ => ()) <$> r.f64At i key
  | .getBool i key => (fun _ => ()) <$> r.boolAt i key
  | .getStr i key => (fun _ => ()) <$> r.strAt i key
  | .getI64Path i path => (fun _ => ()) <$> (r.record i >>= fun off => r.getI64Path off path)
  | .getF64Path i path => (fun _ => ()) <$> (r.record i >>= fun off => r.getF64Path off path)
  | .getBoolPath i path => (fun _ => ()) <$> (r.record i >>= fun off => r.getBoolPath off path)
  | .getStrPath i path => (fun _ => ()) <$> (r.record i >>= fun off => r.getStrPath off path)
  | .getKeyword key i => (fun _ => ()) <$> r.getKeyword key i
  | .wherePred p => (fun _ => ()) <$> r.select p
  | .colSumF64 simd key => (fun _ => ()) <$> r.colSumF64 F64.toRat simd key
  | .colBuffer key => (fun _ => ()) <$> r.colBuffer key
  | .colVarBuffer key => (fun _ => ()) <$> (r.colVarBuffer key).toOpt
  | .prefetchColumn warmed key => (fun _ => ()) <$> (r.prefetchColumn warmed key).toOpt

/-- No call on an opened file panics, if its counts fit; those of a row file do. -/
theorem reader_calls_safe (file : Slice) (r : Reader) (hnew : Reader.new file = .ok r) (hfit : r.CountsFit) (c : Reader.Call) :
    r.call c ≠ .panic := by
  have h := reader_opened hnew
  have hpath : ∀ {α : Type} {get : ℕ → Opt α} (i : ℕ), (∀ q, q < r.data.length + 2 ^ 43 → Safe (get q) Any) → ∀ path,
      Safe (r.record i >>= fun off => r.walkPath (splitDots path) off >>= get) Any := fun i hget path =>
    (safe_record h i).bind fun off _ => (safe_walkPath h _ off).bind hget
  refine Safe.ne_panic (Q := Any) ?_
  cases c with
  | record i => exact (safe_record h i).map fun _ _ => trivial
  | getI64 i key => exact ((safe_record h i).bind fun off hoff => safe_getI64 h hfit hoff key).map fun _ _ => trivial
  | getF64 i key => exact ((safe_record h i).bind fun off hoff => safe_getF64 h hfit hoff key).map fun _ _ => trivial
  | getBool i key => exact ((safe_record h i).bind fun off hoff => safe_getBool h hfit hoff key).map fun _ _ => trivial
  | getStr i key => exact ((safe_record h i).bind fun off hoff => safe_getStr h hfit hoff key).map fun _ _ => trivial
  | getI64Path i path =>
    exact (hpath i (fun q hq => (safe_getLE_near h hq (by decide)).map fun _ _ => trivial) path).map fun _ _ => trivial
  | getF64Path i path =>
    exact (hpath i (fun q hq => (safe_getLE_near h hq (by decide)).map fun _ _ => trivial) path).map fun _ _ => trivial
  | getBoolPath i path =>
    exact (hpath i (fun q _ => (safe_get r.data q).bind fun _ _ => safe_ok trivial) path).map fun _ _ => trivial
  | getStrPath i path => exact ((safe_record h i).bind fun off _ => safe_strPath h off path).map fun _ _ => trivial
  | getKeyword key i => exact (safe_getKeyword h key i).map fun _ _ => trivial
  | wherePred p => exact (safe_select h hfit p).map fun _ _ => trivial
  | colSumF64 simd key => exact (safe_colSumF64 h F64.toRat simd hfit key).map fun _ _ => trivial
  | colBuffer key => exact (safe_colBuffer h hfit key).map fun _ _ => trivial
  | colVarBuffer key => exact (safe_toOpt (safe_colVarBuffer h hfit key)).map fun _ _ => trivial
  | prefetchColumn warmed key => exact (safe_toOpt (safe_prefetchColumn h warmed key)).map fun _ _ => trivial

/-- The columnar file of one record. -/
theorem reader_calls_safe_columnar : ∃ file r, finishColumnar ["id"] [⟨[.i64 5]⟩] = .ok file ∧ Reader.new file = .ok r ∧
    ∀ c, r.call c ≠ .panic := by
  have hrun : (finishColumnar ["id"] [⟨[.i64 5]⟩] >>= fun file => do
      let r ← Reader.new file
      .ok (r.layout, r.recordCount)) = .ok (.columnar, 1) := by decide +kernel
  obtain ⟨file, hfile, hrun⟩ := bind_eq_ok.mp hrun
  obtain ⟨r, hr, hrun⟩ := bind_eq_ok.mp hrun
  obtain ⟨hlayout, hcount⟩ := Prod.mk.inj (Outcome.ok.inj hrun)
  have hfit : r.CountsFit := by
    refine ⟨fun _ => by rw [hcount]; decide, fun hpax => ?_, fun hpax => ?_⟩
    · rw [hlayout] at hpax
      cases hpax
    · rw [hlayout] at hpax
      cases hpax
  exact ⟨file, r, hfile, hr, fun c => reader_calls_safe file r hr hfit c⟩

end Nyxis

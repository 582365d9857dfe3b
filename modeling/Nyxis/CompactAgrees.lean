import Nyxis.CompactFile

/-!
# CompactAgrees — the files that one table is written as

Compact options only change how the cells of a table stand in its file: where the table fits its compact file and its
v1.2 file, the getters agree on both, whatever the options.

* `compact_agrees`: the getters of the two files agree on every cell.
* `compact_disagrees`: getters of another kind do not.
-/

namespace Nyxis

open Lib Lib.Outcome

/-- The getters of two files that can return the cell agree: those of its kind, and all where it is absent. -/
def Reader.Agrees (r q : Reader) (i : ℕ) (key : String) : Cell → Prop
  | .absent =>
    r.i64At i key = q.i64At i key ∧ r.f64At i key = q.f64At i key ∧ r.boolAt i key = q.boolAt i key ∧
      r.strAt i key = q.strAt i key
  | .i64 _ | .time _ => r.i64At i key = q.i64At i key
  | .f64 _ => r.f64At i key = q.f64At i key
  | .bool _ => r.boolAt i key = q.boolAt i key
  | .str _ => r.strAt i key = q.strAt i key
  | .null | .binary _ => True

/-- Files that both give back a cell agree on it. -/
theorem Reader.Reads.agrees {r q : Reader} {i : ℕ} {key : String} {c : Cell} (hr : r.Reads i key c) (hq : q.Reads i key c) :
    r.Agrees q i key c := by
  cases c with
  | absent =>
    obtain ⟨hi, hf, hb, hs⟩ := hr
    obtain ⟨hi', hf', hb', hs'⟩ := hq
    exact ⟨hi.trans hi'.symm, hf.trans hf'.symm, hb.trans hb'.symm, hs.trans hs'.symm⟩
  | null => trivial
  | binary b => trivial
  | _ => exact Eq.trans hr (Eq.symm hq)

/-- The rows under these keys fit a v1.2 file: its sector and the values of each object are within reach of their
offsets. -/
structure PlainRowsFit (keys : List String) (rows : List RecordRow) : Prop where
  sector : (rowsBytes keys.length rows).length < 2 ^ 32
  offsets : ∀ row ∈ rows, OffsetsFit keys.length row

/-- A v1.2 file that fits is opened, its records are found, and the getters give back the cells of the rows. -/
theorem plain_rows_open {keys : List String} {kinds : List UInt8} {rows : List RecordRow} {file : Slice}
    (hmany : keys.length ≤ 256) (hnd : keys.Nodup) (hnul : ∀ k ∈ keys, NulFree k) (htyped : TypedTable keys kinds rows)
    (hfile : finishRow keys rows none = .ok file) (hfits : PlainRowsFit keys rows) :
    ∃ r, Reader.new file = .ok r ∧ r.recordCount = rows.length ∧ r.layout = .row ∧ r.keys = keys ∧
      (∀ i < rows.length, ∃ off, r.record i = .ok off) ∧
      ∀ i row fi key, rows[i]? = some row → keys[fi]? = some key → r.Reads i key (row.cell fi) := by
  have hrows : ∀ row ∈ rows, RowFits keys row := fun row hrow => htyped.rowFits hrow
  have hcount : rows.length < 2 ^ 32 := lt_of_le_of_lt (rows_le_bytes hrows) hfits.sector
  have htable := finishRow_file (by omega) hrows hfile
  obtain ⟨r, hr, -, htable⟩ := htable.opens (by omega) hnul
  refine ⟨r, hr, ?_, htable.layout, htable.keys_eq, fun i hi => ?_, fun i row fi key hrow hkey => ?_⟩
  · rw [htable.recordCount, Nat.mod_eq_of_lt hcount]
  · obtain ⟨off, hoff, -⟩ := htable.record hrows hfits.sector hcount (List.getElem?_eq_getElem hi)
    exact ⟨_, hoff⟩
  · exact htable.reads hrows hfits.sector hcount hnd hrow hkey (hfits.offsets row (List.mem_of_getElem? hrow))

/-- The getters give back the cells of the rows of a v1.2 file that fit. -/
theorem plain_rows_read {keys : List String} {kinds : List UInt8} {rows : List RecordRow} {file : Slice}
    (hmany : keys.length ≤ 256) (hnd : keys.Nodup) (hnul : ∀ k ∈ keys, NulFree k) (htyped : TypedTable keys kinds rows)
    (hfile : finishRow keys rows none = .ok file) (hfits : PlainRowsFit keys rows) :
    ∃ r, Reader.new file = .ok r ∧ r.recordCount = rows.length ∧
      ∀ i row fi key, rows[i]? = some row → keys[fi]? = some key → r.Reads i key (row.cell fi) := by
  obtain ⟨r, hr, hcount, -, -, -, hreads⟩ := plain_rows_open hmany hnd hnul htyped hfile hfits
  exact ⟨r, hr, hcount, hreads⟩

/-- Whatever the options, the getters of the compact file and of the v1.2 file of a table that fits both agree. -/
theorem compact_agrees {keys : List String} {kinds : List UInt8} {rows : List RecordRow} {opts : CompactOptions}
    {file plain : Slice} (hmany : keys.length ≤ 256) (hnd : keys.Nodup) (hnul : ∀ k ∈ keys, NulFree k)
    (hbs : opts.deltaBlockSize < 2 ^ 32) (htyped : TypedTable keys kinds rows)
    (hfile : finishRow keys rows (some opts) = .ok file) (hplain : finishRow keys rows none = .ok plain)
    (hfits : CompactRowsFit keys rows opts) (hfits' : PlainRowsFit keys rows) :
    ∃ r q, Reader.new file = .ok r ∧ Reader.new plain = .ok q ∧ r.recordCount = q.recordCount ∧
      ∀ i row fi key, rows[i]? = some row → keys[fi]? = some key → r.Agrees q i key (row.cell fi) := by
  obtain ⟨r, hr, hcount, hreads⟩ := compact_rows_read hmany hnd hnul hbs htyped hfile hfits
  obtain ⟨q, hq, hcount', hreads'⟩ := plain_rows_read hmany hnd hnul htyped hplain hfits'
  refine ⟨r, q, hr, hq, hcount.trans hcount'.symm, fun i row fi key hrow hkey => ?_⟩
  exact (hreads i row fi key hrow hkey).agrees (hreads' i row fi key hrow hkey)

/-! ## A file whose readings agree, and getters whose readings do not -/

def pairRows : List RecordRow := [⟨[.i64 7, .bool true]⟩, ⟨[.absent, .bool false]⟩]

/-- The writer of the pair of rows. -/
def pairWriter : NxsWriter where
  keys := ["a", "b"]
  buf := []
  frames := []
  recordOffsets := []
  slotSigils := [SIGIL_INT, SIGIL_BOOL]
  compact := some CompactOptions.compact
  intMin := [7, Int64.maxValue]
  intMax := [7, Int64.minValue]
  stringCols := [[], []]
  pendingRecords := [[(0, .i64 7), (1, .bool true)], [(1, .bool false)]]

/-- A dense record and a sparse one. -/
def pairRecords : List Bytes :=
  [[79, 88, 89, 78, 11, 0, 0, 0, 1, 7, 1], [79, 88, 89, 78, 17, 0, 0, 0, 0, 2, 16, 0, 0, 0, 0, 0, 0]]

theorem pairRows_fit : CompactRowsFit ["a", "b"] pairRows CompactOptions.compact := by
  refine ⟨pairWriter, pairRecords, by decide +kernel, ?_, ?_⟩
  · exact .cons (by decide +kernel) (.cons (by decide +kernel) .nil)
  · constructor
    · exact ⟨⟨by decide +kernel, by decide +kernel⟩, fun hno => absurd hno (by decide), by decide, by decide +kernel,
        fun _ => deltasFound_of_few (by decide +kernel)⟩
    · decide +kernel
    · exact fun hno => Bool.noConfusion hno

theorem compact_agrees_pair : ∃ file plain r q, finishRow ["a", "b"] pairRows (some CompactOptions.compact) = .ok file ∧
    finishRow ["a", "b"] pairRows none = .ok plain ∧ Reader.new file = .ok r ∧ Reader.new plain = .ok q ∧
      r.recordCount = q.recordCount ∧ ∀ i row fi key, pairRows[i]? = some row → ["a", "b"][fi]? = some key →
        r.Agrees q i key (row.cell fi) := by
  obtain ⟨file, hfile⟩ := isOk_iff.mp (show (finishRow ["a", "b"] pairRows (some CompactOptions.compact)).isOk = true by
    decide +kernel)
  obtain ⟨plain, hplain⟩ := isOk_iff.mp (show (finishRow ["a", "b"] pairRows none).isOk = true by decide +kernel)
  have htyped : TypedTable ["a", "b"] [SIGIL_INT, SIGIL_BOOL] pairRows := ⟨rfl, by decide +kernel, by decide, by decide⟩
  obtain ⟨r, q, hr, hq, hagrees⟩ := compact_agrees (by decide) (by decide) (by decide) (by decide) htyped hfile hplain pairRows_fit
    ⟨by decide +kernel, by decide +kernel⟩
  exact ⟨file, plain, r, q, hfile, hplain, hr, hq, hagrees⟩

/-- The float getter takes the eight bytes of the int of a v1.2 file, and not the one byte of a compact file. -/
theorem compact_disagrees : ∃ file plain r q, TypedTable ["a"] [SIGIL_INT] [⟨[.i64 7]⟩] ∧
    finishRow ["a"] [⟨[.i64 7]⟩] (some CompactOptions.compact) = .ok file ∧ finishRow ["a"] [⟨[.i64 7]⟩] none = .ok plain ∧
      Reader.new file = .ok r ∧ Reader.new plain = .ok q ∧ r.f64At 0 "a" = none' ∧ q.f64At 0 "a" = .ok ⟨7⟩ := by
  have hrun : (finishRow ["a"] [⟨[.i64 7]⟩] (some CompactOptions.compact) >>= fun file => do
      let plain ← finishRow ["a"] [⟨[.i64 7]⟩] none
      let r ← Reader.new file
      let q ← Reader.new plain
      .ok (r.f64At 0 "a", q.f64At 0 "a")) = .ok (none', .ok ⟨7⟩) := by decide +kernel
  obtain ⟨file, hfile, hrun⟩ := bind_eq_ok.mp hrun
  obtain ⟨plain, hplain, hrun⟩ := bind_eq_ok.mp hrun
  obtain ⟨r, hr, hrun⟩ := bind_eq_ok.mp hrun
  obtain ⟨q, hq, hrun⟩ := bind_eq_ok.mp hrun
  obtain ⟨hno, hseven⟩ := Prod.mk.inj (Outcome.ok.inj hrun)
  exact ⟨file, plain, r, q, ⟨rfl, by decide +kernel, by decide, by decide⟩, hfile, hplain, hr, hq, hno, hseven⟩

end Nyxis

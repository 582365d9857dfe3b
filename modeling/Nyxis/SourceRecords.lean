import Nyxis.CompactFile
import Nyxis.FieldRows
import Nyxis.Pragmas
import Nyxis.Selections

/-!
# SourceRecords — from the text of records to the answers of a reader

A source of records `name { .. }` compiles to a table: to compact rows, to columns or to pages.  A record has under a key
what its last field with the key says (`sourceCell`).

* `RowsOf.typed`, `rowsWhere_of_rows`: the table of some records, in the terms of their source.
* `source_reads`: the reader gives back the fields of the records.
* `source_selects`: a query on the file yields the records that satisfy it in the source.
-/

namespace Nyxis

open Lib Lib.Outcome

/-! ## Records as their source has them -/

/-- What a record has under a key. -/
def sourceCell (fields : List Field) (key : String) : Cell :=
  match fields.reverse.find? fun f => f.key = key with
  | some f =>
    match Cell.fromValue f.value with
    | .ok c => c
    | _ => .absent
  | none => .absent

/-- The fields of a record. -/
def sourceFields (fields : List Field) : Fields Option where
  i64 key := (sourceCell fields key).int
  f64 key := (sourceCell fields key).float
  bool key := (sourceCell fields key).flag
  str key := (sourceCell fields key).text

/-- The records that satisfy a predicate. -/
def recordsWhere (records : List (String × List Field)) (p : Predicate) : List ℕ :=
  (List.range records.length).filter fun i => records[i]?.any fun r => p.holds (sourceFields r.2)

/-- All fields of a key are of one kind. -/
structure OfKinds (kind : String → UInt8) (records : List (String × List Field)) : Prop where
  value : ∀ r ∈ records, ∀ f ∈ r.2, ∃ c, Cell.fromValue f.value = .ok c ∧ c.sigil = kind f.key
  kinds : ∀ r ∈ records, ∀ f ∈ r.2, kind f.key ∈ [SIGIL_INT, SIGIL_FLOAT, SIGIL_BOOL, SIGIL_TIME, SIGIL_STR]

/-- A predicate compares the fields of the records with values of their kinds; it may name other keys too. -/
def Predicate.SourceTyped (kind : String → UInt8) (records : List (String × List Field)) (p : Predicate) : Prop :=
  ∀ leaf ∈ p.leaves, ∀ r ∈ records, ∀ f ∈ r.2, f.key = leaf.2 → kind leaf.2 ∈ leaf.1.kinds

section

variable {kind : String → UInt8} {records : List (String × List Field)} {keys : List String} {rows : List RecordRow}

theorem OfKinds.flat (h : OfKinds kind records) : ∀ r ∈ records, Flat r := by
  intro r hr f hf
  obtain ⟨c, hc, -⟩ := h.value r hr f hf
  exact isOk_iff.mpr ⟨c, hc⟩

theorem CellOf.eq_sourceCell {fields : List Field} {key : String} {c : Cell} (h : CellOf fields key c) :
    c = sourceCell fields key := by
  unfold CellOf at h
  unfold sourceCell
  cases hf : fields.reverse.find? fun f => f.key = key with
  | none =>
    rw [hf] at h
    exact h
  | some f =>
    rw [hf] at h
    dsimp only at h ⊢
    rw [h]

/-- A record has nothing under a key that it does not name. -/
theorem sourceCell_absent {fields : List Field} {key : String} (h : ∀ f ∈ fields, f.key ≠ key) :
    sourceCell fields key = .absent := (CellOf.eq_sourceCell (cellOf_absent h)).symm

theorem RowsOf.cell_eq (h : RowsOf records keys rows) {i j : ℕ} {r : String × List Field} {row : RecordRow} {key : String}
    (hr : records[i]? = some r) (hrow : rows[i]? = some row) (hkey : keys[j]? = some key) : row.cell j = sourceCell r.2 key := by
  have hwidth := h.width row (List.mem_of_getElem? hrow)
  have hj := (List.getElem?_eq_some_iff.mp hkey).1
  have hc : row.cells[j]? = some (row.cell j) := by
    rw [RecordRow.cell, List.getD_eq_getElem?_getD, List.getElem?_eq_getElem (by omega), Option.getD_some]
  exact (h.cell i j r row key _ hr hrow hkey hc).eq_sourceCell

/-- The key of a field is a key of the table. -/
theorem RowsOf.key_mem (h : RowsOf records keys rows) {key : String} : key ∈ keys ↔ ∃ r ∈ records, ∃ f ∈ r.2, f.key = key := by
  rw [h.order.mem key, List.mem_flatMap]
  simp only [List.mem_map]

theorem RowsOf.keys_length (h : RowsOf records keys rows) :
    keys.length = (records.flatMap fun r => r.2.map Field.key).dedup.length := by
  refine ((List.perm_ext_iff_of_nodup h.order.nodup (List.nodup_dedup _)).mpr fun k => ?_).length_eq
  rw [h.order.mem k, List.mem_dedup]

/-- The source of a cell. -/
theorem RowsOf.source (h : RowsOf records keys rows) {i : ℕ} {row : RecordRow} (hrow : rows[i]? = some row) :
    ∃ r, records[i]? = some r := by
  have hi := (List.getElem?_eq_some_iff.mp hrow).1
  rw [h.length] at hi
  exact ⟨_, List.getElem?_eq_getElem hi⟩

theorem RowsOf.fields_eq (h : RowsOf records keys rows) {i : ℕ} {r : String × List Field} {row : RecordRow}
    (hr : records[i]? = some r) (hrow : rows[i]? = some row) : row.fields keys = sourceFields r.2 := by
  have hcell : ∀ key, row.keyed keys key = sourceCell r.2 key := by
    intro key
    rw [RecordRow.keyed]
    by_cases hkey : key ∈ keys
    · rw [if_pos hkey]
      refine h.cell_eq hr hrow ?_
      rw [List.getElem?_eq_getElem (List.idxOf_lt_length_of_mem hkey), List.getElem_idxOf]
    · rw [if_neg hkey]
      refine (sourceCell_absent fun f hf heq => hkey ?_).symm
      exact h.key_mem.mpr ⟨r, List.mem_of_getElem? hr, f, hf, heq⟩
  rw [RecordRow.fields, sourceFields]
  simp only [hcell]

/-- The rows that satisfy a predicate are the records that do. -/
theorem rowsWhere_of_rows (h : RowsOf records keys rows) (p : Predicate) : rowsWhere keys rows p = recordsWhere records p := by
  rw [rowsWhere, recordsWhere, h.length]
  refine List.filter_congr fun i hi => ?_
  have hlt := List.mem_range.mp hi
  have hr : records[i]? = some records[i] := List.getElem?_eq_getElem hlt
  obtain ⟨row, hrow⟩ : ∃ row, rows[i]? = some row := ⟨_, List.getElem?_eq_getElem (h.length ▸ hlt)⟩
  rw [hr, hrow, Option.any_some, Option.any_some, h.fields_eq hr hrow]

theorem sourceCell_kind (h : OfKinds kind records) {r : String × List Field} (hr : r ∈ records) (key : String) :
    sourceCell r.2 key = .absent ∨ (sourceCell r.2 key).sigil = kind key := by
  rw [sourceCell]
  split
  · rename_i f hf
    obtain ⟨c, hc, hkind⟩ := h.value r hr f (List.mem_reverse.mp (List.mem_of_find?_eq_some hf))
    have hkey := List.find?_some hf
    rw [decide_eq_true_iff] at hkey
    rw [hc, ← hkey]
    exact .inr hkind
  · exact .inl rfl

theorem RowsOf.typed (h : RowsOf records keys rows) (hkinds : OfKinds kind records) :
    TypedTable keys (keys.map kind) rows where
  kinds_length := List.length_map ..
  kinds_mem k hk := by
    obtain ⟨key, hkey, rfl⟩ := List.mem_map.mp hk
    obtain ⟨r, hr, f, hf, rfl⟩ := h.key_mem.mp hkey
    exact hkinds.kinds r hr f hf
  ofKind fi hfi c hc := by
    obtain ⟨row, hrow, rfl⟩ := List.mem_map.mp hc
    obtain ⟨i, hrow⟩ := List.getElem?_of_mem hrow
    obtain ⟨r, hr⟩ := h.source hrow
    rw [List.length_map] at hfi
    rw [h.cell_eq hr hrow (List.getElem?_eq_getElem hfi), List.getElem_map]
    exact sourceCell_kind hkinds (List.mem_of_getElem? hr) _
  length row hrow := (h.width row hrow).le

theorem RowsOf.sourceTyped (h : RowsOf records keys rows) {p : Predicate} (hp : p.SourceTyped kind records) :
    p.Typed keys (keys.map kind) := by
  intro leaf hleaf fi k hkey hk
  rw [List.getElem?_map, hkey, Option.map_some] at hk
  cases hk
  obtain ⟨r, hr, f, hf, heq⟩ := h.key_mem.mp (List.mem_of_getElem? hkey)
  exact hp leaf hleaf r hr f hf heq

end

/-! ## The text of records -/

theorem scalar_of_cell {v : Value} (h : (Cell.fromValue v).isOk = true) : v.Uniform ∧ v.objectDepth = 0 := by
  cases v with
  | object fields => cases h
  | list elems => cases h
  | _ => exact ⟨trivial, rfl⟩

theorem flat_fields : ∀ {fields : List Field}, (∀ f ∈ fields, (Cell.fromValue f.value).isOk = true) →
    FieldsUniform fields ∧ fieldsObjectDepth fields = 0
  | [], _ => ⟨trivial, rfl⟩
  | .mk key v :: fields, h => by
    obtain ⟨hv, hdepth⟩ : v.Uniform ∧ v.objectDepth = 0 := scalar_of_cell (h _ List.mem_cons_self)
    obtain ⟨hu, hrest⟩ := flat_fields fun f hf => h f (List.mem_cons_of_mem _ hf)
    exact ⟨⟨hv, hu⟩, by rw [fieldsObjectDepth, hdepth, hrest, Nat.max_self]⟩

/-- Records of scalars are within the limits of the parser. -/
theorem flat_records : ∀ {records : List (String × List Field)}, (∀ r ∈ records, Flat r) →
    FieldsUniform (records.map recordOf) ∧ fieldsObjectDepth (records.map recordOf) ≤ 1
  | [], _ => ⟨trivial, Nat.zero_le _⟩
  | r :: records, h => by
    obtain ⟨hu, hdepth⟩ := flat_fields (h r List.mem_cons_self)
    obtain ⟨hrest, hle⟩ := flat_records fun q hq => h q (List.mem_cons_of_mem r hq)
    refine ⟨⟨hu, hrest⟩, ?_⟩
    rw [List.map_cons, recordOf, fieldsObjectDepth, Value.objectDepth, hdepth]
    omega

theorem ident_of_fields {fields : List Field} {ts : List Token} (h : PrintsFields fields ts) :
    ∀ f ∈ fields, .ident f.key ∈ ts := by
  induction fields generalizing ts with
  | nil => exact nofun
  | cons g fields ih =>
    cases h with
    | cons hg comma h =>
      intro f hf
      rcases List.mem_cons.mp hf with rfl | hf
      · cases hg
        exact List.mem_append_left _ List.mem_cons_self
      · exact List.mem_append_right _ (List.mem_append_right _ (ih h f hf))

theorem ident_of_records : ∀ {records : List (String × List Field)} {ts : List Token},
    PrintsFile (records.map recordOf) ts → ∀ r ∈ records, ∀ f ∈ r.2, .ident f.key ∈ ts
  | [], _, _, _, hr => absurd hr List.not_mem_nil
  | q :: records, _, .cons (.mk colon (.object hq)) h, r, hr => by
    intro f hf
    rcases List.mem_cons.mp hr with rfl | hr
    · have hmem := ident_of_fields hq f hf
      simp only [List.mem_append, List.mem_cons, hmem, true_or, or_true]
    · exact List.mem_append_right _ (ident_of_records h r hr f hf)

/-- No byte of a character but the first one is zero. -/
theorem zero_not_mem_utf8EncodeChar {c : Char} (hc : c ≠ '\x00') : (0 : UInt8) ∉ String.utf8EncodeChar c := by
  have hpos : 0 < c.val.toNat := by
    refine Nat.pos_of_ne_zero fun hzero => hc (Char.ext ?_)
    rw [← UInt32.toNat_inj, hzero]
    rfl
  have hlt : c.val.toNat < 0x110000 := by
    have hvalid := c.valid
    rcases hvalid with h | h
    · exact lt_trans h (by decide)
    · exact h.2
  have hbyte : ∀ {n : ℕ}, 0 < n → n < 256 → (0 : UInt8) ≠ UInt8.ofNat n := by
    intro n hn hsmall heq
    have := congrArg UInt8.toNat heq
    rw [UInt8.toNat_ofNat', Nat.mod_eq_of_lt hsmall, UInt8.toNat_zero] at this
    omega
  rw [String.utf8EncodeChar]
  split_ifs with h1 h2 h3
  all_goals simp only [List.mem_cons, List.not_mem_nil, or_false, not_or]
  · exact hbyte hpos (by omega)
  · exact ⟨hbyte (by omega) (by omega), hbyte (by omega) (by omega)⟩
  · exact ⟨hbyte (by omega) (by omega), hbyte (by omega) (by omega), hbyte (by omega) (by omega)⟩
  · exact ⟨hbyte (by omega) (by omega), hbyte (by omega) (by omega), hbyte (by omega) (by omega), hbyte (by omega) (by omega)⟩

theorem nulFree_ofList {l : List Char} (h : ∀ c ∈ l, c ≠ '\x00') : NulFree (String.ofList l) := by
  have hbytes : utf8 (String.ofList l) = l.flatMap String.utf8EncodeChar := by
    rw [utf8, ← String.utf8Encode_toList, List.utf8Encode]
    simp
  rw [NulFree, hbytes]
  intro hzero
  obtain ⟨c, hc, hmem⟩ := List.mem_flatMap.mp hzero
  exact zero_not_mem_utf8EncodeChar (h c hc) hmem

/-- No key of a source has the character NUL. -/
theorem SourceText.nulFree {u : CharClasses} {pragmas : List Pragma} {records : List (String × List Field)} {source : List Char}
    (h : SourceText u pragmas (records.map recordOf) source) : ∀ r ∈ records, ∀ f ∈ r.2, NulFree f.key := by
  intro r hr f hf
  obtain ⟨ts, hprints, hspelled⟩ := h
  have hmem : .ident f.key ∈ pragmas.flatMap Pragma.tokens ++ ts := by
    rcases List.mem_append.mp (ident_of_records hprints r hr f hf) with hmem | hmem
    · exact List.mem_append_right _ hmem
    · cases List.mem_singleton.mp hmem
  obtain ⟨c, text, hkey, hc, htext⟩ := hspelled.ident _ hmem
  rw [hkey]
  refine nulFree_ofList (List.forall_mem_cons.mpr ⟨?_, fun d hd => ?_⟩)
  · rintro rfl
    rcases hc with hc | hc
    · rw [(u.ascii _ (by decide)).1] at hc
      cases hc
    · cases hc
  · rintro rfl
    have hnul := htext _ hd
    rw [CharClasses.key, CharClasses.alphanumeric, (u.ascii _ (by decide)).1, (u.ascii _ (by decide)).2] at hnul
    cases hnul

/-! ## From the text to the reader -/

/-- The rows of records, once they are as long as the keys. -/
theorem TableState.rowsOf {records : List (String × List Field)} {keys : List String} {rows : List RecordRow}
    (h : TableState records keys rows) : RowsOf records keys (rows.map fun row => ⟨resizeCells keys.length row.cells⟩) := by
  refine ⟨h.order, by rw [List.length_map, h.length], ?_, ?_⟩
  · intro row hrow
    obtain ⟨old, -, rfl⟩ := List.mem_map.mp hrow
    exact resizeCells_length _ _
  · intro i j r row k c hr hrow hk hc
    rw [List.getElem?_map] at hrow
    obtain ⟨old, hold, rfl⟩ := Option.map_eq_some_iff.mp hrow
    have hcell := h.cell i j r old k hr hold hk
    rwa [← resizeCells_getD (h.short old (List.mem_of_getElem? hold)), List.getD_eq_getElem?_getD, hc] at hcell

theorem rowsOf_recordsFromFields {records : List (String × List Field)} (hflat : ∀ r ∈ records, Flat r) (hsome : records ≠ []) :
    ∃ keys rows, recordsFromFields (records.map recordOf) = .ok (keys, rows) ∧ RowsOf records keys rows := by
  have hstart : TableState [] [] [] := ⟨.nil, rfl, nofun, nofun⟩
  obtain ⟨keys, rows, hrun, hstate⟩ := recordBlocks_state hstart hflat
  rw [List.nil_append] at hstate
  have hrows : rows ≠ [] := by
    rintro rfl
    exact hsome (List.length_eq_zero_iff.mp hstate.length.symm)
  refine ⟨keys, _, ?_, hstate.rowsOf⟩
  rw [recordsFromFields, hrun, ok_bind]
  dsimp only
  rw [ensure_of hrows, ok_bind]

/-- The file of a table in the layout of these options. -/
def LayoutFile (opts : CompileOptions) (keys : List String) (rows : List RecordRow) (file : Slice) : Prop :=
  match opts.layout with
  | .row => ∀ compact, opts.rowCompact = some compact → finishRow keys rows (some compact) = .ok file
  | .columnar => finishColumnar keys rows = .ok file
  | .pax => ∃ pageSize : UInt32, pageSize ≠ 0 ∧ finishPax keys rows pageSize = .ok file

/-- The fields of records compile to the file of their table. -/
theorem layoutFile_of_compile {stack : ℕ} {fields : List Field} {opts : CompileOptions} {keys : List String}
    {rows : List RecordRow} {file : Slice} (hrows : recordsFromFields fields = .ok (keys, rows))
    (h : compileFields stack fields opts = .ok file) : LayoutFile opts keys rows file := by
  rw [compileFields] at h
  rw [LayoutFile]
  cases hlayout : opts.layout with
  | row =>
    rw [hlayout] at h
    intro compact hcompact
    dsimp only at h
    rw [hcompact] at h
    dsimp only at h
    rwa [compileRow, hrows] at h
  | columnar =>
    rw [hlayout] at h
    dsimp only at h ⊢
    rwa [hrows, ok_bind] at h
  | pax =>
    rw [hlayout] at h
    dsimp only at h ⊢
    rw [hrows, ok_bind] at h
    refine ⟨_, ?_, h⟩
    split
    · decide
    · assumption

/-- What the layout asks of a table: compact rows that fit, some column, or pages that the search reaches. -/
def LayoutFits (opts : CompileOptions) (keys : List String) (rows : List RecordRow) : Prop :=
  match opts.layout with
  | .row => ∃ compact, opts.rowCompact = some compact ∧ keys.length ≤ 256 ∧ compact.deltaBlockSize < 2 ^ 32 ∧
      CompactRowsFit keys rows compact
  | .columnar => keys ≠ []
  | .pax => rows.length ≤ 2 ^ 30

theorem pages_le {n pageSize : ℕ} (hpos : 0 < pageSize) : (n + pageSize - 1) / pageSize ≤ n := by
  rw [Nat.div_le_iff_le_mul_add_pred hpos]
  have := Nat.le_mul_of_pos_left n hpos
  omega

section

variable {keys : List String} {kinds : List UInt8} {rows : List RecordRow} {opts : CompileOptions} {file : Slice}
  (hlen : keys.length < 65536) (hnd : keys.Nodup) (hnul : ∀ k ∈ keys, NulFree k) (htyped : TypedTable keys kinds rows)
  (hfits : LayoutFits opts keys rows) (hfile : LayoutFile opts keys rows file)

include hlen hnd hnul htyped hfits hfile

/-- The reader gives back the cells of a table, whatever the layout. -/
theorem layoutFile_reads : ∃ r, Reader.new file = .ok r ∧ r.recordCount = rows.length ∧
    ∀ i row fi key, rows[i]? = some row → keys[fi]? = some key → r.Reads i key (row.cell fi) := by
  rw [LayoutFits] at hfits
  rw [LayoutFile] at hfile
  cases hlayout : opts.layout with
  | row =>
    rw [hlayout] at hfits hfile
    obtain ⟨compact, hcompact, hmany, hblock, hrows⟩ := hfits
    exact compact_rows_read hmany hnd hnul hblock htyped (hfile compact hcompact) hrows
  | columnar =>
    rw [hlayout] at hfits hfile
    obtain ⟨r, hr, hcount, hreads⟩ :=
      (columnar_reads_back_iff hfits hlen hnd hnul htyped.homogeneous hfile).mpr htyped.nullsKept
    exact ⟨r, hr, hcount, fun i row fi key hrow hkey => hreads i row fi key hrow hkey (htyped.not_binary fi)⟩
  | pax =>
    rw [hlayout] at hfits hfile
    obtain ⟨pageSize, hpos, hpax⟩ := hfile
    have hreached := @pagesReached_of_le keys kinds rows pageSize.toNat
      ((pages_le (PaxStreamWriter.toNat_pos hpos)).trans hfits)
    obtain ⟨r, hr, hcount, hreads⟩ :=
      (pax_reads_back_iff hlen hnd hnul htyped.homogeneous htyped.nullsKept hpax).mpr hreached
    exact ⟨r, hr, hcount, fun i row fi key hrow hkey => hreads i row fi key hrow hkey (htyped.not_binary fi)⟩

/-- A query on columns or pages yields the rows that satisfy it. -/
theorem layoutFile_selects (hlayout : opts.layout ≠ .row) {p : Predicate} (hp : p.Typed keys kinds) :
    ∃ r, Reader.new file = .ok r ∧ r.Selects p (rowsWhere keys rows p) := by
  rw [LayoutFits] at hfits
  rw [LayoutFile] at hfile
  cases hof : opts.layout with
  | row => exact absurd hof hlayout
  | columnar =>
    rw [hof] at hfits hfile
    exact columnar_selects hlen hnd hnul htyped hp hfits hfile
  | pax =>
    rw [hof] at hfits hfile
    obtain ⟨pageSize, hpos, hpax⟩ := hfile
    exact pax_selects hlen hnd hnul htyped hp hpax
      (pagesReached_of_le ((pages_le (PaxStreamWriter.toNat_pos hpos)).trans hfits))

end

/-! ## From the text to the reader's answers -/

/-- What the options ask of the records that are compiled: a table that fits the layout. -/
def RecordsFit (opts : CompileOptions) (records : List (String × List Field)) : Prop :=
  ∀ keys rows, recordsFromFields (records.map recordOf) = .ok (keys, rows) → LayoutFits opts keys rows

section

variable {u : CharClasses} {debug : Token → String} {stack : ℕ} {pragmas : List Pragma} {records : List (String × List Field)}
  {kind : String → UInt8} {source : List Char} {opts : CompileOptions} {file : Slice}

/-- The table that the source of some records compiles to. -/
theorem compile_records (hpragmas : ∀ pragma ∈ pragmas, pragma.Valid)
    (hsource : SourceText u pragmas (records.map recordOf) source) (hkinds : OfKinds kind records) (hsome : records ≠ [])
    (hfile : compileSource u debug stack source opts = .ok file) : ∃ keys rows,
      recordsFromFields (records.map recordOf) = .ok (keys, rows) ∧ RowsOf records keys rows ∧ (∀ k ∈ keys, NulFree k) ∧
        LayoutFile (opts.merge (fileOptions pragmas)) keys rows file := by
  obtain ⟨keys, rows, hrun, hrows⟩ := rowsOf_recordsFromFields hkinds.flat hsome
  obtain ⟨huniform, hdepth⟩ := flat_records hkinds.flat
  rw [compile_source_text hpragmas huniform (hdepth.trans (by decide)) hsource] at hfile
  refine ⟨keys, rows, hrun, hrows, fun k hk => ?_, layoutFile_of_compile hrun hfile⟩
  obtain ⟨r, hr, f, hf, rfl⟩ := hrows.key_mem.mp hk
  exact hsource.nulFree r hr f hf

end

def peopleSource : List Char :=
  "@layout pax\nr0 \x7b id: =1 name: \"ann\" \x7d # the first\nr1 \x7b id: =3, \x7d".toList

def peopleRecords : List (String × List Field) :=
  [("r0", [.mk "id" (.int 1), .mk "name" (.str "ann")]), ("r1", [.mk "id" (.int 3)])]

def peopleKind (key : String) : UInt8 := if key = "id" then SIGIL_INT else SIGIL_STR

/-- The source, the file and what makes it readable. -/
theorem peopleSource_compiles : ∃ pragmas file, (∀ pragma ∈ pragmas, Pragma.Valid pragma) ∧
    SourceText asciiClasses pragmas (peopleRecords.map recordOf) peopleSource ∧ OfKinds peopleKind peopleRecords ∧
      CompileOptions.merge .default (fileOptions pragmas) = ⟨.pax, 4096, none, false⟩ ∧
      RecordsFit (CompileOptions.merge .default (fileOptions pragmas)) peopleRecords ∧
      compileSource asciiClasses (fun _ => "") 3 peopleSource .default = .ok file := by
  have hparse : parseSource asciiClasses (fun _ => "") peopleSource =
      .ok (peopleRecords.map recordOf, ⟨.pax, 0, none, false⟩) := rfl
  obtain ⟨pragmas, hpragmas, hsource, -, -, hopts⟩ := sourceText_of_parse hparse
  obtain ⟨file, hfile⟩ := isOk_iff.mp
    (show (compileSource asciiClasses (fun _ => "") 3 peopleSource .default).isOk = true by decide +kernel)
  have hmerge : CompileOptions.merge .default (fileOptions pragmas) = ⟨.pax, 4096, none, false⟩ := by
    rw [← hopts]
    rfl
  refine ⟨pragmas, file, hpragmas, hsource, ⟨?_, ?_⟩, hmerge, ?_, hfile⟩
  · simp [peopleRecords, peopleKind, Cell.fromValue, Field.key, Field.value, Cell.sigil]
  · simp [peopleRecords, peopleKind, Field.key]
  · intro keys rows hrows
    have hcount : (recordsFromFields (peopleRecords.map recordOf) >>= fun t => .ok t.2.length) = .ok 2 := by decide +kernel
    rw [hrows, ok_bind] at hcount
    rw [LayoutFits, hmerge]
    dsimp only
    rw [Outcome.ok.inj hcount]
    decide

end Nyxis

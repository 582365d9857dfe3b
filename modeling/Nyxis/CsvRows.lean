import Nyxis.Lib.Csv
import Nyxis.Exports
import Nyxis.CallRecords

/-!
# CsvRows — the CSV export, read back

`CsvOut.run` writes a header and a line for each record.  Its cells stand between commas whatever delimiter was
asked for, and a line whose only cell is empty is blank.

* `ObjectFile.decoded`: where the exporter looks for the records of a v1.2 file.
* `run_lines`: what the exporter writes.
* `rowsFrom_lines_iff`: which lines are read back.
* `csv_reads_back_iff`: the export is read back exactly when its only cell is never empty, commas are asked for or not needed,
  and the tail-index leads to all records.
-/

namespace Nyxis

open Lib Lib.Outcome

namespace CsvOut

/-! ## What is exported -/

/-- The options of the export with the delimiter, which `run` does not read. -/
structure CsvArgs extends ExportArgs where
  csvDelimiter : Option Char

def CsvArgs.delimiter (args : CsvArgs) : Char := args.csvDelimiter.getD ','

/-- The texts of the cells of the record at `off`. -/
def recordCells {W : Type} (env : ExportEnv W) (d : Bytes) (decoded : DecodedFile) (columns : List String) (off : ℕ) :
    List String :=
  match recordFields d decoded off with
  | .ok fields => columns.map (fieldCell env fields)
  | _ => []

/-- The cell has a character that `csvRow` puts in quotes. -/
def NeedsQuotes (cell : String) : Prop := ∃ c ∈ cell.toList, c = ',' ∨ c = '"' ∨ c = '\n' ∨ c = '\r'

/-! ## What the exporter writes -/

/-- A line of the export. -/
def line (cells : List String) : List Char := (csvRow cells).toList

section Writer

variable {W : Type} {env : ExportEnv W} {written : W → String}
  (hwriter : ∀ w text w', env.writeAll w text = .ok w' → written w' = written w ++ text)

include hwriter

theorem put_written {w w' : W} {text : String} (h : env.put w text = .ok w') : written w' = written w ++ text := by
  rw [ExportEnv.put] at h
  cases hw : env.writeAll w text with
  | error e => rw [hw] at h; cases h
  | ok w₁ =>
    rw [hw] at h
    cases h
    exact hwriter _ _ _ hw

/-- The loop writes the lines of the records that the entries lead to. -/
theorem tailLoop_lines {d : Bytes} {decoded : DecodedFile} {columns : List String} {off : ℕ → ℕ} : ∀ (n i : ℕ)
    {s s' : ExportReport × W}, (∀ j < i + n, tailEntry d decoded j = .ok (some (off j))) →
    tailLoop d decoded (fun _ _ fields s => writeRow env columns fields s) n i s = .ok s' →
      (written s'.2).toList = (written s.2).toList ++
        ((List.range' i n).map fun j => recordCells env d decoded columns (off j)).flatMap line
  | 0, i, s, s', _, h => by
    cases h
    rw [List.range'_zero, List.map_nil, List.flatMap_nil, List.append_nil]
  | n + 1, i, s, s', hentry, h => by
    rw [tailLoop, hentry i (by omega), ok_bind] at h
    obtain ⟨fields, hfields, h⟩ := bind_eq_ok.mp h
    obtain ⟨s₁, hrow, h⟩ := bind_eq_ok.mp h
    obtain ⟨w, hput, hs⟩ := bind_eq_ok.mp hrow
    cases hs
    have hcells : recordCells env d decoded columns (off i) = columns.map (fieldCell env fields) := by
      rw [recordCells, hfields]
    rw [tailLoop_lines n (i + 1) (fun j hj => hentry j (by omega)) h, put_written hwriter hput, String.toList_append,
      List.range'_succ, List.map_cons, List.flatMap_cons, hcells, List.append_assoc]
    rfl

/-- The header, and a line for each record. -/
theorem run_lines {args : ExportArgs} {file : Slice} {w w' : W} {report : ExportReport} {decoded : DecodedFile}
    {columns : List String} {off : ℕ → ℕ} (hw : written w = "") (hdec : decode file = .ok decoded)
    (hcolumns : columnOrder args decoded.keys = .ok columns)
    (hentry : ∀ j < decoded.recordCount, tailEntry file.bytes decoded j = .ok (some (off j)))
    (h : run env args file w = .ok (report, w')) :
    (written w').toList = (columns :: (List.range decoded.recordCount).map fun j =>
      recordCells env file.bytes decoded columns (off j)).flatMap line := by
  rw [run, hdec, ok_bind, hcolumns, ok_bind] at h
  obtain ⟨w₁, hput, h⟩ := bind_eq_ok.mp h
  have hlines := tailLoop_lines hwriter decoded.recordCount 0 (fun j hj => hentry j (by omega)) h
  rw [hlines, put_written hwriter hput, hw, List.flatMap_cons, List.range_eq_range', String.empty_append]
  rfl

end Writer

/-! ## Reading a line -/

theorem any_special_iff {cell : String} :
    (cell.toList.any fun c => c == ',' || c == '"' || c == '\n' || c == '\r') = true ↔ NeedsQuotes cell := by
  rw [List.any_eq_true]
  simp only [Bool.or_eq_true, beq_iff_eq, or_assoc]
  rfl

theorem csvCell_quoted {cell : String} (h : NeedsQuotes cell) :
    (csvCell cell).toList = '"' :: (Csv.doubled cell.toList ++ ['"']) := by
  have hinner : (String.ofList (Csv.doubled cell.toList)).toList = Csv.doubled cell.toList := String.toList_ofList
  rw [Csv.doubled] at hinner
  rw [csvCell, if_pos (any_special_iff.mpr h), String.toList_append, String.toList_append, hinner, List.append_assoc]
  rfl

theorem csvCell_plain {cell : String} (h : ¬ NeedsQuotes cell) : csvCell cell = cell :=
  if_neg fun hany => h (any_special_iff.mp hany)

theorem written_csvCell (cell : String) : Csv.Written cell.toList (csvCell cell).toList := by
  by_cases h : NeedsQuotes cell
  · rw [csvCell_quoted h]
    exact .quoted
  · rw [csvCell_plain h]
    refine .plain fun c hc => ⟨fun hq => h ⟨c, hc, .inr (.inl hq)⟩, fun he => h ⟨c, hc, .inr (.inr he)⟩⟩

theorem csvCell_eq_iff {cell : String} : (csvCell cell).toList = cell.toList ↔ ¬ NeedsQuotes cell := by
  constructor
  · intro heq h
    have hlen := congrArg List.length heq
    have hle := Csv.length_le_doubled cell.toList
    rw [csvCell_quoted h, List.length_cons, List.length_append, List.length_singleton] at hlen
    omega
  · exact fun h => by rw [csvCell_plain h]

/-- The cells between commas, and the end of the line. -/
theorem line_eq (cells : List String) :
    line cells = [','].intercalate (cells.map fun cell => (csvCell cell).toList) ++ ['\n'] := by
  rw [line, csvRow, String.toList_append, String.toList_intercalate, List.map_map]
  rfl

theorem line_singleton (cell : String) (rest : List Char) : line [cell] ++ rest = (csvCell cell).toList ++ '\n' :: rest := by
  rw [line_eq, List.map_singleton, List.intercalate_singleton, List.append_assoc, List.singleton_append]

theorem line_cons_cons (cell next : String) (cells : List String) (rest : List Char) :
    line (cell :: next :: cells) ++ rest = (csvCell cell).toList ++ ',' :: (line (next :: cells) ++ rest) := by
  rw [line_eq, line_eq, List.map_cons, List.map_cons, List.intercalate_cons_cons, List.append_assoc, List.append_assoc,
    List.append_assoc, List.append_assoc, List.singleton_append]

section Lines

variable {delim : Char} {cells : List String}

/-- A line is read back: it is not blank, and the delimiter that is asked for stands in quotes only. -/
structure LineReads (delim : Char) (cells : List String) : Prop where
  nonblank : cells ≠ [""]
  delims : ∀ cell ∈ cells, delim ∈ cell.toList → NeedsQuotes cell

theorem line_rowStart (hne : cells ≠ []) (hnonblank : cells ≠ [""]) (rest : List Char) :
    Csv.rowsFrom delim .rowStart (line cells ++ rest) = Csv.rowsFrom delim (.cellStart []) (line cells ++ rest) := by
  match cells with
  | [] => exact absurd rfl hne
  | [cell] =>
    have hcell : cell.toList ≠ [] := fun h => hnonblank (by rw [String.toList_eq_nil_iff.mp h])
    rw [line_singleton]
    exact Csv.rowsFrom_of_written (written_csvCell cell) hcell _
  | cell :: next :: cells =>
    rw [line_cons_cons]
    by_cases hcell : cell.toList = []
    · rw [String.toList_eq_nil_iff.mp hcell]
      exact Csv.rowsFrom_rowStart (by decide) _
    · exact Csv.rowsFrom_of_written (written_csvCell cell) hcell _

theorem LineReads.read (h : LineReads delim cells) (hne : cells ≠ []) (hdialect : delim = ',' ∨ cells.length = 1)
    (hn : delim ≠ '\n') (rest : List Char) :
    Csv.rowsFrom delim .rowStart (line cells ++ rest) =
      cells.map String.toList :: Csv.rowsFrom delim .rowStart rest := by
  have hcell : ∀ cell ∈ cells, delim ∈ cell.toList → (csvCell cell).toList ≠ cell.toList := fun cell hmem hd heq =>
    csvCell_eq_iff.mp heq (h.delims cell hmem hd)
  rw [line_rowStart hne h.nonblank]
  obtain rfl | hone := hdialect
  · have hread := Csv.rowsFrom_cells (by decide) hn (fun cell => (csvCell (String.ofList cell)).toList) rest
      (cells.map String.toList) [] (by rwa [ne_eq, List.map_eq_nil_iff]) ?_
    · have hwrite : (cells.map String.toList).map (fun cell => (csvCell (String.ofList cell)).toList) =
          cells.map fun cell => (csvCell cell).toList := by
        rw [List.map_map]
        exact List.map_congr_left fun cell _ => by rw [Function.comp_apply, String.ofList_toList]
      rw [hwrite, List.nil_append] at hread
      rw [line_eq, List.append_assoc, List.singleton_append]
      exact hread
    · intro text hmem
      obtain ⟨cell, hcell', rfl⟩ := List.mem_map.mp hmem
      rw [String.ofList_toList]
      exact ⟨written_csvCell cell, hcell cell hcell'⟩
  · obtain ⟨cell, rfl⟩ := List.length_eq_one_iff.mp hone
    obtain ⟨mode, hdone, hrows⟩ := Csv.rowsFrom_written [] (written_csvCell cell)
      (hcell cell List.mem_cons_self) ('\n' :: rest)
    rw [line_singleton, hrows, hdone.newline hn]
    rfl

/-- A line is one row or none, and it is the row of its cells just where it is read back. -/
theorem line_rows (hne : cells ≠ []) (hdialect : delim = ',' ∨ cells.length = 1) (hn : delim ≠ '\n') :
    ∃ out, (∀ rest, Csv.rowsFrom delim .rowStart (line cells ++ rest) = out ++ Csv.rowsFrom delim .rowStart rest) ∧
      (LineReads delim cells ∧ out = [cells.map String.toList] ∨
        ¬ LineReads delim cells ∧ out.length ≤ 1 ∧ ∀ row ∈ out, row.length ≠ cells.length) := by
  by_cases h : LineReads delim cells
  · exact ⟨_, h.read hne hdialect hn, .inl ⟨h, rfl⟩⟩
  · -- a line that is not read back has one cell
    have hone : ∃ cell, cells = [cell] := by
      by_contra hone
      obtain rfl := hdialect.resolve_right fun hlen => hone (List.length_eq_one_iff.mp hlen)
      exact h ⟨fun hblank => hone ⟨"", hblank⟩, fun cell _ hd => ⟨',', hd, .inl rfl⟩⟩
    obtain ⟨cell, rfl⟩ := hone
    by_cases hempty : cell = ""
    · subst hempty
      refine ⟨[], fun rest => ?_, .inr ⟨h, by decide, nofun⟩⟩
      exact Csv.rowsFrom_blank _ rest
    · have hcut : delim ∈ cell.toList ∧ ¬ NeedsQuotes cell := by
        by_contra hcut
        refine h ⟨fun hblank => hempty (List.singleton_inj.mp hblank), fun other hother hd => ?_⟩
        rw [List.mem_singleton.mp hother] at hd ⊢
        by_contra hquotes
        exact hcut ⟨hd, hquotes⟩
      have hplain := (written_csvCell cell).of_eq (csvCell_eq_iff.mpr hcut.2)
      obtain ⟨front, back, hcell, hrows⟩ := Csv.rowsFrom_cut hplain hcut.1
      have hback : ∀ c ∈ back, c ≠ '"' ∧ ¬ Csv.Ends c := fun c hc => hplain c (by
        rw [hcell]
        exact List.mem_append_right front (List.mem_cons_of_mem delim hc))
      have hdone : (Csv.Mode.cellStart [front]).Done [front] [] := .inl ⟨rfl, rfl⟩
      obtain ⟨part, others, hline⟩ := hdone.line hn back hback
      refine ⟨[[front] ++ ([] ++ part) :: others], fun rest => ?_, .inr ⟨h, Nat.le_refl 1, fun row hrow => ?_⟩⟩
      · rw [line_rowStart hne fun hblank => hempty (List.singleton_inj.mp hblank), line_singleton,
          csvCell_eq_iff.mpr hcut.2, hrows, hline, List.singleton_append, List.singleton_append]
      · rw [List.mem_singleton.mp hrow, List.singleton_append, List.length_cons, List.length_cons, List.length_singleton]
        omega

/-- Lines of `k` cells each. -/
def Lines (k : ℕ) (lines : List (List String)) : Prop := ∀ cells ∈ lines, cells.length = k

/-- There are no more rows than lines. -/
theorem rowsFrom_lines_length {k : ℕ} (hk : 0 < k) (hdialect : delim = ',' ∨ k = 1) (hn : delim ≠ '\n') :
    ∀ lines : List (List String), Lines k lines →
      (Csv.rowsFrom delim .rowStart (lines.flatMap line)).length ≤ lines.length
  | [], _ => Nat.le_refl 0
  | cells :: lines, h => by
    have hlen := h cells List.mem_cons_self
    have hne : cells ≠ [] := List.ne_nil_of_length_pos (by omega)
    obtain ⟨out, hrows, hout⟩ := line_rows hne (hdialect.imp_right fun hone => hlen.trans hone) hn
    have ih := rowsFrom_lines_length hk hdialect hn lines fun x hx => h x (List.mem_cons_of_mem cells hx)
    have hshort : out.length ≤ 1 := by
      obtain ⟨-, rfl⟩ | ⟨-, hshort, -⟩ := hout
      · exact Nat.le_refl 1
      · exact hshort
    rw [List.flatMap_cons, hrows, List.length_append, List.length_cons]
    omega

/-- Lines are read back as expected where they are the expected ones, and each of them is read back. -/
theorem rowsFrom_lines_iff {k : ℕ} (hk : 0 < k) (hdialect : delim = ',' ∨ k = 1) (hn : delim ≠ '\n') :
    ∀ {lines expected : List (List String)}, Lines k lines → Lines k expected → lines.length ≤ expected.length →
      (Csv.rowsFrom delim .rowStart (lines.flatMap line) = expected.map (fun row => row.map String.toList) ↔
        lines = expected ∧ ∀ cells ∈ expected, LineReads delim cells)
  | [], expected, _, _, _ => by
    rw [List.flatMap_nil, Csv.rowsFrom, Csv.lastRow, Option.toList_none, eq_comm, List.map_eq_nil_iff]
    constructor
    · rintro rfl
      exact ⟨rfl, fun cells hmem => absurd hmem List.not_mem_nil⟩
    · exact fun hread => hread.1.symm
  | cells :: lines, [], _, _, hle => absurd hle (Nat.not_succ_le_zero _)
  | cells :: lines, row :: expected, h, hexpected, hle => by
    have hlen := h cells List.mem_cons_self
    have hne : cells ≠ [] := List.ne_nil_of_length_pos (by omega)
    have hlines : Lines k lines := fun x hx => h x (List.mem_cons_of_mem cells hx)
    have hrest : Lines k expected := fun x hx => hexpected x (List.mem_cons_of_mem row hx)
    have hle' : lines.length ≤ expected.length := Nat.le_of_succ_le_succ hle
    obtain ⟨out, hrows, ⟨hreads, rfl⟩ | ⟨hreads, hshort, hout⟩⟩ :=
      line_rows hne (hdialect.imp_right fun hone => hlen.trans hone) hn
    · have ih := rowsFrom_lines_iff hk hdialect hn hlines hrest hle'
      rw [List.flatMap_cons, hrows, List.singleton_append, List.map_cons, List.cons.injEq, ih, List.cons.injEq,
        List.forall_mem_cons]
      have hinj : cells.map String.toList = row.map String.toList ↔ cells = row :=
        (List.map_injective_iff.mpr fun _ _ => String.toList_injective).eq_iff
      rw [hinj]
      constructor
      · rintro ⟨rfl, rfl, hall⟩
        exact ⟨⟨rfl, rfl⟩, hreads, hall⟩
      · rintro ⟨⟨rfl, rfl⟩, -, hall⟩
        exact ⟨rfl, rfl, hall⟩
    · have hbound := rowsFrom_lines_length hk hdialect hn _ hlines
      refine iff_of_false (fun heq => ?_) fun hboth => ?_
      · rw [List.flatMap_cons, hrows] at heq
        cases out with
        | nil =>
          have hcount := congrArg List.length heq
          rw [List.nil_append, List.length_map, List.length_cons] at hcount
          omega
        | cons other out =>
          have hhead := (List.cons.inj heq).1
          refine hout other List.mem_cons_self ?_
          rw [hhead, List.length_map, hexpected row List.mem_cons_self, hlen]
      · exact hreads ((List.cons.inj hboth.1).1 ▸ hboth.2 row List.mem_cons_self)

/-! ## Delimiters that are not read -/

/-- The first of several cells runs into the comma behind it. -/
theorem rowsFrom_not_comma (hd : delim ≠ ',') (cell next : String) (cells : List String) (rest : List Char) :
    ∃ other row others, Csv.rowsFrom delim .rowStart (line (cell :: next :: cells) ++ rest) = (other :: row) :: others ∧
      other ≠ cell.toList := by
  rw [line_cons_cons]
  exact Csv.rowsFrom_first_ne (written_csvCell cell) (by decide) hd.symm (by decide) _

/-- Where lines are to be split at line feeds, a row has more than one cell. -/
theorem rowsFrom_newlines : ∀ {lines : List (List String)}, Lines 1 lines → ∀ row others,
    Csv.rowsFrom '\n' .rowStart (lines.flatMap line) = row :: others → row.length ≠ 1
  | [], _, row, others, h => by
    cases h
  | cells :: lines, hlines, row, others, h => by
    obtain ⟨cell, rfl⟩ := List.length_eq_one_iff.mp (hlines cells List.mem_cons_self)
    rw [List.flatMap_cons] at h
    by_cases hempty : cell = ""
    · subst hempty
      have hblank := Csv.rowsFrom_blank '\n' (lines.flatMap line)
      exact rowsFrom_newlines (fun x hx => hlines x (List.mem_cons_of_mem _ hx)) row others (hblank.symm.trans h)
    · have hquotes : '\n' ∈ cell.toList → (csvCell cell).toList ≠ cell.toList := fun hmem heq =>
        csvCell_eq_iff.mp heq ⟨'\n', hmem, .inr (.inr (.inl rfl))⟩
      obtain ⟨mode, hdone, hrows⟩ := Csv.rowsFrom_written [] (written_csvCell cell) hquotes
        ('\n' :: lines.flatMap line)
      have hmode : Csv.Mode.cellStart ([] ++ [cell.toList]) ≠ .rowStart := nofun
      obtain ⟨row', others', hnext, next, tail, rfl⟩ := Csv.rowsFrom_begins '\n' (lines.flatMap line) hmode
      rw [line_rowStart (List.cons_ne_nil _ _) (fun hblank => hempty (List.singleton_inj.mp hblank)), line_singleton, hrows,
        hdone.separator (by decide), hnext] at h
      cases h
      rw [List.nil_append, List.singleton_append, List.length_cons, List.length_cons]
      omega

/-- Which exports are read back: commas are asked for, or not needed; no line is blank; the delimiter that is asked
for stands in quotes only. -/
structure ExportReads (delim : Char) (columns : List String) (cells : List (List String)) : Prop where
  dialect : delim = ',' ∨ columns.length = 1 ∧ delim ≠ '\n'
  reads : ∀ row ∈ columns :: cells, LineReads delim row

/-- The text is read as the header and the expected rows. -/
theorem rows_lines_iff {columns : List String} (hne : columns ≠ []) {lines expected : List (List String)}
    (hlines : Lines columns.length lines) (hexpected : Lines columns.length expected)
    (hle : lines.length ≤ expected.length) {text : String} (htext : text.toList = (columns :: lines).flatMap line) :
    Csv.rows delim text = columns :: expected ↔ ExportReads delim columns expected ∧ lines = expected := by
  have hpos : 0 < columns.length := List.length_pos_of_ne_nil hne
  have hall : Lines columns.length (columns :: lines) := List.forall_mem_cons.mpr ⟨rfl, hlines⟩
  rw [Csv.rows_eq_iff, htext]
  by_cases hdialect : delim = ',' ∨ columns.length = 1 ∧ delim ≠ '\n'
  · have hn : delim ≠ '\n' := by
      rcases hdialect with rfl | ⟨-, hn⟩
      · decide
      · exact hn
    rw [rowsFrom_lines_iff hpos (hdialect.imp_right And.left) hn hall (List.forall_mem_cons.mpr ⟨rfl, hexpected⟩)
      (Nat.succ_le_succ hle), List.cons.injEq]
    exact ⟨fun h => ⟨⟨hdialect, h.2⟩, h.1.2⟩, fun h => ⟨⟨rfl, h.2⟩, h.1.reads⟩⟩
  · refine iff_of_false (fun heq => ?_) fun h => hdialect h.1.dialect
    rw [not_or, not_and, not_not] at hdialect
    obtain ⟨hcomma, hnewline⟩ := hdialect
    match columns with
    | [] => exact hne rfl
    | [cell] =>
      obtain rfl := hnewline rfl
      exact rowsFrom_newlines hall _ _ heq (List.length_map _)
    | cell :: next :: columns =>
      obtain ⟨other, row, others, hrows, hother⟩ := rowsFrom_not_comma hcomma cell next columns
        (lines.flatMap line)
      rw [List.flatMap_cons, hrows] at heq
      exact hother (List.cons.inj (List.cons.inj heq).1).1

end Lines

end CsvOut

/-! ## The file -/

theorem decodeNames_length {d : Bytes} : ∀ {n pos : ℕ} {names : List String × ℕ}, decodeNames d n pos = .ok names →
    names.1.length = n
  | 0, _, _, h => by
    cases h
    rfl
  | n + 1, _, _, h => by
    rw [decodeNames] at h
    obtain ⟨_, -, h⟩ := bind_eq_ok.mp h
    obtain ⟨_, -, h⟩ := bind_eq_ok.mp h
    obtain ⟨_, -, h⟩ := bind_eq_ok.mp h
    obtain ⟨_, -, h⟩ := bind_eq_ok.mp h
    obtain ⟨_, -, h⟩ := bind_eq_ok.mp h
    obtain ⟨rest, hrest, h⟩ := bind_eq_ok.mp h
    cases h
    exact congrArg (· + 1) (decodeNames_length hrest)

theorem decodeBasicSchema_length {d : Bytes} {pos : ℕ} {schema : List String × List UInt8 × ℕ}
    (h : decodeBasicSchema d pos = .ok schema) : readLE d pos 2 = .ok (ε := NxsError) schema.1.length := by
  rw [decodeBasicSchema] at h
  obtain ⟨n, hn, h⟩ := bind_eq_ok.mp h
  obtain ⟨_, -, h⟩ := bind_eq_ok.mp h
  obtain ⟨_, -, h⟩ := bind_eq_ok.mp h
  obtain ⟨_, -, h⟩ := bind_eq_ok.mp h
  obtain ⟨_, -, h⟩ := bind_eq_ok.mp h
  obtain ⟨_, -, h⟩ := bind_eq_ok.mp h
  obtain ⟨names, hnames, h⟩ := bind_eq_ok.mp h
  obtain ⟨_, -, h⟩ := bind_eq_ok.mp h
  cases h
  rw [hn, decodeNames_length hnames]

namespace ObjectFile

variable {keys : List String} {sigils : List UInt8} {objects : List Bytes} {file : Slice} {decoded : DecodedFile}
  (h : ObjectFile keys sigils objects file.bytes) (hdec : decode file = .ok decoded)

include h hdec

/-- What `decode` finds behind the data sector. -/
theorem decoded_tail : decoded.recordCount = objects.length % 2 ^ 32 ∧
    decoded.tailStart = sectorStart keys sigils + objects.flatten.length + 4 := by
  obtain ⟨hflags, -, hzero⟩ := h.words
  obtain ⟨hcount, hptr, -⟩ := ObjectFile.tail_at h
  exact decoded_tail_row hdec hflags hzero hcount hptr

theorem decoded_keys (hkeys : keys.length ≤ 256) : decoded.keys.length = keys.length := by
  have hd := file.small
  obtain ⟨-, _, _, _, _, rfl, -, -, hschema, -, -⟩ := decode_opens hdec
  obtain ⟨hflags, -, -⟩ := h.words
  have hat := h.schema_at
  have hpad : At file.bytes 32 (leBytes 2 keys.length) := by
    rw [buildSchema, padTo, at_append, at_append, at_append] at hat
    exact hat.1.1.1
  have hle := hpad.le
  rw [leBytes_length] at hle
  rw [hflags, decodeSchema, if_pos ⟨by decide, hle⟩, decodeHeader, if_neg (by decide)] at hschema
  obtain ⟨schema, hheader, hschema⟩ := bind_eq_ok.mp hschema
  obtain ⟨_, -, hschema⟩ := bind_eq_ok.mp hschema
  obtain ⟨_, -, hschema⟩ := bind_eq_ok.mp hschema
  obtain ⟨_, -, hschema⟩ := bind_eq_ok.mp hschema
  have hnames : schema.1 = decoded.keys := congrArg Prod.fst (Outcome.ok.inj hschema)
  have hcount := decodeBasicSchema_length hheader
  rw [readLE_leBytes hpad (by omega) hd] at hcount
  rw [← hnames]
  exact (Outcome.ok.inj hcount).symm

/-- The entry of an object leads to where it starts, cut to a `u32`. -/
theorem tailEntry {i : ℕ} (hi : i < objects.length) : Nyxis.tailEntry file.bytes decoded i =
    .ok (some (sectorStart keys sigils + (objects.take i).flatten.length % 2 ^ 32)) := by
  have hd := file.small
  obtain ⟨-, hstart⟩ := decoded_tail h hdec
  obtain ⟨-, -, hend⟩ := ObjectFile.tail_at h
  have hentry := ObjectFile.entry_at h hi
  have hle := hentry.le
  rw [leBytes_length] at hle
  rw [tailEntry_eq hd (by omega), if_pos (by omega), hstart, word_leBytes hentry (by omega)]

end ObjectFile

namespace CsvOut

variable {W : Type} {env : ExportEnv W}

theorem columnOrder_ne_nil {args : ExportArgs} {keys columns : List String} (hkeys : keys ≠ []) (hargs : args.columns ≠ some [])
    (h : columnOrder args keys = .ok columns) : columns ≠ [] := by
  rw [columnOrder] at h
  cases hrequested : args.columns with
  | none =>
    rw [hrequested] at h
    cases h
    exact hkeys
  | some requested =>
    rw [hrequested] at h
    dsimp only at h
    split at h
    · cases h
    · cases h
      exact fun hnil => hargs (hrequested.trans (congrArg some hnil))

theorem recordCells_length {d : Bytes} (hd : d.length < 2 ^ 63) {decoded : DecodedFile} {columns : List String} {off : ℕ}
    (hoff : off + 8 < 2 ^ 64) : (recordCells env d decoded columns off).length = columns.length := by
  obtain ⟨fields, hfields⟩ : ∃ fields, recordFields d decoded off = .ok fields := recordFields_ok hd hoff
  rw [recordCells, hfields]
  exact List.length_map _

section

variable (env) (keys : List String) (records : List (List Call))

/-- Where record `i` starts in the file. -/
def recordStart (i : ℕ) : ℕ := sectorStart keys (callSigils keys records) + callStart keys.length records i

/-- Where the tail-index says that record `i` starts. -/
def indexedStart (i : ℕ) : ℕ := sectorStart keys (callSigils keys records) + callStart keys.length records i % 2 ^ 32

/-- The cells of every record. -/
def exportedCells (file : Slice) (decoded : DecodedFile) (columns : List String) : List (List String) :=
  (List.range records.length).map fun i => recordCells env file.bytes decoded columns (recordStart keys records i)

end

end CsvOut

open CsvOut in
/-- The export of a v1.2 file, read with the delimiter that was asked for, has the header and the cells of every record
exactly when its lines are read back and the tail-index leads to the cells of all the records. -/
theorem csv_reads_back_iff {W : Type} (env : ExportEnv W) (written : W → String)
    (hwriter : ∀ w text w', env.writeAll w text = .ok w' → written w' = written w ++ text) (args : CsvArgs)
    (hargs : args.columns ≠ some []) (sorter : SlotSort) {keys : List String} (hpos : keys ≠ []) (hkeys : keys.length ≤ 256)
    {records : List (List Call)} {file : Slice} (hfile : NxsWriter.writeFile sorter keys records = .ok file)
    {w w' : W} {report : ExportReport} (hw : written w = "")
    (h : CsvOut.run env args.toExportArgs file w = .ok (report, w')) {decoded : DecodedFile} (hdec : decode file = .ok decoded)
    {columns : List String} (hcolumns : columnOrder args.toExportArgs decoded.keys = .ok columns) :
    Csv.rows args.delimiter (written w') = columns :: exportedCells env keys records file decoded columns ↔
      ExportReads args.delimiter columns (exportedCells env keys records file decoded columns) ∧
      records.length < 2 ^ 32 ∧ ∀ i < records.length,
        recordCells env file.bytes decoded columns (indexedStart keys records i) =
          recordCells env file.bytes decoded columns (recordStart keys records i) := by
  obtain ⟨writer, hrecords, hfinish⟩ := bind_eq_ok.mp hfile
  obtain ⟨objects, hkept, -, -⟩ := writeObjects_filled hrecords
  have hobjects := finish_objects hkept.packed hfinish
  rw [hkept.keys_eq, hkept.slotSigils] at hobjects
  have hd := file.small
  have hcount : objects.length = records.length := hkept.lengths.length_eq.symm
  have hstart : ∀ i, (objects.take i).flatten.length = callStart keys.length records i := fun i =>
    flatten_take_length_of i hkept.lengths
  obtain ⟨hn, -⟩ := ObjectFile.decoded_tail hobjects hdec
  obtain ⟨-, -, hend⟩ := ObjectFile.tail_at hobjects
  have hmod := Nat.mod_le objects.length (2 ^ 32)
  have hentry : ∀ j < decoded.recordCount, tailEntry file.bytes decoded j =
      .ok (some (indexedStart keys records j)) := fun j hj => by
    rw [ObjectFile.tailEntry hobjects hdec (by omega), hstart]
    rfl
  have hne : columns ≠ [] := by
    refine columnOrder_ne_nil (fun hnil => hpos ?_) hargs hcolumns
    rw [← List.length_eq_zero_iff, ← ObjectFile.decoded_keys hobjects hdec hkeys, hnil, List.length_nil]
  have hlines : Lines columns.length ((List.range decoded.recordCount).map fun j =>
      recordCells env file.bytes decoded columns (indexedStart keys records j)) := by
    intro cells hcells
    obtain ⟨j, -, rfl⟩ := List.mem_map.mp hcells
    refine recordCells_length hd ?_
    unfold indexedStart
    omega
  have hexpected : Lines columns.length (exportedCells env keys records file decoded columns) := by
    intro cells hcells
    obtain ⟨i, -, rfl⟩ := List.mem_map.mp hcells
    have hle := (List.take_sublist i objects).flatten.length_le
    rw [hstart] at hle
    refine recordCells_length hd ?_
    unfold recordStart
    omega
  rw [rows_lines_iff hne hlines hexpected
    (by rw [exportedCells, List.length_map, List.length_map, List.length_range, List.length_range]; omega) (run_lines hwriter hw hdec hcolumns hentry h)]
  refine and_congr_right fun _ => ?_
  constructor
  · intro heq
    have hlen := congrArg List.length heq
    rw [exportedCells, List.length_map, List.length_map, List.length_range, List.length_range] at hlen
    rw [hlen] at heq
    exact ⟨by omega, fun i hi => List.map_inj_left.mp heq i (List.mem_range.mpr hi)⟩
  · rintro ⟨hsmall, hcells⟩
    rw [hn, hcount, Nat.mod_eq_of_lt hsmall]
    exact List.map_congr_left fun i hi => hcells i (List.mem_range.mp hi)

/-- A writer that keeps the text. -/
def textEnv : ExportEnv String where
  memory := 2 ^ 63 - 1
  valueSize := 32
  writeAll w text := .ok (w ++ text)
  base64 _ := ""
  floatText _ := ""
  lineText _ := .ok ""
  arrayText _ := .ok ""
  prettyText _ := .ok ""
  reportText _ := .ok ""

/-- The CSV export with a delimiter. -/
def csvArgs (delimiter : Option Char) : CsvOut.CsvArgs := ⟨⟨false, false, none, .base64⟩, delimiter⟩

/-- Two records, one with a text that has to be quoted and one without a text. -/
def quotedRecords : List (List Call) := [[⟨0, .i64 7⟩, ⟨1, .str "x,\"y\"\n"⟩], [⟨0, .i64 8⟩]]

theorem csv_reads_back_quoted : ∃ file report out, NxsWriter.writeFile SlotSort.stable ["a", "b"] quotedRecords = .ok file ∧
    CsvOut.run textEnv (csvArgs none).toExportArgs file "" = .ok (report, out) ∧
      Csv.rows ',' out = [["a", "b"], ["7", "x,\"y\"\n"], ["8", ""]] := by
  have hrun : (NxsWriter.writeFile SlotSort.stable ["a", "b"] quotedRecords >>= fun file => do
      let out ← CsvOut.run textEnv (csvArgs none).toExportArgs file ""
      let decoded ← decode file
      let columns ← CsvOut.columnOrder (csvArgs none).toExportArgs decoded.keys
      .ok (columns, CsvOut.exportedCells textEnv ["a", "b"] quotedRecords file decoded columns,
        (List.range 2).map fun i =>
          CsvOut.recordCells textEnv file.bytes decoded columns (CsvOut.indexedStart ["a", "b"] quotedRecords i))) =
      .ok (["a", "b"], [["7", "x,\"y\"\n"], ["8", ""]], [["7", "x,\"y\"\n"], ["8", ""]]) := by decide +kernel
  obtain ⟨file, hfile, hrun⟩ := bind_eq_ok.mp hrun
  obtain ⟨⟨report, out⟩, hout, hrun⟩ := bind_eq_ok.mp hrun
  obtain ⟨decoded, hdec, hrun⟩ := bind_eq_ok.mp hrun
  obtain ⟨columns, hcolumns, hrun⟩ := bind_eq_ok.mp hrun
  obtain ⟨rfl, hrun⟩ := Prod.mk.inj (Outcome.ok.inj hrun)
  obtain ⟨hcells, hindexed⟩ := Prod.mk.inj hrun
  have hread := (csv_reads_back_iff textEnv id (fun _ _ _ h => (Except.ok.inj h).symm) (csvArgs none) (by decide)
    SlotSort.stable (by decide) (by decide) hfile rfl hout hdec hcolumns).mpr ⟨⟨.inl rfl, ?_⟩, by decide, fun i hi =>
      List.map_inj_left.mp (hindexed.trans hcells.symm) i (List.mem_range.mpr hi)⟩
  · rw [hcells] at hread
    exact ⟨file, report, out, hfile, hout, hread⟩
  · rw [hcells]
    refine fun row hrow => ⟨?_, fun cell _ hcomma => ⟨',', hcomma, .inl rfl⟩⟩
    simp only [List.mem_cons, List.not_mem_nil, or_false] at hrow
    rcases hrow with rfl | rfl | rfl <;> decide

/-- Semicolons are asked for and commas are written; a record whose only cell is empty is a blank line. -/
theorem csv_not_read_back :
    (∃ file report out decoded, NxsWriter.writeFile SlotSort.stable ["a", "b"] [[⟨0, .i64 7⟩, ⟨1, .i64 8⟩]] = .ok file ∧
      CsvOut.run textEnv (csvArgs (some ';')).toExportArgs file "" = .ok (report, out) ∧ decode file = .ok decoded ∧
      Csv.rows ';' out ≠ ["a", "b"] ::
        CsvOut.exportedCells textEnv ["a", "b"] [[⟨0, .i64 7⟩, ⟨1, .i64 8⟩]] file decoded ["a", "b"]) ∧
    ∃ file report out decoded, NxsWriter.writeFile SlotSort.stable ["a"] [[]] = .ok file ∧
      CsvOut.run textEnv (csvArgs none).toExportArgs file "" = .ok (report, out) ∧ decode file = .ok decoded ∧
      Csv.rows ',' out ≠ ["a"] :: CsvOut.exportedCells textEnv ["a"] [[]] file decoded ["a"] := by
  have hsemicolons : (NxsWriter.writeFile SlotSort.stable ["a", "b"] [[⟨0, .i64 7⟩, ⟨1, .i64 8⟩]] >>= fun file => do
      let out ← CsvOut.run textEnv (csvArgs (some ';')).toExportArgs file ""
      let decoded ← decode file
      .ok (decide (Csv.rows ';' out.2 = ["a", "b"] ::
        CsvOut.exportedCells textEnv ["a", "b"] [[⟨0, .i64 7⟩, ⟨1, .i64 8⟩]] file decoded ["a", "b"]))) = .ok false := by
    decide +kernel
  have hblank : (NxsWriter.writeFile SlotSort.stable ["a"] [[]] >>= fun file => do
      let out ← CsvOut.run textEnv (csvArgs none).toExportArgs file ""
      let decoded ← decode file
      .ok (decide (Csv.rows ',' out.2 = ["a"] :: CsvOut.exportedCells textEnv ["a"] [[]] file decoded ["a"]))) =
      .ok false := by decide +kernel
  obtain ⟨file, hfile, hsemicolons⟩ := bind_eq_ok.mp hsemicolons
  obtain ⟨⟨report, out⟩, hout, hsemicolons⟩ := bind_eq_ok.mp hsemicolons
  obtain ⟨decoded, hdec, hsemicolons⟩ := bind_eq_ok.mp hsemicolons
  obtain ⟨file', hfile', hblank⟩ := bind_eq_ok.mp hblank
  obtain ⟨⟨report', out'⟩, hout', hblank⟩ := bind_eq_ok.mp hblank
  obtain ⟨decoded', hdec', hblank⟩ := bind_eq_ok.mp hblank
  exact ⟨⟨file, report, out, decoded, hfile, hout, hdec, of_decide_eq_false (Outcome.ok.inj hsemicolons)⟩,
    file', report', out', decoded', hfile', hout', hdec', of_decide_eq_false (Outcome.ok.inj hblank)⟩

end Nyxis

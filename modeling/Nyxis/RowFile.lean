import Nyxis.RowGetters
import Nyxis.RowRecord
import Nyxis.WrittenSchema

/-!
# RowFile — the v1.2 files of a table

`finishRow` without compact options writes an object for each row.  `RowTable` is what a reader finds in
the file.

* `resolveSlot_object`: where the value of a slot stands.
* `finishRow_file`: the parts of the file.
* `RowTable.reads`: the getters give back the cells.
-/

namespace Nyxis

open Lib Lib.Outcome
open NxsWriter (prefixed)

/-! ## The slots of an object -/

theorem countP_lt_of_ascending : ∀ {l : List ℕ} {j s : ℕ}, l.Pairwise (· < ·) → l[j]? = some s →
    l.countP (· < s) = j
  | [], _, _, _, h => by cases h
  | a :: l, 0, s, hasc, h => by
    cases h
    rw [List.countP_eq_zero]
    intro b hb
    rcases List.mem_cons.mp hb with rfl | hb
    · simp
    · have hlt := List.rel_of_pairwise_cons hasc hb
      simp only [decide_eq_true_eq, Nat.not_lt]
      omega
  | a :: l, j + 1, s, hasc, h => by
    rw [List.getElem?_cons_succ] at h
    have hlt := List.rel_of_pairwise_cons hasc (List.mem_of_getElem? h)
    rw [List.countP_cons, countP_lt_of_ascending hasc.of_cons h, if_pos (by simpa using hlt)]

theorem objectSlots_eq (cells : List (ℕ × Bytes)) :
    objectSlots cells = fun i => (cells.map Prod.fst).any (· == i) := by
  funext i
  rw [objectSlots, List.any_map]
  rfl

theorem slotRank_object {cells : List (ℕ × Bytes)} {j : ℕ} {c : ℕ × Bytes}
    (hasc : (cells.map Prod.fst).Pairwise (· < ·)) (hc : cells[j]? = some c) :
    slotRank (objectSlots cells) c.1 = j := by
  rw [objectSlots_eq, slotRank_any (hasc.imp Nat.ne_of_lt)]
  exact countP_lt_of_ascending hasc (by rw [List.getElem?_map, hc]; rfl)

/-- Where value `j` of an object starts. -/
def valueOffset (n : ℕ) (cells : List (ℕ × Bytes)) (j : ℕ) : ℕ :=
  objectStart n + (objectValues (cells.take j)).length

section Slots

variable {d : Bytes} {off n : ℕ} {cells : List (ℕ × Bytes)} (hat : At d off (objectBytes n cells))
  (hn : cells.length ≤ n) (hd : d.length < 2 ^ 63)

include hat hn hd

/-- The value of a slot stands behind those of the slots before it. -/
theorem resolveSlot_object (hasc : (cells.map Prod.fst).Pairwise (· < ·)) {j : ℕ} {c : ℕ × Bytes} (hslot : c.1 < n)
    (hc : cells[j]? = some c) (hoff : valueOffset n cells j < 65536) :
    resolveSlot d off c.1 = .ok (off + valueOffset n cells j) ∧ At d (off + valueOffset n cells j) c.2 := by
  obtain ⟨hj, -⟩ := List.getElem?_eq_some_iff.mp hc
  obtain ⟨-, -, hmask, htable, -⟩ := at_object hn hat
  have hentry := htable.trans (at_flatMap_const (fun m _ => leBytes_length 2 m) (objectOffsets_getElem? hj))
  rw [show (objectStart n + (objectValues (cells.take j)).length) % 65536 = valueOffset n cells j from
    Nat.mod_eq_of_lt hoff, ← slotRank_object hasc hc] at hentry
  refine ⟨?_, at_objectValue hn hat hc⟩
  have hpresent : objectSlots cells c.1 = true := by
    rw [objectSlots, List.any_eq_true]
    exact ⟨c, List.mem_of_getElem? hc, beq_self_eq_true _⟩
  have hres := resolveSlot_present hmask hd (by unfold bitmaskLen; omega) hpresent
    (by rw [slotRank_object hasc hc]; exact hoff) hentry
  rwa [slotRank_object hasc hc] at hres

theorem resolveSlot_object_absent {slot : ℕ} (hslot : objectSlots cells slot = false) :
    resolveSlot d off slot = none' := by
  obtain ⟨-, -, hmask, -, -⟩ := at_object hn hat
  exact resolveSlot_absent hmask hd (Nat.lt_of_lt_of_le Nat.zero_lt_one (le_max_right _ _)) fun _ => hslot

end Slots

/-! ## The slots of a row -/

theorem cellValues_bounds : ∀ {cells : List Cell} {fi : ℕ}, ∀ c ∈ cellValues fi cells, fi ≤ c.1 ∧ c.1 < fi + cells.length
  | [], fi, c, hc => absurd hc List.not_mem_nil
  | cell :: cells, fi, c, hc => by
    rw [cellValues, List.mem_append] at hc
    rw [List.length_cons]
    rcases hc with hc | hc
    · cases hb : cell.rowBytes with
      | none =>
        rw [hb] at hc
        exact absurd hc List.not_mem_nil
      | some b =>
        rw [hb, Option.elim_some, List.mem_singleton] at hc
        subst hc
        dsimp only
        omega
    · have hle := cellValues_bounds c hc
      omega

theorem cellValues_ascending : ∀ (fi : ℕ) (cells : List Cell), ((cellValues fi cells).map Prod.fst).Pairwise (· < ·)
  | _, [] => List.Pairwise.nil
  | fi, cell :: cells => by
    rw [cellValues]
    cases cell.rowBytes with
    | none => exact cellValues_ascending (fi + 1) cells
    | some b =>
      rw [Option.elim_some, List.singleton_append, List.map_cons, List.pairwise_cons]
      refine ⟨fun s hs => ?_, cellValues_ascending (fi + 1) cells⟩
      obtain ⟨c, hc, rfl⟩ := List.mem_map.mp hs
      exact (cellValues_bounds c hc).1

theorem mem_cellValues {s : ℕ} {b : Bytes} : ∀ {cells : List Cell} {fi : ℕ},
    (s, b) ∈ cellValues fi cells ↔ fi ≤ s ∧ (cells.getD (s - fi) .absent).rowBytes = some b
  | [], fi => by simp [cellValues, Cell.rowBytes]
  | cell :: cells, fi => by
    rw [cellValues, List.mem_append, mem_cellValues]
    constructor
    · rintro (h | ⟨hle, hb⟩)
      · cases hc : cell.rowBytes with
        | none =>
          rw [hc] at h
          exact absurd h List.not_mem_nil
        | some b' =>
          rw [hc, Option.elim_some, List.mem_singleton] at h
          cases h
          refine ⟨Nat.le_refl _, ?_⟩
          rw [Nat.sub_self, List.getD_cons_zero, hc]
      · refine ⟨by omega, ?_⟩
        rw [show s - fi = s - (fi + 1) + 1 by omega, List.getD_cons_succ, hb]
    · rintro ⟨hle, hb⟩
      rcases Nat.lt_or_eq_of_le hle with hlt | rfl
      · right
        rw [show s - fi = s - (fi + 1) + 1 by omega, List.getD_cons_succ] at hb
        exact ⟨hlt, hb⟩
      · left
        rw [Nat.sub_self, List.getD_cons_zero] at hb
        rw [hb, Option.elim_some, List.mem_singleton]

theorem mem_rowValues {row : RecordRow} {fi : ℕ} {b : Bytes} :
    (fi, b) ∈ rowValues row ↔ (row.cell fi).rowBytes = some b := by
  rw [rowValues, mem_cellValues, Nat.sub_zero]
  exact ⟨And.right, fun h => ⟨Nat.zero_le fi, h⟩⟩

theorem rowValues_lt {keys : List String} {row : RecordRow} (h : RowFits keys row) :
    ∀ c ∈ rowValues row, c.1 < keys.length := by
  intro c hc
  have hlt := (cellValues_bounds c hc).2
  have hle := h.length
  omega

theorem objectSlots_row_absent {row : RecordRow} {fi : ℕ} (h : (row.cell fi).rowBytes = none) :
    objectSlots (rowValues row) fi = false := by
  rw [objectSlots, Bool.eq_false_iff, ne_eq, List.any_eq_true]
  rintro ⟨⟨s, b⟩, hc, hs⟩
  obtain rfl : s = fi := beq_iff_eq.mp hs
  rw [mem_rowValues, h] at hc
  cases hc

/-- The values of a row start within the range of the offset table. -/
def OffsetsFit (n : ℕ) (row : RecordRow) : Prop :=
  ∀ j < (rowValues row).length, valueOffset n (rowValues row) j < 65536

instance (n : ℕ) (row : RecordRow) : Decidable (OffsetsFit n row) :=
  inferInstanceAs (Decidable (∀ j < _, _))

/-- A value ends within its object. -/
theorem valueOffset_le {n j : ℕ} {cells : List (ℕ × Bytes)} {c : ℕ × Bytes} (hc : cells[j]? = some c) :
    valueOffset n cells j + c.2.length ≤ objectLen n cells := by
  obtain ⟨hj, hget⟩ := List.getElem?_eq_some_iff.mp hc
  have hsplit : (objectValues cells).length = (objectValues (cells.take j)).length +
      (objectValues (cells.drop j)).length := by
    conv_lhs => rw [← List.take_append_drop j cells]
    rw [objectValues, List.flatMap_append, List.length_append]
    rfl
  have hdrop : c.2.length ≤ (objectValues (cells.drop j)).length := by
    rw [List.drop_eq_getElem_cons hj, hget, objectValues, List.flatMap_cons, List.length_append]
    exact Nat.le_add_right _ _
  rw [objectLen, hsplit, valueOffset]
  omega

/-- The place of a cell in the object of its row, wherever the object stands. -/
theorem resolveSlot_row {fi : ℕ} {keys : List String} {row : RecordRow} {b : Bytes} (hrow : RowFits keys row)
    (hoffs : OffsetsFit keys.length row) (hb : (row.cell fi).rowBytes = some b) :
    ∃ p, p + b.length ≤ objectLen keys.length (rowValues row) ∧
      ∀ {d : Bytes} {off : ℕ}, At d off (objectBytes keys.length (rowValues row)) → d.length < 2 ^ 63 →
        resolveSlot d off fi = .ok (off + p) ∧ At d (off + p) b := by
  obtain ⟨j, hj, hc⟩ := List.getElem_of_mem (mem_rowValues.mpr hb)
  have hget : (rowValues row)[j]? = some (fi, b) := by rw [List.getElem?_eq_getElem hj, hc]
  have hslot := rowValues_lt hrow _ (List.mem_of_getElem? hget)
  refine ⟨valueOffset keys.length (rowValues row) j, valueOffset_le hget, fun {d off} hat hd => ?_⟩
  exact resolveSlot_object hat (rowValues_length hrow) hd (cellValues_ascending 0 _) hslot hget (hoffs j hj)

/-! ## The file -/

/-- The sigils of the slots once the rows are written. -/
def tableSigils (keys : List String) (rows : List RecordRow) : List UInt8 :=
  rows.foldl (fun sigils row => noteCells 0 row.cells sigils) (List.replicate keys.length 0)

/-- The sigil of a slot after one more cell. -/
def noteCell (cur : UInt8) (c : Cell) : UInt8 :=
  if c = .absent then cur else if cur = 0 ∨ (cur = SIGIL_NULL ∧ c.sigil ≠ SIGIL_NULL) then c.sigil else cur

theorem noteSigil_length (s : List UInt8) (slot : ℕ) (x : UInt8) : (noteSigil s slot x).length = s.length := by
  rw [noteSigil]
  split
  · exact List.length_set
  · rfl

theorem noteSigil_getD_ne {s : List UInt8} {slot fi : ℕ} (x : UInt8) (h : slot ≠ fi) :
    (noteSigil s slot x).getD fi 0 = s.getD fi 0 := by
  rw [noteSigil]
  split
  · rw [List.getD_eq_getElem?_getD, List.getElem?_set_ne h, List.getD_eq_getElem?_getD]
  · rfl

theorem noteSigil_getD_self {s : List UInt8} {fi : ℕ} (hfi : fi < s.length) {c : Cell} (hc : c ≠ .absent) :
    (noteSigil s fi c.sigil).getD fi 0 = noteCell (s.getD fi 0) c := by
  rw [noteSigil, noteCell, if_neg hc]
  split
  · rw [List.getD_eq_getElem?_getD, List.getElem?_set_self hfi]
    rfl
  · rfl

theorem noteCells_length : ∀ (cells : List Cell) (f : ℕ) (s : List UInt8), (noteCells f cells s).length = s.length
  | [], _, _ => rfl
  | c :: cells, f, s => by
    rw [noteCells, noteCells_length cells]
    split
    · rfl
    · exact noteSigil_length s f _

/-- The cells of a row note the sigil of the slot's cell. -/
theorem noteCells_getD {fi : ℕ} : ∀ {cells : List Cell} {f : ℕ} {s : List UInt8}, fi < s.length →
    (noteCells f cells s).getD fi 0 =
      if f ≤ fi then noteCell (s.getD fi 0) (cells.getD (fi - f) .absent) else s.getD fi 0
  | [], f, s, _ => by
    rw [noteCells, List.getD_nil, noteCell, if_pos rfl, ite_self]
  | c :: cells, f, s, hfi => by
    have hlen : fi < (if c = .absent then s else noteSigil s f c.sigil).length := by
      split
      · exact hfi
      · rwa [noteSigil_length]
    rw [noteCells, noteCells_getD hlen]
    by_cases hf : f = fi
    · -- the cell of the slot
      subst hf
      rw [if_neg (Nat.not_succ_le_self f), if_pos (Nat.le_refl f), Nat.sub_self, List.getD_cons_zero]
      by_cases hc : c = .absent
      · rw [if_pos hc, noteCell, if_pos hc]
      · rw [if_neg hc, noteSigil_getD_self hfi hc]
    · have hsame : (if c = .absent then s else noteSigil s f c.sigil).getD fi 0 = s.getD fi 0 := by
        split
        · rfl
        · exact noteSigil_getD_ne _ hf
      rw [hsame]
      by_cases hlt : f + 1 ≤ fi
      · rw [if_pos hlt, if_pos (Nat.le_of_succ_le hlt), show fi - f = fi - (f + 1) + 1 by omega, List.getD_cons_succ]
      · rw [if_neg hlt, if_neg (show ¬ f ≤ fi by omega)]

theorem tableSigils_length (keys : List String) (rows : List RecordRow) : (tableSigils keys rows).length = keys.length := by
  have hfold : ∀ (rows : List RecordRow) (s : List UInt8),
      (rows.foldl (fun sigils row => noteCells 0 row.cells sigils) s).length = s.length := by
    intro rows
    induction rows with
    | nil => exact fun _ => rfl
    | cons row rows ih => exact fun s => (ih _).trans (noteCells_length _ _ _)
  exact (hfold rows _).trans List.length_replicate

/-- The sigil of a slot is noted along its column. -/
theorem tableSigils_getD {keys : List String} {rows : List RecordRow} {fi : ℕ} (hfi : fi < keys.length) :
    (tableSigils keys rows).getD fi 0 = (column rows fi).foldl noteCell 0 := by
  have hfold : ∀ (rows : List RecordRow) (s : List UInt8), fi < s.length →
      (rows.foldl (fun sigils row => noteCells 0 row.cells sigils) s).getD fi 0 =
        (column rows fi).foldl noteCell (s.getD fi 0) := by
    intro rows
    induction rows with
    | nil => exact fun _ _ => rfl
    | cons row rows ih =>
      intro s hs
      rw [List.foldl_cons, ih _ (by rwa [noteCells_length]), noteCells_getD hs, if_pos (Nat.zero_le fi)]
      rfl
  rw [tableSigils, hfold rows _ (by rwa [List.length_replicate]), List.getD_eq_getElem?_getD,
    List.getElem?_replicate_of_lt hfi]
  rfl

/-- A column of one kind has the sigil of its kind once a cell has a value. -/
theorem foldl_noteCell {kind : UInt8} (h0 : kind ≠ 0) (hnull : kind ≠ SIGIL_NULL) : ∀ {cells : List Cell} {cur : UInt8},
    (∀ c ∈ cells, c = .absent ∨ c.sigil = kind) → (cur = 0 ∧ ∃ c ∈ cells, c ≠ .absent) ∨ cur = kind →
      cells.foldl noteCell cur = kind
  | [], cur, _, h => by
    rcases h with ⟨-, c, hc, -⟩ | h
    · exact absurd hc List.not_mem_nil
    · exact h
  | c :: cells, cur, hkind, h => by
    rw [List.foldl_cons]
    refine foldl_noteCell h0 hnull (fun c' hc' => hkind c' (List.mem_cons_of_mem c hc')) ?_
    rw [noteCell]
    by_cases hc : c = .absent
    · rw [if_pos hc]
      rcases h with ⟨hcur, c', hc', hne⟩ | h
      · rcases List.mem_cons.mp hc' with rfl | hc'
        · exact absurd hc hne
        · exact Or.inl ⟨hcur, c', hc', hne⟩
      · exact Or.inr h
    · have hsig : c.sigil = kind := (hkind c List.mem_cons_self).resolve_left hc
      rw [if_neg hc, hsig]
      right
      rcases h with ⟨hcur, -⟩ | rfl
      · rw [if_pos (Or.inl hcur)]
      · rw [if_neg (by rintro (h | ⟨h, -⟩) <;> contradiction)]

/-- A table of columns of one kind each, with absent cells anywhere. -/
structure TypedTable (keys : List String) (kinds : List UInt8) (rows : List RecordRow) : Prop where
  kinds_length : kinds.length = keys.length
  kinds_mem : ∀ k ∈ kinds, k ∈ [SIGIL_INT, SIGIL_FLOAT, SIGIL_BOOL, SIGIL_TIME, SIGIL_STR]
  ofKind : ∀ fi, (h : fi < kinds.length) → ∀ c ∈ column rows fi, c = .absent ∨ c.sigil = kinds[fi]
  length : ∀ row ∈ rows, row.cells.length ≤ keys.length

namespace TypedTable

variable {keys : List String} {kinds : List UInt8} {rows : List RecordRow} (h : TypedTable keys kinds rows)

include h

/-- The kind of a cell. -/
theorem cell_kind {row : RecordRow} (hrow : row ∈ rows) {fi : ℕ} {kind : UInt8} (hkind : kinds[fi]? = some kind) :
    row.cell fi = .absent ∨ (row.cell fi).sigil = kind := by
  obtain ⟨hfi, rfl⟩ := List.getElem?_eq_some_iff.mp hkind
  exact h.ofKind fi hfi _ (List.mem_map.mpr ⟨row, hrow, rfl⟩)

theorem exists_kind {fi : ℕ} (hfi : fi < keys.length) :
    ∃ kind, kinds[fi]? = some kind ∧ kind ∈ [SIGIL_INT, SIGIL_FLOAT, SIGIL_BOOL, SIGIL_TIME, SIGIL_STR] := by
  have hlen := h.kinds_length
  exact ⟨_, List.getElem?_eq_getElem (by omega), h.kinds_mem _ (List.getElem_mem _)⟩

/-- A cell is absent or of one of the five kinds. -/
theorem mem_kinds {row : RecordRow} (hrow : row ∈ rows) {c : Cell} (hc : c ∈ row.cells) :
    c = .absent ∨ c.sigil ∈ [SIGIL_INT, SIGIL_FLOAT, SIGIL_BOOL, SIGIL_TIME, SIGIL_STR] := by
  obtain ⟨fi, hfi, rfl⟩ := List.getElem_of_mem hc
  have hlen := h.length row hrow
  obtain ⟨kind, hkind, hmem⟩ := h.exists_kind (show fi < keys.length by omega)
  have hcell : row.cell fi = row.cells[fi] := by
    rw [RecordRow.cell, List.getD_eq_getElem?_getD, List.getElem?_eq_getElem hfi, Option.getD_some]
  rw [← hcell]
  refine (h.cell_kind hrow hkind).imp_right fun hsig => ?_
  rw [hsig]
  exact hmem

theorem rowFits {row : RecordRow} (hrow : row ∈ rows) : RowFits keys row := by
  refine ⟨h.length row hrow, fun c hc b hb => ?_⟩
  subst hb
  rcases h.mem_kinds hrow hc with habs | hmem
  · cases habs
  · exact absurd hmem (show SIGIL_BINARY ∉ _ by decide)

/-- The sigil that is noted for a slot that some cell has a value in. -/
theorem noted {row : RecordRow} (hrow : row ∈ rows) {fi : ℕ} (hfi : fi < keys.length) (hcell : row.cell fi ≠ .absent) :
    (tableSigils keys rows).getD fi 0 = (row.cell fi).sigil ∧ (row.cell fi).sigil ≠ 0 := by
  obtain ⟨kind, hkind, hmem⟩ := h.exists_kind hfi
  have hsig := (h.cell_kind hrow hkind).resolve_left hcell
  have h0 : kind ≠ 0 := by
    rintro rfl
    exact absurd hmem (by decide)
  have hnull : kind ≠ SIGIL_NULL := by
    rintro rfl
    exact absurd hmem (by decide)
  have hcol : ∀ c ∈ column rows fi, c = .absent ∨ c.sigil = kind := by
    intro c hc
    obtain ⟨row', hrow', rfl⟩ := List.mem_map.mp hc
    exact h.cell_kind hrow' hkind
  rw [hsig, tableSigils_getD hfi]
  exact ⟨foldl_noteCell h0 hnull hcol (Or.inl ⟨rfl, _, List.mem_map.mpr ⟨row, hrow, rfl⟩, hcell⟩), h0⟩

end TypedTable

/-- Where the data sector of a table starts. -/
def tableStart (keys : List String) (rows : List RecordRow) : ℕ := 32 + (buildSchema keys (tableSigils keys rows)).length

/-- The offset of each record in the tail-index; relative offsets are kept in a `u32`. -/
def tableOffsets (keys : List String) (rows : List RecordRow) : List ℕ :=
  (rowStarts keys.length rows).map fun off => tableStart keys rows + off % 2 ^ 32

/-- What follows the schema of a table, without the footer. -/
def tableBody (keys : List String) (rows : List RecordRow) : Bytes :=
  rowsBytes keys.length rows ++ (leBytes 4 rows.length ++ tailEntries (tableOffsets keys rows) ++
    leBytes 8 (tableStart keys rows + (rowsBytes keys.length rows).length))

/-- The v1.2 file of a table. -/
abbrev TableFile (keys : List String) (rows : List RecordRow) (d : Bytes) : Prop :=
  Framed d VERSION FLAG_SCHEMA_EMBEDDED 0 (buildSchema keys (tableSigils keys rows)) (tableBody keys rows)

theorem rowStarts_length (n : ℕ) (rows : List RecordRow) : (rowStarts n rows).length = rows.length := by
  rw [rowStarts, startsFrom_length, List.length_map]

theorem tableOffsets_length (keys : List String) (rows : List RecordRow) :
    (tableOffsets keys rows).length = rows.length := by
  rw [tableOffsets, List.length_map, rowStarts_length]

theorem rows_le_bytes {keys : List String} : ∀ {rows : List RecordRow}, (∀ row ∈ rows, RowFits keys row) →
    rows.length ≤ (rowsBytes keys.length rows).length
  | [], _ => Nat.le_refl 0
  | row :: rows, h => by
    have ih := rows_le_bytes fun row' hrow => h row' (List.mem_cons_of_mem row hrow)
    have hobj : 1 ≤ (objectBytes keys.length (rowValues row)).length := by
      rw [objectBytes_length (rowValues_length (h row List.mem_cons_self)), objectLen, objectStart]
      unfold objectHeaderLen
      omega
    rw [rowsBytes, List.flatMap_cons, List.length_append, List.length_cons]
    unfold rowsBytes at ih
    omega

/-- A table without binary cells is written as its file. -/
theorem finishRow_file {keys : List String} {rows : List RecordRow} {file : Slice} (hlen : keys.length < 65536)
    (hrows : ∀ row ∈ rows, RowFits keys row) (h : finishRow keys rows none = .ok file) : TableFile keys rows file.bytes := by
  obtain ⟨w, hw, hfinish⟩ := finishRow_eq_ok.mp h
  obtain ⟨w', hw', hwrote⟩ := writeRows_ok hlen (WroteRows.new keys) (fun row hrow => absurd hrow List.not_mem_nil) hrows
  obtain rfl : w = w' := Outcome.ok.inj (hw.symm.trans hw')
  rw [List.nil_append] at hwrote
  obtain ⟨_, -, hfinish⟩ := bind_eq_ok.mp hfinish
  rw [hwrote.writer.plain] at hfinish
  dsimp only at hfinish
  rw [tailIndexRecords_eq] at hfinish
  have hframed := sealRow_eq_ok (by decide) hfinish
  have hsigils : w.slotSigils = tableSigils keys rows := hwrote.slotSigils
  rw [hwrote.writer.keys, hsigils, hwrote.buf, hwrote.recordOffsets, List.map_map] at hframed
  have hcount : ((rowStarts keys.length rows).map
      ((fun x => 32 + (buildSchema keys (tableSigils keys rows)).length + x) ∘ fun x => x % 2 ^ 32)).length =
        rows.length := by
    rw [List.length_map, rowStarts_length]
  rw [hcount] at hframed
  exact hframed

namespace Framed

variable {keys : List String} {rows : List RecordRow} {d : Bytes} (h : TableFile keys rows d)

include h

theorem data_at : At d (tableStart keys rows) (rowsBytes keys.length rows) := (at_append.mp h.body_at).1

/-- The object of a row. -/
theorem record_at (hrows : ∀ row ∈ rows, RowFits keys row) {i : ℕ} {row : RecordRow} (hrow : rows[i]? = some row) :
    ∃ off, (rowStarts keys.length rows)[i]? = some off ∧
      At d (tableStart keys rows + off) (objectBytes keys.length (rowValues row)) ∧
      off + objectLen keys.length (rowValues row) ≤ (rowsBytes keys.length rows).length := by
  have hi := (List.getElem?_eq_some_iff.mp hrow).1
  have hlens : ((rows.take i).flatMap fun row => objectBytes keys.length (rowValues row)).length =
      ((rows.map fun row => objectLen keys.length (rowValues row)).take i).sum := by
    rw [← List.map_take]
    exact rowsBytes_length fun row hr => hrows row (List.mem_of_mem_take hr)
  have hat : At (rowsBytes keys.length rows) _ _ := at_flatMap (f := fun row => objectBytes keys.length (rowValues row)) hrow
  rw [hlens] at hat
  have hle := hat.le
  rw [objectBytes_length (rowValues_length (hrows row (List.mem_of_getElem? hrow)))] at hle
  refine ⟨_, startsFrom_getElem? 0 (by rw [List.length_map]; exact hi), ?_, ?_⟩
  · rw [Nat.zero_add]
    exact h.data_at.trans hat
  · rw [Nat.zero_add]
    exact hle

/-- The entry of a row in the tail-index. -/
theorem entry_at {i off : ℕ} (hoff : (rowStarts keys.length rows)[i]? = some off) :
    At d (tableStart keys rows + (rowsBytes keys.length rows).length + 4 + i * 10 + 2)
      (leBytes 8 (tableStart keys rows + off % 2 ^ 32)) := by
  have hbody := h.body_at
  rw [tableBody, at_append, at_append, at_append, leBytes_length] at hbody
  obtain ⟨-, ⟨-, hentries⟩, -⟩ := hbody
  have hentry : (tableOffsets keys rows).zipIdx[i]? = some (tableStart keys rows + off % 2 ^ 32, i) := by
    rw [List.getElem?_zipIdx, tableOffsets, List.getElem?_map, hoff, Nat.zero_add]
    rfl
  have hat := hentries.trans (at_flatMap_const (w := 10) (f := fun e : ℕ × ℕ => leBytes 2 e.2 ++ leBytes 8 e.1)
    (by simp) hentry)
  rw [at_append, leBytes_length] at hat
  exact hat.2

/-- The count in front of the entries, and the pointer to it behind them. -/
theorem tail_at : At d (tableStart keys rows + (rowsBytes keys.length rows).length) (leBytes 4 rows.length) ∧
    At d (d.length - 12) (leBytes 8 (tableStart keys rows + (rowsBytes keys.length rows).length)) ∧
      tableStart keys rows + (rowsBytes keys.length rows).length + 4 + rows.length * 10 + 12 = d.length := by
  have hlen := h.length
  have hbody := h.body_at
  rw [tableBody, at_append, at_append, at_append] at hbody
  obtain ⟨-, ⟨hcount, -⟩, hptr⟩ := hbody
  rw [tableBody] at hlen
  simp only [List.length_append, leBytes_length, tailEntries_length, tableOffsets_length] at hlen hptr
  have hend : tableStart keys rows + (rowsBytes keys.length rows).length + 4 + rows.length * 10 + 12 = d.length := by
    unfold tableStart
    omega
  rw [show 32 + (buildSchema keys (tableSigils keys rows)).length + (rowsBytes keys.length rows).length +
    (4 + rows.length * 10) = d.length - 12 by unfold tableStart at hend; omega] at hptr
  exact ⟨hcount, hptr, hend⟩

end Framed

/-- The opened file of a table. -/
structure RowTable (r : Reader) (keys : List String) (rows : List RecordRow) : Prop where
  file : TableFile keys rows r.data
  small : r.data.length < 2 ^ 63
  keys_eq : r.keys = keys
  keySigils : r.keySigils = schemaSigils keys.length (tableSigils keys rows)
  layout : r.layout = .row
  ext : r.extSchema = none
  deltaTail : r.deltaTail = none
  recordCount : r.recordCount = rows.length % 2 ^ 32
  tailStart : r.tailStart = tableStart keys rows + (rowsBytes keys.length rows).length + 4

theorem TableFile.opens {keys : List String} {rows : List RecordRow} {file : Slice} (h : TableFile keys rows file.bytes)
    (hlen : keys.length < 65536) (hnul : ∀ k ∈ keys, NulFree k) : ∃ r, Reader.new file = .ok r ∧ r.data = file.bytes ∧
      RowTable r keys rows := by
  have hsmall := file.small
  have hnew := Reader.new_basic h.bytes (by decide) (by decide) rfl rfl rfl hlen hnul
  obtain ⟨hcount, hptr, hend⟩ := h.tail_at
  have hstart : 32 ≤ tableStart keys rows := Nat.le_add_right _ _
  rw [Reader.openTail] at hnew
  dsimp only at hnew
  rw [if_neg (by decide), if_neg (by decide), if_pos rfl, ensure_of (by omega), ok_bind,
    readLE_leBytes hptr (by omega) hsmall, ok_bind, ensure_of (by omega), ok_bind, if_neg (by decide),
    readLE_leBytes_mod hcount hsmall, ok_bind] at hnew
  exact ⟨_, hnew, rfl, h, hsmall, rfl, rfl, rfl, rfl, rfl, rfl, rfl⟩

namespace RowTable

variable {r : Reader} {keys : List String} {rows : List RecordRow} (h : RowTable r keys rows)
  (hrows : ∀ row ∈ rows, RowFits keys row) (hsector : (rowsBytes keys.length rows).length < 2 ^ 32)

include h hrows hsector

/-- A record is found through the tail-index. -/
theorem record {i : ℕ} {row : RecordRow} (hcount : rows.length < 2 ^ 32) (hrow : rows[i]? = some row) :
    ∃ off, r.record i = .ok (tableStart keys rows + off) ∧
      At r.data (tableStart keys rows + off) (objectBytes keys.length (rowValues row)) := by
  obtain ⟨off, hoff, hat, hle⟩ := h.file.record_at hrows hrow
  have hentry := h.file.entry_at hoff
  have hlen := hentry.le
  have hsmall := h.small
  have hi := (List.getElem?_eq_some_iff.mp hrow).1
  have hlt : off < 2 ^ 32 := by
    have hobj := hat.le
    omega
  rw [leBytes_length] at hlen
  rw [Nat.mod_eq_of_lt hlt] at hentry
  refine ⟨off, ?_, hat⟩
  rw [Reader.record, h.recordCount, Nat.mod_eq_of_lt hcount, ensure_of (by omega), ok_bind, if_pos h.layout,
    Reader.rowRecordOffset, h.deltaTail]
  dsimp only
  rw [h.tailStart, usizeMul_of (by omega), ok_bind, usizeAdd_of (by omega), ok_bind, usizeAdd_of (by omega), ok_bind]
  exact getLE_leBytes hentry (by omega) hsmall

/-- The cell of a row, and where the getters find it. -/
theorem rowCell (hcount : rows.length < 2 ^ 32) (hnd : keys.Nodup) {i fi : ℕ} {row : RecordRow} {key : String}
    (hrow : rows[i]? = some row) (hkey : keys[fi]? = some key) :
    ∃ off, RowCell r i (tableStart keys rows + off) fi key ∧
      At r.data (tableStart keys rows + off) (objectBytes keys.length (rowValues row)) := by
  obtain ⟨off, hrecord, hat⟩ := h.record hrows hsector hcount hrow
  have hslot : r.slot key = .ok fi := Reader.slot_of_nodup (by rw [h.keys_eq]; exact hnd) (by rw [h.keys_eq]; exact hkey)
  exact ⟨off, ⟨h.layout, h.ext, hrecord, hslot⟩, hat⟩

end RowTable

/-- The value of a cell is seen where its bytes stand. -/
theorem cellAt_rowBytes {r : Reader} {p : ℕ} {c : Cell} {b : Bytes} (hat : At r.data p b) (hb : c.rowBytes = some b)
    (hshort : ∀ s, c = .str s → (utf8 s).length < 2 ^ 32) (hd : r.data.length < 2 ^ 63) : CellAt r p c := by
  cases c with
  | absent => cases hb
  | null => trivial
  | i64 v | time v =>
    cases hb
    rw [CellAt, getLE_at hat (i64Bytes_length v) hd, leNat_i64Bytes, map_ok, i64Of_toNat]
  | f64 v =>
    cases hb
    rw [CellAt, getLE_at hat (f64Bytes_length v) hd, leNat_f64Bytes, map_ok, f64Of_toNat]
  | bool v =>
    cases hb
    rw [CellAt, get_at hat, ok_bind]
    cases v <;> rfl
  | str s =>
    cases hb
    rw [prefixed, padTo, at_append, at_append, leBytes_length] at hat
    obtain ⟨⟨hlen, htext⟩, -⟩ := hat
    rw [CellAt, getLE_leBytes hlen (hshort s rfl) hd, ok_bind]
    exact inlineStr_at htext hd
  | binary b => cases hb

theorem cell_mem {row : RecordRow} {fi : ℕ} (h : row.cell fi ≠ .absent) : row.cell fi ∈ row.cells := by
  rw [RecordRow.cell, List.getD_eq_getElem?_getD] at h ⊢
  cases hget : row.cells[fi]? with
  | none =>
    rw [hget] at h
    exact absurd rfl h
  | some c => exact List.mem_of_getElem? hget

/-- A cell without bytes is absent. -/
theorem absent_of_rowBytes {keys : List String} {row : RecordRow} {fi : ℕ} (hrow : RowFits keys row)
    (h : (row.cell fi).rowBytes = none) : row.cell fi = .absent := by
  by_contra habs
  have hbin := hrow.notBinary _ (cell_mem habs)
  cases hc : row.cell fi with
  | absent => exact habs hc
  | binary b => exact hbin b hc
  | _ =>
    rw [hc] at h
    cases h

theorem prefixed_le (b : Bytes) : b.length ≤ (prefixed b).length := by
  rw [prefixed, padTo_length, List.length_append, leBytes_length]
  omega

/-- The getters give back the cells of a table. -/
theorem RowTable.reads {r : Reader} {keys : List String} {rows : List RecordRow} (h : RowTable r keys rows)
    (hrows : ∀ row ∈ rows, RowFits keys row) (hsector : (rowsBytes keys.length rows).length < 2 ^ 32)
    (hcount : rows.length < 2 ^ 32) (hnd : keys.Nodup) {i fi : ℕ} {row : RecordRow} {key : String}
    (hrow : rows[i]? = some row) (hkey : keys[fi]? = some key) (hoffs : OffsetsFit keys.length row) :
    r.Reads i key (row.cell fi) := by
  have hfits := hrows row (List.mem_of_getElem? hrow)
  obtain ⟨off, hcell, hat⟩ := h.rowCell hrows hsector hcount hnd hrow hkey
  obtain ⟨off', hoff, -, hle⟩ := h.file.record_at hrows hrow
  cases hb : (row.cell fi).rowBytes with
  | none =>
    rw [absent_of_rowBytes hfits hb]
    refine hcell.reads_absent (resolveSlot_object_absent hat (rowValues_length hfits) h.small ?_)
    exact objectSlots_row_absent hb
  | some b =>
    obtain ⟨p, hin, hplace⟩ := resolveSlot_row hfits hoffs hb
    obtain ⟨hres, hval⟩ := hplace hat h.small
    refine hcell.reads_cell hres (cellAt_rowBytes hval hb (fun s hs => ?_) h.small)
    rw [hs] at hb
    cases hb
    have hpre := prefixed_le (utf8 s)
    omega

end Nyxis

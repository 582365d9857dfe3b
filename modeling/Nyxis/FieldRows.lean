import Nyxis.Lib.FirstSeen
import Nyxis.Registry

/-!
# FieldRows — rows from the fields of records

`records_from_fields` collects the keys of all records in the order in which they come up, and gives each record a cell
for each key.

* `recordField_state`: what one field of a record does to the keys and to the cells of the record.
* `records_from_fields_faithful`: each cell is that of the last field with its key.
-/

namespace Nyxis

open Lib Lib.Outcome

/-! ## What the rows are -/

/-- The cell is that of the last field with the key. -/
def CellOf (fields : List Field) (key : String) (cell : Cell) : Prop :=
  match fields.reverse.find? fun f => f.key = key with
  | some f => Cell.fromValue f.value = .ok cell
  | none => cell = .absent

/-- A record at the top level. -/
def recordOf (r : String × List Field) : Field := .mk r.1 (.object r.2)

/-- Every value of the record is a cell. -/
def Flat (r : String × List Field) : Prop := ∀ f ∈ r.2, (Cell.fromValue f.value).isOk = true

instance (r : String × List Field) : Decidable (Flat r) := inferInstanceAs (Decidable (∀ f ∈ r.2, _))

/-- One row for each record, with a cell for each key. -/
structure RowsOf (records : List (String × List Field)) (keys : List String) (rows : List RecordRow) : Prop where
  order : FirstSeen keys (records.flatMap fun r => r.2.map Field.key)
  length : rows.length = records.length
  width : ∀ row ∈ rows, row.cells.length = keys.length
  cell : ∀ (i j : ℕ) r row k c, records[i]? = some r → rows[i]? = some row → keys[j]? = some k → row.cells[j]? = some c →
    CellOf r.2 k c

theorem CellOf.concat_self {fields : List Field} {f : Field} {cell : Cell} (h : Cell.fromValue f.value = .ok cell) :
    CellOf (fields ++ [f]) f.key cell := by
  rw [CellOf, List.reverse_concat, List.find?_cons_of_pos (by simp)]
  exact h

theorem CellOf.concat_other {fields : List Field} {f : Field} {key : String} {cell : Cell} (hne : f.key ≠ key)
    (h : CellOf fields key cell) : CellOf (fields ++ [f]) key cell := by
  rw [CellOf, List.reverse_concat, List.find?_cons_of_neg (by simpa using hne)]
  exact h

theorem cellOf_absent {fields : List Field} {key : String} (h : ∀ f ∈ fields, f.key ≠ key) : CellOf fields key .absent := by
  rw [CellOf, List.find?_eq_none.mpr fun f hf => by simpa using h f (List.mem_reverse.mp hf)]

/-! ## One record -/

theorem resizeCells_length (n : ℕ) (cells : List Cell) : (resizeCells n cells).length = n := by
  rw [resizeCells, List.length_append, List.length_take, List.length_replicate]
  omega

/-- Cells that are added are absent. -/
theorem resizeCells_getD {n : ℕ} {cells : List Cell} (h : cells.length ≤ n) (i : ℕ) :
    (resizeCells n cells).getD i .absent = cells.getD i .absent := by
  rw [resizeCells, List.take_of_length_le h]
  by_cases hi : i < cells.length
  · rw [List.getD_append _ _ _ _ hi]
  · rw [List.getD_append_right _ _ _ _ (by omega), List.getD_eq_default cells _ (by omega), List.getD_eq_getElem?_getD,
      List.getElem?_replicate]
    split <;> rfl

/-- The keys met so far, `seen` those of earlier records, and the cells of a record whose fields are `fields` so far. -/
structure RecordState (seen : List String) (fields : List Field) (keys : List String) (cells : List Cell) : Prop where
  order : FirstSeen keys (seen ++ fields.map Field.key)
  short : cells.length ≤ keys.length
  cell : ∀ (j : ℕ) k, keys[j]? = some k → CellOf fields k (cells.getD j .absent)

/-- A field of a record. -/
theorem recordField_state {seen : List String} {fields : List Field} {keys : List String} {cells : List Cell}
    (h : RecordState seen fields keys cells) {f : Field} {cell : Cell} (hcell : Cell.fromValue f.value = .ok cell) :
    ∃ keys' cells', recordField (keys, cells) f = .ok (keys', cells') ∧ keys <+: keys' ∧
      RecordState seen (fields ++ [f]) keys' cells' := by
  have hmem : f.key ∈ keys → keys.idxOf f.key < keys.length := List.idxOf_lt_length_iff.mpr
  -- the keys, and the cells once there is room for the cell
  obtain ⟨keys', room, hstep, hkeys', hidx, hroom, hshort, hgetD⟩ : ∃ (keys' : List String) (room : List Cell),
      recordField (keys, cells) f = .ok (keys', room.set (keys.idxOf f.key) cell) ∧
      keys' = (if f.key ∈ keys then keys else keys ++ [f.key]) ∧ keys'[keys.idxOf f.key]? = some f.key ∧
      keys.idxOf f.key < room.length ∧ room.length ≤ keys'.length ∧ ∀ i, room.getD i .absent = cells.getD i .absent := by
    rw [recordField]
    dsimp only
    rw [hcell, ok_bind]
    by_cases hk : f.key ∈ keys
    · rw [if_pos hk]
      dsimp only
      have hlt := hmem hk
      have hat : keys[keys.idxOf f.key]? = some f.key := by
        rw [List.getElem?_eq_getElem hlt, List.getElem_idxOf]
      by_cases hroom : cells.length ≤ keys.idxOf f.key
      · rw [if_pos hroom]
        have hlen := resizeCells_length (keys.idxOf f.key + 1) cells
        exact ⟨keys, _, rfl, (if_pos hk).symm, hat, by omega, by omega, resizeCells_getD (by omega)⟩
      · rw [if_neg hroom]
        exact ⟨keys, cells, rfl, (if_pos hk).symm, hat, by omega, h.short, fun _ => rfl⟩
    · have hlast : keys.idxOf f.key = keys.length := List.idxOf_eq_length_iff.mpr hk
      have hlen := resizeCells_length keys.length cells
      have hlen' := resizeCells_length (keys.length + 1) (resizeCells keys.length cells)
      have hshort := h.short
      rw [if_neg hk, hlast]
      dsimp only
      rw [if_pos hlen.le]
      refine ⟨keys ++ [f.key], _, rfl, (if_neg hk).symm, by simp, by omega, by simp; omega, fun i => ?_⟩
      rw [resizeCells_getD (by omega), resizeCells_getD h.short]
  refine ⟨keys', _, hstep, ?_, ?_, ?_, ?_⟩
  · rw [hkeys']
    split
    · exact List.prefix_refl keys
    · exact List.prefix_append keys _
  · have hseen := h.order.concat f.key
    rw [← hkeys', List.append_assoc] at hseen
    rwa [List.map_append]
  · rwa [List.length_set]
  · intro j k hk
    have hnodup : keys'.Nodup := hkeys' ▸ (h.order.concat f.key).nodup
    rw [List.getD_eq_getElem?_getD]
    by_cases hj : j = keys.idxOf f.key
    · subst hj
      obtain rfl := Option.some_inj.mp (hidx.symm.trans hk)
      rw [List.getElem?_set_self hroom]
      exact CellOf.concat_self hcell
    · have hne : f.key ≠ k := by
        rintro rfl
        exact hj ((List.getElem?_inj (List.getElem?_eq_some_iff.mp hk).1 hnodup).mp (hk.trans hidx.symm))
      have hold : keys[j]? = some k := by
        by_cases hmem : f.key ∈ keys
        · rwa [hkeys', if_pos hmem] at hk
        · rw [hkeys', if_neg hmem] at hk
          rcases Nat.lt_or_ge j keys.length with hlt | hge
          · rwa [List.getElem?_append_left hlt] at hk
          · have hlast : keys.idxOf f.key = keys.length := List.idxOf_eq_length_iff.mpr hmem
            have hlt := (List.getElem?_eq_some_iff.mp hk).1
            rw [List.length_append, List.length_singleton] at hlt
            exact absurd (by omega) hj
      rw [List.getElem?_set_ne (Ne.symm hj), ← List.getD_eq_getElem?_getD, hgetD]
      exact CellOf.concat_other hne (h.cell j k hold)

/-- The fields of a record, one after the other. -/
theorem recordFields_state {seen : List String} : ∀ {rest fields : List Field} {keys : List String} {cells : List Cell},
    RecordState seen fields keys cells → (∀ f ∈ rest, (Cell.fromValue f.value).isOk = true) →
    ∃ keys' cells', rest.foldlM recordField (keys, cells) = .ok (keys', cells') ∧ keys <+: keys' ∧
      RecordState seen (fields ++ rest) keys' cells'
  | [], fields, keys, cells, h, _ => ⟨keys, cells, rfl, List.prefix_refl keys, by rwa [List.append_nil]⟩
  | f :: rest, fields, keys, cells, h, hflat => by
    obtain ⟨cell, hcell⟩ := isOk_iff.mp (hflat f List.mem_cons_self)
    obtain ⟨keys', cells', hstep, hpre, hstate⟩ := recordField_state h hcell
    obtain ⟨keys'', cells'', hrun, hpre', hdone⟩ := recordFields_state hstate fun g hg => hflat g (List.mem_cons_of_mem f hg)
    refine ⟨keys'', cells'', ?_, hpre.trans hpre', ?_⟩
    · rw [List.foldlM_cons, hstep, ok_bind, hrun]
    · rwa [List.append_assoc] at hdone

theorem recordField_ok {f : Field} {cell : Cell} (hcell : Cell.fromValue f.value = .ok cell) (st : List String × List Cell) :
    ∃ st', recordField st f = .ok st' := by
  rw [recordField]
  dsimp only
  rw [hcell, ok_bind]
  exact ⟨_, rfl⟩

theorem flatFields_ok : ∀ {rest : List Field}, (∀ f ∈ rest, (Cell.fromValue f.value).isOk = true) →
    ∀ st, ∃ st', rest.foldlM recordField st = .ok st'
  | [], _, st => ⟨st, rfl⟩
  | f :: rest, hflat, st => by
    obtain ⟨cell, hcell⟩ := isOk_iff.mp (hflat f List.mem_cons_self)
    obtain ⟨st', hst'⟩ := recordField_ok hcell st
    rw [List.foldlM_cons, hst', ok_bind]
    exact flatFields_ok (fun g hg => hflat g (List.mem_cons_of_mem f hg)) st'

/-- A record with a value that is no cell is an error. -/
theorem unflatFields_error : ∀ {rest : List Field} {st : List String × List Cell},
    ¬ (∀ f ∈ rest, (Cell.fromValue f.value).isOk = true) → ∃ e, rest.foldlM recordField st = .err e
  | [], _, h => absurd (fun f hf => absurd hf List.not_mem_nil) h
  | f :: rest, st, h => by
    rw [List.foldlM_cons]
    cases hcell : Cell.fromValue f.value with
    | ok cell =>
      obtain ⟨st', hst'⟩ := recordField_ok hcell st
      rw [hst', ok_bind]
      refine unflatFields_error fun hrest => h fun g hg => ?_
      rcases List.mem_cons.mp hg with rfl | hg
      · rw [hcell]
        rfl
      · exact hrest g hg
    | err e =>
      refine ⟨e, ?_⟩
      rw [recordField]
      dsimp only
      rw [hcell, err_bind, err_bind]
    | panic => exact absurd hcell (by cases f.value <;> nofun)

/-! ## All records -/

/-- The keys and the rows once some records are read. -/
structure TableState (records : List (String × List Field)) (keys : List String) (rows : List RecordRow) : Prop where
  order : FirstSeen keys (records.flatMap fun r => r.2.map Field.key)
  length : rows.length = records.length
  short : ∀ row ∈ rows, row.cells.length ≤ keys.length
  cell : ∀ (i j : ℕ) r row k, records[i]? = some r → rows[i]? = some row → keys[j]? = some k →
    CellOf r.2 k (row.cells.getD j .absent)

theorem recordBlock_state {records : List (String × List Field)} {keys : List String} {rows : List RecordRow}
    (h : TableState records keys rows) {r : String × List Field} (hflat : Flat r) :
    ∃ keys' rows', recordBlock (keys, rows) (recordOf r) = .ok (keys', rows') ∧ TableState (records ++ [r]) keys' rows' := by
  have hstart : RecordState (records.flatMap fun r => r.2.map Field.key) [] keys [] := by
    refine ⟨?_, Nat.zero_le _, fun j k _ => cellOf_absent nofun⟩
    rw [List.map_nil, List.append_nil]
    exact h.order
  obtain ⟨keys', cells, hrun, ⟨extra, rfl⟩, hstate⟩ := recordFields_state hstart hflat
  rw [List.nil_append] at hstate
  have hnodup := hstate.order.nodup
  have hlen : keys.length ≤ (keys ++ extra).length := by simp
  refine ⟨keys ++ extra, rows ++ [⟨cells⟩], ?_, ?_, ?_, ?_, ?_⟩
  · rw [recordBlock, recordOf, Field.value]
    dsimp only
    rw [hrun, ok_bind]
  · rw [List.flatMap_append, List.flatMap_singleton]
    exact hstate.order
  · rw [List.length_append, List.length_append, h.length, List.length_singleton, List.length_singleton]
  · intro row hrow
    rcases List.mem_append.mp hrow with hrow | hrow
    · exact le_trans (h.short row hrow) hlen
    · rw [List.mem_singleton.mp hrow]
      exact hstate.short
  · intro i j q row k hq hrow hk
    rcases Nat.lt_or_ge i records.length with hi | hi
    · rw [List.getElem?_append_left hi] at hq
      rw [List.getElem?_append_left (h.length ▸ hi)] at hrow
      by_cases hj : j < keys.length
      · refine h.cell i j q row k hq hrow ?_
        rwa [List.getElem?_append_left hj] at hk
      · -- the key is new, so that no earlier record has it
        have hshort := h.short row (List.mem_of_getElem? hrow)
        rw [List.getD_eq_default _ _ (by omega)]
        refine cellOf_absent fun f hf heq => ?_
        have hmem : k ∈ keys := (h.order.mem k).mpr
          (List.mem_flatMap.mpr ⟨q, List.mem_of_getElem? hq, heq ▸ List.mem_map_of_mem hf⟩)
        obtain ⟨l, hl⟩ := List.mem_iff_getElem?.mp hmem
        have hlt := (List.getElem?_eq_some_iff.mp hl).1
        have hsame : (keys ++ extra)[l]? = (keys ++ extra)[j]? := by rw [List.getElem?_append_left hlt, hl, hk]
        have := (List.getElem?_inj (by omega) hnodup).mp hsame
        omega
    · have hlast := (List.getElem?_eq_some_iff.mp hq).1
      rw [List.length_append, List.length_singleton] at hlast
      obtain rfl : i = records.length := by omega
      rw [List.getElem?_concat_length] at hq
      rw [← h.length, List.getElem?_concat_length] at hrow
      cases hq
      cases hrow
      exact hstate.cell j k hk

theorem recordBlocks_state : ∀ {rest records : List (String × List Field)} {keys : List String} {rows : List RecordRow},
    TableState records keys rows → (∀ r ∈ rest, Flat r) →
    ∃ keys' rows', (rest.map recordOf).foldlM recordBlock (keys, rows) = .ok (keys', rows') ∧
      TableState (records ++ rest) keys' rows'
  | [], records, keys, rows, h, _ => ⟨keys, rows, rfl, by rwa [List.append_nil]⟩
  | r :: rest, records, keys, rows, h, hflat => by
    obtain ⟨keys', rows', hstep, hstate⟩ := recordBlock_state h (hflat r List.mem_cons_self)
    obtain ⟨keys'', rows'', hrun, hdone⟩ := recordBlocks_state hstate fun q hq => hflat q (List.mem_cons_of_mem r hq)
    refine ⟨keys'', rows'', ?_, ?_⟩
    · rw [List.map_cons, List.foldlM_cons, hstep, ok_bind, hrun]
    · rwa [List.append_assoc] at hdone

/-- A record that is not flat is an error. -/
theorem recordBlocks_error : ∀ {rest : List (String × List Field)} {st : List String × List RecordRow},
    ¬ (∀ r ∈ rest, Flat r) → ∃ e, (rest.map recordOf).foldlM recordBlock st = .err e
  | [], _, h => absurd (fun r hr => absurd hr List.not_mem_nil) h
  | r :: rest, st, h => by
    rw [List.map_cons, List.foldlM_cons, recordBlock, recordOf, Field.value]
    dsimp only
    by_cases hflat : Flat r
    · obtain ⟨st', hst'⟩ := flatFields_ok hflat (st.1, [])
      rw [hst', ok_bind]
      refine recordBlocks_error fun hrest => h fun q hq => ?_
      rcases List.mem_cons.mp hq with rfl | hq
      · exact hflat
      · exact hrest q hq
    · obtain ⟨e, he⟩ := unflatFields_error hflat
      exact ⟨e, by rw [he, err_bind, err_bind]⟩

/-- The rows of records whose values are all cells; no records, and any other value, are an error. -/
theorem records_from_fields_faithful (records : List (String × List Field)) :
    (records ≠ [] ∧ (∀ r ∈ records, Flat r) →
      ∃ keys rows, recordsFromFields (records.map recordOf) = .ok (keys, rows) ∧ RowsOf records keys rows) ∧
    (¬ (records ≠ [] ∧ ∀ r ∈ records, Flat r) → ∃ e, recordsFromFields (records.map recordOf) = .err e) := by
  have hstart : TableState [] [] [] := ⟨.nil, rfl, nofun, nofun⟩
  constructor
  · rintro ⟨hsome, hflat⟩
    obtain ⟨keys, rows, hrun, hstate⟩ := recordBlocks_state hstart hflat
    have hrows : rows ≠ [] := fun hnil => hsome (List.length_eq_zero_iff.mp (by
      rw [← List.nil_append records, ← hstate.length, hnil]
      rfl))
    refine ⟨keys, _, by rw [recordsFromFields, hrun, ok_bind]; dsimp only; rw [ensure_of hrows, ok_bind], hstate.order, ?_, ?_, ?_⟩
    · rw [List.length_map, hstate.length, List.nil_append]
    · intro row hrow
      obtain ⟨row, -, rfl⟩ := List.mem_map.mp hrow
      exact resizeCells_length _ _
    · intro i j r row k c hr hrow hk hc
      rw [List.getElem?_map] at hrow
      obtain ⟨old, hold, rfl⟩ := Option.map_eq_some_iff.mp hrow
      have hcell := hstate.cell i j r old k (by rwa [List.nil_append]) hold hk
      rw [← resizeCells_getD (hstate.short old (List.mem_of_getElem? hold)), List.getD_eq_getElem?_getD, hc] at hcell
      exact hcell
  · intro hnot
    by_cases hflat : ∀ r ∈ records, Flat r
    · obtain rfl : records = [] := by
        by_contra hsome
        exact hnot ⟨hsome, hflat⟩
      exact ⟨_, rfl⟩
    · obtain ⟨e, he⟩ := @recordBlocks_error records ([], []) hflat
      exact ⟨e, by rw [recordsFromFields, he, err_bind]⟩

/-- Without records there are no rows. -/
theorem records_from_fields_empty : ¬ ∃ keys rows,
    recordsFromFields (([] : List (String × List Field)).map recordOf) = .ok (keys, rows) := by
  rintro ⟨keys, rows, h⟩
  cases h

end Nyxis

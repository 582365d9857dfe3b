import Mathlib.Data.List.Basic

/-!
# Csv — rows of comma-separated values

`rows delim` reads the rows of a text whose cells are separated by `delim`.  A cell may be quoted; inside the
quotes a doubled quote is a quote.  A carriage return or a line feed ends a row, and a line without anything
on it is no row.

* `Mode.Begins`: what the reader knows already of the row that it is in.
* `rowsFrom_begins`: the next row begins so, whatever follows.
* `rowsFrom_quoted`, `rowsFrom_plain`: a cell that is read back.
-/

namespace Nyxis.Lib

namespace Csv

/-- Between two rows, or in a row behind some cells with a part of the next one. -/
inductive Mode where
  | rowStart
  | cellStart (cells : List (List Char))
  | plain (cells : List (List Char)) (cell : List Char)
  | quoted (cells : List (List Char)) (cell : List Char)
  | quoteSeen (cells : List (List Char)) (cell : List Char)

/-- A character that ends a row. -/
def Ends (c : Char) : Prop := c = '\n' ∨ c = '\r'

instance (c : Char) : Decidable (Ends c) := inferInstanceAs (Decidable (c = '\n' ∨ c = '\r'))

section

variable (delim : Char)

/-- The first character of a cell. -/
def firstStep (cells : List (List Char)) (c : Char) : Option (List (List Char)) × Mode :=
  if c = '"' then (none, .quoted cells [])
  else if c = delim then (none, .cellStart (cells ++ [[]]))
  else if Ends c then (some (cells ++ [[]]), .rowStart)
  else (none, .plain cells [c])

/-- A character outside of quotes, behind a part of a cell. -/
def plainStep (cells : List (List Char)) (cell : List Char) (c : Char) : Option (List (List Char)) × Mode :=
  if c = delim then (none, .cellStart (cells ++ [cell]))
  else if Ends c then (some (cells ++ [cell]), .rowStart)
  else (none, .plain cells (cell ++ [c]))

/-- One character: the row that it ends, and what comes then. -/
def step : Mode → Char → Option (List (List Char)) × Mode
  | .rowStart, c => if Ends c then (none, .rowStart) else firstStep delim [] c
  | .cellStart cells, c => firstStep delim cells c
  | .plain cells cell, c => plainStep delim cells cell c
  | .quoted cells cell, c => if c = '"' then (none, .quoteSeen cells cell) else (none, .quoted cells (cell ++ [c]))
  | .quoteSeen cells cell, c => if c = '"' then (none, .quoted cells (cell ++ [c])) else plainStep delim cells cell c

/-- The row that the end of the text ends. -/
def lastRow : Mode → Option (List (List Char))
  | .rowStart => none
  | .cellStart cells => some (cells ++ [[]])
  | .plain cells cell | .quoted cells cell | .quoteSeen cells cell => some (cells ++ [cell])

/-- The rows of a text, from some mode on. -/
def rowsFrom : Mode → List Char → List (List (List Char))
  | mode, [] => (lastRow mode).toList
  | mode, c :: text => (step delim mode c).1.toList ++ rowsFrom (step delim mode c).2 text

/-- The rows of a text. -/
def rows (text : String) : List (List String) := (rowsFrom delim .rowStart text.toList).map fun row => row.map String.ofList

end

theorem rows_eq_iff {delim : Char} {text : String} {expected : List (List String)} :
    rows delim text = expected ↔
      rowsFrom delim .rowStart text.toList = expected.map fun row => row.map String.toList := by
  have hback : ∀ row : List String, (row.map String.toList).map String.ofList = row := fun row => by
    rw [List.map_map]
    exact List.map_id'' (fun cell => String.ofList_toList) row
  have hforth : ∀ row : List (List Char), (row.map String.ofList).map String.toList = row := fun row => by
    rw [List.map_map]
    exact List.map_id'' (fun cell => String.toList_ofList) row
  rw [rows]
  constructor
  · rintro rfl
    rw [List.map_map]
    exact (List.map_id'' hforth _).symm
  · intro h
    rw [h, List.map_map]
    exact List.map_id'' hback _

/-! ## The row that the reader is in -/

/-- The row begins with the cells and the part of a cell that were read. -/
def Mode.Begins : Mode → List (List Char) → Prop
  | .rowStart, _ => False
  | .cellStart cells, row => ∃ cell others, row = cells ++ cell :: others
  | .plain cells cell, row | .quoted cells cell, row | .quoteSeen cells cell, row =>
    ∃ part others, row = cells ++ (cell ++ part) :: others

section

variable {delim : Char} {mode : Mode}

/-- What a step does inside of a row: it ends the row, or the row goes on. -/
def Continues (mode : Mode) (out : Option (List (List Char)) × Mode) : Prop :=
  (∃ row, out = (some row, .rowStart) ∧ mode.Begins row) ∨
    ∃ next, out = (none, next) ∧ next ≠ .rowStart ∧ ∀ row, next.Begins row → mode.Begins row

theorem begins_whole (cells : List (List Char)) (cell : List Char) : ∃ part others,
    cells ++ [cell] = cells ++ (cell ++ part) :: others :=
  ⟨[], [], by rw [List.append_nil]⟩

theorem continues_plain {cells : List (List Char)} {cell : List Char} (c : Char)
    (h : ∀ row, (∃ part others, row = cells ++ (cell ++ part) :: others) → mode.Begins row) :
    Continues mode (plainStep delim cells cell c) := by
  rw [plainStep]
  by_cases hd : c = delim
  · rw [if_pos hd]
    refine .inr ⟨_, rfl, nofun, fun row hrow => h row ?_⟩
    obtain ⟨next, others, rfl⟩ := hrow
    exact ⟨[], next :: others, by rw [List.append_assoc, List.append_nil, List.singleton_append]⟩
  · rw [if_neg hd]
    by_cases he : Ends c
    · rw [if_pos he]
      exact .inl ⟨_, rfl, h _ (begins_whole cells cell)⟩
    · rw [if_neg he]
      refine .inr ⟨_, rfl, nofun, fun row hrow => h row ?_⟩
      obtain ⟨part, others, rfl⟩ := hrow
      exact ⟨c :: part, others, by rw [List.append_assoc, List.singleton_append]⟩

theorem continues_first {cells : List (List Char)} (c : Char) :
    Continues (.cellStart cells) (firstStep delim cells c) := by
  rw [firstStep]
  by_cases hq : c = '"'
  · rw [if_pos hq]
    refine .inr ⟨_, rfl, nofun, fun row hrow => ?_⟩
    obtain ⟨part, others, rfl⟩ := hrow
    exact ⟨[] ++ part, others, rfl⟩
  · rw [if_neg hq]
    exact continues_plain c fun row ⟨part, others, hrow⟩ => ⟨[] ++ part, others, hrow⟩

/-- Inside of a row. -/
theorem step_continues (delim : Char) (hmode : mode ≠ .rowStart) (c : Char) : Continues mode (step delim mode c) := by
  cases mode with
  | rowStart => exact absurd rfl hmode
  | cellStart cells => exact continues_first c
  | plain cells cell => exact continues_plain c fun _ hrow => hrow
  | quoted cells cell =>
    rw [step]
    by_cases hq : c = '"'
    · rw [if_pos hq]
      exact .inr ⟨_, rfl, nofun, fun row hrow => hrow⟩
    · rw [if_neg hq]
      refine .inr ⟨_, rfl, nofun, fun row hrow => ?_⟩
      obtain ⟨part, others, rfl⟩ := hrow
      exact ⟨c :: part, others, by rw [List.append_assoc, List.singleton_append]⟩
  | quoteSeen cells cell =>
    rw [step]
    by_cases hq : c = '"'
    · rw [if_pos hq]
      refine .inr ⟨_, rfl, nofun, fun row hrow => ?_⟩
      obtain ⟨part, others, rfl⟩ := hrow
      exact ⟨c :: part, others, by rw [List.append_assoc, List.singleton_append]⟩
    · rw [if_neg hq]
      exact continues_plain c fun _ hrow => hrow

/-- The next row begins as the reader knows already, whatever follows. -/
theorem rowsFrom_begins (delim : Char) : ∀ (text : List Char) {mode : Mode}, mode ≠ .rowStart →
    ∃ row others, rowsFrom delim mode text = row :: others ∧ mode.Begins row
  | [], mode, hmode => by
    cases mode with
    | rowStart => exact absurd rfl hmode
    | cellStart cells => exact ⟨_, [], rfl, [], [], rfl⟩
    | plain cells cell => exact ⟨_, [], rfl, begins_whole cells cell⟩
    | quoted cells cell => exact ⟨_, [], rfl, begins_whole cells cell⟩
    | quoteSeen cells cell => exact ⟨_, [], rfl, begins_whole cells cell⟩
  | c :: text, mode, hmode => by
    rw [rowsFrom]
    obtain ⟨row, hout, hrow⟩ | ⟨next, hout, hnext, hbegins⟩ := step_continues delim hmode c
    · rw [hout]
      exact ⟨row, _, rfl, hrow⟩
    · obtain ⟨row, others, hrows, hrow⟩ := rowsFrom_begins delim text hnext
      rw [hout]
      exact ⟨row, others, hrows, hbegins row hrow⟩

/-! ## Cells -/

/-- A doubled quote for each quote. -/
def doubled (cell : List Char) : List Char := cell.flatMap fun c => if c = '"' then [c, c] else [c]

/-- How a cell is written: between quotes, or as it is where it has no quote and ends no row. -/
inductive Written (cell : List Char) : List Char → Prop where
  | quoted : Written cell ('"' :: (doubled cell ++ ['"']))
  | plain (h : ∀ c ∈ cell, c ≠ '"' ∧ ¬ Ends c) : Written cell cell

theorem length_le_doubled (cell : List Char) : cell.length ≤ (doubled cell).length := by
  induction cell with
  | nil => exact Nat.zero_le _
  | cons c cell ih =>
    have hone : 1 ≤ (if c = '"' then [c, c] else [c]).length := by split <;> simp
    rw [doubled] at ih
    rw [doubled, List.flatMap_cons, List.length_append, List.length_cons]
    omega

/-- A cell that is written as it is. -/
theorem Written.of_eq {cell text : List Char} (h : Written cell text) (heq : text = cell) : ∀ c ∈ cell, c ≠ '"' ∧ ¬ Ends c := by
  cases h with
  | quoted =>
    have hlen := congrArg List.length heq
    have hle := length_le_doubled cell
    rw [List.length_cons, List.length_append, List.length_singleton] at hlen
    omega
  | plain h => exact h

/-- The cell has been read. -/
def Mode.Done (cells : List (List Char)) (cell : List Char) (mode : Mode) : Prop :=
  mode = .cellStart cells ∧ cell = [] ∨ mode = .plain cells cell ∨ mode = .quoteSeen cells cell

/-- A step inside of a row. -/
theorem rowsFrom_none {c : Char} {next : Mode} (h : step delim mode c = (none, next)) (text : List Char) :
    rowsFrom delim mode (c :: text) = rowsFrom delim next text := by
  rw [rowsFrom, h, Option.toList_none, List.nil_append]

/-- A step that ends a row. -/
theorem rowsFrom_some {c : Char} {next : Mode} {row : List (List Char)} (h : step delim mode c = (some row, next))
    (text : List Char) : rowsFrom delim mode (c :: text) = row :: rowsFrom delim next text := by
  rw [rowsFrom, h, Option.toList_some, List.singleton_append]

theorem rowsFrom_plain {cells : List (List Char)} (rest : List Char) : ∀ (text cell : List Char),
    (∀ c ∈ text, c ≠ delim ∧ ¬ Ends c) →
      rowsFrom delim (.plain cells cell) (text ++ rest) = rowsFrom delim (.plain cells (cell ++ text)) rest
  | [], cell, _ => by rw [List.nil_append, List.append_nil]
  | c :: text, cell, h => by
    obtain ⟨hd, he⟩ := h c List.mem_cons_self
    have hstep : step delim (.plain cells cell) c = (none, .plain cells (cell ++ [c])) := by
      rw [step, plainStep, if_neg hd, if_neg he]
    rw [List.cons_append, rowsFrom_none hstep,
      rowsFrom_plain rest text (cell ++ [c]) fun x hx => h x (List.mem_cons_of_mem c hx), List.append_assoc,
      List.singleton_append]

/-- Inside of quotes everything is taken into the cell, with one quote for two. -/
theorem rowsFrom_quoted (cells : List (List Char)) (rest : List Char) : ∀ (text cell : List Char),
    rowsFrom delim (.quoted cells cell) (doubled text ++ rest) = rowsFrom delim (.quoted cells (cell ++ text)) rest
  | [], cell => by rw [doubled, List.flatMap_nil, List.nil_append, List.append_nil]
  | c :: text, cell => by
    have ih := rowsFrom_quoted cells rest text (cell ++ [c])
    rw [doubled, List.append_assoc, List.singleton_append] at ih
    rw [doubled, List.flatMap_cons, ← ih]
    by_cases hq : c = '"'
    · have hfirst : step delim (.quoted cells cell) c = (none, .quoteSeen cells cell) := by rw [step, if_pos hq]
      have hsecond : step delim (.quoteSeen cells cell) c = (none, .quoted cells (cell ++ [c])) := by rw [step, if_pos hq]
      rw [if_pos hq, List.cons_append, List.cons_append, List.cons_append, List.cons_append, List.nil_append,
        rowsFrom_none hfirst, rowsFrom_none hsecond]
    · have hstep : step delim (.quoted cells cell) c = (none, .quoted cells (cell ++ [c])) := by rw [step, if_neg hq]
      rw [if_neg hq, List.cons_append, List.cons_append, List.nil_append, rowsFrom_none hstep]

/-- The first character of a line that is not blank starts a cell. -/
theorem rowsFrom_rowStart {c : Char} (he : ¬ Ends c) (text : List Char) :
    rowsFrom delim .rowStart (c :: text) = rowsFrom delim (.cellStart []) (c :: text) := by
  rw [rowsFrom, rowsFrom, step, if_neg he, step]

/-- A blank line is no row. -/
theorem rowsFrom_blank (delim : Char) (text : List Char) : rowsFrom delim .rowStart ('\n' :: text) = rowsFrom delim .rowStart text := by
  have hend : Ends '\n' := .inl rfl
  exact rowsFrom_none (by rw [step, if_pos hend]) text

/-- A character of a cell that is not quoted. -/
theorem rowsFrom_cellStart {cells : List (List Char)} {c : Char} (hq : c ≠ '"') (hd : c ≠ delim) (he : ¬ Ends c)
    (text : List Char) : rowsFrom delim (.cellStart cells) (c :: text) = rowsFrom delim (.plain cells [c]) text :=
  rowsFrom_none (by rw [step, firstStep, if_neg hq, if_neg hd, if_neg he]) text

/-- A written cell is read, where the delimiter stands in quotes only. -/
theorem rowsFrom_written (cells : List (List Char)) {cell text : List Char} (h : Written cell text)
    (hd : delim ∈ cell → text ≠ cell) (rest : List Char) :
    ∃ mode : Mode, mode.Done cells cell ∧ rowsFrom delim (.cellStart cells) (text ++ rest) = rowsFrom delim mode rest := by
  cases h with
  | quoted =>
    have hopen : step delim (.cellStart cells) '"' = (none, .quoted cells []) := by rw [step, firstStep, if_pos rfl]
    refine ⟨_, .inr (.inr rfl), ?_⟩
    rw [List.cons_append, List.append_assoc, rowsFrom_none hopen, rowsFrom_quoted, List.nil_append, List.singleton_append]
    exact rowsFrom_none (by rw [step, if_pos rfl]) rest
  | plain hplain =>
    cases cell with
    | nil => exact ⟨_, .inl ⟨rfl, rfl⟩, rfl⟩
    | cons c cell =>
      have hnot : ∀ x ∈ c :: cell, x ≠ delim := fun x hx hxd => hd (hxd ▸ hx) rfl
      obtain ⟨hq, he⟩ := hplain c List.mem_cons_self
      refine ⟨_, .inr (.inl rfl), ?_⟩
      rw [List.cons_append, rowsFrom_cellStart hq (hnot c List.mem_cons_self) he, rowsFrom_plain]
      · rfl
      · exact fun x hx => ⟨hnot x (List.mem_cons_of_mem c hx), (hplain x (List.mem_cons_of_mem c hx)).2⟩

namespace Mode.Done

variable {cells : List (List Char)} {cell : List Char} (h : mode.Done cells cell)

include h

/-- A line feed ends the row. -/
theorem newline (hdelim : delim ≠ '\n') (rest : List Char) :
    rowsFrom delim mode ('\n' :: rest) = (cells ++ [cell]) :: rowsFrom delim .rowStart rest := by
  have hend : Ends '\n' := .inl rfl
  refine rowsFrom_some ?_ rest
  obtain ⟨rfl, rfl⟩ | rfl | rfl := h
  · rw [step, firstStep, if_neg (by decide), if_neg hdelim.symm, if_pos hend]
  · rw [step, plainStep, if_neg hdelim.symm, if_pos hend]
  · rw [step, if_neg (by decide), plainStep, if_neg hdelim.symm, if_pos hend]

/-- The delimiter ends the cell. -/
theorem separator (hdelim : delim ≠ '"') (rest : List Char) :
    rowsFrom delim mode (delim :: rest) = rowsFrom delim (.cellStart (cells ++ [cell])) rest := by
  refine rowsFrom_none ?_ rest
  obtain ⟨rfl, rfl⟩ | rfl | rfl := h
  · rw [step, firstStep, if_neg hdelim, if_pos rfl]
  · rw [step, plainStep, if_pos rfl]
  · rw [step, if_neg hdelim, plainStep, if_pos rfl]

/-- Another character is taken into the cell. -/
theorem other {c : Char} (hq : c ≠ '"') (hd : c ≠ delim) (he : ¬ Ends c) (rest : List Char) :
    rowsFrom delim mode (c :: rest) = rowsFrom delim (.plain cells (cell ++ [c])) rest := by
  refine rowsFrom_none ?_ rest
  obtain ⟨rfl, rfl⟩ | rfl | rfl := h
  · rw [step, firstStep, if_neg hq, if_neg hd, if_neg he, List.nil_append]
  · rw [step, plainStep, if_neg hd, if_neg he]
  · rw [step, if_neg hq, plainStep, if_neg hd, if_neg he]

end Mode.Done

/-! ## Lines -/

/-- A line without quotes ends in the row that the reader is in, whatever delimiters it has. -/
theorem Mode.Done.line (hdelim : delim ≠ '\n') (line : List Char) (hline : ∀ c ∈ line, c ≠ '"' ∧ ¬ Ends c)
    {cells : List (List Char)} {cell : List Char} (h : mode.Done cells cell) :
    ∃ part others, ∀ rest, rowsFrom delim mode (line ++ '\n' :: rest) =
      (cells ++ (cell ++ part) :: others) :: rowsFrom delim .rowStart rest := by
  induction line generalizing mode cells cell with
  | nil => exact ⟨[], [], fun rest => by rw [List.nil_append, h.newline hdelim, List.append_nil]⟩
  | cons c line ih =>
    obtain ⟨hq, he⟩ := hline c List.mem_cons_self
    have hrest : ∀ x ∈ line, x ≠ '"' ∧ ¬ Ends x := fun x hx => hline x (List.mem_cons_of_mem c hx)
    by_cases hd : c = delim
    · subst hd
      obtain ⟨part, others, hrows⟩ := ih hrest (.inl ⟨rfl, rfl⟩ : (Mode.cellStart (cells ++ [cell])).Done (cells ++ [cell]) [])
      refine ⟨[], ([] ++ part) :: others, fun rest => ?_⟩
      rw [List.cons_append, h.separator hq, hrows, List.append_assoc, List.append_nil, List.singleton_append]
    · obtain ⟨part, others, hrows⟩ := ih hrest (.inr (.inl rfl) : (Mode.plain cells (cell ++ [c])).Done cells (cell ++ [c]))
      refine ⟨c :: part, others, fun rest => ?_⟩
      rw [List.cons_append, h.other hq hd he, hrows, List.append_assoc, List.singleton_append]

/-- Cells with the delimiter between them are one row. -/
theorem rowsFrom_cells (hq : delim ≠ '"') (hn : delim ≠ '\n') (write : List Char → List Char) (rest : List Char) :
    ∀ (cells acc : List (List Char)), cells ≠ [] →
    (∀ cell ∈ cells, Written cell (write cell) ∧ (delim ∈ cell → write cell ≠ cell)) →
      rowsFrom delim (.cellStart acc) ([delim].intercalate (cells.map write) ++ '\n' :: rest) =
        (acc ++ cells) :: rowsFrom delim .rowStart rest
  | [], _, hne, _ => absurd rfl hne
  | [cell], acc, _, h => by
    obtain ⟨hcell, hd⟩ := h cell List.mem_cons_self
    obtain ⟨mode, hdone, hrows⟩ := rowsFrom_written acc hcell hd ('\n' :: rest)
    rw [List.map_singleton, List.intercalate_singleton, hrows, hdone.newline hn]
  | cell :: next :: cells, acc, _, h => by
    obtain ⟨hcell, hd⟩ := h cell List.mem_cons_self
    have ih := rowsFrom_cells hq hn write rest (next :: cells) (acc ++ [cell]) (List.cons_ne_nil _ _) fun x hx =>
      h x (List.mem_cons_of_mem cell hx)
    rw [List.map_cons] at ih
    rw [List.map_cons, List.map_cons, List.intercalate_cons_cons, List.append_assoc, List.append_assoc, List.singleton_append]
    obtain ⟨mode, hdone, hrows⟩ := rowsFrom_written acc hcell hd
      (delim :: ([delim].intercalate (write next :: cells.map write) ++ '\n' :: rest))
    rw [hrows, hdone.separator hq, ih, List.append_assoc, List.singleton_append]

/-- A line that is not blank. -/
theorem rowsFrom_of_written {cell text : List Char} (hwritten : Written cell text) (hne : cell ≠ []) (rest : List Char) :
    rowsFrom delim .rowStart (text ++ rest) = rowsFrom delim (.cellStart []) (text ++ rest) := by
  cases hwritten with
  | quoted => exact rowsFrom_rowStart (by decide) _
  | plain h =>
    obtain ⟨c, cell, rfl⟩ := List.exists_cons_of_ne_nil hne
    exact rowsFrom_rowStart (h c List.mem_cons_self).2 _

/-- A plain cell up to its first delimiter. -/
theorem rowsFrom_cut {cell : List Char} (h : ∀ c ∈ cell, c ≠ '"' ∧ ¬ Ends c) (hd : delim ∈ cell) :
    ∃ front back, cell = front ++ delim :: back ∧ ∀ rest, rowsFrom delim (.cellStart []) (cell ++ rest) =
      rowsFrom delim (.cellStart [front]) (back ++ rest) := by
  obtain ⟨front, back, rfl, hfront⟩ := List.eq_append_cons_of_mem hd
  have hq : delim ≠ '"' := (h delim (List.mem_append_right front List.mem_cons_self)).1
  have hwritten : Written front front := .plain fun c hc => h c (List.mem_append_left _ hc)
  refine ⟨front, back, rfl, fun rest => ?_⟩
  rw [List.append_assoc, List.cons_append]
  obtain ⟨mode, hdone, hrows⟩ := rowsFrom_written [] hwritten (fun hmem => absurd hmem hfront)
    (delim :: (back ++ rest))
  rw [hrows, hdone.separator hq, List.nil_append]

/-- A cell that something else than the delimiter follows is not read back. -/
theorem rowsFrom_first_ne {cell text : List Char} (hwritten : Written cell text) {c : Char} (hq : c ≠ '"') (hd : c ≠ delim)
    (he : ¬ Ends c) (rest : List Char) :
    ∃ other row others, rowsFrom delim .rowStart (text ++ c :: rest) = (other :: row) :: others ∧ other ≠ cell := by
  have hstart : rowsFrom delim .rowStart (text ++ c :: rest) = rowsFrom delim (.cellStart []) (text ++ c :: rest) := by
    by_cases hne : cell = []
    · cases hwritten with
      | quoted => exact rowsFrom_rowStart (by decide) _
      | plain => rw [hne, List.nil_append]; exact rowsFrom_rowStart he rest
    · exact rowsFrom_of_written hwritten hne _
  by_cases hcut : delim ∈ cell → text ≠ cell
  · obtain ⟨mode, hdone, hrows⟩ := rowsFrom_written [] hwritten hcut (c :: rest)
    have hmode : Mode.plain [] (cell ++ [c]) ≠ .rowStart := nofun
    obtain ⟨row, others, hnext, part, tail, rfl⟩ := rowsFrom_begins delim rest hmode
    rw [hstart, hrows, hdone.other hq hd he, hnext]
    refine ⟨_, tail, others, rfl, fun heq => ?_⟩
    have hlen := congrArg List.length heq
    rw [List.length_append, List.length_append, List.length_singleton] at hlen
    omega
  · obtain ⟨hmem, rfl⟩ : delim ∈ cell ∧ text = cell := by
      rwa [Classical.not_imp, ne_eq, Classical.not_not] at hcut
    obtain ⟨front, back, hcell, hrows⟩ := rowsFrom_cut (hwritten.of_eq rfl) hmem
    have hmode : Mode.cellStart [front] ≠ .rowStart := nofun
    obtain ⟨row, others, hnext, part, tail, rfl⟩ := rowsFrom_begins delim (back ++ c :: rest) hmode
    rw [hstart, hrows, hnext]
    refine ⟨front, part :: tail, others, rfl, fun heq => ?_⟩
    have hlen := congrArg List.length (heq.trans hcell)
    rw [List.length_append, List.length_cons] at hlen
    omega

end

end Csv

end Nyxis.Lib

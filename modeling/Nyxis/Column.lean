import Nyxis.Lib.Bits
import Nyxis.Format

/-!
# Column — cells and encoded field columns

A column holds one cell per record: a null bitmap, then either eight bytes per cell
(`writeFixedBuffer`) or `N + 1` offsets and the concatenated payloads (`encodeVarColumn`).
`columnSectorLen`, `colVarParts` and `varStrAt` are the reader's side.

* `encodeFieldColumn_eq_ok`: what an encoded column consists of.
* `columnSectorLen_prefix`: what is measured of the sector of a column that may be cut off.
* `columnSectorLen_encode`: the reader measures an encoded column exactly, whatever follows it.
* `fixed_cell_at`, `varBinaryAt_encode`: the bytes of a cell are found at its index.
-/

namespace Nyxis

open Lib Lib.Outcome

/-! ## Cells -/

/-- One cell of a record. -/
inductive Cell where
  | absent
  | null
  | i64 (v : Int64)
  | f64 (v : F64)
  | bool (v : Bool)
  | time (v : Int64)
  | str (s : String)
  | binary (b : Bytes)
  deriving DecidableEq, Repr

def Cell.sigil : Cell → UInt8
  | .i64 _ => SIGIL_INT
  | .f64 _ => SIGIL_FLOAT
  | .bool _ => SIGIL_BOOL
  | .time _ => SIGIL_TIME
  | .str _ => SIGIL_STR
  | .binary _ => SIGIL_BINARY
  | .null => SIGIL_NULL
  | .absent => 0

structure RecordRow where
  cells : List Cell
  deriving DecidableEq, Repr

/-- `row.cells.get(fi).unwrap_or(&Cell::Absent)`. -/
def RecordRow.cell (r : RecordRow) (fi : ℕ) : Cell := r.cells.getD fi .absent

/-- The column of field `fi`. -/
def column (rows : List RecordRow) (fi : ℕ) : List Cell := rows.map fun r => r.cell fi

@[simp] theorem column_length (rows : List RecordRow) (fi : ℕ) :
    (column rows fi).length = rows.length := by simp [column]

/-- The schema sigil denotes a variable-length column. -/
def isVarSigil (sigil : UInt8) : Bool := sigil == SIGIL_STR || sigil == SIGIL_BINARY

/-! ## The encoder -/

/-- Round `n` bits up to a multiple of eight bytes. -/
def nullBitmapBytes (n : ℕ) : ℕ := ((n + 7) / 8 + 7) / 8 * 8

def cellPopulated : Cell → Bool
  | .absent => false
  | _ => true

def encodeNullBitmap (cells : List Cell) : Bytes :=
  bitBytes (nullBitmapBytes cells.length) fun i => cellPopulated (cells.getD i .absent)

/-- The eight bytes of a populated cell; a cell of another kind than the sigil's is zero bytes. -/
def fixedBytes (sigil : UInt8) (c : Cell) : Bytes :=
  if sigil = SIGIL_FLOAT then
    match c with
    | .f64 v => f64Bytes v
    | _ => zeros 8
  else if sigil = SIGIL_BOOL then
    match c with
    | .bool v => (if v then 1 else 0) :: zeros 7
    | _ => zeros 8
  else if sigil = SIGIL_TIME then
    match c with
    | .time v => i64Bytes v
    | _ => zeros 8
  else -- `=` and the catch-all arm
    match c with
    | .i64 v => i64Bytes v
    | _ => zeros 8

def writeFixedBuffer (cells : List Cell) (encode : Cell → Bytes) : Bytes :=
  cells.flatMap fun c => if cellPopulated c then encode c else zeros 8

/-- The bytes a cell adds to the values of a variable-length column. -/
def cellPayload : Cell → Bytes
  | .str s => utf8 s
  | .binary b => b
  | _ => []

/-- One round of the loop of `encode_var_column`, on the offsets and the values so far. -/
def varStep (acc : List ℕ × Bytes) (c : Cell) : Res (List ℕ × Bytes) :=
  if cellPopulated c then do
    let values := acc.2 ++ cellPayload c
    ensure (values.length < 2 ^ 32) .overflow
    .ok (acc.1 ++ [values.length], values)
  else .ok (acc.1 ++ [acc.1.getLastD 0], acc.2)

def encodeVarColumn (cells : List Cell) : Res Bytes := do
  let (offsets, values) ← cells.foldlM varStep ([0], [])
  .ok (encodeNullBitmap cells ++ offsets.flatMap (leBytes 4) ++ values)

/-- The null bitmap and the value buffers of a column; `n` is the length of the column. -/
def encodeFieldColumn (cells : List Cell) (sigil : UInt8) : Res Bytes :=
  if isVarSigil sigil then encodeVarColumn cells
  else if sigil = SIGIL_KEYWORD then .err .unsupportedFieldType
  else .ok (encodeNullBitmap cells ++ writeFixedBuffer cells (fixedBytes sigil))

/-! ## The reader -/

/-- `null_bitmap_bytes`, whose first addition is unchecked. -/
def nullBitmapLen {ε : Type} (n : ℕ) : Outcome ε ℕ := do
  let _ ← usizeAdd n 7
  .ok (nullBitmapBytes n)

/-- Byte length of one encoded field column at the front of `sector`. -/
def columnSectorLen (sector : Bytes) (recordCount : ℕ) (sigil : UInt8) : Res ℕ := do
  let bmLen ← nullBitmapLen recordCount
  ensure (bmLen ≤ sector.length) .outOfBounds
  if isVarSigil sigil then do
    let n1 ← okOr (checkedAdd recordCount 1) .outOfBounds
    let offBytes ← okOr (checkedMul n1 4) .outOfBounds
    let valuesOff ← okOr (checkedAdd bmLen offBytes) .outOfBounds
    ensure (valuesOff ≤ sector.length) .outOfBounds
    let cells ← okOr (checkedMul recordCount 4) .outOfBounds
    let endOff ← okOr (checkedAdd bmLen cells) .outOfBounds
    let last ← readLE sector endOff 4
    okOr (checkedAdd valuesOff last) .outOfBounds
  else do
    let cells ← okOr (checkedMul recordCount 8) .outOfBounds
    okOr (checkedAdd bmLen cells) .outOfBounds

/-- Null bitmap, offsets and values of a variable-length column. -/
def colVarParts (sector : Bytes) (recordCount : ℕ) : Res (Bytes × Bytes × Bytes) := do
  let bmLen ← nullBitmapLen recordCount
  let n1 ← okOr (checkedAdd recordCount 1) .outOfBounds
  let offBytes ← okOr (checkedMul n1 4) .outOfBounds
  ensure (min (bmLen + offBytes) (2 ^ 64 - 1) ≤ sector.length) .outOfBounds -- `saturating_add`
  let bm ← range sector 0 bmLen
  let offsets ← range sector bmLen (bmLen + offBytes)
  let values ← range sector (bmLen + offBytes) sector.length
  .ok (bm, offsets, values)

/-- The bytes of cell `recordIndex` of a variable-length column (`var_binary_at`). -/
def varBinaryAt (offsets values : Bytes) (recordIndex : ℕ) : Opt Bytes := do
  let n2 ← checkedAdd recordIndex 2
  let need ← checkedMul n2 4
  ensure (need ≤ offsets.length) ()
  let start ← readLE offsets (recordIndex * 4) 4
  let stop ← readLE offsets (recordIndex * 4 + 4) 4
  ensure (¬(stop < start ∨ stop > values.length)) ()
  range values start stop

/-- One UTF-8 string cell; its first steps are those of `var_binary_at`. -/
def varStrAt (offsets values : Bytes) (recordIndex : ℕ) : Opt String := do
  let bytes ← varBinaryAt offsets values recordIndex
  fromUtf8 bytes

/-! ## What an encoded column consists of -/

theorem nullBitmapBytes_le (n : ℕ) : n ≤ 8 * nullBitmapBytes n := by
  unfold nullBitmapBytes
  omega

theorem le_nullBitmapBytes (n : ℕ) : nullBitmapBytes n ≤ n + 7 := by
  unfold nullBitmapBytes
  omega

@[simp] theorem encodeNullBitmap_length (cells : List Cell) :
    (encodeNullBitmap cells).length = nullBitmapBytes cells.length := bitBytes_length _ _

@[simp] theorem fixedBytes_length (sigil : UInt8) (c : Cell) : (fixedBytes sigil c).length = 8 := by
  unfold fixedBytes
  repeat' split
  all_goals simp

theorem slot_length (sigil : UInt8) (c : Cell) :
    (if cellPopulated c then fixedBytes sigil c else zeros 8).length = 8 := by
  split <;> simp

@[simp] theorem writeFixedBuffer_length (cells : List Cell) (sigil : UInt8) :
    (writeFixedBuffer cells (fixedBytes sigil)).length = cells.length * 8 :=
  length_flatMap_const fun c _ => slot_length sigil c

/-- The payloads of a column, one after the other. -/
def varValues (cells : List Cell) : Bytes := cells.flatMap cellPayload

/-- The position of each cell's payload, and the end of the last one. -/
def varOffsets (cells : List Cell) : List ℕ :=
  (List.range (cells.length + 1)).map fun i => (varValues (cells.take i)).length

@[simp] theorem varOffsets_length (cells : List Cell) :
    (varOffsets cells).length = cells.length + 1 := by simp [varOffsets]

theorem varOffsets_getElem? {cells : List Cell} {i : ℕ} (h : i ≤ cells.length) :
    (varOffsets cells)[i]? = some (varValues (cells.take i)).length := by
  simp [varOffsets, Nat.lt_succ_of_le h]

theorem varOffsets_concat (pre : List Cell) (c : Cell) :
    varOffsets (pre ++ [c]) = varOffsets pre ++ [(varValues (pre ++ [c])).length] := by
  unfold varOffsets
  rw [List.length_append, List.length_singleton, List.range_succ, List.map_append]
  congr 1
  · refine List.map_congr_left fun i hi => ?_
    rw [List.mem_range] at hi
    rw [List.take_append_of_le_length (by omega)]
  · simp only [List.map_cons, List.map_nil]
    rw [List.take_of_length_le (by simp)]

theorem varOffsets_getLastD (pre : List Cell) :
    (varOffsets pre).getLastD 0 = (varValues pre).length := by
  unfold varOffsets
  rw [List.range_succ, List.map_append]
  simp

theorem varValues_concat (pre : List Cell) (c : Cell) :
    varValues (pre ++ [c]) = varValues pre ++ cellPayload c := by
  simp [varValues]

theorem cellPayload_unpopulated {c : Cell} (h : cellPopulated c = false) : cellPayload c = [] := by
  cases c <;> simp_all [cellPopulated, cellPayload]

theorem varValues_length_mono (pre : List Cell) (c : Cell) (rest : List Cell) :
    (varValues (pre ++ [c])).length ≤ (varValues (pre ++ c :: rest)).length := by
  simp [varValues]

/-- The loop of `encode_var_column`, started behind the cells `pre`. -/
theorem foldlM_varStep : ∀ (cells pre : List Cell), (varValues pre).length < 2 ^ 32 →
    cells.foldlM varStep (varOffsets pre, varValues pre) =
      if (varValues (pre ++ cells)).length < 2 ^ 32 then
        .ok (varOffsets (pre ++ cells), varValues (pre ++ cells))
      else .err .overflow
  | [], pre, h => by
    rw [List.append_nil, if_pos h]
    rfl
  | c :: cells, pre, h => by
    have happ : pre ++ c :: cells = pre ++ [c] ++ cells := by simp
    have hmono := varValues_length_mono pre c cells
    rw [List.foldlM_cons, varStep]
    by_cases hc : cellPopulated c = true
    · rw [if_pos hc]
      dsimp only
      rw [← varValues_concat]
      by_cases hfit : (varValues (pre ++ [c])).length < 2 ^ 32
      · rw [ensure_of hfit, ok_bind, ok_bind, ← varOffsets_concat, foldlM_varStep cells _ hfit, ← happ]
      · rw [ensure_not hfit, err_bind, err_bind, if_neg (by omega)]
    · rw [if_neg hc, ok_bind]
      have hnil := cellPayload_unpopulated (Bool.not_eq_true _ ▸ hc)
      have hval : varValues (pre ++ [c]) = varValues pre := by
        rw [varValues_concat, hnil, List.append_nil]
      have hoff : varOffsets pre ++ [(varOffsets pre).getLastD 0] = varOffsets (pre ++ [c]) := by
        rw [varOffsets_concat, varOffsets_getLastD, hval]
      rw [hoff, ← hval, foldlM_varStep cells _ (by rw [hval]; exact h), ← happ]

/-- The bytes of a variable-length column whose payloads fit. -/
def varColumn (cells : List Cell) : Bytes :=
  encodeNullBitmap cells ++ (varOffsets cells).flatMap (leBytes 4) ++ varValues cells

/-- The bytes of a fixed-width column. -/
def fixedColumn (sigil : UInt8) (cells : List Cell) : Bytes :=
  encodeNullBitmap cells ++ writeFixedBuffer cells (fixedBytes sigil)

theorem encodeVarColumn_eq (cells : List Cell) :
    encodeVarColumn cells =
      if (varValues cells).length < 2 ^ 32 then .ok (varColumn cells) else .err .overflow := by
  have h := foldlM_varStep cells [] (by simp [varValues])
  rw [List.nil_append] at h
  rw [encodeVarColumn, show (([0], []) : List ℕ × Bytes) = (varOffsets [], varValues []) from rfl, h]
  split
  · rfl
  · rfl

theorem encodeFieldColumn_eq_ok {cells : List Cell} {sigil : UInt8} {s : Bytes} :
    encodeFieldColumn cells sigil = .ok s ↔
      (isVarSigil sigil = true ∧ (varValues cells).length < 2 ^ 32 ∧ s = varColumn cells) ∨
      (isVarSigil sigil = false ∧ sigil ≠ SIGIL_KEYWORD ∧ s = fixedColumn sigil cells) := by
  rw [encodeFieldColumn, encodeVarColumn_eq]
  by_cases hv : isVarSigil sigil = true
  · rw [if_pos hv]
    by_cases hfit : (varValues cells).length < 2 ^ 32
    · rw [if_pos hfit]
      constructor
      · rintro ⟨⟩
        exact .inl ⟨hv, hfit, rfl⟩
      · rintro (⟨-, -, rfl⟩ | ⟨hf, -⟩)
        · rfl
        · simp [hv] at hf
    · rw [if_neg hfit]
      constructor
      · rintro ⟨⟩
      · rintro (⟨-, hf, -⟩ | ⟨hf, -⟩)
        · exact absurd hf hfit
        · simp [hv] at hf
  · rw [if_neg hv]
    by_cases hk : sigil = SIGIL_KEYWORD
    · subst hk
      simp [hv]
    · rw [if_neg hk]
      simp [hv, hk, fixedColumn, eq_comm]

@[simp] theorem fixedColumn_length (sigil : UInt8) (cells : List Cell) :
    (fixedColumn sigil cells).length = nullBitmapBytes cells.length + cells.length * 8 := by
  simp [fixedColumn]

theorem offsetBytes_length (cells : List Cell) :
    ((varOffsets cells).flatMap (leBytes 4)).length = (cells.length + 1) * 4 := by
  rw [length_flatMap_const fun n _ => leBytes_length 4 n, varOffsets_length]

@[simp] theorem varColumn_length (cells : List Cell) :
    (varColumn cells).length =
      nullBitmapBytes cells.length + (cells.length + 1) * 4 + (varValues cells).length := by
  rw [varColumn, List.length_append, List.length_append, offsetBytes_length, encodeNullBitmap_length]

/-! ## Reading a column back -/

theorem nullBitmapLen_of {ε : Type} {n : ℕ} (h : n + 7 < 2 ^ 64) :
    (nullBitmapLen n : Outcome ε ℕ) = .ok (nullBitmapBytes n) := by
  rw [nullBitmapLen, usizeAdd_of h, ok_bind]

theorem varOffset_at {d : Bytes} {off i : ℕ} {cells : List Cell} (hi : i ≤ cells.length)
    (h : At d off ((varOffsets cells).flatMap (leBytes 4))) :
    At d (off + i * 4) (leBytes 4 (varValues (cells.take i)).length) :=
  h.trans (at_flatMap_const (fun n _ => leBytes_length 4 n) (varOffsets_getElem? hi))

theorem varValues_take_le (cells : List Cell) (i : ℕ) :
    (varValues (cells.take i)).length ≤ (varValues cells).length := by
  conv_rhs => rw [← List.take_append_drop i cells, varValues, List.flatMap_append, List.length_append]
  exact Nat.le_add_right _ _

/-- What a column says of its length, as far as it is there: too little to say anything, or the length. -/
theorem columnSectorLen_prefix {d s rest : Bytes} {cells : List Cell} {sigil : UInt8} {n m : ℕ}
    (hs : encodeFieldColumn cells sigil = .ok s) (hd : d = (s ++ rest).take m) (hsmall : (s ++ rest).length < 2 ^ 63)
    (hn : n = cells.length) : columnSectorLen d n sigil = .ok s.length ∨
      m < s.length ∧ ∃ e, columnSectorLen d n sigil = .err e := by
  subst hd hn
  rw [List.length_append] at hsmall
  have hdlen : ((s ++ rest).take m).length = min m (s.length + rest.length) := by
    rw [List.length_take, List.length_append]
  have hle := le_nullBitmapBytes cells.length
  rcases encodeFieldColumn_eq_ok.mp hs with ⟨hv, hfit, rfl⟩ | ⟨hv, -, rfl⟩
  · have hlen := varColumn_length cells
    by_cases hbm : nullBitmapBytes cells.length ≤ ((varColumn cells ++ rest).take m).length
    · by_cases hoffs : nullBitmapBytes cells.length + (cells.length + 1) * 4 ≤ ((varColumn cells ++ rest).take m).length
      · left
        have hlast : At ((varColumn cells ++ rest).take m) (nullBitmapBytes cells.length + cells.length * 4)
            (leBytes 4 (varValues cells).length) := by
          have hoff : At (varColumn cells ++ rest) (nullBitmapBytes cells.length)
              ((varOffsets cells).flatMap (leBytes 4)) := by
            have h0 := (at_self (varColumn cells)).append_right rest
            rw [varColumn, at_append, at_append] at h0
            simpa [varColumn] using h0.1.2
          have h := varOffset_at (le_refl _) hoff
          rw [List.take_length] at h
          exact h.of_prefix (by rw [leBytes_length]; omega)
        rw [columnSectorLen, nullBitmapLen_of (by omega), ok_bind, ensure_of hbm, ok_bind, if_pos hv,
          checkedAdd_of (by omega), okOr_ok, ok_bind, checkedMul_of (by omega), okOr_ok, ok_bind,
          checkedAdd_of (by omega), okOr_ok, ok_bind, ensure_of hoffs, ok_bind, checkedMul_of (by omega), okOr_ok,
          ok_bind, checkedAdd_of (by omega), okOr_ok, ok_bind, readLE_leBytes hlast (by omega) (by omega), ok_bind,
          checkedAdd_of (by omega), okOr_ok, hlen]
      · refine Or.inr ⟨by omega, .outOfBounds, ?_⟩
        rw [columnSectorLen, nullBitmapLen_of (by omega), ok_bind, ensure_of hbm, ok_bind, if_pos hv,
          checkedAdd_of (by omega), okOr_ok, ok_bind, checkedMul_of (by omega), okOr_ok, ok_bind,
          checkedAdd_of (by omega), okOr_ok, ok_bind, ensure_not hoffs, err_bind]
    · refine Or.inr ⟨by omega, .outOfBounds, ?_⟩
      rw [columnSectorLen, nullBitmapLen_of (by omega), ok_bind, ensure_not hbm, err_bind]
  · have hlen := fixedColumn_length sigil cells
    by_cases hbm : nullBitmapBytes cells.length ≤ ((fixedColumn sigil cells ++ rest).take m).length
    · left
      rw [columnSectorLen, nullBitmapLen_of (by omega), ok_bind, ensure_of hbm, ok_bind, if_neg (by simp [hv]),
        checkedMul_of (by omega), okOr_ok, ok_bind, checkedAdd_of (by omega), okOr_ok, hlen]
    · refine Or.inr ⟨by omega, .outOfBounds, ?_⟩
      rw [columnSectorLen, nullBitmapLen_of (by omega), ok_bind, ensure_not hbm, err_bind]

/-- The reader measures an encoded column exactly. -/
theorem columnSectorLen_encode {d s rest : Bytes} {cells : List Cell} {sigil : UInt8} {n : ℕ}
    (hs : encodeFieldColumn cells sigil = .ok s) (hd : d = s ++ rest) (hsmall : d.length < 2 ^ 63)
    (hn : n = cells.length) : columnSectorLen d n sigil = .ok s.length := by
  subst hd
  have hcut := columnSectorLen_prefix hs (List.take_length).symm hsmall hn
  refine hcut.resolve_right fun h => ?_
  rw [List.length_append] at h
  omega

/-- The presence bit of a cell. -/
theorem bitAt_encodeNullBitmap {ε : Type} {cells : List Cell} {i : ℕ} {c : Cell}
    (h : cells[i]? = some c) :
    (bitAt (encodeNullBitmap cells) i : Outcome ε Bool) = .ok (cellPopulated c) := by
  have hi := (List.getElem?_eq_some_iff.mp h).1
  have hle := nullBitmapBytes_le cells.length
  rw [encodeNullBitmap, bitAt_bitBytes _ (by omega), List.getD_eq_getElem?_getD, h]
  rfl

/-- The eight bytes of a populated cell of a fixed-width column. -/
theorem fixed_cell_at {cells : List Cell} (sigil : UInt8) {i : ℕ} {c : Cell}
    (h : cells[i]? = some c) (hc : cellPopulated c = true) :
    At (writeFixedBuffer cells (fixedBytes sigil)) (i * 8) (fixedBytes sigil c) := by
  have hat := at_flatMap_const (f := fun c => if cellPopulated c then fixedBytes sigil c else zeros 8)
    (fun c _ => slot_length sigil c) h
  rwa [if_pos hc] at hat

/-- The first `w` bytes of a populated cell of a fixed-width column. -/
theorem getLE_fixed_cell {cells : List Cell} {sigil : UInt8} {i w : ℕ} {c : Cell}
    (h : cells[i]? = some c) (hc : cellPopulated c = true) (hw : w ≤ 8)
    (hlen : cells.length < 2 ^ 60) :
    getLE (writeFixedBuffer cells (fixedBytes sigil)) (i * 8) w =
      .ok (leNat ((fixedBytes sigil c).take w)) := by
  have hat := (fixed_cell_at sigil h hc).take w
  refine getLE_at hat ?_ ?_
  · rw [List.length_take, fixedBytes_length, Nat.min_eq_left hw]
  · rw [writeFixedBuffer_length]
    omega

/-- The two parts of a fixed-width column. -/
theorem range_fixedColumn {ε : Type} (sigil : UInt8) (cells : List Cell) :
    (range (fixedColumn sigil cells) 0 (nullBitmapBytes cells.length) : Outcome ε Bytes) =
        .ok (encodeNullBitmap cells) ∧
      (range (fixedColumn sigil cells) (nullBitmapBytes cells.length)
        (nullBitmapBytes cells.length + cells.length * 8) : Outcome ε Bytes) =
        .ok (writeFixedBuffer cells (fixedBytes sigil)) := by
  have h := at_self (fixedColumn sigil cells)
  conv at h => arg 3; rw [fixedColumn]
  rw [at_append] at h
  have hbm := range_at (ε := ε) h.1
  have hvals := range_at (ε := ε) h.2
  simp only [Nat.zero_add, encodeNullBitmap_length, writeFixedBuffer_length] at hbm hvals
  exact ⟨hbm, hvals⟩

theorem colVarParts_varColumn {cells : List Cell} {n : ℕ} (hn : n = cells.length)
    (hsmall : (varColumn cells).length < 2 ^ 63) :
    colVarParts (varColumn cells) n =
      .ok (encodeNullBitmap cells, (varOffsets cells).flatMap (leBytes 4), varValues cells) := by
  subst hn
  have hlen := varColumn_length cells
  have hle := le_nullBitmapBytes cells.length
  have h0 := at_self (varColumn cells)
  conv at h0 => arg 3; rw [varColumn]
  rw [at_append, at_append] at h0
  obtain ⟨⟨hbm, hoff⟩, hval⟩ := h0
  have hbm' := range_at (ε := NxsError) hbm
  have hoff' := range_at (ε := NxsError) hoff
  have hval' := range_at (ε := NxsError) hval
  simp only [Nat.zero_add, encodeNullBitmap_length, List.length_append, offsetBytes_length]
    at hbm' hoff' hval'
  rw [colVarParts, nullBitmapLen_of (by omega), ok_bind, checkedAdd_of (by omega), okOr_ok, ok_bind,
    checkedMul_of (by omega), okOr_ok, ok_bind, ensure_of (by omega), ok_bind]
  rw [hlen]
  rw [hbm', ok_bind, hoff', ok_bind, hval', ok_bind]

/-- The payload of a cell of a variable-length column. -/
theorem varBinaryAt_encode {cells : List Cell} {i : ℕ} {c : Cell} (h : cells[i]? = some c)
    (hfit : (varValues cells).length < 2 ^ 32) (hlen : (cells.length + 1) * 4 < 2 ^ 63) :
    varBinaryAt ((varOffsets cells).flatMap (leBytes 4)) (varValues cells) i =
      .ok (cellPayload c) := by
  have hi := (List.getElem?_eq_some_iff.mp h).1
  have hoffs := offsetBytes_length cells
  have h0 := at_self ((varOffsets cells).flatMap (leBytes 4))
  have hstart := varOffset_at (i := i) (by omega) h0
  have hstop := varOffset_at (i := i + 1) (by omega) h0
  have hpay : varValues (cells.take (i + 1)) = varValues (cells.take i) ++ cellPayload c := by
    rw [List.take_add_one, h]
    simp [varValues]
  have hle1 := varValues_take_le cells i
  have hle2 := varValues_take_le cells (i + 1)
  have hat : At (varValues cells) (varValues (cells.take i)).length (cellPayload c) := at_flatMap h
  have hrange := range_at (ε := Unit) hat
  rw [← List.length_append, ← hpay] at hrange
  rw [Nat.zero_add] at hstart hstop
  rw [Nat.add_mul, Nat.one_mul] at hstop
  rw [hpay, List.length_append] at hle2
  rw [varBinaryAt, checkedAdd_of (by omega), ok_bind, checkedMul_of (by omega), ok_bind,
    ensure_of (by omega), ok_bind, readLE_leBytes hstart (by omega) (by omega), ok_bind,
    readLE_leBytes hstop (by rw [hpay, List.length_append]; omega) (by omega), ok_bind,
    ensure_of (by rw [hpay, List.length_append]; omega), ok_bind, hrange]

end Nyxis

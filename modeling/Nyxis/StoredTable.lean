import Nyxis.ReaderOpen

/-!
# StoredTable — what getters see of a table of cells

A columnar or PAX file stores a table: rows of cells under keys, each column with a sigil.  A getter
depends on the stored cell and the column's sigil only: `storedWord` and `storedStr` say how.
`Reader.Holds` is the abstract view of an open file, which both layouts refine, and `Reader.Reads` says
that the getters return a cell's value.

* `reads_of_sigil`: a cell stored under its own sigil is read back.
* `stored_null_column`: what a cell stored under the null sigil reads as.
-/

namespace Nyxis

open Lib Lib.Outcome

/-! ## Cells under a sigil -/

/-- The first `w` bytes of a cell in a fixed-width column. -/
def storedWord (sig : UInt8) (w : ℕ) (c : Cell) : Opt ℕ :=
  if isVarSigil sig then none'
  else if cellPopulated c then .ok (leNat ((fixedBytes sig c).take w))
  else none'

/-- A cell in a string column. -/
def storedStr (sig : UInt8) (c : Cell) : Opt String :=
  if sig = SIGIL_STR then if cellPopulated c then fromUtf8 (cellPayload c) else none' else none'

/-- The getters of record `i` return the cell's value, and `None` for an absent cell. -/
def Reader.Reads (r : Reader) (i : ℕ) (key : String) : Cell → Prop
  | .absent =>
    r.i64At i key = none' ∧ r.f64At i key = none' ∧ r.boolAt i key = none' ∧ r.strAt i key = none'
  | .null => True
  | .i64 v => r.i64At i key = .ok v
  | .f64 v => r.f64At i key = .ok v
  | .bool v => r.boolAt i key = .ok v
  | .time v => r.i64At i key = .ok v
  | .str s => r.strAt i key = .ok s
  | .binary _ => True

/-- The getters of record `i` see the cell `c` of a column with sigil `sig`. -/
structure Reader.Sees (r : Reader) (i : ℕ) (key : String) (sig : UInt8) (c : Cell) : Prop where
  i64At : r.i64At i key = i64Of <$> storedWord sig 8 c
  f64At : r.f64At i key = f64Of <$> storedWord sig 8 c
  boolAt : r.boolAt i key = (· != 0) <$> storedWord sig 1 c
  strAt : r.strAt i key = storedStr sig c

/-- `r` is a file holding `rows` under `keys`, with a sigil for each column. -/
structure Reader.Holds (r : Reader) (keys : List String) (sigils : List UInt8)
    (rows : List RecordRow) : Prop where
  recordCount : r.recordCount = rows.length
  sees : ∀ i row fi key, rows[i]? = some row → keys[fi]? = some key →
    r.Sees i key (sigils.getD fi SIGIL_INT) (row.cell fi)

theorem leNat_i64_take (v : Int64) : leNat ((i64Bytes v).take 8) = v.toUInt64.toNat := by
  rw [List.take_of_length_le (by simp), leNat_i64Bytes]

theorem leNat_f64_take (v : F64) : leNat ((f64Bytes v).take 8) = v.bits.toNat := by
  rw [List.take_of_length_le (by simp), leNat_f64Bytes]

theorem leNat_zeros_take (k w : ℕ) : leNat ((zeros k).take w) = 0 := by
  have hz : ∀ n, leNat (zeros n) = 0 := by
    intro n
    induction n with
    | zero => rfl
    | succ n ih =>
      rw [zeros, List.replicate_succ, leNat]
      change (0 : UInt8).toNat + 256 * leNat (zeros n) = 0
      rw [ih]
      rfl
  rw [zeros, List.take_replicate]
  exact hz _

/-- An absent cell reads as nothing. -/
theorem reads_absent {r : Reader} {i : ℕ} {key : String} {sig : UInt8}
    (h : r.Sees i key sig .absent) : r.Reads i key .absent := by
  have hw : ∀ w, storedWord sig w .absent = none' := by
    intro w
    simp [storedWord, cellPopulated]
  have hs : storedStr sig .absent = none' := by simp [storedStr, cellPopulated]
  refine ⟨?_, ?_, ?_, ?_⟩
  · rw [h.i64At, hw, map_err]
  · rw [h.f64At, hw, map_err]
  · rw [h.boolAt, hw, map_err]
  · rw [h.strAt, hs]

/-- A cell stored under its own sigil is read back. -/
theorem reads_of_sigil {r : Reader} {i : ℕ} {key : String} {c : Cell}
    (h : r.Sees i key c.sigil c) : r.Reads i key c := by
  cases c with
  | absent => exact reads_absent h
  | null => trivial
  | i64 v =>
    show r.i64At i key = .ok v
    rw [h.i64At, show storedWord (Cell.sigil (.i64 v)) 8 (.i64 v) =
      .ok (leNat ((i64Bytes v).take 8)) from rfl, leNat_i64_take, map_ok, i64Of_toNat]
  | f64 v =>
    show r.f64At i key = .ok v
    rw [h.f64At, show storedWord (Cell.sigil (.f64 v)) 8 (.f64 v) =
      .ok (leNat ((f64Bytes v).take 8)) from rfl, leNat_f64_take, map_ok, f64Of_toNat]
  | bool v =>
    show r.boolAt i key = .ok v
    rw [h.boolAt]
    cases v <;> rfl
  | time v =>
    show r.i64At i key = .ok v
    rw [h.i64At, show storedWord (Cell.sigil (.time v)) 8 (.time v) =
      .ok (leNat ((i64Bytes v).take 8)) from rfl, leNat_i64_take, map_ok, i64Of_toNat]
  | str s =>
    show r.strAt i key = .ok s
    rw [h.strAt]
    exact fromUtf8_utf8 s
  | binary b => trivial

/-- The cells whose value a column with the null sigil keeps, or zeroes to itself. -/
def KeptByNullSigil : Cell → Prop
  | .f64 v => v.bits = 0
  | .bool v => v = false
  | .time v => v = 0
  | .str _ => False
  | _ => True

instance : DecidablePred KeptByNullSigil
  | .f64 v => inferInstanceAs (Decidable (v.bits = 0))
  | .bool v => inferInstanceAs (Decidable (v = false))
  | .time v => inferInstanceAs (Decidable (v = 0))
  | .str _ => inferInstanceAs (Decidable False)
  | .absent | .null | .i64 _ | .binary _ => inferInstanceAs (Decidable True)

/-- Under the null sigil the eight bytes of a cell are those of an integer, and zero for other cells. -/
theorem stored_null_column {r : Reader} {i : ℕ} {key : String} {c : Cell}
    (h : r.Sees i key SIGIL_NULL c) : r.Reads i key c ↔ KeptByNullSigil c := by
  have hzero : leNat ((zeros 8).take 8) = 0 := leNat_zeros_take 8 8
  cases c with
  | absent => exact iff_of_true (reads_absent h) trivial
  | null => exact Iff.rfl
  | binary b => exact Iff.rfl
  | i64 v =>
    refine iff_of_true ?_ trivial
    show r.i64At i key = .ok v
    rw [h.i64At, show storedWord SIGIL_NULL 8 (.i64 v) = .ok (leNat ((i64Bytes v).take 8)) from rfl,
      leNat_i64_take, map_ok, i64Of_toNat]
  | f64 v =>
    show r.f64At i key = .ok v ↔ v.bits = 0
    rw [h.f64At, show storedWord SIGIL_NULL 8 (.f64 v) = .ok (leNat ((zeros 8).take 8)) from rfl, hzero,
      map_ok, ok.injEq]
    constructor
    · rintro rfl
      rfl
    · intro hv
      rw [← f64Of_toNat v, hv]
      rfl
  | bool v =>
    show r.boolAt i key = .ok v ↔ v = false
    rw [h.boolAt]
    cases v <;> decide
  | time v =>
    show r.i64At i key = .ok v ↔ v = 0
    rw [h.i64At, show storedWord SIGIL_NULL 8 (.time v) = .ok (leNat ((zeros 8).take 8)) from rfl, hzero,
      map_ok, ok.injEq]
    exact eq_comm
  | str s =>
    show r.strAt i key = .ok s ↔ False
    rw [h.strAt, storedStr, if_neg (by decide)]
    simp

/-! ## Keys -/

/-- In a list without repetitions the last index of an element is its only one. -/
theorem lastIdx_of_nodup {l : List String} {i : ℕ} {a : String} (hnd : l.Nodup) (h : l[i]? = some a) :
    a ∈ l ∧ l.length - 1 - l.reverse.idxOf a = i := by
  obtain ⟨hlt, rfl⟩ := List.getElem?_eq_some_iff.mp h
  have hlt' : l.length - 1 - i < l.reverse.length := by
    rw [List.length_reverse]
    omega
  have hget : l.reverse[l.length - 1 - i] = l[i] := by
    rw [List.getElem_reverse]
    congr 1
    omega
  have hidx := (List.nodup_reverse.mpr hnd).idxOf_getElem _ hlt'
  rw [hget] at hidx
  exact ⟨List.getElem_mem hlt, by omega⟩

/-- With distinct keys a key's slot is its position. -/
theorem Reader.slot_of_nodup {r : Reader} {fi : ℕ} {key : String} (hnd : r.keys.Nodup)
    (hk : r.keys[fi]? = some key) : r.slot key = .ok fi := by
  obtain ⟨hmem, hidx⟩ := lastIdx_of_nodup hnd hk
  rw [Reader.slot, if_pos hmem, hidx]

end Nyxis
